import LambdaMoo.GenExpr

/-! Generating statements emits their listing, and generating a fork statement
leaves the vector of its body with the program. -/
namespace LambdaMoo.Listing
open CodeGen Gen

/-- Reaching a further place of the same vector, or of the vectors inside it. -/
def Progress.after (b : Progress) (refs : Nat) (bodies : List ForkBody)
    (loops : List (Loop × LoopCtx)) : Progress :=
  { b with refs := b.refs + refs, bodies := b.bodies ++ bodies, loops := loops }

def Progress.total (b : Progress) : Nat := b.start.totalVarRefs + b.refs

def Progress.forks (b : Progress) : Nat := b.start.forkVectors.length + b.bodies.length

/-- A loop of the generator and what the listing knows of it. -/
structure LoopOk (cells : List Cell) (x : Loop × LoopCtx) : Prop where
  id : x.1.id = x.2.id
  topStack : x.1.topStack = x.2.topStack
  bottomStack : x.1.bottomStack = x.2.bottomStack
  kind : x.1.topLabel.kind = .label
  next : x.1.topLabel.next = none
  top : x.2.top ≤ cells.length
  value : x.1.topLabel.value = x.2.top
  prev : x.1.topLabel.prev = counts (cells.take x.2.top)

theorem LoopOk.mono {cells e : List Cell} {x : Loop × LoopCtx} (h : LoopOk cells x)
    (hc : cells <+: e) : LoopOk e x := by
  obtain ⟨code, rfl⟩ := hc
  refine { h with top := ?_, prev := ?_ }
  · have := h.top
    simp only [List.length_append]
    omega
  · rw [List.take_append_of_le_length h.top, h.prev]

/-- The loops and fork vectors of the generator are those of the context. -/
structure Ready (b : Progress) (cells : List Cell) (c : StmtCtx) : Prop where
  ctxs : b.loops.map (·.2) = c.loops
  loops : ∀ x ∈ b.loops, LoopOk cells x
  forks : b.forks = c.forks

namespace Ready

variable {b : Progress} {cells cells' : List Cell} {c : StmtCtx}

theorem mono (h : Ready b cells c) (hc : cells <+: cells') : Ready b cells' c :=
  { h with loops := fun x hx => (h.loops x hx).mono hc }

theorem go (h : Ready b cells c) (n : Nat) (shape : Shape) : Ready b cells (c.go n shape) :=
  { h with }

end Ready

namespace Gen

variable {b : Progress} {st : State} {cells : List Cell} {c : Ctx}

theorem openNone (h : Gen b st cells c) (target : Nat) :
    Gen (b.opening [⟨none, target⟩]) st cells c := by
  have hpend : (b.opening [⟨none, target⟩]).pending st.fixups = b.pending st.fixups := by
    ext j
    constructor
    · rintro ⟨o, ho, hj⟩
      obtain ho | ho := Progress.mem_chains_opening.mp ho
      · obtain rfl := List.mem_singleton.mp ho
        exact absurd hj Reaches.not_none
      · exact ⟨o, ho, hj⟩
    · rintro ⟨o, ho, hj⟩
      exact ⟨o, Progress.mem_chains_opening.mpr (.inr ho), hj⟩
  refine { h with
    toRep := by rw [hpend]; exact h.toRep
    chains := fun o ho => ?_ }
  obtain ho | ho := Progress.mem_chains_opening.mp ho
  · obtain rfl := List.mem_singleton.mp ho
    exact ⟨nofun, fun hj => absurd hj Reaches.not_none⟩
  · exact h.chains o ho

theorem retarget {b' : Progress} {loops : List Loop} (h : Gen b st cells c)
    (hb : b'.start = b.start ∧ b'.refs = b.refs ∧ b'.bodies = b.bodies)
    (hmem : ∀ o, o ∈ b'.chains ↔ o ∈ b.chains) (hloops : loops = b'.loops.map (·.1)) :
    Gen b' { st with loops := loops } cells c := by
  have hpend : b'.pending st.fixups = b.pending st.fixups := by
    ext j
    exact exists_congr fun o => by rw [hmem]
  exact { h.toRep.setLoops loops with
    names := by rw [hpend]; exact h.names
    literals := by rw [hb.1]; exact h.literals
    refs := by rw [hb.1, hb.2.1]; exact h.refs
    vectors := by rw [hb.1, hb.2.2]; exact h.vectors
    loops := hloops
    chains := fun o ho =>
      let ho' := h.chains o ((hmem o).mp ho)
      ⟨ho'.lt, ho'.items⟩ }

theorem enter {loop : Loop} {ctx : LoopCtx}
    (h : Gen (b.opening [⟨loop.bottomLabel, ctx.bottom⟩]) st cells c) :
    Gen { b with loops := (loop, ctx) :: b.loops } (enterLoop loop st) cells c := by
  refine h.retarget ⟨rfl, rfl, rfl⟩ (fun o => ?_) ?_
  · simp [Progress.chains, Progress.opening]
    tauto
  · rw [h.loops]
    rfl

theorem exit {loop : Loop} {ctx : LoopCtx} {loops : List (Loop × LoopCtx)} (h : Gen b st cells c)
    (hb : b.loops = (loop, ctx) :: loops) :
    (exitLoop st).1 = loop.bottomLabel ∧
      Gen ({ b with loops := loops }.opening [⟨loop.bottomLabel, ctx.bottom⟩]) (exitLoop st).2
        cells c := by
  have hl : st.loops = loop :: loops.map (·.1) := by rw [h.loops, hb]; rfl
  refine ⟨by simp [exitLoop, hl], h.retarget ⟨rfl, rfl, rfl⟩ (fun o => ?_) ?_⟩
  · simp [Progress.chains, Progress.opening, hb]
    tauto
  · rw [hl]
    rfl

end Gen

namespace Gen

variable {b : Progress} {st : State} {cells : List Cell} {c : Ctx}

theorem setBack (h : Gen b st cells c) (back : Option Nat) :
    Gen b st cells { c with back := back } :=
  { h with }

theorem captured (h : Gen b st cells c) (id bottomLabel : Option Nat)
    {topStack topStack' bottomStack bottomStack' : Nat} (bottom : Nat)
    (htop : topStack = topStack') (hbottom : bottomStack = bottomStack') :
    LoopOk cells (⟨id, captureLabel st, topStack, bottomLabel, bottomStack⟩,
      ⟨id, c.pos, topStack', bottom, bottomStack'⟩) where
  id := rfl
  topStack := htop
  bottomStack := hbottom
  kind := rfl
  next := rfl
  top := h.pos.le
  value := by simp [captureLabel, h.pos, h.bytes]
  prev := by simp [captureLabel, h.pos, h.num]

theorem endLoop {loop loop₀ : Loop} {ctx : LoopCtx} {loops : List (Loop × LoopCtx)}
    (h : Gen b st cells c) (hb : b.loops = (loop, ctx) :: loops)
    (hok : LoopOk cells (loop₀, ctx)) (hbottom : ctx.bottom = c.pos + 2) :
    Gen { b with loops := loops }
      (defineLabel (exitLoop st).1 (addKnownLabel loop₀.topLabel (emitOp .jump (exitLoop st).2)))
      (cells ++ [c.op .jump, c.item (.label ctx.top)]) (c.go 2 c.shape) := by
  obtain ⟨hl, g⟩ := h.exit hb
  have hok' := hok.mono (List.prefix_append cells [c.op .jump])
  have g' := ((g.op .jump).knownLabel (by simp) hok'.kind hok'.next hok'.top hok'.value
    hok'.prev).define rfl (by simp [hbottom])
  rw [hl]
  exact g'.cast (by simp [Progress.opening]) (by simp [Ctx.op, Ctx.item]) (by simp)

theorem exitOp (h : Gen b st cells c) (exit : Option Nat) :
    Gen (b.addRefs exit.toList.length) (emitExit exit st) (cells ++ c.exit exit)
      (c.go (exitSize exit - 2) c.shape) := by
  cases exit with
  | none => exact h.eop .exit
  | some id =>
      exact ((h.eop .exitId).varRef id (by simp)).cast rfl (by simp [Ctx.exit, Ctx.item]) rfl

end Gen

theorem exitTarget_spec {exit : Option Nat} {cells : List Cell} {loops : List (Loop × LoopCtx)}
    {ctx : LoopCtx} (hok : ∀ x ∈ loops, LoopOk cells x)
    (h : exitLoopCtx exit (loops.map (·.2)) = some ctx) :
    ∃ i loop, exitTarget exit (loops.map (·.1)) = some i ∧ loops[i]? = some (loop, ctx) := by
  cases exit with
  | none =>
      cases loops with
      | nil => simp [exitLoopCtx] at h
      | cons x loops =>
          refine ⟨0, x.1, rfl, ?_⟩
          simp only [exitLoopCtx, List.map_cons, List.head?_cons, Option.some.injEq] at h
          simp [← h]
  | some id =>
      simp only [exitLoopCtx, exitTarget] at h ⊢
      induction loops with
      | nil => simp [findLoopCtx] at h
      | cons x loops ih =>
          have hid : x.1.id = x.2.id := (hok x (by simp)).id
          simp only [List.map_cons, findLoopCtx, findLoop, hid] at h ⊢
          split at h
          · next hx =>
              obtain rfl : x.2 = ctx := by simpa using h
              exact ⟨0, x.1, by simp [hx], rfl⟩
          · next hx =>
              obtain ⟨i, loop, hi, hloop⟩ := ih (fun y hy => hok y (by simp [hy])) h
              exact ⟨i + 1, loop, by simp [hx, hi], by simpa using hloop⟩

theorem gen_init (gstate : GState) (forks : Nat) :
    Gen { start := gstate } (initState gstate) [] ({ forks := forks } : StmtCtx).expr := by
  exact
    { bytes := rfl
      curStacks := rfl
      num := rfl
      fixups := fun _ => rfl
      names := nofun
      links := nofun
      pos := rfl
      curStack := rfl
      saved := rfl
      maxStack := rfl
      maxVarRef := rfl
      maxLiteral := .inl rfl
      maxFork := .inl rfl
      first := nofun
      forks := nofun
      literals := List.prefix_refl _
      refs := rfl
      vectors := ⟨[], (List.append_nil _).symm, .nil⟩
      loops := rfl
      chains := nofun }

theorem Gen.fork {b b' : Progress} {st st' : State} {cells cells' : List Cell} {c c' : Ctx}
    {body : Stmts} {bc : Bytecodes} (h : Gen b st cells c) (hcells : cells ≠ [])
    (h' : Gen b' st' cells' c') (hb' : b'.start = st.gstate)
    (hbc : ForkRep st'.gstate.literals bc ⟨body, b.forks, b.total⟩)
    (hrefs : b'.refs = stmtsRefs body) (hlen : b'.bodies.length = stmtsForks body) :
    Gen (b.after (stmtsRefs body) (b'.bodies ++ [⟨body, b.forks, b.total⟩]) b.loops)
      (addFork bc { st with gstate := st'.gstate })
      (cells ++ [c.item (.fork (b.forks + stmtsForks body))]) (c.go 1 c.shape) := by
  have hpre : st.gstate.literals <+: st'.gstate.literals := hb' ▸ h'.literals
  obtain ⟨new, hnew, hall⟩ := h.vectors
  obtain ⟨new', hnew', hall'⟩ := h'.vectors
  rw [hb'] at hnew'
  have hcount : st'.gstate.forkVectors.length = b.forks + stmtsForks body := by
    rw [hnew', hnew, List.length_append, List.length_append, hall.length_eq, hall'.length_eq, hlen,
      Progress.forks]
  let st'' : State := addFork bc { st with gstate := st'.gstate }
  have hf : st.fixups <+: st''.fixups := List.prefix_append _ _
  have hpend : (b.after (stmtsRefs body) (b'.bodies ++ [⟨body, b.forks, b.total⟩])
      b.loops).pending st''.fixups = b.pending st.fixups := h.pending_append hf
  have hrep : Rep (b.pending st.fixups) st''
      (cells ++ [c.item (.fork (b.forks + stmtsForks body))]) (c.go 1 c.shape) := by
    refine h.toRep.operand (f := ⟨.fork, st.bytes.length, st'.gstate.forkVectors.length, st.num,
      none⟩) hcells h.curStack.symm rfl rfl nofun subset_rfl (fun _ => hcount) rfl rfl rfl rfl rfl
      rfl rfl (by simp [Ctx.item, Item.slot]; rfl) hpre ?_ (.inr ?_) ?_ ?_
    · have := h.maxLiteral
      have := hpre.length_le
      change st.maxLiteral = 0 ∨ st.maxLiteral < st'.gstate.literals.length
      omega
    · have := h.maxFork
      have hle : st.gstate.forkVectors.length ≤ st'.gstate.forkVectors.length := by
        rw [hnew', List.length_append]
        omega
      change max st.maxFork st'.gstate.forkVectors.length <
        (st'.gstate.forkVectors ++ [bc]).length
      rw [List.length_append]
      simp only [List.length_singleton]
      omega
    · change _ ≤ (st'.gstate.forkVectors ++ [bc]).length
      rw [hnew', List.length_append, List.length_append]
      omega
    · rintro index hi
      obtain rfl : b.forks + stmtsForks body = index := by simpa [Ctx.item] using hi
      change _ < (st'.gstate.forkVectors ++ [bc]).length
      rw [List.length_append, hcount]
      simp
  rw [← hpend] at hrep
  refine { hrep with
    literals := h.literals.trans hpre
    refs := ?_
    vectors := ⟨new ++ new' ++ [bc], ?_, ?_⟩
    loops := h.loops
    chains := fun o ho => (h.chains o ho).mono h.links hf (List.prefix_append _ _) }
  · have hr : st'.gstate.totalVarRefs = st.gstate.totalVarRefs + stmtsRefs body := by
      rw [h'.refs, hb', hrefs]
    simp only [Progress.after]
    rw [← Nat.add_assoc, ← h.refs]
    exact hr
  · change st'.gstate.forkVectors ++ [bc] = _
    rw [hnew', hnew]
    simp only [Progress.after, List.append_assoc]
  · simp only [Progress.after, List.append_assoc]
    exact List.rel_append (hall.imp fun _ _ hv => hv.mono hpre)
      (List.rel_append hall' (.cons hbc .nil))

theorem Gen.breakLabel {b : Progress} {st : State} {cells : List Cell} {c : Ctx} {i : Nat}
    {loop : Loop} {ctx : LoopCtx} (h : Gen b st cells c) (hcells : cells ≠ [])
    (hi : b.loops[i]? = some (loop, ctx)) :
    Gen { b with
          loops := b.loops.set i ({ loop with bottomLabel := some st.fixups.length }, ctx) }
      { (addLinkedLabel loop.bottomLabel st).2 with
        loops := (addLinkedLabel loop.bottomLabel st).2.loops.set i
          { loop with bottomLabel := some (addLinkedLabel loop.bottomLabel st).1 } }
      (cells ++ [c.item (.label ctx.bottom)]) (c.go 1 c.shape) := by
  have hlt := (List.getElem?_eq_some_iff.mp hi).1
  have hmem : (loop, ctx) ∈ b.loops := List.mem_of_getElem? hi
  refine h.linkedLabel (d := { b with
      loops := b.loops.set i ({ loop with bottomLabel := some st.fixups.length }, ctx) })
    (n := loop.bottomLabel) (t := ctx.bottom) hcells (h.chains _ ?_) (fun o ho => ?_) ?_
    (fun o ho => ?_) ⟨rfl, rfl, rfl⟩ ?_
  · exact List.mem_append_right _ (List.mem_map.mpr ⟨_, hmem, rfl⟩)
  · obtain ho | ho := List.mem_append.mp ho
    · exact .inl (List.mem_append_left _ ho)
    · obtain ⟨x, hx, rfl⟩ := List.mem_map.mp ho
      obtain ⟨j, hj⟩ := List.mem_iff_getElem?.mp hx
      by_cases hij : i = j
      · subst hij
        obtain rfl : (loop, ctx) = x := by simpa [hi] using hj
        exact .inr rfl
      · refine .inl (List.mem_append_right _ (List.mem_map.mpr ⟨x, ?_, rfl⟩))
        exact List.mem_of_getElem? (i := j) (by rw [List.getElem?_set_ne hij, hj])
  · refine List.mem_append_right _ (List.mem_map.mpr
      ⟨({ loop with bottomLabel := some st.fixups.length }, ctx), ?_, rfl⟩)
    exact List.mem_of_getElem? (i := i) (by rw [List.getElem?_set_self hlt])
  · obtain ho | ho := List.mem_append.mp ho
    · exact .inl (List.mem_append_left _ ho)
    · obtain ⟨x, hx, rfl⟩ := List.mem_map.mp ho
      obtain hx | rfl := List.mem_or_eq_of_mem_set hx
      · exact .inl (List.mem_append_right _ (List.mem_map.mpr ⟨x, hx, rfl⟩))
      · exact .inr rfl
  · change st.loops.set i _ = _
    rw [h.loops, List.map_set]
    rfl

mutual
theorem stmtBodies_length : ∀ (s : Stmt) (forks refs : Nat),
    (stmtBodies s forks refs).length = stmtForks s
  | .cond arms otherwise, _, _ => by
      simp [stmtBodies, stmtForks, armsBodies_length arms, stmtsBodies_length otherwise]
  | .list _ _ body, _, _ => by simp [stmtBodies, stmtForks, stmtsBodies_length body]
  | .range _ _ _ body, _, _ => by simp [stmtBodies, stmtForks, stmtsBodies_length body]
  | .while_ _ _ body, _, _ => by simp [stmtBodies, stmtForks, stmtsBodies_length body]
  | .fork _ _ body, _, _ => by simp [stmtBodies, stmtForks, stmtsBodies_length body]
  | .tryExcept body excepts, _, _ => by
      simp [stmtBodies, stmtForks, stmtsBodies_length body, exceptsBodies_length excepts]
  | .tryFinally body handler, _, _ => by
      simp [stmtBodies, stmtForks, stmtsBodies_length body, stmtsBodies_length handler]
  | .expr _, _, _ | .return_ _, _, _ | .break_ _, _, _ | .continue_ _, _, _ => rfl
theorem stmtsBodies_length : ∀ (s : Stmts) (forks refs : Nat),
    (stmtsBodies s forks refs).length = stmtsForks s
  | .nil, _, _ => rfl
  | .cons stmt next, _, _ => by
      simp [stmtsBodies, stmtsForks, stmtBodies_length stmt, stmtsBodies_length next]
theorem armsBodies_length : ∀ (arms : CondArm) (forks refs : Nat),
    (armsBodies arms forks refs).length = armsForks arms
  | .nil, _, _ => rfl
  | .cons _ stmt next, _, _ => by
      simp [armsBodies, armsForks, stmtsBodies_length stmt, armsBodies_length next]
theorem exceptsBodies_length : ∀ (excepts : ExceptArm) (forks refs : Nat),
    (exceptsBodies excepts forks refs).length = exceptsForks excepts
  | .nil, _, _ => rfl
  | .cons _ _ stmt next, _, _ => by
      simp [exceptsBodies, exceptsForks, stmtsBodies_length stmt, exceptsBodies_length next]
end

attribute [simp] stmtBodies_length stmtsBodies_length armsBodies_length exceptsBodies_length

@[simp] theorem after_after (b : Progress) (m n : Nat) (bodies bodies' : List ForkBody)
    (loops loops' : List (Loop × LoopCtx)) :
    (b.after m bodies loops).after n bodies' loops' =
      b.after (m + n) (bodies ++ bodies') loops' := by
  simp [Progress.after, Nat.add_assoc]

@[simp] theorem addRefs_after (b : Progress) (m n : Nat) (bodies : List ForkBody)
    (loops : List (Loop × LoopCtx)) :
    (b.addRefs m).after n bodies loops = b.after (m + n) bodies loops := by
  simp [Progress.after, Progress.addRefs, Nat.add_assoc]

@[simp] theorem after_addRefs (b : Progress) (m n : Nat) (bodies : List ForkBody)
    (loops : List (Loop × LoopCtx)) :
    (b.after m bodies loops).addRefs n = b.after (m + n) bodies loops := by
  simp [Progress.after, Progress.addRefs, Nat.add_assoc]

@[simp] theorem total_addRefs (b : Progress) (n : Nat) : (b.addRefs n).total = b.total + n := by
  simp [Progress.total, Progress.addRefs, Nat.add_assoc]

@[simp] theorem total_after (b : Progress) (n : Nat) (bodies : List ForkBody)
    (loops : List (Loop × LoopCtx)) : (b.after n bodies loops).total = b.total + n := by
  simp [Progress.total, Progress.after, Nat.add_assoc]

@[simp] theorem forks_addRefs (b : Progress) (n : Nat) : (b.addRefs n).forks = b.forks := rfl

@[simp] theorem forks_after (b : Progress) (n : Nat) (bodies : List ForkBody)
    (loops : List (Loop × LoopCtx)) :
    (b.after n bodies loops).forks = b.forks + bodies.length := by
  simp [Progress.forks, Progress.after, Nat.add_assoc]

@[simp] theorem opening_after (b : Progress) (opens : List Open) (n : Nat)
    (bodies : List ForkBody) (loops : List (Loop × LoopCtx)) :
    (b.opening opens).after n bodies loops = (b.after n bodies loops).opening opens := rfl

@[simp] theorem total_opening (b : Progress) (opens : List Open) :
    (b.opening opens).total = b.total := rfl

@[simp] theorem forks_opening (b : Progress) (opens : List Open) :
    (b.opening opens).forks = b.forks := rfl

theorem addRefs_eq_after (b : Progress) (n : Nat) : b.addRefs n = b.after n [] b.loops := by
  simp [Progress.addRefs, Progress.after]

theorem Ready.of {b d : Progress} {cells cells' : List Cell} {c c' : StmtCtx}
    (r : Ready b cells c) (hloops : d.loops = b.loops) (hctx : c'.loops = c.loops)
    (hforks : d.forks = c'.forks) (hc : cells <+: cells') : Ready d cells' c' :=
  ⟨by rw [hloops, hctx]; exact r.ctxs, fun x hx => (r.loops x (hloops ▸ hx)).mono hc, hforks⟩

theorem generateCodes_gen (codes : ArgList) {b : Progress} {st : State} {cells : List Cell}
    {c : Ctx} (g : Gen b st cells c) (h : codes.admitted c.saved.isSome) :
    ∃ st', generateCodes codes st = some st' ∧
      Gen (b.addRefs (argsRefs codes)) st' (cells ++ codesCode codes c)
        (c.go (codesSize codes) (.value :: c.shape)) :=
  codes_gen g (generateArgList_gen codes g h)

def openHandlers : List Nat → ExceptArm → Nat → List Open
  | k :: labels, .cons id _ stmt next, start =>
      ⟨some k, start⟩ :: openHandlers labels next (start + bindSize id + stmtsSize stmt + 2)
  | _, _, _ => []

attribute [local simp] Ctx.op Ctx.item Ctx.opAt Nat.add_assoc StmtCtx.expr

theorem generateHandlers_gen : ∀ (excepts : ExceptArm) (start : Nat) {b : Progress} {st : State}
    {cells : List Cell} {c : Ctx} {loops : List (Option Nat)}, Gen b st cells c →
    c.saved = none → excepts.admitted loops →
    ∃ labels st', generateHandlers excepts st = some (labels, st') ∧
      labels.length = excepts.count ∧
      Gen ((b.addRefs (handlersRefs excepts)).opening (openHandlers labels excepts start)) st'
        (cells ++ handlersCode excepts start c)
        (c.go (handlersSize excepts) (handlersShape excepts start c.shape))
  | .nil, start, b, st, cells, c, loops, g, hs, h =>
      ⟨[], st, rfl, rfl, g.cast rfl (by simp [handlersCode]) rfl⟩
  | .cons id codes stmt next, start, b, st, cells, c, loops, g, hs, h => by
      simp only [ExceptArm.admitted, Bool.and_eq_true] at h
      obtain ⟨st₁, e₁, g₁⟩ := generateCodes_gen codes g (by rw [hs]; exact h.1.1)
      have g₂ := ((g₁.eop .pushLabel).label start (by simp)).push (n := 1)
        (s := .label start :: .value :: c.shape) (by simp)
      obtain ⟨labels, st₃, e₃, hlen, g₃⟩ := generateHandlers_gen next
        (start + bindSize id + stmtsSize stmt + 2) g₂ hs h.2
      refine ⟨_, st₃, by rw [generateHandlers]; exact some_bind e₁ (some_bind e₃ rfl), ?_,
        (g₃.perm (d := (b.addRefs (handlersRefs (.cons id codes stmt next))).opening
          (openHandlers ((emitExtendedByte .pushLabel st₁).fixups.length :: labels)
            (.cons id codes stmt next) start)) ?_ ?_).cast rfl ?_ ?_⟩
      · simp [ExceptArm.count, hlen]
      · simp [Progress.opening, Progress.addRefs, handlersRefs]
      · simp only [Progress.opening, Progress.addRefs, openHandlers, ← List.append_assoc]
        exact List.Perm.append_right _ List.perm_append_comm
      · simp [handlersCode]
      · simp [handlersSize, handlersShape]

end LambdaMoo.Listing
