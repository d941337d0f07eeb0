import LambdaMoo.StmtRuns

/-! `try` statements, and then all statements: the code of a statement does what it means. -/
namespace LambdaMoo.Interpreter
open Listing CodeGen

variable {W : Type}

theorem Passes.handlers {why : Reason} (hwhy : why ≠ .raise) (code : Var) (arms : List HandlerArm) :
    Passes why code (handlers arms) := by
  intro value goal rts hgoal
  rw [unwindRts_marker _ _ _ hgoal, if_neg hwhy]

section

variable {S : Server W} {literals : List Var} {bc : Bytecodes} {st : State} {m n : Machine W} {base : List Var}
  {loops : List LoopCtx} {falls falls' : Memory W → Var → Machine W} {σ : Memory W} {all : Bool} {fuel : Nat} {x : Eval W Flow}

/-- The rule for handlers: the machine goes on behind them, or in the first that takes the error. -/
theorem Runs.catching {arms : List HandlerArm} {takes : Var → Bool} {handler : List Var → Eval W Flow}
    (hx : Runs S literals bc st all fuel m (handlers arms ++ base) loops falls (x σ))
    (htakes : ∀ code, takes code = arms.any fun arm => armTakes code arm.codes)
    (hfalls : ∀ τ temp, Steps S literals bc false (falls τ temp) (falls' τ temp))
    (hhandler : ∀ code info τ temp arm, Plain (.list (code :: info)) → τ.Plain →
      arms.find? (fun arm => armTakes code arm.codes) = some arm →
      Runs S literals bc st all fuel ⟨⟨arm.pc, .list (code :: info) :: base, τ.env, τ.debug⟩, temp, τ.world⟩ base loops falls'
        (handler (code :: info) τ)) :
    Runs S literals bc st all fuel m base loops falls' (Interpreter.catching x takes handler σ) := by
  unfold Interpreter.catching
  cases hr : x σ with
  | mk r τ =>
      rw [hr] at hx
      cases r with
      | ok flow =>
          cases flow with
          | falls =>
              obtain ⟨hτ, temp, hs⟩ := hx
              exact ⟨hτ, temp, hs.trans (hfalls τ temp)⟩
          | exits leave exit =>
              obtain ⟨hτ, loop, hloop, h⟩ := hx
              exact ⟨hτ, loop, hloop, h.below (.handlers (by decide) _ _)⟩
          | returns v =>
              obtain ⟨hv, hτ, h⟩ := hx
              exact ⟨hv, hτ, h.below (.handlers (by decide) _ _)⟩
      | error i =>
          cases i with
          | raise code info =>
              obtain ⟨htuple, hτ, hraises⟩ := hx
              dsimp only
              rw [htakes]
              cases hfind : arms.find? fun arm => armTakes code arm.codes with
              | none =>
                  rw [if_neg (by rw [List.any_eq_false.mpr (List.find?_eq_none.mp hfind)]; decide)]
                  exact ⟨htuple, hτ, hraises.escapes hfind⟩
              | some arm =>
                  have htakes := List.find?_some (p := fun arm : HandlerArm => armTakes code arm.codes) hfind
                  rw [if_pos (List.any_eq_true.mpr ⟨arm, List.mem_of_find?_eq_some hfind, htakes⟩)]
                  obtain ⟨temp, hs⟩ := hraises.taken hfind
                  exact (hhandler code info τ temp arm htuple hτ hfind).after hs
          | _ => exact hx

/-! `finally`. -/

theorem reasonOf_num {why : Reason} (hwhy : why ≠ .abort) : reasonOf why.num = some why := by
  cases why with
  | abort => exact absurd rfl hwhy
  | _ => rfl

/-- The handler at the marker is entered, with the reason and the value on the stack. -/
theorem goes_finally {why : Reason} {v code : Var} {goal exitPc pc : Nat} {m' : Machine W} {junk : List Var}
    (hstep : step S literals bc false n = .unwinds why v m') (hrts : m'.rts = junk ++ .finallyMarker pc :: base)
    (hcode : codeOf why v = some code) (hexit : exitOf why v = some (goal, exitPc)) (hgoal : goal ≤ base.length)
    (hpasses : Passes why code junk) (hwhy : why ≠ .abort) :
    Goes S literals bc false n { m' with pc := pc, rts := v :: .int why.num :: base } := by
  have hends : unwindRts why code v goal 0 m'.rts = some (.handler pc (v :: .int why.num :: base)) := by
    rw [hrts, hpasses v goal (.finallyMarker pc :: base) (Nat.le_succ_of_le hgoal), unwindRts.eq_def]
    dsimp only
    rw [if_neg (by omega), if_pos hwhy]
  rw [Goes, advance, hstep, Next.settle, hcode, hexit]
  dsimp only
  rw [hends]

theorem Unwinds.finally {why : Reason} {v : Var} {goal exitPc place : Nat} (hcode : codeOf why v = some zero)
    (hexit : exitOf why v = some (goal, exitPc)) (hgoal : goal ≤ base.length) (hwhy : why ≠ .abort)
    (h : Unwinds S literals bc m why v (.finallyMarker (finalOffset st place) :: base) σ) :
    ∃ temp, Steps S literals bc false m (mach st place (v :: .int why.num :: base) σ temp) := by
  obtain ⟨n, m', junk, hs, hstep, hrts, hpasses, henv, hdebug, hworld⟩ := h
  refine ⟨m'.temp, hs.tail ?_⟩
  have hgoes := goes_finally hstep hrts hcode hexit hgoal hpasses hwhy
  rw [mach, ← henv, ← hdebug, ← hworld]
  exact hgoes

/-- An error that is raised under a marker, or that nothing takes, enters the handler too. -/
theorem Raises.finally {code : Var} {info : List Var} {place : Nat}
    (h : Raises S literals bc m code info (.finallyMarker (finalOffset st place) :: base) σ) :
    ∃ temp, Steps S literals bc false m (mach st place
      ((S.thrown base code info).2 :: .int (S.thrown base code info).1.num :: base) σ temp) := by
  obtain ⟨n, m', junk, hs, hstep, hrts, hslips, henv, hdebug, hworld⟩ := h
  refine ⟨m'.temp, hs.tail ?_⟩
  have hthrown : S.thrown m'.rts code info = S.thrown base code info := by
    rw [Server.thrown, hrts, hslips.handler]
    rfl
  rw [propagate, hthrown] at hstep
  rw [mach, ← henv, ← hdebug, ← hworld]
  unfold Server.thrown at hstep ⊢
  split at hstep
  · next hhas =>
      rw [if_pos hhas]
      exact goes_finally hstep hrts rfl rfl (Nat.zero_le _) hslips.raise Reason.noConfusion
  · next hhas =>
      rw [if_neg hhas]
      exact goes_finally hstep hrts rfl rfl (Nat.zero_le _) hslips.uncaught Reason.noConfusion

theorem Server.thrown_spec (S : Server W) {code : Var} {info : List Var} (rts : List Var) (h : Plain (.list (code :: info))) :
    Plain (S.thrown rts code info).2 ∧ (S.thrown rts code info).1 ≠ .abort ∧ (S.thrown rts code info).1 ≠ .fallThru := by
  unfold Server.thrown
  split
  · exact ⟨h, Reason.noConfusion, Reason.noConfusion⟩
  · exact ⟨rfl, Reason.noConfusion, Reason.noConfusion⟩

theorem exitLoopCtx_mem {exit : Option Nat} {loops : List LoopCtx} {loop : LoopCtx} (h : exitLoopCtx exit loops = some loop) :
    loop ∈ loops := by
  induction loops with
  | nil => cases exit <;> cases h
  | cons l loops ih =>
      rw [exitLoopCtx_cons] at h
      split at h
      · exact Option.some.inj h ▸ List.mem_cons_self
      · exact List.mem_cons_of_mem _ (ih h)

theorem Runs.finally {handler : Eval W Flow} (last : Nat) {start stop : Nat}
    (hx : Runs S literals (layout st) st all fuel m (.finallyMarker (finalOffset st start) :: base) loops falls (x σ))
    (hloops : ∀ loop ∈ loops, loop.bottomStack ≤ base.length ∧ loop.topStack ≤ base.length)
    (hfalls : ∀ τ temp, Goes S literals (layout st) false (falls τ temp)
      (mach st start (zero :: .int Reason.fallThru.num :: base) τ temp))
    (hhandler : ∀ {v : Var} {why : Reason} {τ : Memory W} {temp : Var}, Plain v → τ.Plain →
      Runs S literals (layout st) st all fuel (mach st start (v :: .int why.num :: base) τ temp) (v :: .int why.num :: base) loops
        (fun τ temp => mach st last (v :: .int why.num :: base) τ temp) (handler τ))
    (hend : ∀ {v : Var} {why : Reason} {τ : Memory W} {temp : Var}, why ≠ .abort →
      step S literals (layout st) false (mach st last (v :: .int why.num :: base) τ temp) =
        if why = .fallThru then .goes (mach st stop base τ temp) else .unwinds why v (mach st stop base τ temp)) :
    Runs S literals (layout st) st all fuel m base loops (fun τ temp => mach st stop base τ temp) (finally_ x handler σ) := by
  -- the handler, and then what is pending
  have hpending : ∀ {v : Var} {why : Reason} {τ : Memory W} {temp : Var} {y : Eval W Flow}, Plain v → τ.Plain →
      (∀ τ temp, τ.Plain → Runs S literals (layout st) st all fuel (mach st last (v :: .int why.num :: base) τ temp) base loops
        (fun τ temp => mach st stop base τ temp) (y τ)) →
      Runs S literals (layout st) st all fuel (mach st start (v :: .int why.num :: base) τ temp) base loops
        (fun τ temp => mach st stop base τ temp) (Interpreter.followed handler y τ) := by
    intro v why τ temp y hv hτ hy
    have hops : ∀ w ∈ [v, .int why.num], w.isMarker = false :=
      List.forall_mem_cons.mpr ⟨hv.isMarker, List.forall_mem_singleton.mpr rfl⟩
    exact (Runs.below hops (hhandler hv hτ)).followed hy
  unfold finally_
  cases hr : x σ with
  | mk r τ =>
      rw [hr] at hx
      cases r with
      | ok flow =>
          cases flow with
          | falls =>
              obtain ⟨hτ, temp, hs⟩ := hx
              refine Runs.after (hs.tail (hfalls τ temp)) (hpending plain_zero hτ fun τ temp hτ => ⟨hτ, temp, .single ?_⟩)
              exact goes_of_step ((hend (by decide)).trans (if_pos rfl))
          | exits leave exit =>
              obtain ⟨hτ, loop, hloop, hunwinds⟩ := hx
              have hgoal := hloops loop (exitLoopCtx_mem hloop)
              have hvalue : Plain (exitValue st leave loop) := by cases leave <;> rfl
              obtain ⟨temp, hs⟩ : ∃ temp, Steps S literals (layout st) false m
                  (mach st start (exitValue st leave loop :: .int Reason.exit.num :: base) τ temp) := by
                cases leave with
                | true => exact hunwinds.finally rfl rfl hgoal.1 (by decide)
                | false => exact hunwinds.finally rfl rfl hgoal.2 (by decide)
              refine Runs.after hs (hpending hvalue hτ fun τ temp hτ => ⟨hτ, loop, hloop, _, mach st stop base τ temp, [],
                .refl, ?_, rfl, .nil _ _, rfl, rfl, rfl⟩)
              exact (hend (by decide)).trans (if_neg (by decide))
          | returns v =>
              obtain ⟨hv, hτ, hunwinds⟩ := hx
              obtain ⟨temp, hs⟩ := hunwinds.finally rfl rfl (Nat.zero_le _) (by decide)
              refine Runs.after hs (hpending hv hτ fun τ temp hτ => ⟨hv, hτ, _, mach st stop base τ temp, [], .refl,
                ?_, rfl, .nil _ _, rfl, rfl, rfl⟩)
              exact (hend (by decide)).trans (if_neg (by decide))
      | error i =>
          cases i with
          | raise code info =>
              obtain ⟨htuple, hτ, hraises⟩ := hx
              obtain ⟨hv, habort, hfall⟩ := S.thrown_spec base htuple
              obtain ⟨temp, hs⟩ := hraises.finally
              refine Runs.after hs (hpending hv hτ fun τ temp hτ => ⟨htuple, hτ, _, mach st stop base τ temp, [], .refl, ?_, rfl,
                .nil _, rfl, rfl, rfl⟩)
              exact (hend habort).trans (if_neg hfall)
          | _ => exact hx

end

/-! The handlers of a `try`. -/

def handlerArm (codes : Var) (pc : Nat) : HandlerArm :=
  if h : codes.isMarker = false then ⟨codes, pc, h⟩ else ⟨zero, pc, rfl⟩

theorem handlerArm_eq {codes : Var} (h : Plain codes) (pc : Nat) : handlerArm codes pc = ⟨codes, pc, h.isMarker⟩ :=
  dif_pos h.isMarker

def handlerArms (st : State) : ExceptArm → List Var → Nat → List HandlerArm
  | .cons id _ stmt next, v :: vs, start =>
      handlerArm v (finalOffset st start) :: handlerArms st next vs (start + bindSize id + stmtsSize stmt + 2)
  | _, _, _ => []

def CodesOf (excepts : ExceptArm) (cs : List Var) : Prop := cs.length = excepts.count ∧ ∀ v ∈ cs, Plain v

theorem CodesOf.nil : CodesOf .nil [] := ⟨rfl, fun _ hv => absurd hv List.not_mem_nil⟩

theorem codesOf_nil {cs : List Var} (h : CodesOf .nil cs) : cs = [] := List.eq_nil_of_length_eq_zero h.1

theorem codesOf_cons {id : Option Nat} {codes : ArgList} {stmt : Stmts} {next : ExceptArm} {cs : List Var} :
    CodesOf (.cons id codes stmt next) cs ↔ ∃ v vs, cs = v :: vs ∧ Plain v ∧ CodesOf next vs := by
  constructor
  · intro ⟨hlength, hplain⟩
    cases cs with
    | nil => simp [ExceptArm.count] at hlength
    | cons v vs =>
        rw [ExceptArm.count, List.length_cons] at hlength
        obtain ⟨hv, hvs⟩ := List.forall_mem_cons.mp hplain
        exact ⟨v, vs, rfl, hv, by omega, hvs⟩
  · rintro ⟨v, vs, rfl, hv, hlength, hvs⟩
    exact ⟨by rw [ExceptArm.count, List.length_cons, hlength, Nat.add_comm], List.forall_mem_cons.mpr ⟨hv, hvs⟩⟩

section

variable {S : Server W} {literals : List Var} {st : State} {cells : List Cell} {all : Bool} {fuel : Nat} {σ : Memory W}

theorem handlerArms_cons {v : Var} (hv : Plain v) (id : Option Nat) (codes : ArgList) (stmt : Stmts) (next : ExceptArm)
    (vs : List Var) (start : Nat) : handlerArms st (.cons id codes stmt next) (v :: vs) start =
      ⟨v, finalOffset st start, hv.isMarker⟩ ::
        handlerArms st next vs (start + bindSize id + stmtsSize stmt + 2) := by
  rw [handlerArms, handlerArm_eq hv]

theorem length_handlerArms : ∀ {excepts : ExceptArm} {cs : List Var} (start : Nat), CodesOf excepts cs →
    (handlerArms st excepts cs start).length = excepts.count
  | .nil, _, _, _ => rfl
  | .cons id codes stmt next, cs, start, h => by
      obtain ⟨v, vs, rfl, hv, hvs⟩ := codesOf_cons.mp h
      rw [handlerArms_cons hv, List.length_cons, length_handlerArms _ hvs, ExceptArm.count, Nat.add_comm]

theorem any_handlerArms (code : Var) : ∀ {excepts : ExceptArm} {cs : List Var} (start : Nat), CodesOf excepts cs →
    cs.any (armTakes code) = (handlerArms st excepts cs start).any fun arm => armTakes code arm.codes
  | .nil, cs, _, h => by rw [codesOf_nil h]; rfl
  | .cons id codes stmt next, cs, start, h => by
      obtain ⟨v, vs, rfl, hv, hvs⟩ := codesOf_cons.mp h
      rw [handlerArms_cons hv, List.any_cons, List.any_cons, any_handlerArms code _ hvs]

theorem evalCodes_cons (R : Reading) (id : Option Nat) (codes : ArgList) (stmt : Stmts) (next : ExceptArm) (place : Nat) :
    evalCodes S R (.cons id codes stmt next) place =
      ((if codes.isNil then pure zero else evalArgList S R codes none place) >>= fun v =>
        evalCodes S R next (place + codesSize codes + 3) >>= fun vs => pure (v :: vs)) := by
  rw [evalCodes]
  split <;> rfl

variable (L : Laid st cells literals) (hS : S.Behaves)
include L hS

theorem handlersCode_does : ∀ (excepts : ExceptArm) {loops : List (Option Nat)} {c : Ctx} {rts : List Var} {σ : Memory W}
    {temp : Var} {start : Nat}, excepts.admitted loops = true → Sits cells c.pos (handlersCode excepts start c) →
    Starts c none rts σ → Does S literals (layout st) (mach st c.pos rts σ temp) (CodesOf excepts) rts
      (fun cs τ temp => mach st (c.pos + handlersSize excepts)
        ((armsFlat (handlerArms st excepts cs start)).reverse ++ rts) τ temp)
      (evalCodes (S.located st) (asCompiled literals) excepts c.pos σ)
  | .nil, _, c, rts, σ, temp, start, _, _, hstart => ⟨.nil, hstart.plain, temp, .refl⟩
  | .cons id codes stmt next, loops, c, rts, σ, temp, start, h, hsits, hstart => by
      simp only [ExceptArm.admitted, Bool.and_eq_true] at h
      rw [handlersCode] at hsits
      simp only [List.append_assoc] at hsits
      have hlabel := hsits.next (codesCode_length codes c)
      have hnext := (hlabel.next (k := 2) rfl).next (k := 1) rfl
      rw [evalCodes_cons]
      have hadmitted : codes.admitted (none : Option Var).isSome = true := h.1.1
      refine (codes_does L (argListCode_runs L hS codes) hadmitted hsits.left hstart).bind fun v τ temp hv hτ => ?_
      have hpush : Goes S literals (layout st) false (mach st (c.pos + codesSize codes) (v :: rts) τ temp)
          (mach st (c.pos + codesSize codes + 3) (.int (finalOffset st start) :: v :: rts) τ temp) :=
        label_goes L rfl (hlabel.left.get (k := 0) rfl) (hlabel.left.get (k := 1) rfl)
          ((hlabel.next (k := 2) rfl).left.get (k := 0) rfl)
      let c₁ : Ctx := (c.go (codesSize codes) (.value :: c.shape)).go 3 (.label start :: .value :: c.shape)
      have hstarts : Starts c₁ none (.int (finalOffset st start) :: v :: rts) τ :=
        hstart.push hτ [.int (finalOffset st start), v] [.label start, .value] rfl rfl rfl
      refine Does.after (.single hpush) (.bind (.drop hv (.drop (plain_int _)
        (handlersCode_does next (c := c₁) h.2 hnext hstarts))) fun vs τ temp hvs hτ => ?_)
      refine ⟨codesOf_cons.mpr ⟨v, vs, rfl, hv, hvs⟩, hτ, temp, ?_⟩
      change Steps S literals (layout st) false _ (mach st (c.pos + handlersSize (.cons id codes stmt next))
        ((armsFlat (handlerArms st (.cons id codes stmt next) (v :: vs) start)).reverse ++ rts) τ temp)
      rw [handlerArms_cons hv, handlersSize]
      simp only [armsFlat, List.flatMap_cons, List.reverse_append, List.append_assoc, ← Nat.add_assoc]
      exact .refl

omit hS in
theorem bind_steps {i : Nat} {id : Option Nat} {c : Ctx} {rts : List Var} {v t : Var} (h : Sits cells i (c.bind id)) :
    Steps S literals (layout st) false (mach st i (v :: rts) σ t) (mach st (i + bindSize id) rts (setId id v σ).2 t) := by
  unfold Ctx.bind at h
  unfold bindSize
  cases id with
  | none => exact .single (pop_goes L (h.get (k := 0) rfl))
  | some id =>
      refine .tail (.single (put_goes L h.left)) ?_
      exact pop_goes L ((h.next (Ctx.varOp_length c .put id)).get (k := 0) rfl)

end

section

variable (S : Server W) (literals : List Var) (st : State) (cells : List Cell) (all : Bool) (fuel : Nat)

def ExceptsRun (excepts : ExceptArm) : Prop := ∀ {c : StmtCtx} {rts cs : List Var} {code : Var} {info : List Var}
  {σ : Memory W} {temp : Var} {stop : Nat} {arm : HandlerArm}, excepts.admitted (c.loops.map (·.id)) = true →
  fitsExcepts all excepts = true → Sits cells c.pos (exceptsCode excepts stop c) → Enters c rts σ → CodesOf excepts cs →
  Plain (.list (code :: info)) → 0 < stop → c.pos + exceptsSize excepts = stop →
  (handlerArms st excepts cs c.pos).find? (fun arm => armTakes code arm.codes) = some arm →
  Runs S literals (layout st) st all fuel ⟨⟨arm.pc, .list (code :: info) :: rts, σ.env, σ.debug⟩, temp, σ.world⟩ rts c.loops
    (fun τ temp => mach st stop rts τ temp)
    (execExcepts (S.located st) (asCompiled literals) fuel excepts cs c.pos c.forks (code :: info) σ)

end

theorem Enters.push {c c' : StmtCtx} {rts : List Var} {σ τ : Memory W} (h : Enters c rts σ) (ops : List Var) (hτ : τ.Plain)
    (hloops : c'.loops = c.loops) (hshape : c'.shape.length = c.shape.length + ops.length) : Enters c' (ops ++ rts) τ := by
  have hheight := h.height
  refine ⟨by rw [hshape, List.length_append]; omega, ?_, hτ⟩
  rw [hloops, List.length_append]
  intro loop hloop
  have := h.loops loop hloop
  omega

section

variable {S : Server W} {literals : List Var} {st : State} {cells : List Cell} {all : Bool} {fuel : Nat} (L : Laid st cells literals)
  (hS : S.Behaves)

theorem noExcepts_run : ExceptsRun S literals st cells all fuel .nil := by
  intro c rts cs code info σ temp stop arm _ _ _ _ _ _ _ _ harm
  cases harm

include L

theorem excepts_run {id : Option Nat} {codes : ArgList} {stmt : Stmts} {next : ExceptArm}
    (hs : StmtsRun S literals st cells all fuel stmt) (hn : ExceptsRun S literals st cells all fuel next) :
    ExceptsRun S literals st cells all fuel (.cons id codes stmt next) := by
  intro c rts cs code info σ temp stop arm h hfit hsits hstart hcs htuple hstop hsize harm
  simp only [ExceptArm.admitted, Bool.and_eq_true] at h
  rw [fitsExcepts, Bool.and_eq_true] at hfit
  unfold exceptsCode at hsits
  simp only [List.append_assoc] at hsits
  have hbody := hsits.next (Ctx.bind_length _ id)
  have hjump := hbody.next (stmtsCode_length stmt _ h.1.2)
  obtain ⟨v, vs, rfl, hv, hvs⟩ := codesOf_cons.mp hcs
  rw [handlerArms_cons hv, List.find?_cons] at harm
  rw [execExcepts, List.headD_cons]
  unfold exceptsSize at hsize
  cases htakes : armTakes code v with
  | true =>
      rw [htakes] at harm
      cases harm
      rw [if_pos rfl, setId_bind]
      refine Runs.after (bind_steps L hsits.left) ((hs (c := c.go (bindSize id) c.shape) h.1.2 hfit.1 hbody.left
        ⟨hstart.height, hstart.loops, setId_plain hstart.plain htuple⟩).onward fun τ temp => ?_)
      cases next with
      | nil =>
          have hplace : c.pos + bindSize id + stmtsSize stmt = stop := by
            simp only [exceptsSize, Nat.add_zero] at hsize
            omega
          exact hplace ▸ .refl
      | cons => exact .single (jump_goes L (hjump.left.get (k := 0) rfl) (hjump.left.get (k := 1) rfl) hstop)
  | false =>
      rw [htakes] at harm
      rw [if_neg Bool.false_ne_true]
      cases next with
      | nil => rw [codesOf_nil hvs] at harm; cases harm
      | cons =>
          have hnext := hjump.next (k := 2) rfl
          refine hn (c := { ((c.go (bindSize id) c.shape).go (stmtsSize stmt) c.shape).go 2 c.shape with
            forks := c.forks + stmtsForks stmt }) h.2 hfit.2 hnext ⟨hstart.height, hstart.loops, hstart.plain⟩ hvs htuple
            hstop ?_ harm
          rw [← hsize]
          simp only [StmtCtx.go, Nat.add_assoc]

include hS

theorem tryExcept_runs {body : Stmts} {excepts : ExceptArm} (hb : StmtsRun S literals st cells all fuel body)
    (he : ExceptsRun S literals st cells all fuel excepts) : StmtRuns S literals st cells all fuel (.tryExcept body excepts) := by
  intro c rts σ temp h hfit hsits hstart
  simp only [Stmt.admitted, Bool.and_eq_true] at h
  simp only [fits, Bool.and_eq_true, decide_eq_true_eq] at hfit
  rw [stmtCode] at hsits
  simp only [List.append_assoc] at hsits
  have htry := hsits.next (handlersCode_length excepts _ _)
  have hbody := (htry.next (k := 2) rfl).next (k := 1) rfl
  have hend := hbody.next (stmtsCode_length body _ h.1.1.1)
  have hexcepts := (hend.next (k := 2) rfl).next (k := 1) rfl
  let start := c.pos + handlersSize excepts + 3 + stmtsSize body + 3
  have hstop : c.pos + stmtSize (.tryExcept body excepts) = start + exceptsSize excepts := by
    simp only [stmtSize, start]
    omega
  rw [exec, hstop]
  refine .ofDoes (handlersCode_does L hS excepts h.2 hsits.left (hstart.starts hstart.plain rfl)) fun cs τ temp hcs hτ => ?_
  let arms := handlerArms st excepts cs start
  have hlength : arms.length = excepts.count := length_handlerArms start hcs
  have hmark : Goes S literals (layout st) false (mach st (c.pos + handlersSize excepts) ((armsFlat arms).reverse ++ rts) τ temp)
      (mach st (c.pos + handlersSize excepts + 3) (handlers arms ++ rts) τ temp) := by
    refine goes_of_step ((L.step_eop (htry.left.get (k := 0) rfl) (htry.left.get (k := 1) rfl)).trans ?_)
    change eopTryExcept (layout st) (mach st (c.pos + handlersSize excepts + 2) ((armsFlat arms).reverse ++ rts) τ temp) = _
    unfold eopTryExcept
    rw [show (mach st (c.pos + handlersSize excepts + 2) ((armsFlat arms).reverse ++ rts) τ temp).pc =
      finalOffset st (c.pos + handlersSize excepts + 2) from rfl, L.byte ((htry.next (k := 2) rfl).left.get (k := 0) rfl) hfit.1.1,
      ← hlength]
    rfl
  let c₂ : StmtCtx := ⟨c.pos + handlersSize excepts + 3, .catch_ excepts.count :: handlersShape excepts start c.shape,
    c.loops, c.forks⟩
  have hshape : c₂.shape.length = c.shape.length + (handlers arms).length := by
    simp only [c₂, handlers, StackItem.flat, List.length_cons, handlersShape_length, List.length_reverse, length_armsFlat,
      hlength]
    omega
  refine Runs.after (.single hmark) (Runs.catching
    (hb (c := c₂) h.1.1.1 hfit.1.2 hbody.left (hstart.push (handlers arms) hτ rfl hshape))
    (fun code => any_handlerArms code start hcs) ?_ ?_)
  · intro τ temp
    have hstep : step S literals (layout st) false (mach st _ (handlers arms ++ rts) τ temp) = _ :=
      L.step_eop (hend.left.get (k := 0) rfl) (hend.left.get (k := 1) rfl)
    exact .single (goes_of_step (hstep.trans (endHandlers_goes L rts arms none
      ((hend.next (k := 2) rfl).left.get (k := 0) rfl) (by omega))))
  · intro code info τ temp arm htuple hτ harm
    refine he (c := ⟨start, c.shape, c.loops, c.forks + stmtsForks body⟩) h.2 hfit.2 ?_ ⟨hstart.height, hstart.loops, hτ⟩ hcs
      htuple (by omega) rfl harm
    convert hexcepts using 2
    simp only [StmtCtx.go, start]
    congr 1
    omega

omit hS in
theorem tryFinally_runs {body handler : Stmts} (hb : StmtsRun S literals st cells all fuel body)
    (hh : StmtsRun S literals st cells all fuel handler) : StmtRuns S literals st cells all fuel (.tryFinally body handler) := by
  intro c rts σ temp h hfit hsits hstart
  simp only [Stmt.admitted, Bool.and_eq_true] at h
  simp only [fits, Bool.and_eq_true] at hfit
  rw [stmtCode] at hsits
  simp only [List.append_assoc] at hsits
  have hbody := (hsits.next (k := 2) rfl).next (k := 1) rfl
  have hend := hbody.next (stmtsCode_length body _ h.1)
  have hhandler := hend.next (k := 2) rfl
  have hcontinue := hhandler.next (stmtsCode_length handler _ h.2)
  let start := c.pos + 3 + stmtsSize body + 2
  have hpush : Goes S literals (layout st) false (mach st c.pos rts σ temp)
      (mach st (c.pos + 3) (.finallyMarker (finalOffset st start) :: rts) σ temp) :=
    label_goes (f := .finallyMarker) L rfl (hsits.left.get (k := 0) rfl) (hsits.left.get (k := 1) rfl)
      ((hsits.next (k := 2) rfl).left.get (k := 0) rfl)
  have hstop : c.pos + stmtSize (.tryFinally body handler) = start + stmtsSize handler + 2 := by
    simp only [stmtSize, start]
    omega
  let c₁ : StmtCtx := ⟨c.pos + 3, .finally_ start :: c.shape, c.loops, c.forks⟩
  let c₃ : StmtCtx := ⟨start, .pending :: .reason :: c.shape, c.loops, c.forks + stmtsForks body⟩
  rw [exec, hstop]
  refine Runs.after (.single hpush) (Runs.finally (start + stmtsSize handler)
    (hb (c := c₁) h.1 hfit.1 hbody.left (hstart.push [_] hstart.plain rfl rfl)) hstart.loops ?_ ?_ ?_)
  · intro τ temp
    exact goes_of_step (L.step_eop (hend.left.get (k := 0) rfl) (hend.left.get (k := 1) rfl))
  · intro v why τ temp _ hτ
    exact hh (c := c₃) h.2 hfit.2 hhandler.left (hstart.push [v, .int why.num] hτ rfl rfl)
  · intro v why τ temp hwhy
    refine (L.step_eop (hcontinue.get (k := 0) rfl) (hcontinue.get (k := 1) rfl)).trans ?_
    change eopContinueAt (mach st (start + stmtsSize handler + 2) (v :: .int why.num :: rts) τ temp) = _
    unfold eopContinueAt
    dsimp only [mach]
    rw [reasonOf_num hwhy]
    cases why <;> rfl

end

/-! All statements. -/

section

variable {S : Server W} {literals : List Var} {st : State} {cells : List Cell} {all : Bool} {fuel : Nat} (L : Laid st cells literals)
  (hS : S.Behaves)
include L hS

set_option linter.unusedSectionVars false in
mutual
theorem stmtCode_runs : ∀ s : Stmt, StmtRuns S literals st cells all fuel s
  | .cond arms otherwise => cond_stmt_runs (armsCode_run arms) (stmtsCode_run otherwise)
  | .list _ expr body => forList_runs hS L (exprCode_runs L hS expr) (stmtsCode_run body)
  | .range _ lower upper body =>
      forRange_runs hS L (exprCode_runs L hS lower) (exprCode_runs L hS upper) (stmtsCode_run body)
  | .while_ _ condition body => while_runs L (exprCode_runs L hS condition) (stmtsCode_run body)
  | .fork _ time _ => fork_runs L hS (exprCode_runs L hS time)
  | .expr expr => expr_stmt_runs L (exprCode_runs L hS expr)
  | .return_ (.some expr) => return_runs L (exprCode_runs L hS expr)
  | .return_ .none => return0_runs L
  | .tryExcept body excepts => tryExcept_runs L hS (stmtsCode_run body) (exceptsCode_run excepts)
  | .tryFinally body handler => tryFinally_runs L (stmtsCode_run body) (stmtsCode_run handler)
  | .break_ exit => break_runs L exit
  | .continue_ exit => continue_runs L exit
theorem stmtsCode_run : ∀ s : Stmts, StmtsRun S literals st cells all fuel s
  | .nil => noStmts_run
  | .cons stmt next => stmts_run (stmtCode_runs stmt) (stmtsCode_run next)
theorem armsCode_run : ∀ arms : CondArm, ArmsRun S literals st cells all fuel arms
  | .nil => noArms_run
  | .cons condition stmt next => arms_run L (exprCode_runs L hS condition) (stmtsCode_run stmt) (armsCode_run next)
theorem exceptsCode_run : ∀ excepts : ExceptArm, ExceptsRun S literals st cells all fuel excepts
  | .nil => noExcepts_run
  | .cons _ _ stmt next => excepts_run L (stmtsCode_run stmt) (exceptsCode_run next)
end

end

end LambdaMoo.Interpreter
