import LambdaMoo.GenStmt

/-! Generating a statement list emits its listing, and generating a program gives
each of its vectors the layout of a listing. -/
namespace LambdaMoo.Listing
open CodeGen Gen

attribute [local simp] Ctx.op Ctx.item Ctx.opAt Nat.add_assoc StmtCtx.expr

theorem bind_gen {b : Progress} {st : State} {cells : List Cell} {c : StmtCtx} {label : Nat}
    {opens : List Open} (id : Option Nat) (g : Gen b st cells c.expr)
    (hb : b.opens = ⟨some label, c.pos⟩ :: opens) :
    Gen ({ b with opens := opens }.addRefs (id.elim 0 varOpRefs))
      (popStack 1 (emitOp .pop (match id with
        | none => pushStack 1 (defineLabel (some label) st)
        | some id => emitVarOp .put id (pushStack 1 (defineLabel (some label) st)))))
      (cells ++ (c.go 0 (.value :: c.shape)).expr.bind id)
      (c.go (bindSize id) c.shape).expr := by
  have g₁ := (g.define hb rfl).push (n := 1) (s := .value :: c.shape) rfl
  cases id with
  | none => exact (g₁.op .pop).pop (n := 1) rfl (by simp)
  | some id =>
      refine (((g₁.varOp .put id).op .pop).pop (n := 1) (s := c.shape) rfl (by simp)).cast
        rfl ?_ ?_
      · simp [Ctx.bind]
      · simp [bindSize]

theorem finishCode_rep {b : Progress} {st : State} {body : Stmts} {forks : Nat}
    (g : Gen b st (stmtsCode body { forks := forks })
      (({ forks := forks } : StmtCtx).expr.go (stmtsSize body) []))
    (hloops : b.loops = []) (hopens : b.opens = []) :
    finishCode st = some (layout (emitOp .done st), st.gstate) ∧
      Rep ∅ (emitOp .done st) (vectorCode body forks) (({} : Ctx).go (stmtsSize body + 1) []) ∧
      LabelsInside (vectorCode body forks) := by
  have hcur : (emitOp .done st).curStack = 0 := g.curStack
  have hsaved : (emitOp .done st).savedStack = none := g.saved
  have hpend : b.pending st.fixups = ∅ := by
    ext j
    simp [Progress.pending, Progress.chains, hloops, hopens]
  have hrep : Rep ∅ st (stmtsCode body { forks := forks }) _ := hpend ▸ g.toRep
  refine ⟨by simp [finishCode, hcur, hsaved]; rfl,
    hrep.byte (({} : Ctx).op .done) rfl g.curStack.symm, fun cell hcell target ht => ?_⟩
  rw [vectorCode, List.length_append]
  obtain hcell | hcell := List.mem_append.mp hcell
  · exact Nat.lt_succ_of_le (hrep.label_le hcell ht)
  · obtain rfl := List.mem_singleton.mp hcell
    simp [Ctx.op, Ctx.item] at ht

theorem finishCode_gen {b : Progress} {st : State} {body : Stmts} {forks : Nat}
    (g : Gen b st (stmtsCode body { forks := forks })
      (({ forks := forks } : StmtCtx).expr.go (stmtsSize body) []))
    (hloops : b.loops = []) (hopens : b.opens = []) (hbody : b.bodies.length = stmtsForks body)
    (hforks : b.start.forkVectors.length = forks) (hrefs : b.refs = stmtsRefs body) :
    ∃ bc, finishCode st = some (bc, st.gstate) ∧
      ForkRep st.gstate.literals bc ⟨body, forks, b.start.totalVarRefs⟩ := by
  obtain ⟨hfinish, hrep, hlabels⟩ := finishCode_rep g hloops hopens
  obtain ⟨new, hnew, hall⟩ := g.vectors
  refine ⟨_, hfinish, emitOp .done st, _, hrep, rfl, hlabels, List.prefix_refl _, ?_, ?_⟩
  · exact g.refs.trans (by rw [hrefs])
  · change st.gstate.forkVectors.length = _
    rw [hnew, List.length_append, hall.length_eq, hbody, hforks]

theorem Gen.whileOp {b : Progress} {st : State} {cells : List Cell} {c : Ctx}
    (g : Gen b st cells c) (id : Option Nat) :
    Gen (b.addRefs id.toList.length)
      (match id with
        | none => emitOp .while_ st
        | some id => addVarRef id (emitExtendedByte .whileId st))
      (cells ++ c.whileOp id)
      (c.go (if id.isSome then 3 else 1) c.shape) := by
  cases id with
  | none => exact g.op .while_
  | some id => exact ((g.eop .whileId).varRef id (by simp)).cast rfl (by simp [Ctx.whileOp]) rfl

theorem Gen.forkName {b : Progress} {st : State} {cells : List Cell} {c : Ctx}
    (g : Gen b st cells c) (hcells : cells ≠ []) (id : Option Nat) :
    Gen (b.addRefs id.toList.length)
      (match id with
        | none => st
        | some id => addVarRef id st)
      (cells ++ id.toList.map fun id => c.item (.varRef id))
      (c.go id.toList.length c.shape) := by
  cases id with
  | none => exact g.cast rfl (by simp) rfl
  | some id => exact g.varRef id hcells

theorem enter_ready {b : Progress} {st : State} {cells : List Cell} {c : StmtCtx} {loop : Loop}
    {k : LoopCtx} (g : Gen (b.opening [⟨loop.bottomLabel, k.bottom⟩]) st cells c.expr)
    (r : Ready b cells c) (hok : LoopOk cells (loop, k)) :
    Gen { b with loops := (loop, k) :: b.loops } (enterLoop loop st) cells
        { c with loops := k :: c.loops }.expr ∧
      Ready { b with loops := (loop, k) :: b.loops } cells
        { c with loops := k :: c.loops } := by
  refine ⟨g.enter, by simp [r.ctxs], fun x hx => ?_, r.forks⟩
  obtain rfl | hx := List.mem_cons.mp hx
  · exact hok
  · exact r.loops x hx

theorem leave_ready {b : Progress} {st : State} {cells : List Cell} {c : StmtCtx} {loop : Loop}
    {ctx : LoopCtx} {ctxs : List LoopCtx} (r : Ready b cells c) (g : Gen b st cells c.expr)
    (hc : c.loops = ctx :: ctxs) (hok : LoopOk cells (loop, ctx))
    (hbottom : ctx.bottom = c.pos + 2) :
    ∃ loops, Gen { b with loops := loops }
        (defineLabel (exitLoop st).1 (addKnownLabel loop.topLabel (emitOp .jump (exitLoop st).2)))
        (cells ++ [c.expr.op .jump, c.expr.item (.label ctx.top)]) (c.go 2 c.shape).expr ∧
      Ready { b with loops := loops }
        (cells ++ [c.expr.op .jump, c.expr.item (.label ctx.top)])
        { c.go 2 c.shape with loops := ctxs } := by
  obtain ⟨⟨loop', ctx'⟩, loops, hl, rfl, hloops⟩ := List.map_eq_cons_iff.mp (r.ctxs.trans hc)
  exact ⟨loops, g.endLoop hl hok hbottom, hloops, fun x hx =>
    (r.loops x (hl ▸ List.mem_cons_of_mem _ hx)).mono (List.prefix_append _ _), r.forks⟩

theorem handlersShape_length : ∀ (excepts : ExceptArm) (start : Nat) (shape : Shape),
    (handlersShape excepts start shape).length = shape.length + 2 * excepts.count
  | .nil, _, _ => rfl
  | .cons id codes stmt next, start, shape => by
      simp [handlersShape, handlersShape_length next, ExceptArm.count]; omega

theorem ready_init (gstate : GState) : Ready { start := gstate } []
    { forks := gstate.forkVectors.length } :=
  ⟨rfl, nofun, rfl⟩

/-- What `generate_stmt` emits is the code of the statement, and it leaves everything ready for the next one. -/
def StmtGen (s : Stmt) : Prop := ∀ {b : Progress} {st : State} {cells : List Cell} {c : StmtCtx},
  Gen b st cells c.expr → Ready b cells c → s.admitted (c.loops.map (·.id)) →
    ∃ st' loops, generateStmt s st = some st' ∧
      Gen (b.after (stmtRefs s) (stmtBodies s b.forks b.total) loops) st' (cells ++ stmtCode s c)
        (c.go (stmtSize s) c.shape).expr ∧
      Ready (b.after (stmtRefs s) (stmtBodies s b.forks b.total) loops) (cells ++ stmtCode s c)
        { c.go (stmtSize s) c.shape with forks := c.forks + stmtForks s }

def StmtsGen (s : Stmts) : Prop := ∀ {b : Progress} {st : State} {cells : List Cell} {c : StmtCtx},
  Gen b st cells c.expr → Ready b cells c → s.admitted (c.loops.map (·.id)) →
    ∃ st' loops, generateStmts s st = some st' ∧
      Gen (b.after (stmtsRefs s) (stmtsBodies s b.forks b.total) loops) st' (cells ++ stmtsCode s c)
        (c.go (stmtsSize s) c.shape).expr ∧
      Ready (b.after (stmtsRefs s) (stmtsBodies s b.forks b.total) loops) (cells ++ stmtsCode s c)
        { c.go (stmtsSize s) c.shape with forks := c.forks + stmtsForks s }

def ArmsGen (arms : CondArm) : Prop := ∀ (ifOp : Opcode) (endLabel : Option Nat) (stop : Nat) {b : Progress} {st : State}
    {cells : List Cell} {c : StmtCtx},
  Gen (b.opening [⟨endLabel, stop⟩]) st cells c.expr → Ready b cells c → arms.admitted (c.loops.map (·.id)) →
    ∃ endLabel' st' loops, generateArms arms ifOp endLabel st = some (endLabel', st') ∧
      Gen ((b.after (armsRefs arms) (armsBodies arms b.forks b.total) loops).opening [⟨endLabel', stop⟩]) st'
        (cells ++ armsCode arms ifOp stop c) (c.go (armsSize arms) c.shape).expr ∧
      Ready (b.after (armsRefs arms) (armsBodies arms b.forks b.total) loops) (cells ++ armsCode arms ifOp stop c)
        { c.go (armsSize arms) c.shape with forks := c.forks + armsForks arms }

/-- The handlers of a `try`, each at the label that has been laid out for it. -/
def ExceptsGen (excepts : ExceptArm) : Prop := ∀ (labels : List Nat) (endLabel : Option Nat) (stop : Nat) {b : Progress}
    {st : State} {cells : List Cell} {c : StmtCtx},
  Gen ((b.opening [⟨endLabel, stop⟩]).opening (openHandlers labels excepts c.pos)) st cells c.expr → Ready b cells c →
    labels.length = excepts.count → excepts.admitted (c.loops.map (·.id)) →
    ∃ endLabel' st' loops, generateExcepts excepts labels endLabel st = some (endLabel', st') ∧
      Gen ((b.after (exceptsRefs excepts) (exceptsBodies excepts b.forks b.total) loops).opening [⟨endLabel', stop⟩]) st'
        (cells ++ exceptsCode excepts stop c) (c.go (exceptsSize excepts) c.shape).expr ∧
      Ready (b.after (exceptsRefs excepts) (exceptsBodies excepts b.forks b.total) loops) (cells ++ exceptsCode excepts stop c)
        { c.go (exceptsSize excepts) c.shape with forks := c.forks + exceptsForks excepts }

theorem StmtGen.expr (expr : Expr) : StmtGen (.expr expr) := by
  intro b st cells c g r h
  obtain ⟨st₁, e₁, g₁⟩ := generateExpr_gen expr g h
  refine ⟨_, b.loops, by rw [generateStmt]; exact some_bind e₁ rfl,
    ((g₁.op .pop).pop (n := 1) (s := c.shape) rfl (by simp)).cast ?_ ?_ ?_,
    r.of rfl rfl ?_ (List.prefix_append _ _)⟩
  · simp [addRefs_eq_after, stmtRefs, stmtBodies]
  · simp [stmtCode]
  · simp [stmtSize]
  · simp [r.forks, stmtForks]

theorem StmtGen.returnSome (expr : Expr) : StmtGen (.return_ (.some expr)) := by
  intro b st cells c g r h
  obtain ⟨st₁, e₁, g₁⟩ := generateExpr_gen expr g h
  refine ⟨_, b.loops, by rw [generateStmt]; exact some_bind e₁ rfl,
    ((g₁.op .return_).pop (n := 1) (s := c.shape) rfl (by simp)).cast ?_ ?_ ?_,
    r.of rfl rfl ?_ (List.prefix_append _ _)⟩
  · simp [addRefs_eq_after, stmtRefs, stmtBodies, exceptRefs]
  · simp [stmtCode]
  · simp [stmtSize]
  · simp [r.forks, stmtForks]

theorem StmtGen.returnNone : StmtGen (.return_ .none) := by
  intro b st cells c g r h
  refine ⟨_, b.loops, rfl, (g.op .return0).cast ?_ ?_ ?_,
    r.of rfl rfl ?_ (List.prefix_append _ _)⟩
  · simp [Progress.after, stmtRefs, stmtBodies, exceptRefs]
  · simp [stmtCode]
  · simp [stmtSize]
  · simp [r.forks, stmtForks]

theorem StmtGen.list {id : Nat} {expr : Expr} {body : Stmts} (hbody : StmtsGen body) : StmtGen (.list id expr body) := by
  intro b st cells c g r h
  simp only [Stmt.admitted, Bool.and_eq_true] at h
  have hpos := g.pos
  let top := c.pos + exprSize expr + 1
  let back := top + 3 + stmtsSize body
  let stop := back + 2
  obtain ⟨st₁, e₁, g₁⟩ := generateExpr_gen expr g h.1
  have g₂ := (g₁.op (optimNumToOpcode 1)).push (n := 1) (s := .index :: .value :: c.shape)
    rfl
  let ctx : LoopCtx := ⟨some id, top, c.shape.length + 2, stop, c.shape.length⟩
  let c₃ : StmtCtx := c.go (exprSize expr + 1 + 3) (.index :: .value :: c.shape)
  have g₃ := ((((g₂.setBack (some back)).op .forList).varRef id (by simp)).label stop
    (by simp)).setBack none
  have hok := g₂.captured (some id) (some (addVarRef id (emitOp .forList
    (pushStack 1 (emitOp (optimNumToOpcode 1) st₁)))).fixups.length) stop g₃.curStack
    (congrArg (· - 2) g₃.curStack)
  obtain ⟨g₄, r₄⟩ := enter_ready (c := c₃) (k := ctx) (g₃.cast rfl rfl (by simp [c₃]))
    (r.of (d := (b.addRefs (exprRefs expr)).addRefs 1) rfl rfl r.forks (by simp))
    (hok.mono (by simp))
  obtain ⟨st₅, loops₅, e₅, g₅, r₅⟩ := hbody g₄ r₄ h.2
  obtain ⟨loops₆, g₆, r₆⟩ := leave_ready r₅ g₅ rfl (hok.mono (by simp))
    (by simp [c₃, ctx, stop, back, top])
  refine ⟨_, loops₆, by rw [generateStmt]; exact some_bind e₁ (some_bind e₅ rfl),
    (g₆.pop (n := 2) (s := c.shape) rfl (by simp)).cast ?_ ?_ ?_,
    r₆.of rfl rfl ?_ ?_⟩
  · simp [Progress.after, Progress.addRefs, Progress.total, Progress.forks, stmtRefs,
      stmtBodies]
  · simp [stmtCode, c₃, ctx, top, back, stop]; omega
  · simp [stmtSize, c₃]
  · simp [r.forks, stmtForks]
  · simp [stmtCode, c₃, ctx, top, back, stop]; omega

theorem StmtGen.range {id : Nat} {lower upper : Expr} {body : Stmts} (hbody : StmtsGen body) :
    StmtGen (.range id lower upper body) := by
  intro b st cells c g r h
  simp only [Stmt.admitted, Bool.and_eq_true] at h
  let top := c.pos + exprSize lower + exprSize upper
  let back := top + 3 + stmtsSize body
  let stop := back + 2
  obtain ⟨st₁, e₁, g₁⟩ := generateExpr_gen lower g h.1.1
  obtain ⟨st₂, e₂, g₂⟩ := generateExpr_gen upper g₁ h.1.2
  let ctx : LoopCtx := ⟨some id, top, c.shape.length + 2, stop, c.shape.length⟩
  let c₃ : StmtCtx := c.go (exprSize lower + exprSize upper + 3) (.value :: .value :: c.shape)
  have g₃ := ((((g₂.setBack (some back)).op .forRange).varRef id (by simp)).label stop
    (by simp)).setBack none
  have hok := g₂.captured (some id) (some (addVarRef id (emitOp .forRange st₂)).fixups.length)
    stop g₃.curStack (congrArg (· - 2) g₃.curStack)
  obtain ⟨g₄, r₄⟩ := enter_ready (c := c₃) (k := ctx) (g₃.cast rfl rfl (by simp [c₃]))
    (r.of (d := ((b.addRefs (exprRefs lower)).addRefs (exprRefs upper)).addRefs 1) rfl rfl
      r.forks (by simp))
    (hok.mono (by simp))
  obtain ⟨st₅, loops₅, e₅, g₅, r₅⟩ := hbody g₄ r₄ h.2
  obtain ⟨loops₆, g₆, r₆⟩ := leave_ready r₅ g₅ rfl (hok.mono (by simp))
    (by simp [c₃, ctx, stop, back, top])
  refine ⟨_, loops₆,
    by rw [generateStmt]; exact some_bind e₁ (some_bind e₂ (some_bind e₅ rfl)),
    (g₆.pop (n := 2) (s := c.shape) rfl (by simp)).cast ?_ ?_ ?_,
    r₆.of rfl rfl ?_ ?_⟩
  · simp [Progress.after, Progress.addRefs, Progress.total, Progress.forks, stmtRefs,
      stmtBodies]
  · simp [stmtCode, c₃, ctx, top, back, stop]
  · simp [stmtSize, c₃]
  · simp [r.forks, stmtForks]
  · simp [stmtCode, c₃, ctx, top, back, stop]

theorem StmtGen.while_ {id : Option Nat} {condition : Expr} {body : Stmts} (hbody : StmtsGen body) :
    StmtGen (.while_ id condition body) := by
  intro b st cells c g r h
  simp only [Stmt.admitted, Bool.and_eq_true] at h
  let n := exprSize condition + if id.isSome then 4 else 2
  let back := c.pos + n + stmtsSize body
  let stop := back + 2
  obtain ⟨st₁, e₁, g₁⟩ := generateExpr_gen condition (g.setBack (some back)) h.1
  let ctx : LoopCtx := ⟨id, c.pos, c.shape.length, stop, c.shape.length⟩
  let c₃ : StmtCtx := c.go n c.shape
  have g₂ := g₁.whileOp id
  have hne : cells ++ exprCode condition { c.expr with back := some back } ++
      ({ c.expr with back := some back }.go (exprSize condition) (.value :: c.shape)).whileOp
        id ≠ [] := by
    cases id <;> simp [Ctx.whileOp]
  have g₃ := ((g₂.label stop hne).pop (n := 1) (s := c.shape) rfl (by simp)).setBack none
  have hok := g.captured id (some (match id with
      | none => emitOp .while_ st₁
      | some id => addVarRef id (emitExtendedByte .whileId st₁)).fixups.length)
    stop g₃.curStack g₃.curStack
  obtain ⟨g₄, r₄⟩ := enter_ready (c := c₃) (k := ctx)
    (g₃.cast rfl rfl (by cases id <;> simp [c₃, n]))
    (r.of (d := (b.addRefs (exprRefs condition)).addRefs id.toList.length) rfl rfl
      r.forks (by simp))
    (hok.mono (by simp))
  obtain ⟨st₅, loops₅, e₅, g₅, r₅⟩ := hbody g₄ r₄ h.2
  obtain ⟨loops₆, g₆, r₆⟩ := leave_ready r₅ g₅ rfl (hok.mono (by simp))
    (by simp [c₃, ctx, stop, back])
  refine ⟨_, loops₆, by rw [generateStmt]; exact some_bind e₁ (some_bind e₅ rfl),
    g₆.cast ?_ ?_ ?_, r₆.of rfl rfl ?_ ?_⟩
  · simp [Progress.after, Progress.addRefs, Progress.total, Progress.forks, stmtRefs,
      stmtBodies]
  · simp [stmtCode, c₃, ctx, n, back, stop]
  · simp [stmtSize, c₃, n]
  · simp [r.forks, stmtForks]
  · simp [stmtCode, c₃, ctx, n, back, stop]

theorem StmtGen.fork {id : Option Nat} {time : Expr} {body : Stmts} (hbody : StmtsGen body) : StmtGen (.fork id time body) := by
  intro b st cells c g r h
  simp only [Stmt.admitted, Bool.and_eq_true] at h
  obtain ⟨st₁, e₁, g₁⟩ := generateExpr_gen time g h.1
  have g₂ := g₁.op (if id.isSome then .forkWithId else .fork)
  have hforks : st₁.gstate.forkVectors.length = c.forks := by
    obtain ⟨new, hnew, hall⟩ := g₁.vectors
    rw [hnew, List.length_append, hall.length_eq]
    exact r.forks
  have r₀ := ready_init st₁.gstate
  rw [hforks] at r₀
  obtain ⟨st₃, loops₃, e₃, g₃, r₃⟩ := hbody (gen_init st₁.gstate c.forks)
    r₀ h.2
  obtain ⟨bc, e₄, hbc⟩ := finishCode_gen g₃ (List.map_eq_nil_iff.mp r₃.ctxs) rfl (by simp [Progress.after])
    hforks (by simp [Progress.after])
  have g₅ := g₂.fork (by simp) g₃ rfl (r.forks.symm ▸ g₁.refs ▸ hbc) (by simp [Progress.after])
    (by simp [Progress.after])
  have hid : (if id.isSome then 1 else 0) = id.toList.length := by cases id <;> rfl
  have hf : b.start.forkVectors.length + b.bodies.length = c.forks := r.forks
  refine ⟨_, b.loops,
    by rw [generateStmt]; exact some_bind e₁ (some_bind e₃ (some_bind e₄ rfl)),
    ((g₅.forkName (by simp) id).pop (n := 1) (s := c.shape) rfl ?_).cast ?_ ?_ ?_,
    r.of rfl rfl ?_ (List.prefix_append _ _)⟩
  · simp
  · simp [Progress.after, Progress.addRefs, Progress.total, Progress.forks, stmtRefs,
      stmtBodies, hf, hforks, g₁.refs]
  · simp [stmtCode, r.forks]
  · simp [stmtSize, hid]
  · simp [r.forks, stmtForks]

theorem StmtGen.cond {arms : CondArm} {otherwise : Stmts} (harms : ArmsGen arms) (hotherwise : StmtsGen otherwise) :
    StmtGen (.cond arms otherwise) := by
  intro b st cells c g r h
  simp only [Stmt.admitted, Bool.and_eq_true] at h
  let stop := c.pos + armsSize arms + stmtsSize otherwise
  obtain ⟨endLabel, st₁, loops₁, e₁, g₁, r₁⟩ := harms .if_ none stop
    (g.openNone stop) r h.1.2
  obtain ⟨st₂, loops₂, e₂, g₂, r₂⟩ := hotherwise
    (c := { c.go (armsSize arms) c.shape with forks := c.forks + armsForks arms }) g₁
    (r₁.of rfl rfl r₁.forks (List.prefix_refl _)) h.2
  refine ⟨_, loops₂, by rw [generateStmt]; exact some_bind e₁ (some_bind e₂ rfl),
    (g₂.define rfl (by simp [stop])).cast ?_ ?_ ?_, r₂.of rfl rfl ?_ ?_⟩
  · simp [Progress.after, Progress.opening, Progress.total, Progress.forks, stmtRefs,
      stmtBodies]
  · simp [stmtCode, stop]
  · simp [stmtSize]
  · simp [r.forks, stmtForks]
  · simp [stmtCode, stop]

theorem StmtGen.tryExcept {body : Stmts} {excepts : ExceptArm} (hbody : StmtsGen body) (hexcepts : ExceptsGen excepts) :
    StmtGen (.tryExcept body excepts) := by
  intro b st cells c g r h
  simp only [Stmt.admitted, Bool.and_eq_true] at h
  let start := c.pos + handlersSize excepts + 3 + stmtsSize body + 3
  let stop := start + exceptsSize excepts
  let shape := handlersShape excepts start c.shape
  obtain ⟨labels, st₁, e₁, hlen, g₁⟩ := generateHandlers_gen excepts start g rfl h.2
  have g₂ := ((g₁.eop .tryExcept).countByte excepts.count).push (n := 1)
    (s := .catch_ excepts.count :: shape) rfl
  let c₂ : StmtCtx := c.go (handlersSize excepts + 3) (.catch_ excepts.count :: shape)
  obtain ⟨st₃, loops₃, e₃, g₃, r₃⟩ := hbody (c := c₂)
    (g₂.cast rfl rfl (by simp [c₂])) (r.of rfl rfl r.forks (by simp)) h.1.1.1
  have hshape : c.shape.length = shape.length + 1 - (2 * excepts.count + 1) := by
    rw [handlersShape_length]
    omega
  have g₄ := ((g₃.eop .endExcept).label stop (by simp)).pop
    (n := 2 * excepts.count + 1) (s := c.shape) hshape (by simp [c₂])
  let c₄ : StmtCtx :=
    { c.go (start - c.pos) c.shape with forks := c.forks + stmtsForks body }
  have hpos : c₄.pos = start := by simp [c₄, start]
  let b₄ := (b.addRefs (handlersRefs excepts)).after (stmtsRefs body)
    (stmtsBodies body b.forks (b.total + handlersRefs excepts)) loops₃
  have g₄' := Gen.swap (b := b₄) (o := openHandlers labels excepts start)
    (p := [⟨some (emitExtendedByte .endExcept st₃).fixups.length, stop⟩])
    (g₄.cast (by simp [b₄]) rfl rfl)
  obtain ⟨endLabel, st₅, loops₅, e₅, g₅, r₅⟩ := hexcepts labels _ stop
    (b := b₄) (c := c₄) (g₄'.cast (by rw [hpos]) rfl (by simp [c₂, c₄, start]))
    (r₃.of rfl rfl (by simp [b₄, c₄, r.forks]) (by simp)) hlen h.2
  refine ⟨_, loops₅,
    by rw [generateStmt]; exact some_bind e₁ (some_bind e₃ (some_bind e₅ rfl)),
    (g₅.define rfl (by simp [stop, hpos])).cast ?_ ?_ ?_, r₅.of rfl rfl ?_ ?_⟩
  · simp [b₄, Progress.after, Progress.opening, Progress.total, Progress.forks, stmtRefs,
      stmtBodies]
  · simp [stmtCode, StmtCtx.go, c₂, c₄, shape, stop, start]
  · simp [stmtSize, c₄, start]
  · simp [r.forks, stmtForks]
  · simp [stmtCode, StmtCtx.go, c₂, c₄, shape, stop, start]

theorem StmtGen.tryFinally {body handler : Stmts} (hbody : StmtsGen body) (hhandler : StmtsGen handler) :
    StmtGen (.tryFinally body handler) := by
  intro b st cells c g r h
  simp only [Stmt.admitted, Bool.and_eq_true] at h
  let start := c.pos + 3 + stmtsSize body + 2
  have g₁ := ((g.eop .tryFinally).label start (by simp)).push (n := 1)
    (s := .finally_ start :: c.shape) rfl
  obtain ⟨st₂, loops₂, e₂, g₂, r₂⟩ := hbody
    (c := c.go 3 (.finally_ start :: c.shape)) g₁ (r.of rfl rfl r.forks (by simp)) h.1
  have g₃ := (((g₂.eop .endFinally).pop (n := 1) (s := c.shape) rfl (by simp)).define rfl
    (by simp [start])).push (n := 2) (s := .pending :: .reason :: c.shape) rfl
  obtain ⟨st₄, loops₄, e₄, g₄, r₄⟩ := hhandler
    (c := { c.go (3 + stmtsSize body + 2) (.pending :: .reason :: c.shape) with
      forks := c.forks + stmtsForks body })
    (g₃.cast rfl rfl (by simp)) (r₂.of rfl rfl r₂.forks (by simp)) h.2
  refine ⟨_, loops₄, by rw [generateStmt]; exact some_bind e₂ (some_bind e₄ rfl),
    ((g₄.eop .continue_).pop (n := 2) (s := c.shape) rfl (by simp)).cast ?_ ?_ ?_,
    r₄.of rfl rfl ?_ ?_⟩
  · simp [Progress.after, Progress.opening, Progress.total, Progress.forks, stmtRefs,
      stmtBodies]
  · simp [stmtCode, start]
  · simp [stmtSize]
  · simp [r.forks, stmtForks]
  · simp [stmtCode, start]

theorem StmtGen.break_ (exit : Option Nat) : StmtGen (.break_ exit) := by
  intro b st cells c g r h
  obtain ⟨ctx, hctx⟩ := Option.isSome_iff_exists.mp (exitLoopCtx_isSome h)
  obtain ⟨i, loop, hi, hloop⟩ := exitTarget_spec r.loops (r.ctxs ▸ hctx)
  have g₁ := ((g.exitOp exit).stackRef loop.bottomStack (by cases exit <;> simp [Ctx.exit]))
  have g₂ := g₁.breakLabel (by simp) hloop
  have hst : (emitExit exit st).loops = b.loops.map (·.1) := (g.exitOp exit).loops
  have hok := r.loops _ (List.mem_of_getElem? hloop)
  let loop' : Loop :=
    { loop with
      bottomLabel := some (addStackRef loop.bottomStack (emitExit exit st)).fixups.length }
  refine ⟨_, b.loops.set i (loop', ctx), ?_, g₂.cast ?_ ?_ ?_, ?_, fun x hx => ?_, ?_⟩
  · rw [generateStmt]
    exact some_bind (by rw [hst]; exact hi) (some_bind (by rw [hst]; simpa using ⟨_, hloop⟩) rfl)
  · simp [Progress.after, Progress.addRefs, stmtRefs, stmtBodies]
    rfl
  · simp [stmtCode, hctx]
    exact hok.bottomStack
  · have : exitSize exit - 2 + 2 = exitSize exit := by cases exit <;> rfl
    simp [stmtSize, this]
  · have hc : c.loops[i]? = some ctx := by
      rw [← r.ctxs, List.getElem?_map, hloop]
      rfl
    obtain ⟨hlt, rfl⟩ := List.getElem?_eq_some_iff.mp hc
    simp only [Progress.after, List.map_set]
    rw [r.ctxs, List.set_getElem_self]
    rfl
  · obtain hx | rfl := List.mem_or_eq_of_mem_set hx
    · exact (r.loops x hx).mono (List.prefix_append _ _)
    · exact { hok.mono (List.prefix_append _ _) with }
  · simp [r.forks, stmtForks, stmtBodies]

theorem StmtGen.continue_ (exit : Option Nat) : StmtGen (.continue_ exit) := by
  intro b st cells c g r h
  obtain ⟨ctx, hctx⟩ := Option.isSome_iff_exists.mp (exitLoopCtx_isSome h)
  obtain ⟨i, loop, hi, hloop⟩ := exitTarget_spec r.loops (r.ctxs ▸ hctx)
  have hok := r.loops _ (List.mem_of_getElem? hloop)
  have g₁ := g.exitOp exit
  have hst : (emitExit exit st).loops = b.loops.map (·.1) := g₁.loops
  have g₂ := g₁.stackRef loop.topStack (by cases exit <;> simp [Ctx.exit])
  have hok' := hok.mono (e := cells ++ c.expr.exit exit ++
    [(c.expr.go (exitSize exit - 2) c.shape).item (.stack loop.topStack)]) (by simp)
  have g₃ := g₂.knownLabel (by simp) hok'.kind hok'.next hok'.top hok'.value hok'.prev
  refine ⟨_, b.loops, ?_, g₃.cast ?_ ?_ ?_, r.of rfl rfl ?_ (List.prefix_append _ _)⟩
  · rw [generateStmt]
    exact some_bind (by rw [hst]; exact hi) (some_bind (by rw [hst]; simpa using ⟨_, hloop⟩) rfl)
  · simp [addRefs_eq_after, stmtRefs, stmtBodies]
  · simp [stmtCode, hctx]
    exact hok.topStack
  · have : exitSize exit - 2 + 2 = exitSize exit := by cases exit <;> rfl
    simp [stmtSize, this]
  · simp [r.forks, stmtForks]

theorem StmtsGen.nil : StmtsGen .nil := by
  intro b st cells c g r h
  refine ⟨st, b.loops, rfl, g.cast ?_ ?_ rfl, r.of rfl rfl ?_ (List.prefix_append _ _)⟩
  · simp [Progress.after, stmtsRefs, stmtsBodies]
  · simp [stmtsCode]
  · simp [r.forks, stmtsForks]

theorem StmtsGen.cons {stmt : Stmt} {next : Stmts} (hstmt : StmtGen stmt) (hnext : StmtsGen next) : StmtsGen (.cons stmt next) := by
  intro b st cells c g r h
  simp only [Stmts.admitted, Bool.and_eq_true] at h
  obtain ⟨st₁, loops₁, e₁, g₁, r₁⟩ := hstmt g r h.1
  obtain ⟨st₂, loops₂, e₂, g₂, r₂⟩ := hnext
    (c := { c.go (stmtSize stmt) c.shape with forks := c.forks + stmtForks stmt }) g₁ r₁ h.2
  refine ⟨st₂, loops₂, by rw [generateStmts]; exact some_bind e₁ e₂, g₂.cast ?_ ?_ ?_,
    r₂.of rfl rfl ?_ ?_⟩
  · simp [stmtsRefs, stmtsBodies]
  · simp [stmtsCode]
  · simp [stmtsSize]
  · simp [r.forks, stmtsForks]
  · simp [stmtsCode]

theorem ArmsGen.nil : ArmsGen .nil := by
  intro ifOp endLabel stop b st cells c g r h
  refine ⟨endLabel, st, b.loops, rfl, g.cast ?_ ?_ rfl,
    r.of rfl rfl ?_ (List.prefix_append _ _)⟩
  · simp [Progress.after, armsRefs, armsBodies]
  · simp [armsCode]
  · simp [r.forks, armsForks]

theorem ArmsGen.cons {condition : Expr} {stmt : Stmts} {next : CondArm} (hstmt : StmtsGen stmt) (hnext : ArmsGen next) :
    ArmsGen (.cons condition stmt next) := by
  intro ifOp endLabel stop b st cells c g r h
  simp only [CondArm.admitted, Bool.and_eq_true] at h
  let els := c.pos + exprSize condition + 2 + stmtsSize stmt + 2
  let b₁ := b.addRefs (exprRefs condition)
  obtain ⟨st₁, e₁, g₁⟩ := generateExpr_gen condition g h.1.1
  have g₂ := ((g₁.op ifOp).label els (by simp)).pop (n := 1) (s := c.shape) rfl (by simp)
  obtain ⟨st₃, loops₃, e₃, g₃, r₃⟩ := hstmt
    (c := c.go (exprSize condition + 2) c.shape) g₂ (r.of rfl rfl r.forks (by simp)) h.1.2
  let b₃ := b₁.after (stmtsRefs stmt) (stmtsBodies stmt b₁.forks b₁.total) loops₃
  have g₄ := ((Gen.swap (b := b₃) (o := [⟨endLabel, stop⟩])
    (p := [⟨some (emitOp ifOp st₁).fixups.length, els⟩]) g₃).op .jump).chainLabel (by simp)
  have g₅ := g₄.swap.define rfl (by simp [els])
  obtain ⟨endLabel', st₆, loops₆, e₆, g₆, r₆⟩ := hnext .eif _ stop (b := b₃)
    (c := { c.go (exprSize condition + 2 + stmtsSize stmt + 2) c.shape with
      forks := c.forks + stmtsForks stmt })
    (g₅.cast rfl rfl (by simp)) (r₃.of rfl rfl r₃.forks (by simp)) h.2
  refine ⟨endLabel', st₆, loops₆,
    by rw [generateArms]; exact some_bind e₁ (some_bind e₃ e₆), g₆.cast ?_ ?_ ?_,
    r₆.of rfl rfl ?_ ?_⟩
  · simp [b₃, b₁, armsRefs, armsBodies]
  · simp [armsCode, StmtCtx.go, els]
  · simp [armsSize]
  · simp [r.forks, armsForks]
  · simp [armsCode, StmtCtx.go, els]

theorem ExceptsGen.nil : ExceptsGen .nil := by
  intro labels endLabel stop b st cells c g r hlen h
  obtain rfl := List.length_eq_zero_iff.mp hlen
  refine ⟨endLabel, st, b.loops, rfl, g.cast ?_ ?_ rfl,
    r.of rfl rfl ?_ (List.prefix_append _ _)⟩
  · simp [Progress.after, exceptsRefs, exceptsBodies, openHandlers]
  · simp [exceptsCode]
  · simp [r.forks, exceptsForks]

theorem ExceptsGen.last {id : Option Nat} {codes : ArgList} {stmt : Stmts} (hstmt : StmtsGen stmt) :
    ExceptsGen (.cons id codes stmt .nil) := by
  intro labels endLabel stop b st cells c g r hlen h
  obtain ⟨label, labels, rfl⟩ := List.exists_cons_of_length_eq_add_one hlen
  simp only [ExceptArm.admitted, Bool.and_eq_true] at h
  have g₁ := bind_gen id g rfl
  obtain ⟨st₂, loops₂, e₂, g₂, r₂⟩ := hstmt (c := c.go (bindSize id) c.shape)
    g₁ (r.of rfl rfl r.forks (List.prefix_append _ _)) h.1.2
  refine ⟨endLabel, st₂, loops₂, by cases id <;> exact some_bind e₂ rfl,
    g₂.cast ?_ ?_ ?_, r₂.of rfl rfl ?_ ?_⟩
  · simp [Progress.after, Progress.addRefs, Progress.opening, Progress.total, Progress.forks,
      openHandlers, exceptsRefs, exceptsBodies]
  · simp [exceptsCode]
  · simp [exceptsSize]
  · simp [r.forks, exceptsForks]
  · simp [exceptsCode]

theorem ExceptsGen.cons {id id' : Option Nat} {codes codes' : ArgList} {stmt stmt' : Stmts} {next : ExceptArm}
    (hstmt : StmtsGen stmt) (hnext : ExceptsGen (.cons id' codes' stmt' next)) :
    ExceptsGen (.cons id codes stmt (.cons id' codes' stmt' next)) := by
  intro labels endLabel stop b st cells c g r hlen h
  obtain ⟨label, labels, rfl⟩ := List.exists_cons_of_length_eq_add_one hlen
  rw [ExceptArm.admitted] at h
  simp only [Bool.and_eq_true] at h
  have g₁ := bind_gen id g rfl
  obtain ⟨st₂, loops₂, e₂, g₂, r₂⟩ := hstmt (c := c.go (bindSize id) c.shape)
    g₁ (r.of rfl rfl r.forks (List.prefix_append _ _)) h.1.2
  let b₁ := b.addRefs (id.elim 0 varOpRefs)
  let b₂ := b₁.after (stmtsRefs stmt) (stmtsBodies stmt b₁.forks b₁.total) loops₂
  let opens := openHandlers labels (.cons id' codes' stmt' next)
    (c.pos + bindSize id + stmtsSize stmt + 2)
  have g₃ := (g₂.op .jump)
  have g₄ := (Gen.swap (b := b₂) (o := [⟨endLabel, stop⟩]) (p := opens) g₃).chainLabel
    (by simp)
  obtain ⟨endLabel', st₅, loops₅, e₅, g₅, r₅⟩ := hnext labels (some (emitOp .jump st₂).fixups.length) stop
    (b := b₂)
    (c := { c.go (bindSize id + stmtsSize stmt + 2) c.shape with
      forks := c.forks + stmtsForks stmt })
    (g₄.swap.cast (by simp [opens]) rfl (by simp)) (r₂.of rfl rfl r₂.forks (by simp))
    (Nat.succ_injective hlen) h.2
  refine ⟨endLabel', st₅, loops₅, by cases id <;> exact some_bind e₂ e₅,
    g₅.cast ?_ ?_ ?_, r₅.of rfl rfl ?_ ?_⟩
  · simp [b₂, b₁, exceptsRefs, exceptsBodies]
  · rw [exceptsCode]
    simp [StmtCtx.go]
  · rw [exceptsSize]
    simp
  · simp [r.forks, exceptsForks]
  · rw [exceptsCode]
    simp [StmtCtx.go]

mutual
theorem generateStmt_gen : ∀ s : Stmt, StmtGen s
  | .expr expr => StmtGen.expr expr
  | .return_ (.some expr) => StmtGen.returnSome expr
  | .return_ .none => StmtGen.returnNone
  | .list _ _ body => StmtGen.list (generateStmts_gen body)
  | .range _ _ _ body => StmtGen.range (generateStmts_gen body)
  | .while_ _ _ body => StmtGen.while_ (generateStmts_gen body)
  | .fork _ _ body => StmtGen.fork (generateStmts_gen body)
  | .cond arms otherwise => StmtGen.cond (generateArms_gen arms) (generateStmts_gen otherwise)
  | .tryExcept body excepts => StmtGen.tryExcept (generateStmts_gen body) (generateExcepts_gen excepts)
  | .tryFinally body handler => StmtGen.tryFinally (generateStmts_gen body) (generateStmts_gen handler)
  | .break_ exit => StmtGen.break_ exit
  | .continue_ exit => StmtGen.continue_ exit
theorem generateStmts_gen : ∀ s : Stmts, StmtsGen s
  | .nil => StmtsGen.nil
  | .cons stmt next => StmtsGen.cons (generateStmt_gen stmt) (generateStmts_gen next)
theorem generateArms_gen : ∀ arms : CondArm, ArmsGen arms
  | .nil => ArmsGen.nil
  | .cons _ stmt next => ArmsGen.cons (generateStmts_gen stmt) (generateArms_gen next)
theorem generateExcepts_gen : ∀ excepts : ExceptArm, ExceptsGen excepts
  | .nil => ExceptsGen.nil
  | .cons _ _ stmt .nil => ExceptsGen.last (generateStmts_gen stmt)
  | .cons _ _ stmt (.cons id codes stmt' next) =>
      ExceptsGen.cons (generateStmts_gen stmt) (generateExcepts_gen (.cons id codes stmt' next))
end

theorem stmtToCode_gen {body : Stmts} (h : body.admitted []) (gstate : GState) :
    ∃ st, generateStmts body (initState gstate) = some st ∧
      stmtToCode body gstate = some (layout (emitOp .done st), st.gstate) ∧
      Rep ∅ (emitOp .done st) (vectorCode body gstate.forkVectors.length)
        (({} : Ctx).go (stmtsSize body + 1) []) ∧
      LabelsInside (vectorCode body gstate.forkVectors.length) ∧
      gstate.literals <+: st.gstate.literals ∧
      st.gstate.totalVarRefs = gstate.totalVarRefs + stmtsRefs body ∧
      ∃ new, st.gstate.forkVectors = gstate.forkVectors ++ new ∧
        List.Forall₂ (ForkRep st.gstate.literals) new
          (stmtsBodies body gstate.forkVectors.length gstate.totalVarRefs) := by
  obtain ⟨st, loops, e, g, r⟩ := generateStmts_gen body (gen_init gstate gstate.forkVectors.length)
    (ready_init gstate) h
  obtain ⟨hfinish, hrep, hlabels⟩ := finishCode_rep g (List.map_eq_nil_iff.mp r.ctxs) rfl
  refine ⟨st, e, by rw [stmtToCode]; exact some_bind e hfinish, hrep, hlabels, g.literals, ?_,
    g.vectors⟩
  exact g.refs.trans (by simp [Progress.after])

end LambdaMoo.Listing
