import LambdaMoo.Listing
import LambdaMoo.Admitted

/-! The sizes that place the labels of a listing are the lengths of its parts. -/
namespace LambdaMoo.Listing
open CodeGen

attribute [simp] Ctx.eop Ctx.go

@[simp] theorem storeCode_length (lhs : Expr) (c : Ctx) :
    (storeCode lhs c).length = storeSize lhs := by
  induction lhs, c using storeCode.induct with
  | case1 base _ _ c ih => simp only [storeCode, storeSize, Ctx.eop, List.length_append, ih]; rfl
  | case2 lhs _ c ih => simp only [storeCode, storeSize, List.length_cons, ih]; omega
  | case3 slot c => simp only [storeCode, storeSize, Ctx.varOp_length]
  | case4 lhs c h₁ h₂ h₃ => cases lhs <;> first | rfl | simp_all

theorem exprSize_asgn {lhs : Expr} (rhs : Expr) (h : lhs.isScatter = false) :
    exprSize (.asgn lhs rhs) =
      if Expr.isIndexed lhs then lvalueSize lhs false + exprSize rhs + 1 + storeSize lhs + 2
      else lvalueSize lhs false + exprSize rhs + storeSize lhs := by
  cases lhs <;> first | rfl | cases h

theorem exprCode_asgn {lhs : Expr} (rhs : Expr) (c : Ctx) (h : lhs.isScatter = false) :
    exprCode (.asgn lhs rhs) c =
      let d := lvalueDepth lhs false
      let c₁ := c.go (lvalueSize lhs false) (List.replicate d .value ++ c.shape)
      let c₂ := c₁.go (exprSize rhs) (.value :: c₁.shape)
      if Expr.isIndexed lhs then
        let c₃ := c₂.go (1 + storeSize lhs) (.value :: c.shape)
        lvalueCode lhs false c ++ exprCode rhs c₁ ++ [c₂.op .putTemp] ++
          storeCode lhs (c₂.go 1 c₂.shape) ++
          [c₃.op .pop, (c₃.go 1 c.shape).opAt c₃.shape.length .pushTemp]
      else lvalueCode lhs false c ++ exprCode rhs c₁ ++ storeCode lhs c₂ := by
  cases lhs <;> first | rfl | cases h

mutual
theorem exprCode_length : ∀ (e : Expr) (c : Ctx), (exprCode e c).length = exprSize e
  | .var v, c => by simp [exprCode, exprSize]
  | .id slot, c => by simp [exprCode, exprSize]
  | .logic kind lhs rhs, c => by
      simp [exprCode, exprSize, exprCode_length lhs, exprCode_length rhs]; omega
  | .unary kind expr, c => by simp [exprCode, exprSize, exprCode_length expr]
  | .binary kind lhs rhs, c => by
      simp [exprCode, exprSize, exprCode_length lhs, exprCode_length rhs]; omega
  | .prop lhs rhs, c => by
      simp [exprCode, exprSize, exprCode_length lhs, exprCode_length rhs]; omega
  | .index lhs rhs, c => by
      simp [exprCode, exprSize, exprCode_length lhs, exprCode_length rhs]; omega
  | .range base lower upper, c => by
      simp [exprCode, exprSize, exprCode_length base, exprCode_length lower, exprCode_length upper]
      omega
  | .length, c => by simp [exprCode, exprSize]
  | .list args, c => by simp [exprCode, exprSize, argListCode_length args]
  | .call func args, c => by simp [exprCode, exprSize, argListCode_length args]
  | .verb obj verb args, c => by
      simp [exprCode, exprSize, exprCode_length obj, exprCode_length verb, argListCode_length args]
      omega
  | .cond condition consequent alternate, c => by
      simp [exprCode, exprSize, exprCode_length condition, exprCode_length consequent,
        exprCode_length alternate]
      omega
  | .asgn lhs rhs, c => by
      cases h : lhs.isScatter with
      | false =>
          rw [exprCode_asgn rhs c h, exprSize_asgn rhs h]
          split
          · simp [lvalueCode_length lhs, exprCode_length rhs]; omega
          · simp [lvalueCode_length lhs, exprCode_length rhs, Nat.add_assoc]
      | true =>
          obtain ⟨targets, rfl⟩ : ∃ targets, lhs = .scatter targets := by
            cases lhs <;> first | exact ⟨_, rfl⟩ | cases h
          simp [exprCode, exprSize, exprCode_length rhs, defaultsCode_length targets]; omega
  | .catch_ body codes except, c => by
      simp only [exprCode, exprSize, List.length_append, exprCode_length body,
        exceptCode_length except, Ctx.eop]
      split <;> simp [argListCode_length codes]
  | .scatter targets, c => rfl
theorem exceptCode_length : ∀ (e : Default) (c : Ctx) (shape : Shape),
    (exceptCode e c shape).length = exceptSize e
  | .some expr, c, shape => by simp [exceptCode, exceptSize, exprCode_length expr, Nat.add_comm]
  | .none, c, shape => rfl
theorem defaultsCode_length : ∀ (targets : Scatter) (c : Ctx),
    (defaultsCode targets c).length = defaultsSize targets
  | .nil, c => rfl
  | .cons .optional id (.some expr) next, c => by
      simp [defaultsCode, defaultsSize, exprCode_length expr, defaultsCode_length next]; omega
  | .cons .optional id .none next, c => by
      simp [defaultsCode, defaultsSize, defaultsCode_length next]
  | .cons .required id _ next, c => by simp [defaultsCode, defaultsSize, defaultsCode_length next]
  | .cons .rest id _ next, c => by simp [defaultsCode, defaultsSize, defaultsCode_length next]
theorem argListCode_length : ∀ (args : ArgList) (c : Ctx),
    (argListCode args c).length = argListSize args
  | .nil, c => rfl
  | .cons kind expr next, c => by
      simp [argListCode, argListSize, exprCode_length expr, argsCode_length next]; omega
theorem argsCode_length : ∀ (args : ArgList) (c : Ctx), (argsCode args c).length = argsSize args
  | .nil, c => rfl
  | .cons kind expr next, c => by
      simp [argsCode, argsSize, exprCode_length expr, argsCode_length next]; omega
theorem lvalueCode_length : ∀ (lhs : Expr) (above : Bool) (c : Ctx),
    (lvalueCode lhs above c).length = lvalueSize lhs above
  | .range base lower upper, above, c => by
      simp [lvalueCode, lvalueSize, lvalueCode_length base, exprCode_length lower,
        exprCode_length upper]
      omega
  | .index lhs rhs, above, c => by
      simp only [lvalueCode, lvalueSize, List.length_append, lvalueCode_length lhs,
        exprCode_length rhs]
      cases above <;> rfl
  | .id slot, above, c => by cases above <;> simp [lvalueCode, lvalueSize]
  | .prop lhs rhs, above, c => by
      simp only [lvalueCode, lvalueSize, List.length_append, exprCode_length lhs,
        exprCode_length rhs]
      cases above <;> rfl
  | .var _, _, _ | .verb _ _ _, _, _ | .asgn _ _, _, _ | .call _ _, _, _ | .binary _ _ _, _, _
  | .logic _ _ _, _, _ | .unary _ _, _, _ | .list _, _, _ | .cond _ _ _, _, _
  | .catch_ _ _ _, _, _ | .length, _, _ | .scatter _, _, _ => rfl
end

attribute [simp] exprCode_length exceptCode_length defaultsCode_length argListCode_length
  argsCode_length lvalueCode_length

@[simp] theorem codesCode_length (codes : ArgList) (c : Ctx) :
    (codesCode codes c).length = codesSize codes := by
  unfold codesCode codesSize
  split <;> simp

@[simp] theorem Ctx.bind_length (c : Ctx) (id : Option Nat) : (c.bind id).length = bindSize id := by
  cases id <;> simp [Ctx.bind, bindSize]

@[simp] theorem handlersCode_length (excepts : ExceptArm) (start : Nat) (c : Ctx) :
    (handlersCode excepts start c).length = handlersSize excepts := by
  induction excepts, start, c using handlersCode.induct with
  | case1 => rfl
  | case2 id codes stmt next start c c₁ ih =>
      simp only [handlersCode, handlersSize, List.length_append, codesCode_length]
      rw [ih]
      simp

@[simp] theorem Ctx.exit_length (c : Ctx) (exit : Option Nat) :
    (c.exit exit).length + 2 = exitSize exit := by
  cases exit <;> rfl

theorem exitLoopCtx_isSome {exit : Option Nat} {loops : List LoopCtx}
    (h : checkLoopName exit (loops.map (·.id))) : (exitLoopCtx exit loops).isSome := by
  cases exit with
  | none => cases loops <;> simp_all [checkLoopName, exitLoopCtx]
  | some id =>
      simp only [exitLoopCtx]
      induction loops with
      | nil => simp [checkLoopName] at h
      | cons loop loops ih =>
          rw [findLoopCtx]
          split
          · rfl
          · next hne =>
              refine ih ?_
              simpa [checkLoopName, Ne.symm hne] using h

@[simp] theorem StmtCtx.go_loops (c : StmtCtx) (n : Nat) (shape : Shape) :
    (c.go n shape).loops = c.loops := rfl

@[simp] theorem StmtCtx.go_forks (c : StmtCtx) (n : Nat) (shape : Shape) :
    (c.go n shape).forks = c.forks := rfl

@[simp] theorem StmtCtx.go_shape (c : StmtCtx) (n : Nat) (shape : Shape) :
    (c.go n shape).shape = shape := rfl

@[simp] theorem StmtCtx.go_pos (c : StmtCtx) (n : Nat) (shape : Shape) :
    (c.go n shape).pos = c.pos + n := rfl

theorem exitCode_length {exit : Option Nat} {c : StmtCtx} (f : LoopCtx → List Cell)
    (hf : ∀ loop, (f loop).length = 2) (h : checkLoopName exit (c.loops.map (·.id))) :
    (match exitLoopCtx exit c.loops with
      | none => []
      | some loop => c.expr.exit exit ++ f loop).length = exitSize exit := by
  obtain ⟨loop, hloop⟩ := Option.isSome_iff_exists.mp (exitLoopCtx_isSome h)
  rw [hloop, List.length_append, hf, Ctx.exit_length]

mutual
theorem stmtCode_length : ∀ (s : Stmt) (c : StmtCtx), s.admitted (c.loops.map (·.id)) →
    (stmtCode s c).length = stmtSize s
  | .cond arms otherwise, c, h => by
      simp only [Stmt.admitted, Bool.and_eq_true] at h
      simp [stmtCode, stmtSize, armsCode_length arms, stmtsCode_length otherwise, h]
  | .list id expr body, c, h => by
      simp only [Stmt.admitted, Bool.and_eq_true] at h
      simp [stmtCode, stmtSize, stmtsCode_length body, h]; omega
  | .range id lower upper body, c, h => by
      simp only [Stmt.admitted, Bool.and_eq_true] at h
      simp [stmtCode, stmtSize, stmtsCode_length body, h]; omega
  | .while_ id condition body, c, h => by
      simp only [Stmt.admitted, Bool.and_eq_true] at h
      cases id <;> simp [stmtCode, stmtSize, stmtsCode_length body, h, Ctx.whileOp] <;> omega
  | .fork none time body, c, h => by simp [stmtCode, stmtSize]
  | .fork (some id) time body, c, h => by simp [stmtCode, stmtSize]
  | .expr expr, c, h => by simp [stmtCode, stmtSize]
  | .return_ (.some expr), c, h => by simp [stmtCode, stmtSize]
  | .return_ .none, c, h => rfl
  | .tryExcept body excepts, c, h => by
      simp only [Stmt.admitted, Bool.and_eq_true] at h
      simp [stmtCode, stmtSize, stmtsCode_length body, exceptsCode_length excepts, h]
      omega
  | .tryFinally body handler, c, h => by
      simp only [Stmt.admitted, Bool.and_eq_true] at h
      simp [stmtCode, stmtSize, stmtsCode_length body, stmtsCode_length handler, h]; omega
  | .break_ exit, c, h => exitCode_length _ (fun _ => rfl) h
  | .continue_ exit, c, h => exitCode_length _ (fun _ => rfl) h
theorem stmtsCode_length : ∀ (s : Stmts) (c : StmtCtx), s.admitted (c.loops.map (·.id)) →
    (stmtsCode s c).length = stmtsSize s
  | .nil, c, h => rfl
  | .cons stmt next, c, h => by
      simp only [Stmts.admitted, Bool.and_eq_true] at h
      simp [stmtsCode, stmtsSize, stmtCode_length stmt, stmtsCode_length next, h]
theorem armsCode_length : ∀ (arms : CondArm) (ifOp : Opcode) (stop : Nat) (c : StmtCtx),
    arms.admitted (c.loops.map (·.id)) → (armsCode arms ifOp stop c).length = armsSize arms
  | .nil, _, _, c, h => rfl
  | .cons condition stmt next, ifOp, stop, c, h => by
      simp only [CondArm.admitted, Bool.and_eq_true] at h
      simp [armsCode, armsSize, stmtsCode_length stmt, armsCode_length next, h]
      omega
theorem exceptsCode_length : ∀ (excepts : ExceptArm) (stop : Nat) (c : StmtCtx),
    excepts.admitted (c.loops.map (·.id)) →
      (exceptsCode excepts stop c).length = exceptsSize excepts
  | .nil, _, c, h => rfl
  | .cons id codes stmt next, stop, c, h => by
      simp only [ExceptArm.admitted, Bool.and_eq_true] at h
      simp only [exceptsCode, exceptsSize, List.length_append, Ctx.bind_length,
        stmtsCode_length stmt, exceptsCode_length next, StmtCtx.go_loops, h]
      cases next <;> rfl
end

end LambdaMoo.Listing
