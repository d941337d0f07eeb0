import LambdaMoo.TryRuns

/-! Programs that mean what is written: the compiler takes no literal of theirs for another, and they do not start with a
`while`. -/
namespace LambdaMoo.Interpreter
open Listing

mutual
def exprLiterals : Expr → List Var
  | .var v => [v]
  | .id _ | .length => []
  | .prop lhs rhs | .index lhs rhs | .binary _ lhs rhs | .logic _ lhs rhs | .asgn lhs rhs =>
      exprLiterals lhs ++ exprLiterals rhs
  | .unary _ expr => exprLiterals expr
  | .range e₁ e₂ e₃ | .cond e₁ e₂ e₃ => exprLiterals e₁ ++ (exprLiterals e₂ ++ exprLiterals e₃)
  | .verb obj verb args => exprLiterals obj ++ (exprLiterals verb ++ argsLiterals args)
  | .call _ args | .list args => argsLiterals args
  | .catch_ body codes except => exprLiterals body ++ (argsLiterals codes ++ defaultLiterals except)
  | .scatter targets => scatterLiterals targets
def argsLiterals : ArgList → List Var
  | .nil => []
  | .cons _ expr next => exprLiterals expr ++ argsLiterals next
def scatterLiterals : Scatter → List Var
  | .nil => []
  | .cons _ _ expr next => defaultLiterals expr ++ scatterLiterals next
def defaultLiterals : Default → List Var
  | .none => []
  | .some expr => exprLiterals expr
end

mutual
/-- Those of a statement. The body of a fork is a vector of its own. -/
def stmtLiterals : Stmt → List Var
  | .cond arms otherwise => armsLiterals arms ++ stmtsLiterals otherwise
  | .list _ expr body | .while_ _ expr body => exprLiterals expr ++ stmtsLiterals body
  | .range _ lower upper body => exprLiterals lower ++ (exprLiterals upper ++ stmtsLiterals body)
  | .fork _ expr _ | .expr expr => exprLiterals expr
  | .return_ expr => defaultLiterals expr
  | .tryExcept body excepts => stmtsLiterals body ++ exceptsLiterals excepts
  | .tryFinally body handler => stmtsLiterals body ++ stmtsLiterals handler
  | .break_ _ | .continue_ _ => []
def stmtsLiterals : Stmts → List Var
  | .nil => []
  | .cons stmt next => stmtLiterals stmt ++ stmtsLiterals next
def armsLiterals : CondArm → List Var
  | .nil => []
  | .cons condition stmt next => exprLiterals condition ++ (stmtsLiterals stmt ++ armsLiterals next)
def exceptsLiterals : ExceptArm → List Var
  | .nil => []
  | .cons _ codes stmt next => argsLiterals codes ++ (stmtsLiterals stmt ++ exceptsLiterals next)
end

def startsWithWhile : Stmts → Bool
  | .cons (.while_ ..) _ => true
  | _ => false

/-- What is written is what is compiled. -/
structure Verbatim (literals : List Var) (body : Stmts) : Prop where
  literals : ∀ v ∈ stmtsLiterals body, literal literals v = v
  notWhile : startsWithWhile body = false

variable {W : Type} {S : Server W} {R R' : Reading}

def Same (R R' : Reading) (l : List Var) : Prop := ∀ v ∈ l, R.literal v = R'.literal v

theorem same_append {l l' : List Var} : Same R R' (l ++ l') ↔ Same R R' l ∧ Same R R' l' := List.forall_mem_append

/-! Expressions. -/

mutual
theorem evalExpr_same : ∀ (e : Expr) (dollar : Option Var) (place : Nat), Same R R' (exprLiterals e) →
    evalExpr S R e dollar place = evalExpr S R' e dollar place
  | .var v, _, _, h => by
      rw [evalExpr, evalExpr, h v List.mem_cons_self]
  | .id _, _, _, _ | .length, _, _, _ | .scatter _, _, _, _ => rfl
  | .prop lhs rhs, _, _, h | .index lhs rhs, _, _, h | .binary _ lhs rhs, _, _, h | .logic _ lhs rhs, _, _, h => by
      rw [exprLiterals, same_append] at h
      rw [evalExpr, evalExpr]
      simp only [evalExpr_same lhs _ _ h.1, evalExpr_same rhs _ _ h.2]
  | .unary _ expr, _, _, h => by
      rw [exprLiterals] at h
      rw [evalExpr, evalExpr]
      simp only [evalExpr_same expr _ _ h]
  | .range e₁ e₂ e₃, _, _, h | .cond e₁ e₂ e₃, _, _, h => by
      rw [exprLiterals, same_append, same_append] at h
      rw [evalExpr, evalExpr]
      simp only [evalExpr_same e₁ _ _ h.1, evalExpr_same e₂ _ _ h.2.1, evalExpr_same e₃ _ _ h.2.2]
  | .verb obj verb args, _, _, h => by
      rw [exprLiterals, same_append, same_append] at h
      rw [evalExpr, evalExpr]
      simp only [evalExpr_same obj _ _ h.1, evalExpr_same verb _ _ h.2.1, evalArgList_same args _ _ h.2.2]
  | .call _ args, _, _, h | .list args, _, _, h => by
      rw [exprLiterals] at h
      rw [evalExpr, evalExpr]
      simp only [evalArgList_same args _ _ h]
  | .asgn lhs rhs, _, _, h => by
      rw [exprLiterals, same_append] at h
      cases hs : lhs.isScatter with
      | false =>
          rw [evalExpr_asgn _ _ _ _ _ hs, evalExpr_asgn _ _ _ _ _ hs]
          simp only [evalTarget_same lhs _ _ h.1, evalExpr_same rhs _ _ h.2]
      | true =>
          obtain ⟨targets, rfl⟩ : ∃ targets, lhs = .scatter targets := by
            cases lhs <;> first | exact ⟨_, rfl⟩ | cases hs
          rw [evalExpr, evalExpr]
          simp only [evalDefaults_same targets _ _ _ h.1, evalExpr_same rhs _ _ h.2]
  | .catch_ body codes except, _, _, h => by
      rw [exprLiterals, same_append, same_append] at h
      rw [evalExpr, evalExpr]
      simp only [evalExpr_same body _ _ h.1, evalArgList_same codes _ _ h.2.1, evalExcept_same except _ _ _ h.2.2]
theorem evalExcept_same : ∀ (e : Default) (dollar : Option Var) (place : Nat) (tuple : List Var),
    Same R R' (defaultLiterals e) → evalExcept S R e dollar place tuple = evalExcept S R' e dollar place tuple
  | .some expr, _, _, _, h => by
      rw [defaultLiterals] at h
      rw [evalExcept, evalExcept, evalExpr_same expr _ _ h]
  | .none, _, _, _, _ => by rw [evalExcept, evalExcept]
theorem evalDefaults_same : ∀ (targets : Scatter) (avail : Nat) (dollar : Option Var) (place : Nat),
    Same R R' (scatterLiterals targets) → evalDefaults S R targets avail dollar place = evalDefaults S R' targets avail dollar place
  | .nil, _, _, _, _ => by rw [evalDefaults, evalDefaults]
  | .cons .optional _ (.some expr) next, _, _, _, h => by
      rw [scatterLiterals, same_append, defaultLiterals] at h
      rw [evalDefaults, evalDefaults]
      simp only [evalExpr_same expr _ _ h.1, evalDefaults_same next _ _ _ h.2]
  | .cons .optional _ .none next, _, _, _, h => by
      rw [scatterLiterals, same_append] at h
      rw [evalDefaults, evalDefaults, evalDefaults_same next _ _ _ h.2]
  | .cons .required _ _ next, _, _, _, h | .cons .rest _ _ next, _, _, _, h => by
      rw [scatterLiterals, same_append] at h
      simp only [evalDefaults, evalDefaults_same next _ _ _ h.2]
theorem evalArgList_same : ∀ (args : ArgList) (dollar : Option Var) (place : Nat), Same R R' (argsLiterals args) →
    evalArgList S R args dollar place = evalArgList S R' args dollar place
  | .nil, _, _, _ => by rw [evalArgList, evalArgList]
  | .cons _ expr next, _, _, h => by
      rw [argsLiterals, same_append] at h
      rw [evalArgList, evalArgList]
      simp only [evalExpr_same expr _ _ h.1, evalArgs_same next _ _ _ h.2]
theorem evalArgs_same : ∀ (args : ArgList) (dollar : Option Var) (place : Nat) (list : Var), Same R R' (argsLiterals args) →
    evalArgs S R args dollar place list = evalArgs S R' args dollar place list
  | .nil, _, _, _, _ => by rw [evalArgs, evalArgs]
  | .cons _ expr next, _, _, _, h => by
      rw [argsLiterals, same_append] at h
      rw [evalArgs, evalArgs]
      simp only [evalExpr_same expr _ _ h.1, evalArgs_same next _ _ _ h.2]
theorem evalTarget_same : ∀ (e : Expr) (dollar : Option Var) (place : Nat), Same R R' (exprLiterals e) →
    evalTarget S R e dollar place = evalTarget S R' e dollar place
  | .prop lhs rhs, _, _, h => by
      rw [exprLiterals, same_append] at h
      rw [evalTarget, evalTarget]
      simp only [evalExpr_same lhs _ _ h.1, evalExpr_same rhs _ _ h.2]
  | .index lhs rhs, _, _, h => by
      rw [exprLiterals, same_append] at h
      rw [evalTarget, evalTarget]
      simp only [evalTarget_same lhs _ _ h.1, evalExpr_same rhs _ _ h.2]
  | .range lhs lower upper, _, _, h => by
      rw [exprLiterals, same_append, same_append] at h
      rw [evalTarget, evalTarget]
      simp only [evalTarget_same lhs _ _ h.1, evalExpr_same lower _ _ h.2.1, evalExpr_same upper _ _ h.2.2]
  | .id _, _, _, _ | .var _, _, _, _ | .verb _ _ _, _, _, _ | .asgn _ _, _, _, _ | .call _ _, _, _, _ | .binary _ _ _, _, _, _
  | .logic _ _ _, _, _, _ | .unary _ _, _, _, _ | .list _, _, _, _ | .cond _ _ _, _, _, _ | .catch_ _ _ _, _, _, _
  | .length, _, _, _ | .scatter _, _, _, _ => rfl
end

/-! Statements. -/

def SameBehind (R R' : Reading) : Prop := ∀ place, 0 < place → R.repeats place = R'.repeats place

def startsOtherwise : Stmt → Bool
  | .while_ .. => false
  | .cond arms _ => !arms.isNil
  | _ => true

theorem evalCodes_same : ∀ (excepts : ExceptArm) (place : Nat), Same R R' (exceptsLiterals excepts) →
    evalCodes S R excepts place = evalCodes S R' excepts place
  | .nil, _, _ => rfl
  | .cons _ codes _ next, _, h => by
      rw [exceptsLiterals, same_append, same_append] at h
      rw [evalCodes_cons, evalCodes_cons]
      simp only [evalArgList_same codes _ _ h.1, evalCodes_same next _ h.2.2]

theorem whileHead_same {id : Option Nat} {condition : Expr} (h : Same R R' (exprLiterals condition)) (place : Nat) :
    whileHead S R place id condition = whileHead S R' place id condition := by
  funext a
  rw [whileHead, whileHead, evalExpr_same condition _ _ h]

variable {fuel : Nat} (hR : SameBehind R R')
include hR

set_option linter.unusedSectionVars false in
mutual
theorem exec_same : ∀ (s : Stmt) (place forks : Nat), Same R R' (stmtLiterals s) → 0 < place ∨ startsOtherwise s = true →
    exec S R fuel s place forks = exec S R' fuel s place forks
  | .cond arms otherwise, place, forks, h, hplace => by
      rw [stmtLiterals, same_append] at h
      have hbehind : 0 < place + armsSize arms := by
        cases arms with
        | nil => exact Nat.add_pos_left (hplace.resolve_right Bool.false_ne_true) _
        | cons condition stmt next => rw [armsSize]; omega
      rw [exec, exec, execAll_same otherwise _ _ h.2 hbehind]
      exact execArms_same arms _ _ _ h.1
  | .list _ expr body, _, _, h, _ => by
      rw [stmtLiterals, same_append] at h
      rw [exec, exec]
      simp only [evalExpr_same expr _ _ h.1, execAll_same body _ _ h.2 (Nat.succ_pos _)]
  | .range _ lower upper body, _, _, h, _ => by
      rw [stmtLiterals, same_append, same_append] at h
      rw [exec, exec]
      simp only [evalExpr_same lower _ _ h.1, evalExpr_same upper _ _ h.2.1, execAll_same body _ _ h.2.2 (Nat.succ_pos _)]
  | .while_ _ condition body, place, _, h, hplace => by
      rw [stmtLiterals, same_append] at h
      have hplace := hplace.resolve_right Bool.false_ne_true
      rw [exec, exec, hR place hplace, whileHead_same h.1, execAll_same body _ _ h.2 (Nat.add_pos_left hplace _)]
  | .fork _ expr _, _, _, h, _ | .expr expr, _, _, h, _ => by
      rw [stmtLiterals] at h
      rw [exec, exec]
      simp only [evalExpr_same expr _ _ h]
  | .return_ (.some expr), _, _, h, _ => by
      rw [stmtLiterals, defaultLiterals] at h
      rw [exec, exec]
      simp only [evalExpr_same expr _ _ h]
  | .tryExcept body excepts, place, _, h, _ => by
      rw [stmtLiterals, same_append] at h
      rw [exec, exec]
      simp only [evalCodes_same excepts _ h.2, execAll_same body _ _ h.1 (Nat.succ_pos _),
        execExcepts_same excepts _ _ _ h.2 (Nat.succ_pos _)]
  | .tryFinally body handler, _, _, h, _ => by
      rw [stmtLiterals, same_append] at h
      rw [exec, exec, execAll_same body _ _ h.1 (Nat.succ_pos _), execAll_same handler _ _ h.2 (Nat.succ_pos _)]
  | .return_ .none, _, _, _, _ | .break_ _, _, _, _, _ | .continue_ _, _, _, _, _ => by rw [exec, exec]
theorem execAll_same : ∀ (s : Stmts) (place forks : Nat), Same R R' (stmtsLiterals s) → 0 < place →
    execAll S R fuel s place forks = execAll S R' fuel s place forks
  | .nil, _, _, _, _ => by rw [execAll, execAll]
  | .cons stmt next, _, _, h, hplace => by
      rw [stmtsLiterals, same_append] at h
      rw [execAll, execAll, exec_same stmt _ _ h.1 (.inl hplace), execAll_same next _ _ h.2 (Nat.add_pos_left hplace _)]
theorem execArms_same : ∀ (arms : CondArm) (place forks : Nat) (otherwise : Eval W Flow), Same R R' (armsLiterals arms) →
    execArms S R fuel arms place forks otherwise = execArms S R' fuel arms place forks otherwise
  | .nil, _, _, _, _ => by rw [execArms, execArms]
  | .cons condition stmt next, _, _, _, h => by
      rw [armsLiterals, same_append, same_append] at h
      rw [execArms, execArms]
      simp only [evalExpr_same condition _ _ h.1, execAll_same stmt _ _ h.2.1 (Nat.succ_pos _), execArms_same next _ _ _ h.2.2]
theorem execExcepts_same : ∀ (excepts : ExceptArm) (cs : List Var) (place forks : Nat), Same R R' (exceptsLiterals excepts) →
    0 < place → execExcepts S R fuel excepts cs place forks = execExcepts S R' fuel excepts cs place forks
  | .nil, _, _, _, _, _ | .cons _ _ _ _, [], _, _, _, _ => rfl
  | .cons id _ stmt next, _ :: cs, _, _, h, hplace => by
      rw [exceptsLiterals, same_append, same_append] at h
      funext tuple
      rw [execExcepts, execExcepts]
      simp only [execAll_same stmt _ _ h.2.1 (Nat.add_pos_left hplace _), execExcepts_same next _ _ _ h.2.2 (Nat.succ_pos _)]
end

/-! Vectors. -/

omit hR in
theorem stmtSize_pos {s : Stmt} {loops : List (Option Nat)} (h : s.admitted loops = true) : 0 < stmtSize s := by
  cases s with
  | cond arms otherwise =>
      simp only [Stmt.admitted, Bool.and_eq_true] at h
      cases arms with
      | nil => exact absurd h.1.1 Bool.false_ne_true
      | cons condition stmt next =>
          rw [stmtSize, armsSize]
          omega
  | return_ expr =>
      cases expr with
      | none => exact Nat.one_pos
      | some expr => exact Nat.succ_pos _
  | break_ exit | continue_ exit => cases exit <;> exact Nat.succ_pos _
  | _ =>
      rw [stmtSize]
      omega

omit hR in
theorem startsOtherwise_of {s : Stmt} {next : Stmts} {loops : List (Option Nat)} (h : s.admitted loops = true)
    (hs : startsWithWhile (.cons s next) = false) : startsOtherwise s = true := by
  cases s with
  | while_ => cases hs
  | cond arms otherwise =>
      simp only [Stmt.admitted, Bool.and_eq_true] at h
      exact h.1.1
  | _ => rfl

omit hR in
theorem sameBehind_compiled (literals : List Var) : SameBehind (asCompiled literals) asWritten :=
  fun _ hplace => bne_iff_ne.mpr (Nat.ne_of_gt hplace)

omit hR in
theorem literals_eq_self {literals : List Var} {body : Stmts}
    (h : (stmtsLiterals body).all (fun v => v.isWritable && !isZeroFloat v) = true) :
    ∀ v ∈ stmtsLiterals body, literal literals v = v := by
  intro v hv
  have hboth := List.all_eq_true.mp h v hv
  rw [Bool.and_eq_true, Bool.not_eq_true'] at hboth
  exact literal_eq_self literals hboth.1 hboth.2

omit hR in
theorem verbatim_of {literals : List Var} {body : Stmts}
    (h : (stmtsLiterals body).all (fun v => v.isWritable && !isZeroFloat v) = true) (hs : startsWithWhile body = false) :
    Verbatim literals body :=
  ⟨literals_eq_self h, hs⟩

omit hR in
theorem execAll_verbatim {literals : List Var} {body : Stmts} {forks : Nat} (h : body.admitted [] = true)
    (hv : Verbatim literals body) :
    execAll S (asCompiled literals) fuel body 0 forks = execAll S asWritten fuel body 0 forks := by
  cases body with
  | nil => rw [execAll, execAll]
  | cons stmt next =>
      rw [Stmts.admitted, Bool.and_eq_true] at h
      have hsame : Same (asCompiled literals) asWritten (stmtsLiterals (.cons stmt next)) := hv.literals
      rw [stmtsLiterals, same_append] at hsame
      have hR := sameBehind_compiled literals
      rw [execAll, execAll, exec_same hR stmt _ _ hsame.1 (.inr (startsOtherwise_of h.1 hv.notWhile)),
        execAll_same hR next _ _ hsame.2 (Nat.add_pos_right 0 (stmtSize_pos h.1))]

end LambdaMoo.Interpreter
