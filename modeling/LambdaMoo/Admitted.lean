import LambdaMoo.Ast

/-! The trees the parser builds: what its grammar and the checks in its actions
leave of all trees. `dollars` says that `$` is allowed, and `loops` are the names
of the loops around a statement, the innermost first. -/
namespace LambdaMoo

def Expr.isIndexable : Expr → Bool
  | .index lhs _ => lhs.isIndexable
  | .id _ | .prop _ _ => true
  | _ => false

def Expr.isLvalue : Expr → Bool
  | .range base _ _ => base.isIndexable
  | e => e.isIndexable

def Expr.isScatter : Expr → Bool
  | .scatter _ => true
  | _ => false

def Expr.isNumber : Expr → Bool
  | .var (.int _) | .var (.float _) => true
  | _ => false

/-- Numbers are read into an `int`, and there is no syntax for an infinity or a
NaN. -/
def Var.isWritable : Var → Bool
  | .int num => wrap32 num == num
  | .float fnum => !Float64.isNaN fnum
  | v => v.isLiteral

def vetScatter (targets : Scatter) : Bool :=
  targets.countKind .rest ≤ 1 && targets.count ≤ 255

mutual
def Expr.admitted : Expr → Bool → Bool
  | .var v, _ => v.isWritable
  | .id _, _ => true
  | .prop lhs rhs, dollars => lhs.admitted dollars && rhs.admitted dollars
  | .verb obj verb args, dollars =>
      obj.admitted dollars && verb.admitted dollars && args.admitted dollars
  | .index lhs rhs, dollars => lhs.admitted dollars && rhs.admitted true
  | .range base lower upper, dollars =>
      base.admitted dollars && lower.admitted true && upper.admitted true
  | .asgn (.scatter targets) rhs, dollars =>
      !targets.isNil && vetScatter targets && targets.admitted dollars && rhs.admitted dollars
  | .asgn lhs rhs, dollars => lhs.isLvalue && lhs.admitted dollars && rhs.admitted dollars
  | .call func args, dollars => decide (func < 256) && args.admitted dollars
  | .binary _ lhs rhs, dollars => lhs.admitted dollars && rhs.admitted dollars
  | .logic _ lhs rhs, dollars => lhs.admitted dollars && rhs.admitted dollars
  | .unary kind expr, dollars =>
      !(kind == .negate && expr.isNumber) && expr.admitted dollars
  | .list args, dollars => args.admitted dollars
  | .cond condition consequent alternate, dollars =>
      condition.admitted dollars && consequent.admitted dollars && alternate.admitted dollars
  | .catch_ body codes except, dollars =>
      body.admitted dollars && codes.admitted dollars && except.admitted dollars
  | .length, dollars => dollars
  | .scatter _, _ => false
def ArgList.admitted : ArgList → Bool → Bool
  | .nil, _ => true
  | .cons _ expr next, dollars => expr.admitted dollars && next.admitted dollars
def Scatter.admitted : Scatter → Bool → Bool
  | .nil, _ => true
  | .cons kind _ expr next, dollars =>
      (kind == .optional || expr.isNone) && expr.admitted dollars && next.admitted dollars
def Default.admitted : Default → Bool → Bool
  | .none, _ => true
  | .some expr, dollars => expr.admitted dollars
end

def checkLoopName (exit : Option Nat) (loops : List (Option Nat)) : Bool :=
  match exit with
  | none => !loops.isEmpty
  | some id => loops.contains (some id)

/-- The check before each further handler: only the last one takes every error,
and the number of handlers before it is at most 255. -/
def ExceptArm.vet : ExceptArm → Nat → Bool
  | .nil, _ => true
  | .cons _ _ _ .nil, _ => true
  | .cons _ codes _ next, count => !codes.isNil && decide (count ≤ 255) && next.vet (count + 1)

mutual
def Stmt.admitted : Stmt → List (Option Nat) → Bool
  | .cond arms otherwise, loops =>
      !arms.isNil && arms.admitted loops && otherwise.admitted loops
  | .list id expr body, loops => expr.admitted false && body.admitted (some id :: loops)
  | .range id lower upper body, loops =>
      lower.admitted false && upper.admitted false && body.admitted (some id :: loops)
  | .while_ id condition body, loops => condition.admitted false && body.admitted (id :: loops)
  | .fork _ time body, _ => time.admitted false && body.admitted []
  | .expr expr, _ => expr.admitted false
  | .return_ expr, _ => expr.admitted false
  | .tryExcept body excepts, loops =>
      body.admitted loops && !excepts.isNil && excepts.vet 1 && excepts.admitted loops
  | .tryFinally body handler, loops => body.admitted loops && handler.admitted loops
  | .break_ exit, loops => checkLoopName exit loops
  | .continue_ exit, loops => checkLoopName exit loops
def Stmts.admitted : Stmts → List (Option Nat) → Bool
  | .nil, _ => true
  | .cons stmt next, loops => stmt.admitted loops && next.admitted loops
def CondArm.admitted : CondArm → List (Option Nat) → Bool
  | .nil, _ => true
  | .cons condition stmt next, loops =>
      condition.admitted false && stmt.admitted loops && next.admitted loops
def ExceptArm.admitted : ExceptArm → List (Option Nat) → Bool
  | .nil, _ => true
  | .cons _ codes stmt next, loops =>
      codes.admitted false && stmt.admitted loops && next.admitted loops
end

/-- The check counts the handlers before the last one, so one more than the 255
its message speaks of gets through. -/
theorem ExceptArm.count_le_of_vet {excepts : ExceptArm} {count : Nat} (h : excepts.vet count)
    (hle : count ≤ 256) : excepts.count + count ≤ 257 := by
  induction excepts, count using ExceptArm.vet.induct with
  | case1 => simpa [ExceptArm.count] using by omega
  | case2 => simpa [ExceptArm.count] using by omega
  | case3 id codes stmt next count hne ih =>
      rw [ExceptArm.vet] at h
      · simp only [Bool.and_eq_true, decide_eq_true_eq] at h
        have := ih h.2 (by omega)
        simp only [ExceptArm.count]
        omega
      · exact hne

end LambdaMoo
