import LambdaMoo.Structures

/-! Statement and expression trees. The kinds that one case of the source
treats alike share a constructor and keep their kind as its argument. -/
namespace LambdaMoo

inductive BinaryKind
  | eq | ne | ge | gt | le | lt | in_ | plus | minus | times | divide | mod | exp
  deriving DecidableEq, Repr

inductive LogicKind
  | and | or
  deriving DecidableEq, Repr

inductive UnaryKind
  | negate | not
  deriving DecidableEq, Repr

inductive ArgKind
  | normal | splice
  deriving DecidableEq, Repr

inductive ScatterKind
  | required | optional | rest
  deriving DecidableEq, Repr

mutual
/-- An expression. In a catch an empty code list stands for `ANY`. -/
inductive Expr
  | var (value : Var)
  | id (slot : Nat)
  | prop (lhs rhs : Expr)
  | verb (obj verb : Expr) (args : ArgList)
  | index (lhs rhs : Expr)
  | range (base lower upper : Expr)
  | asgn (lhs rhs : Expr)
  | call (func : Nat) (args : ArgList)
  | binary (kind : BinaryKind) (lhs rhs : Expr)
  | logic (kind : LogicKind) (lhs rhs : Expr)
  | unary (kind : UnaryKind) (expr : Expr)
  | list (args : ArgList)
  | cond (condition consequent alternate : Expr)
  | catch_ (body : Expr) (codes : ArgList) (except : Default)
  | length
  | scatter (targets : Scatter)
inductive ArgList
  | nil
  | cons (kind : ArgKind) (expr : Expr) (next : ArgList)
inductive Scatter
  | nil
  | cons (kind : ScatterKind) (id : Nat) (expr : Default) (next : Scatter)
/-- An expression that may be left out. -/
inductive Default
  | none
  | some (expr : Expr)
end

mutual
/-- A statement; an optional identifier is none where the source has -1. -/
inductive Stmt
  | cond (arms : CondArm) (otherwise : Stmts)
  | list (id : Nat) (expr : Expr) (body : Stmts)
  | range (id : Nat) (lower upper : Expr) (body : Stmts)
  | while_ (id : Option Nat) (condition : Expr) (body : Stmts)
  | fork (id : Option Nat) (time : Expr) (body : Stmts)
  | expr (expr : Expr)
  | return_ (expr : Default)
  | tryExcept (body : Stmts) (excepts : ExceptArm)
  | tryFinally (body handler : Stmts)
  | break_ (exit : Option Nat)
  | continue_ (exit : Option Nat)
/-- A chain of statements through their `next` pointers. -/
inductive Stmts
  | nil
  | cons (stmt : Stmt) (next : Stmts)
inductive CondArm
  | nil
  | cons (condition : Expr) (stmt : Stmts) (next : CondArm)
inductive ExceptArm
  | nil
  | cons (id : Option Nat) (codes : ArgList) (stmt : Stmts) (next : ExceptArm)
end

def ArgList.isNil : ArgList → Bool
  | .nil => true
  | .cons .. => false

def Scatter.isNil : Scatter → Bool
  | .nil => true
  | .cons .. => false

def Default.isNone : Default → Bool
  | .none => true
  | .some _ => false

def ExceptArm.isNil : ExceptArm → Bool
  | .nil => true
  | .cons .. => false

def CondArm.isNil : CondArm → Bool
  | .nil => true
  | .cons .. => false

def Stmts.isNil : Stmts → Bool
  | .nil => true
  | .cons .. => false

def ExceptArm.count : ExceptArm → Nat
  | .nil => 0
  | .cons _ _ _ next => next.count + 1

def Scatter.count : Scatter → Nat
  | .nil => 0
  | .cons _ _ _ next => next.count + 1

def Scatter.countKind (kind : ScatterKind) : Scatter → Nat
  | .nil => 0
  | .cons k _ _ next => (if k = kind then 1 else 0) + next.countKind kind

end LambdaMoo
