import Mathlib.Algebra.GroupWithZero.Nat
import Mathlib.Algebra.Ring.Int.Defs
import Mathlib.Data.List.Basic

/-! MOO values. A `Var` of the server is a type tag and a union; here the tag
is the constructor and the payload its argument, so that reading the wrong
member of the union is a visible partial operation and not a cast. -/
namespace LambdaMoo

/-- A C string: its bytes in order, one character each, without the NUL. -/
abbrev Str := List Char

abbrev Objid := Int

inductive Error
  | eNone | eType | eDiv | ePerm | ePropnf | eVerbnf | eVarnf | eInvind
  | eRecmove | eMaxrec | eRange | eArgs | eNacc | eInvarg | eQuota | eFloat
  deriving DecidableEq, Repr

/-- Floating-point numbers are kept as their 64 bits; only the comparisons the
server makes on them are interpreted. -/
inductive Var
  | int (num : Int)
  | obj (obj : Objid)
  | str (str : Str)
  | err (err : Error)
  | list (list : List Var)
  | clear
  | none
  | catchMarker (num : Nat)
  | finallyMarker (num : Nat)
  | float (fnum : UInt64)
  deriving Repr, Inhabited

def zero : Var := .int 0

def nothing : Objid := -1
def systemObject : Objid := 0

def wrap32 (n : Int) : Int := n.bmod (2 ^ 32)

def asciiTolower (c : Char) : Char :=
  if 'A' ≤ c ∧ c ≤ 'Z' then Char.ofNat (c.toNat + 32) else c

def mystrcasecmp : Str → Str → Int
  | [], [] => 0
  | [], t :: _ => -((asciiTolower t).toNat : Int)
  | s :: _, [] => (asciiTolower s).toNat
  | s :: ss, t :: tt =>
      if asciiTolower s = asciiTolower t then mystrcasecmp ss tt
      else (asciiTolower s).toNat - (asciiTolower t).toNat

def sameName (s t : Str) : Bool := mystrcasecmp s t == 0

namespace Float64

def isZero (bits : UInt64) : Bool := bits.toNat % 2 ^ 63 == 0

def isNaN (bits : UInt64) : Bool := 0x7ff0000000000000 < bits.toNat % 2 ^ 63

/-- `==` on doubles: the two zeros are equal, and a NaN is equal to nothing. -/
def eq (a b : UInt64) : Bool :=
  !isNaN a && !isNaN b && (a == b || (isZero a && isZero b))

end Float64

mutual
/-- `equality(lhs, rhs, case_matters)`; none is its panic on the types that
are never values of the language. -/
def equality (caseMatters : Bool) : Var → Var → Option Bool
  | .float a, .float b => some (Float64.eq a b)
  | .float _, _ | _, .float _ => some false
  | .int a, .int b => some (a == b)
  | .obj a, .obj b => some (a == b)
  | .err a, .err b => some (a == b)
  | .str a, .str b => some (if caseMatters then a == b else sameName a b)
  | .list a, .list b => if a.length = b.length then equalityList caseMatters a b else some false
  | .clear, .clear | .none, .none => none
  | .catchMarker _, .catchMarker _ | .finallyMarker _, .finallyMarker _ => none
  | _, _ => some false
def equalityList (caseMatters : Bool) : List Var → List Var → Option Bool
  | a :: as, b :: bs =>
      match equality caseMatters a b with
      | none => none
      | some false => some false
      | some true => equalityList caseMatters as bs
  | _, _ => some true
end

def Var.isLiteral : Var → Bool
  | .int _ | .obj _ | .str _ | .err _ | .float _ => true
  | _ => false

def Var.sameType : Var → Var → Bool
  | .int _, .int _ | .obj _, .obj _ | .str _, .str _ | .err _, .err _ => true
  | .list _, .list _ | .clear, .clear | .none, .none => true
  | .catchMarker _, .catchMarker _ | .finallyMarker _, .finallyMarker _ => true
  | .float _, .float _ => true
  | _, _ => false

end LambdaMoo
