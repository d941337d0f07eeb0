import LambdaMoo.Structures

/-! Arithmetic on values. The operators of the server are strict: they do not convert
between integers and floating-point numbers, `^` apart. -/
namespace LambdaMoo

/-- Arithmetic on `double`, as the machine does it on 64 bits. `pow` also says whether it
sets `errno`. -/
structure Doubles where
  add : UInt64 → UInt64 → UInt64
  sub : UInt64 → UInt64 → UInt64
  mul : UInt64 → UInt64 → UInt64
  div : UInt64 → UInt64 → UInt64
  fmod : UInt64 → UInt64 → UInt64
  pow : UInt64 → UInt64 → UInt64 × Bool
  neg : UInt64 → UInt64
  lt : UInt64 → UInt64 → Bool
  ofInt : Int → UInt64

def Float64.isReal (bits : UInt64) : Bool := bits.toNat % 2 ^ 63 < 0x7ff0000000000000

def intMin : Int := -2 ^ 31

/-- `a / b` on `int`. C leaves it undefined for a zero divisor and for a quotient that
is no `int`. -/
def intDiv (a b : Int) : Option Int :=
  if b = 0 ∨ (a = intMin ∧ b = -1) then none else some (a.tdiv b)

def intMod (a b : Int) : Option Int :=
  if b = 0 ∨ (a = intMin ∧ b = -1) then none else some (a.tmod b)

def compareIntegers (a b : Int) : Int := if a < b then -1 else if a = b then 0 else 1

variable (fl : Doubles)

/-- `compare_numbers(a, b)`; none is an operand that is no number. -/
def compareNumbers (a b : Var) : Option Var :=
  if !a.sameType b then some (.err .eType)
  else
    match a, b with
    | .int a, .int b => some (.int (compareIntegers a b))
    | .float a, .float b =>
        some (.int (if fl.lt a b then -1 else if Float64.eq a b then 0 else 1))
    | _, _ => none

/-- A `double` that has been computed, or the error for one that is not real. -/
def checkedFloat (d : UInt64) : Var := if !Float64.isReal d then .err .eFloat else .float d

/-- `SIMPLE_BINARY(name, op)`; none is an operand that is no number. -/
def simpleBinary (iop : Int → Int → Int) (fop : UInt64 → UInt64 → UInt64) (a b : Var) : Option Var :=
  if !a.sameType b then some (.err .eType)
  else
    match a, b with
    | .int a, .int b => some (.int (wrap32 (iop a b)))
    | .float a, .float b => some (checkedFloat (fop a b))
    | _, _ => none

def doAdd : Var → Var → Option Var := simpleBinary (· + ·) fl.add
def doSubtract : Var → Var → Option Var := simpleBinary (· - ·) fl.sub
def doMultiply : Var → Var → Option Var := simpleBinary (· * ·) fl.mul

/-- `DIVISION_OP(name, iop, fexpr)`; none is also a division that C leaves undefined. -/
def divisionOp (iop : Int → Int → Option Int) (fexpr : UInt64 → UInt64 → UInt64) (a b : Var) :
    Option Var :=
  if !a.sameType b then some (.err .eType)
  else
    match a, b with
    | .int a, .int b => if b ≠ 0 then (iop a b).map .int else some (.err .eDiv)
    | .float a, .float b =>
        if !Float64.isZero b then some (checkedFloat (fexpr a b)) else some (.err .eDiv)
    | _, _ => none

def doDivide : Var → Var → Option Var := divisionOp intDiv fl.div
def doModulus : Var → Var → Option Var := divisionOp intMod fl.fmod

/-- The loop of `do_power`: `r` is multiplied by `a` for every bit of `b`, and `a` is
squared in between. -/
def powerLoop (a r : Int) (b : Nat) : Int :=
  if b = 0 then r
  else powerLoop (wrap32 (a * a)) (if b % 2 ≠ 0 then wrap32 (r * a) else r) (b / 2)

def doPower : Var → Var → Var
  | .int a, .int b =>
      if b < 0 then
        if a = -1 then .int (if b % 2 = 0 then 1 else -1)
        else if a = 0 then .err .eDiv
        else if a = 1 then .int 1
        else .int 0
      else .int (powerLoop a 1 b.toNat)
  | .float a, .int b => power a (fl.ofInt b)
  | .float a, .float b => power a b
  | _, _ => .err .eType
where
  power (a b : UInt64) : Var := if (fl.pow a b).2 then .err .eFloat else checkedFloat (fl.pow a b).1

def Var.isNumber : Var → Bool
  | .int _ | .float _ => true
  | _ => false

/-- The cases of `OP_MULT`, `OP_MINUS`, `OP_DIV` and `OP_MOD` in `run`: an error is
raised where the answer is one. -/
def arithmetic (operator : Var → Var → Option Var) (lhs rhs : Var) : Option Var :=
  if lhs.isNumber && rhs.isNumber then operator lhs rhs else some (.err .eType)

def opUnaryMinus : Var → Var
  | .int num => .int (wrap32 (-num))
  | .float fnum => .float (fl.neg fnum)
  | _ => .err .eType

end LambdaMoo
