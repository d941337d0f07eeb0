import LambdaMoo.Opcode
import LambdaMoo.Ast

/-! Compiled programs. -/
namespace LambdaMoo

/-- The operand widths in the header of a code vector, in bytes. -/
structure NumBytes where
  label : Nat
  literal : Nat
  fork : Nat
  varName : Nat
  stack : Nat
  deriving DecidableEq, Repr

/-- A code vector. `size` is the length the vector was allocated with, `vector`
what was written to it. -/
structure Bytecodes where
  numbytes : NumBytes
  vector : List UInt8
  size : Nat
  maxStack : Nat
  deriving DecidableEq, Repr

structure Program where
  version : Nat
  mainVector : Bytecodes
  literals : List Var
  forkVectors : List Bytecodes
  varNames : List Str

def Program.vectors (prog : Program) : List Bytecodes := prog.mainVector :: prog.forkVectors

/-- `READ_BYTES(bv, nb)`: a big-endian operand and what follows it; none where
the bytes would be read beyond the end of the vector. -/
def readBytes : Nat → List UInt8 → Option (Nat × List UInt8)
  | 1, a :: bv => some (a.toNat, bv)
  | 1, [] => none
  | 2, a :: b :: bv => some (a.toNat <<< 8 + b.toNat, bv)
  | 2, _ => none
  | _, a :: b :: c :: d :: bv =>
      some (a.toNat <<< 24 + b.toNat <<< 16 + c.toNat <<< 8 + d.toNat, bv)
  | _, _ => none

end LambdaMoo
