import LambdaMoo.Structures

/-! The byte encoding of opcodes. The enumerations of the source give each
opcode its byte; `ofByte` reads a byte back. The 256 bytes are all used: the
last 143 are small integer literals. -/
namespace LambdaMoo

inductive ExtendedOpcode
  | rangeset | length | pushLabel | endCatch | endExcept | endFinally | continue_
  | catch_ | tryExcept | tryFinally | whileId | exit | exitId | scatter | exp
  deriving DecidableEq, Repr

inductive Opcode
  | if_ | while_ | eif | fork | forkWithId | forList | forRange
  | indexset | pushGetProp | getProp | callVerb | putProp | biFuncCall | ifQues | ref | rangeRef
  | makeSingletonList | checkListForSplice
  | mult | div | mod | add | minus
  | eq | ne | lt | le | gt | ge | in_
  | and | or
  | unaryMinus | not
  | put (slot : Fin 32) | gPut
  | push (slot : Fin 32) | gPush
  | imm | makeEmptyList | listAddTail | listAppend | pushRef | putTemp | pushTemp
  | jump | return_ | return0 | done | pop
  | extended
  | optimNum (index : Fin 143)
  deriving DecidableEq, Repr

def ExtendedOpcode.byte : ExtendedOpcode → UInt8
  | .rangeset => 0 | .length => 1 | .pushLabel => 2 | .endCatch => 3 | .endExcept => 4
  | .endFinally => 5 | .continue_ => 6
  | .catch_ => 7 | .tryExcept => 8 | .tryFinally => 9 | .whileId => 10 | .exit => 11
  | .exitId => 12 | .scatter => 13 | .exp => 14

def ExtendedOpcode.ofByte (b : UInt8) : Option ExtendedOpcode :=
  match b.toNat with
  | 0 => some .rangeset | 1 => some .length | 2 => some .pushLabel | 3 => some .endCatch
  | 4 => some .endExcept | 5 => some .endFinally | 6 => some .continue_
  | 7 => some .catch_ | 8 => some .tryExcept | 9 => some .tryFinally | 10 => some .whileId
  | 11 => some .exit | 12 => some .exitId | 13 => some .scatter | 14 => some .exp
  | _ => none

@[simp] theorem ExtendedOpcode.ofByte_byte (eop : ExtendedOpcode) :
    ExtendedOpcode.ofByte eop.byte = some eop := by
  cases eop <;> rfl

def Opcode.byte : Opcode → UInt8
  | .if_ => 0 | .while_ => 1 | .eif => 2 | .fork => 3 | .forkWithId => 4 | .forList => 5
  | .forRange => 6
  | .indexset => 7 | .pushGetProp => 8 | .getProp => 9 | .callVerb => 10 | .putProp => 11
  | .biFuncCall => 12 | .ifQues => 13 | .ref => 14 | .rangeRef => 15
  | .makeSingletonList => 16 | .checkListForSplice => 17
  | .mult => 18 | .div => 19 | .mod => 20 | .add => 21 | .minus => 22
  | .eq => 23 | .ne => 24 | .lt => 25 | .le => 26 | .gt => 27 | .ge => 28 | .in_ => 29
  | .and => 30 | .or => 31
  | .unaryMinus => 32 | .not => 33
  | .put slot => UInt8.ofNat (34 + slot.val) | .gPut => 66
  | .push slot => UInt8.ofNat (67 + slot.val) | .gPush => 99
  | .imm => 100 | .makeEmptyList => 101 | .listAddTail => 102 | .listAppend => 103
  | .pushRef => 104 | .putTemp => 105 | .pushTemp => 106
  | .jump => 107 | .return_ => 108 | .return0 => 109 | .done => 110 | .pop => 111
  | .extended => 112
  | .optimNum index => UInt8.ofNat (113 + index.val)

def Opcode.plain : Nat → Opcode
  | 0 => .if_ | 1 => .while_ | 2 => .eif | 3 => .fork | 4 => .forkWithId | 5 => .forList
  | 6 => .forRange
  | 7 => .indexset | 8 => .pushGetProp | 9 => .getProp | 10 => .callVerb | 11 => .putProp
  | 12 => .biFuncCall | 13 => .ifQues | 14 => .ref | 15 => .rangeRef
  | 16 => .makeSingletonList | 17 => .checkListForSplice
  | 18 => .mult | 19 => .div | 20 => .mod | 21 => .add | 22 => .minus
  | 23 => .eq | 24 => .ne | 25 => .lt | 26 => .le | 27 => .gt | 28 => .ge | 29 => .in_
  | 30 => .and | 31 => .or
  | 32 => .unaryMinus | _ => .not

def Opcode.late : Nat → Opcode
  | 100 => .imm | 101 => .makeEmptyList | 102 => .listAddTail | 103 => .listAppend
  | 104 => .pushRef | 105 => .putTemp | 106 => .pushTemp
  | 107 => .jump | 108 => .return_ | 109 => .return0 | 110 => .done | 111 => .pop
  | _ => .extended

def Opcode.ofByte (b : UInt8) : Opcode :=
  if h : b.toNat < 34 then .plain b.toNat
  else if h : b.toNat < 66 then .put ⟨b.toNat - 34, by omega⟩
  else if b.toNat = 66 then .gPut
  else if h : b.toNat < 99 then .push ⟨b.toNat - 67, by omega⟩
  else if b.toNat = 99 then .gPush
  else if h : b.toNat < 113 then .late b.toNat
  else .optimNum ⟨b.toNat - 113, by have := b.toNat_lt; omega⟩

@[simp] theorem Opcode.ofByte_byte (op : Opcode) : Opcode.ofByte op.byte = op := by
  cases op with
  | put slot => revert slot; decide
  | push slot => revert slot; decide
  | optimNum index => revert index; decide
  | _ => rfl

def optimNumLow : Int := -10
def optimNumHi : Int := 132

def optimNumToOpcode (num : Int) : Opcode := .optimNum (Fin.ofNat 143 (num - optimNumLow).toNat)

def inOptimNumRange (num : Int) : Prop := optimNumLow ≤ num ∧ num ≤ optimNumHi

instance (num : Int) : Decidable (inOptimNumRange num) :=
  inferInstanceAs (Decidable (_ ∧ _))

def opcodeToOptimNum (index : Fin 143) : Int := index.val + optimNumLow

theorem opcodeToOptimNum_optimNumToOpcode {num : Int} (h : inOptimNumRange num) :
    opcodeToOptimNum (Fin.ofNat 143 (num - optimNumLow).toNat) = num := by
  simp only [inOptimNumRange, optimNumLow, optimNumHi] at h
  simp only [opcodeToOptimNum, optimNumLow, Fin.val_ofNat]
  omega

def countTick (op : Opcode) : Bool := op.byte ≤ Opcode.gPut.byte

end LambdaMoo
