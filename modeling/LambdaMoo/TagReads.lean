import LambdaMoo.DbProperties
import LambdaMoo.Dbio
import LambdaMoo.Editing
import LambdaMoo.Numbers
import LambdaMoo.RunLoop

/-! The operands of the opcodes as `run` reads them. A value is a tag and a union, and the tag says
which member of the union is there; every opcode looks at the tags of its operands before it reads
their members, but for three. -/
namespace LambdaMoo

inductive VarType
  | int | obj | str | err | list | clear | none | catch_ | finally_ | float
  deriving DecidableEq, Repr

def Var.type : Var → VarType
  | .int _ => .int
  | .obj _ => .obj
  | .str _ => .str
  | .err _ => .err
  | .list _ => .list
  | .clear => .clear
  | .none => .none
  | .catchMarker _ => .catch_
  | .finallyMarker _ => .finally_
  | .float _ => .float

section

variable (n : Int) (o : Objid) (s : Str) (e : Error) (l : List Var) (m : Nat) (d : UInt64)

@[simp] theorem type_int : (Var.int n).type = .int := rfl
@[simp] theorem type_obj : (Var.obj o).type = .obj := rfl
@[simp] theorem type_str : (Var.str s).type = .str := rfl
@[simp] theorem type_err : (Var.err e).type = .err := rfl
@[simp] theorem type_list : (Var.list l).type = .list := rfl
@[simp] theorem type_catchMarker : (Var.catchMarker m).type = .catch_ := rfl
@[simp] theorem type_float : (Var.float d).type = .float := rfl

end

/-- A member of the union that is read where another one is. -/
structure Misread where
  value : Var
  member : VarType

abbrev Reads := Except Misread

/-! The members of the union, each read as if it were there. -/

def Var.readNum : Var → Reads Int
  | .int num => .ok num
  | v => .error ⟨v, .int⟩

def Var.readObj : Var → Reads Objid
  | .obj o => .ok o
  | v => .error ⟨v, .obj⟩

def Var.readStr : Var → Reads Str
  | .str s => .ok s
  | v => .error ⟨v, .str⟩

def Var.readErr : Var → Reads Error
  | .err e => .ok e
  | v => .error ⟨v, .err⟩

def Var.readList : Var → Reads (List Var)
  | .list l => .ok l
  | v => .error ⟨v, .list⟩

def Var.readFnum : Var → Reads UInt64
  | .float fnum => .ok fnum
  | v => .error ⟨v, .float⟩

def Var.readMarker : Var → Reads Nat
  | .catchMarker num => .ok num
  | v => .error ⟨v, .catch_⟩

section

variable (n : Int) (o : Objid) (s : Str) (e : Error) (l : List Var) (m : Nat) (d : UInt64)

@[simp] theorem readNum_int : (Var.int n).readNum = .ok n := rfl
@[simp] theorem readObj_obj : (Var.obj o).readObj = .ok o := rfl
@[simp] theorem readStr_str : (Var.str s).readStr = .ok s := rfl
@[simp] theorem readErr_err : (Var.err e).readErr = .ok e := rfl
@[simp] theorem readList_list : (Var.list l).readList = .ok l := rfl
@[simp] theorem readFnum_float : (Var.float d).readFnum = .ok d := rfl
@[simp] theorem readMarker_catchMarker : (Var.catchMarker m).readMarker = .ok m := rfl

end

def andAlso (a : Bool) (b : Reads Bool) : Reads Bool := if a then b else return false

def anyReads : List (Reads Bool) → Reads Bool
  | [] => return false
  | c :: cs => do if ← c then return true else anyReads cs

/-- What an opcode comes to with its operands. An error is raised in a verb with the debug flag. -/
inductive Answer
  /-- A value is pushed. -/
  | push (v : Var)
  | raise (e : Error)
  /-- The function that makes the value breaks off, or C does not say what comes of it. -/
  | breaks
  /-- A condition has been tested. -/
  | branch (b : Bool)
  /-- A loop goes on: with the value of its variable, and what replaces it on the stack. -/
  | assign (v next : Var)
  /-- A loop is over. -/
  | leave
  /-- The operands stay, or what has been called goes on. -/
  | keep

def Answer.made : Except Crash Var → Answer
  | .ok v => .push v
  | .error _ => .breaks

/-- What the opcodes ask about: the objects and properties, the programmer, and what is called. -/
structure Surroundings where
  fl : Doubles
  valid : Objid → Bool
  /-- The value of a property that may be read, or `E_PROPNF` or `E_PERM`. -/
  getProp : Objid → Str → Except Error Var
  /-- `h.built_in`, if there is the property. -/
  handle : Objid → Str → Option (Option BiProp)
  mayWrite : Objid → Str → Bool
  /-- The programmer is a wizard. -/
  wizard : Bool
  /-- The programmer owns the object. -/
  owns : Objid → Bool
  isUser : Objid → Bool
  callVerb2 : Objid → Str → List Var → Error
  enqueueForkedTask2 : Int → Error

/-! The functions that the opcodes call. -/

def Var.isTrueReads (v : Var) : Reads Bool := do
  if v.type = .int then return (← v.readNum) ≠ 0
  else if v.type = .float then return !Float64.isZero (← v.readFnum)
  else if v.type = .str then return (← v.readStr) ≠ []
  else if v.type = .list then return (← v.readList).length ≠ 0
  else return false

def doEqualsReads (lhs rhs : Var) : Reads Bool := do
  if lhs.type ≠ rhs.type then return false
  else return Float64.eq (← lhs.readFnum) (← rhs.readFnum)

/-- `equality(lhs, rhs, case_matters)` on values of which the one on the left is no list; none is its
panic. -/
def equalityScalars (caseMatters : Bool) (lhs rhs : Var) : Reads (Option Bool) := do
  if lhs.type = .float ∨ rhs.type = .float then return some (← doEqualsReads lhs rhs)
  else if lhs.type ≠ rhs.type then return some false
  else
    match lhs.type with
    | .int => return some ((← lhs.readNum) == (← rhs.readNum))
    | .obj => return some ((← lhs.readObj) == (← rhs.readObj))
    | .err => return some ((← lhs.readErr) == (← rhs.readErr))
    | .str =>
        if caseMatters then return some ((← lhs.readStr) == (← rhs.readStr))
        else return some (sameName (← lhs.readStr) (← rhs.readStr))
    | _ => return none

mutual
/-- `equality(lhs, rhs, case_matters)`. The recursion is on the elements of the list on the left. -/
def equalityReads (caseMatters : Bool) : Var → Var → Reads (Option Bool)
  | .list l, rhs => do
      if rhs.type = .float then return some (← doEqualsReads (.list l) rhs)
      else if VarType.list ≠ rhs.type then return some false
      else
        let r ← rhs.readList
        if l.length ≠ r.length then return some false
        else equalityListReads caseMatters l r
  | lhs, rhs => equalityScalars caseMatters lhs rhs
def equalityListReads (caseMatters : Bool) : List Var → List Var → Reads (Option Bool)
  | a :: as, b :: bs => do
      match ← equalityReads caseMatters a b with
      | none => return none
      | some false => return some false
      | some true => equalityListReads caseMatters as bs
  | _, _ => return some true
end

/-- `ismember(lhs, rhs, case_matters)` from the place `i` on; none is the panic of `equality`. -/
def ismemberReads (caseMatters : Bool) (lhs : Var) : List Var → Int → Reads (Option Int)
  | [], _ => return some 0
  | v :: rhs, i => do
      match ← equalityReads caseMatters lhs v with
      | none => return none
      | some true => return some i
      | some false => ismemberReads caseMatters lhs rhs (i + 1)

def compareNumbersReads (fl : Doubles) (a b : Var) : Reads Var := do
  if a.type ≠ b.type then return .err .eType
  else if a.type = .int then return .int (compareIntegers (← a.readNum) (← b.readNum))
  else
    let aa ← a.readFnum
    let bb ← b.readFnum
    return .int (if fl.lt aa bb then -1 else if Float64.eq aa bb then 0 else 1)

def simpleBinaryReads (iop : Int → Int → Int) (fop : UInt64 → UInt64 → UInt64) (a b : Var) :
    Reads (Option Var) := do
  if a.type ≠ b.type then return some (.err .eType)
  else if a.type = .int then return some (.int (wrap32 (iop (← a.readNum) (← b.readNum))))
  else return some (checkedFloat (fop (← a.readFnum) (← b.readFnum)))

/-- `DIVISION_OP(name, iop, fexpr)`; none is a division that C leaves undefined. -/
def divisionOpReads (iop : Int → Int → Option Int) (fexpr : UInt64 → UInt64 → UInt64) (a b : Var) :
    Reads (Option Var) := do
  if a.type ≠ b.type then return some (.err .eType)
  else if ← andAlso (a.type = .int) do return (← b.readNum) ≠ 0 then
    return (iop (← a.readNum) (← b.readNum)).map .int
  else if ← andAlso (a.type = .float) do return !Float64.isZero (← b.readFnum) then
    return some (checkedFloat (fexpr (← a.readFnum) (← b.readFnum)))
  else return some (.err .eDiv)

def doPowerReads (fl : Doubles) (lhs rhs : Var) : Reads Var := do
  if lhs.type = .int then
    let a ← lhs.readNum
    if rhs.type ≠ .int then return .err .eType
    else return doPower fl (.int a) (.int (← rhs.readNum))
  else if lhs.type = .float then
    if rhs.type = .int then return doPower fl (.float (← lhs.readFnum)) (.int (← rhs.readNum))
    else if rhs.type = .float then return doPower fl (.float (← lhs.readFnum)) (.float (← rhs.readFnum))
    else return .err .eType
  else return .err .eType

def setPropertyValueReads (value : Var) : Option BiProp → Reads Answer
  | none => return .push value
  | some .name => do
      if value.type ≠ .str then return .breaks
      else
        let _ ← value.readStr
        return .push value
  | some .owner => do
      if value.type ≠ .obj then return .breaks
      else
        let _ ← value.readObj
        return .push value
  | some .location | some .contents => return .breaks
  | some .programmer | some .wizard | some .r | some .w | some .f => do
      let _ ← value.isTrueReads
      return .push value

/-! The opcodes, on the operands that they pop or look at. -/

/-- `OP_IF_QUES`, `OP_IF`, `OP_WHILE`, `OP_EIF` and `EOP_WHILE_ID`. `OP_AND`, `OP_OR` and `OP_NOT` make the
same test. -/
def opTest (cond : Var) : Reads Answer := return .branch (← cond.isTrueReads)

def opForList (list count : Var) : Reads Answer := do
  if list.type ≠ .list then return .raise .eType
  else if (← count.readNum) > (← list.readList).length then return .leave
  else
    match element (← list.readList) (← count.readNum) with
    | .ok v => return .assign v (.int (wrap32 ((← count.readNum) + 1)))
    | .error _ => return .breaks

def isPast (from' to' : Var) : Reads Bool := do
  if to'.type = .int then return (← from'.readNum) > (← to'.readNum)
  else return (← from'.readObj) > (← to'.readObj)

def opForRangeReads (from' to' : Var) : Reads Answer := do
  if (to'.type ≠ .int ∧ to'.type ≠ .obj) ∨ to'.type ≠ from'.type then return .raise .eType
  else if ← isPast from' to' then return .leave
  else if to'.type = .int then return .assign from' (.int (wrap32 ((← from'.readNum) + 1)))
  else return .assign from' (.obj (wrap32 ((← from'.readObj) + 1)))

def opListAddTail (list tail : Var) : Reads Answer := do
  if list.type ≠ .list then return .raise .eType
  else return .push (.list ((← list.readList) ++ [tail]))

def opListAppend (list tail : Var) : Reads Answer := do
  if tail.type ≠ .list ∨ list.type ≠ .list then return .raise .eType
  else return .push (.list ((← list.readList) ++ (← tail.readList)))

def opIndexset (list index value : Var) : Reads Answer := do
  if (list.type ≠ .list ∧ list.type ≠ .str) ∨ index.type ≠ .int ∨ (list.type = .str ∧ value.type ≠ .str) then
    return .raise .eType
  else if ← anyReads [do return (← index.readNum) < 1,
      andAlso (list.type = .list) do return (← index.readNum) > (← list.readList).length,
      andAlso (list.type = .str) do return (← index.readNum) > intLength (← list.readStr)] then
    return .raise .eRange
  else if ← andAlso (list.type = .str) do return (← value.readStr).length ≠ 1 then return .raise .eInvarg
  else if list.type = .list then
    return .push (.list ((← list.readList).set ((← index.readNum) - 1).toNat value))
  else
    return .push (.str ((← list.readStr).set ((← index.readNum) - 1).toNat ((← value.readStr).headD '\x00')))

def opCheckListForSplice (list : Var) : Reads Answer := do
  if list.type ≠ .list then return .raise .eType else return .keep

def opEq (negated : Bool) (lhs rhs : Var) : Reads Answer := do
  match ← equalityReads false rhs lhs with
  | none => return .breaks
  | some b => return .push (.int (if b ≠ negated then 1 else 0))

def opCompare (fl : Doubles) (holds : Int → Bool) (lhs rhs : Var) : Reads Answer := do
  if (lhs.type = .int ∨ lhs.type = .float) ∧ (rhs.type = .int ∨ rhs.type = .float) then
    let ans ← compareNumbersReads fl lhs rhs
    if ans.type = .err then return .raise (← ans.readErr)
    else return finish (← ans.readNum)
  else if rhs.type ≠ lhs.type ∨ rhs.type = .list then return .raise .eType
  else
    match rhs.type with
    | .int => return finish (compareIntegers (← lhs.readNum) (← rhs.readNum))
    | .obj => return finish (compareIntegers (← lhs.readObj) (← rhs.readObj))
    | .err => return finish (Dbio.errorNum (← lhs.readErr) - Dbio.errorNum (← rhs.readErr))
    | .str => return finish (mystrcasecmp (← lhs.readStr) (← rhs.readStr))
    | _ => return finish 0
where
  finish (comparison : Int) : Answer := .push (.int (if holds comparison then 1 else 0))

def opIn (lhs rhs : Var) : Reads Answer := do
  if rhs.type ≠ .list then return .raise .eType
  else
    match ← ismemberReads false lhs (← rhs.readList) 1 with
    | none => return .breaks
    | some i => return .push (.int i)

def pushAnswer : Option Var → Reads Answer
  | none => return .breaks
  | some ans => do if ans.type = .err then return .raise (← ans.readErr) else return .push ans

def opArithmetic (operator : Var → Var → Reads (Option Var)) (lhs rhs : Var) : Reads Answer := do
  if (lhs.type = .int ∨ lhs.type = .float) ∧ (rhs.type = .int ∨ rhs.type = .float) then
    pushAnswer (← operator lhs rhs)
  else pushAnswer (some (.err .eType))

def opAddReads (fl : Doubles) (lhs rhs : Var) : Reads Answer := do
  if (lhs.type = .int ∨ lhs.type = .float) ∧ (rhs.type = .int ∨ rhs.type = .float) then
    pushAnswer (← simpleBinaryReads (· + ·) fl.add lhs rhs)
  else if lhs.type = .str ∧ rhs.type = .str then
    pushAnswer (some (.str ((← lhs.readStr) ++ (← rhs.readStr))))
  else pushAnswer (some (.err .eType))

def opUnaryMinusReads (fl : Doubles) (arg : Var) : Reads Answer := do
  if arg.type = .int then return .push (.int (wrap32 (-(← arg.readNum))))
  else if arg.type = .float then return .push (.float (fl.neg (← arg.readFnum)))
  else return .raise .eType

def opRefReads (list index : Var) : Reads Answer := do
  if index.type ≠ .int ∨ (list.type ≠ .list ∧ list.type ≠ .str) then return .raise .eType
  else if list.type = .list then
    if ← anyReads [do return (← index.readNum) ≤ 0, do return (← index.readNum) > (← list.readList).length] then
      return .raise .eRange
    else return .made (element (← list.readList) (← index.readNum))
  else
    if ← anyReads [do return (← index.readNum) ≤ 0, do return (← index.readNum) > intLength (← list.readStr)] then
      return .raise .eRange
    else return .made (strget (← list.readStr) (← index.readNum))

def opPushRefReads (list index : Var) : Reads Answer := do
  if index.type ≠ .int ∨ list.type ≠ .list then return .raise .eType
  else if ← anyReads [do return (← index.readNum) ≤ 0, do return (← index.readNum) > (← list.readList).length] then
    return .raise .eRange
  else return .made (element (← list.readList) (← index.readNum))

def baseLength (base : Var) : Reads Int := do
  if base.type = .str then return intLength (← base.readStr)
  else return (← base.readList).length

def opRangeRefReads (base from' to' : Var) : Reads Answer := do
  if (base.type ≠ .list ∧ base.type ≠ .str) ∨ to'.type ≠ .int ∨ from'.type ≠ .int then return .raise .eType
  else
    let len ← baseLength base
    if outOfRange len (← from'.readNum) (← to'.readNum) then return .raise .eRange
    else if base.type = .str then return .made (substr (← base.readStr) (← from'.readNum) (← to'.readNum))
    else return .made (sublist (← base.readList) (← from'.readNum) (← to'.readNum))

def opGetProp (around : Surroundings) (obj propname : Var) : Reads Answer := do
  if propname.type ≠ .str ∨ obj.type ≠ .obj then return .raise .eType
  else if !around.valid (← obj.readObj) then return .raise .eInvind
  else
    match around.getProp (← obj.readObj) (← propname.readStr) with
    | .ok prop => return .push prop
    | .error e => return .raise e

def putPropErr (around : Surroundings) (oid : Objid) (propname : Str) (rhs : Var) : Option BiProp → Reads Error
  | none => return if !around.mayWrite oid propname then .ePerm else .eNone
  | some .name =>
      if rhs.type ≠ .str then return .eType
      else return if !around.wizard && (around.isUser oid || !around.owns oid) then .ePerm else .eNone
  | some .owner => if rhs.type ≠ .obj then return .eType else return if !around.wizard then .ePerm else .eNone
  | some .programmer => return if !around.wizard then .ePerm else .eNone
  | some .wizard => do
      if !around.wizard then return .ePerm
      else
        -- whether the change is to be logged
        let _ ← rhs.isTrueReads
        return .eNone
  | some .r | some .w | some .f => return if !around.owns oid && !around.wizard then .ePerm else .eNone
  | some .location | some .contents => return .ePerm

def opPutPropReads (around : Surroundings) (obj propname rhs : Var) : Reads Answer := do
  if obj.type ≠ .obj ∨ propname.type ≠ .str then return .raise .eType
  else if !around.valid (← obj.readObj) then return .raise .eInvind
  else
    match around.handle (← obj.readObj) (← propname.readStr) with
    | none => return .raise .ePropnf
    | some builtIn =>
        let err ← putPropErr around (← obj.readObj) (← propname.readStr) rhs builtIn
        if err = .eNone then setPropertyValueReads rhs builtIn else return .raise err

def opFork (around : Surroundings) (time : Var) : Reads Answer := do
  if time.type ≠ .int then return .raise .eType
  else if (← time.readNum) < 0 then return .raise .eInvarg
  else
    let e := around.enqueueForkedTask2 (← time.readNum)
    if e ≠ .eNone then return .raise e else return .keep

def callVerbErr (around : Surroundings) (obj verb args : Var) : Reads Error := do
  if args.type ≠ .list ∨ verb.type ≠ .str ∨ obj.type ≠ .obj then return .eType
  else if !around.valid (← obj.readObj) then return .eInvind
  else return around.callVerb2 (← obj.readObj) (← verb.readStr) (← args.readList)

def opCallVerb (around : Surroundings) (obj verb args : Var) : Reads Answer := do
  let err ← callVerbErr around obj verb args
  if err ≠ .eNone then return .raise err else return .keep

def opBiFuncCall (args : Var) : Reads Answer := do
  if args.type ≠ .list then return .raise .eType else return .keep

/-- The length of the base of an assignment to a range; that of a string has been computed. -/
def rangesetLast (len : Nat) (base : Var) : Reads Int := do
  if base.type = .str then return min (len : Int) intMax
  else return (← base.readList).length

def eopRangesetReads (base from' to' value : Var) : Reads Answer := do
  -- the length of a string, before the tag has been looked at
  let len := (← base.readStr).length
  if to'.type ≠ .int ∨ from'.type ≠ .int ∨ (base.type ≠ .list ∧ base.type ≠ .str) ∨
      (value.type ≠ .list ∧ value.type ≠ .str) ∨ base.type ≠ value.type then return .raise .eType
  else
    let last ← rangesetLast len base
    if rangesetCheck last (← from'.readNum) (← to'.readNum) then return .raise .eRange
    else if base.type = .list then
      return .made (listrangeset (← base.readList) (← from'.readNum) (← to'.readNum) (← value.readList))
    else return .made (strrangeset (← base.readStr) (← from'.readNum) (← to'.readNum) (← value.readStr))

def eopLength (item : Var) : Reads Answer := do
  if item.type = .str then return .push (.int (intLength (← item.readStr)))
  else if item.type = .list then return .push (.int (← item.readList).length)
  else return .raise .eType

def eopExp (fl : Doubles) (lhs rhs : Var) : Reads Answer := do
  pushAnswer (some (← doPowerReads fl lhs rhs))

def eopScatterReads (nargs nreq : Nat) (haveRest : Bool) (list : Var) : Reads Answer := do
  if list.type ≠ .list then return .raise .eType
  else
    let len := (← list.readList).length
    if len < nreq ∨ (!haveRest ∧ nargs < len) then return .raise .eArgs else return .keep

def eopEndCatch (marker : Var) : Reads Answer := do
  if marker.type ≠ .catch_ then return .breaks
  else
    let _ ← marker.readMarker
    return .keep

/-- What `unwind_stack` reads of the value that `EOP_CONTINUE` hands to it. The place that a loop is left
to is not read if a finally part comes first. -/
def unwindReads (caught : Bool) (v : Var) : Reason → Reads Answer
  | .raise => do
      match ← v.readList with
      | [] => return .breaks
      | _ :: _ => return .keep
  | .exit => do
      match ← v.readList with
      | [] => return .breaks
      | goal :: rest =>
          let _ ← goal.readNum
          if caught then return .keep
          else
            match rest with
            | [] => return .breaks
            | pc :: _ =>
                let _ ← pc.readNum
                return .keep
  | _ => return .keep

def eopContinue (caught : Bool) (v why : Var) : Reads Answer := do
  if why.type ≠ .int then return .breaks
  else
    match reasonOf (← why.readNum) with
    | some reason => unwindReads caught v reason
    | none => return .breaks

/-- The opcodes that read a member of an operand, each with its operands from below, and with the values
of its code that decide what it does. -/
inductive OperandOp
  | test (cond : Var)
  | forList (list count : Var)
  | forRange (from' to' : Var)
  | listAddTail (list tail : Var)
  | listAppend (list tail : Var)
  | indexset (list index value : Var)
  | checkListForSplice (list : Var)
  | eq (negated : Bool) (lhs rhs : Var)
  | compare (holds : Int → Bool) (lhs rhs : Var)
  | in_ (lhs rhs : Var)
  | mult (lhs rhs : Var)
  | minus (lhs rhs : Var)
  | div (lhs rhs : Var)
  | mod (lhs rhs : Var)
  | add (lhs rhs : Var)
  | unaryMinus (arg : Var)
  | ref (list index : Var)
  | pushRef (list index : Var)
  | rangeRef (base from' to' : Var)
  | getProp (obj propname : Var)
  | putProp (obj propname rhs : Var)
  | fork (time : Var)
  | callVerb (obj verb args : Var)
  | biFuncCall (args : Var)
  | rangeset (base from' to' value : Var)
  | length (item : Var)
  | exp (lhs rhs : Var)
  | scatter (nargs nreq : Nat) (haveRest : Bool) (list : Var)
  | endCatch (marker : Var)
  /-- `caught` says that a finally part is unwound to. -/
  | continue_ (caught : Bool) (v why : Var)

variable (around : Surroundings)

def OperandOp.run : OperandOp → Reads Answer
  | .test cond => opTest cond
  | .forList list count => opForList list count
  | .forRange from' to' => opForRangeReads from' to'
  | .listAddTail list tail => opListAddTail list tail
  | .listAppend list tail => opListAppend list tail
  | .indexset list index value => opIndexset list index value
  | .checkListForSplice list => opCheckListForSplice list
  | .eq negated lhs rhs => opEq negated lhs rhs
  | .compare holds lhs rhs => opCompare around.fl holds lhs rhs
  | .in_ lhs rhs => opIn lhs rhs
  | .mult lhs rhs => opArithmetic (simpleBinaryReads (· * ·) around.fl.mul) lhs rhs
  | .minus lhs rhs => opArithmetic (simpleBinaryReads (· - ·) around.fl.sub) lhs rhs
  | .div lhs rhs => opArithmetic (divisionOpReads intDiv around.fl.div) lhs rhs
  | .mod lhs rhs => opArithmetic (divisionOpReads intMod around.fl.fmod) lhs rhs
  | .add lhs rhs => opAddReads around.fl lhs rhs
  | .unaryMinus arg => opUnaryMinusReads around.fl arg
  | .ref list index => opRefReads list index
  | .pushRef list index => opPushRefReads list index
  | .rangeRef base from' to' => opRangeRefReads base from' to'
  | .getProp obj propname => opGetProp around obj propname
  | .putProp obj propname rhs => opPutPropReads around obj propname rhs
  | .fork time => opFork around time
  | .callVerb obj verb args => opCallVerb around obj verb args
  | .biFuncCall args => opBiFuncCall args
  | .rangeset base from' to' value => eopRangesetReads base from' to' value
  | .length item => eopLength item
  | .exp lhs rhs => eopExp around.fl lhs rhs
  | .scatter nargs nreq haveRest list => eopScatterReads nargs nreq haveRest list
  | .endCatch marker => eopEndCatch marker
  | .continue_ caught v why => eopContinue caught v why

def sameNumbers (a b : Var) : Prop := a.type = b.type ∧ (a.type = .int ∨ a.type = .float)

def suits (value : Var) : Option BiProp → Prop
  | some .name => value.type = .str
  | some .owner => value.type = .obj
  | _ => True

def OperandOp.WellTyped : OperandOp → Prop
  | .test _ | .eq .. | .endCatch _ | .continue_ .. => True
  | .forList list _ | .listAddTail list _ | .checkListForSplice list | .scatter _ _ _ list => list.type = .list
  | .forRange from' to' => from'.type = to'.type ∧ (to'.type = .int ∨ to'.type = .obj)
  | .listAppend list tail => list.type = .list ∧ tail.type = .list
  | .indexset list index value => index.type = .int ∧ (list.type = .list ∨ list.type = .str ∧ value.type = .str)
  | .compare _ lhs rhs => lhs.type = rhs.type ∧ lhs.type ≠ .list
  | .in_ _ rhs => rhs.type = .list
  | .mult lhs rhs | .minus lhs rhs | .div lhs rhs | .mod lhs rhs => sameNumbers lhs rhs
  | .add lhs rhs => sameNumbers lhs rhs ∨ lhs.type = .str ∧ rhs.type = .str
  | .unaryMinus arg => arg.type = .int ∨ arg.type = .float
  | .ref list index => index.type = .int ∧ (list.type = .list ∨ list.type = .str)
  | .pushRef list index => index.type = .int ∧ list.type = .list
  | .rangeRef base from' to' => from'.type = .int ∧ to'.type = .int ∧ (base.type = .list ∨ base.type = .str)
  | .getProp obj propname => obj.type = .obj ∧ propname.type = .str
  | .putProp obj propname rhs =>
      ∃ oid name, obj = .obj oid ∧ propname = .str name ∧
        (around.valid oid = true → ∀ builtIn, around.handle oid name = some builtIn → suits rhs builtIn)
  | .fork time => time.type = .int
  | .callVerb obj verb args => obj.type = .obj ∧ verb.type = .str ∧ args.type = .list
  | .biFuncCall args => args.type = .list
  | .rangeset base from' to' value =>
      from'.type = .int ∧ to'.type = .int ∧ base.type = value.type ∧ (base.type = .list ∨ base.type = .str)
  | .length item => item.type = .list ∨ item.type = .str
  | .exp lhs rhs => sameNumbers lhs rhs ∨ lhs.type = .float ∧ rhs.type = .int

/-- The opcode reads no member that is not there, and operands of other types are `E_TYPE`. -/
structure OperandOp.TagSafe (op : OperandOp) : Prop where
  reads : ∃ a, op.run around = .ok a
  eType : ¬ op.WellTyped around → op.run around = .ok (.raise .eType)

/-- The value is one that `unwind_stack` itself has put on the stack with the reason. -/
def Var.unwindsBy (caught : Bool) (v : Var) : Reason → Prop
  | .raise => v.type = .list
  | .exit =>
      ∃ l, v = .list l ∧ (∀ goal ∈ l[0]?, goal.type = .int) ∧ (caught = false → ∀ pc ∈ l[1]?, pc.type = .int)
  | _ => True

/-- The tags of the operands are looked at in time: the base of `EOP_RANGESET` is a string, as it is
taken for one at first, and what is never looked at is what it should be, the counter of `OP_FOR_LIST` a
number and the value of `EOP_CONTINUE` what its reason asks for. -/
def OperandOp.TagsInTime : OperandOp → Prop
  | .rangeset base .. => base.type = .str
  | .forList list count => list.type = .list → count.type = .int
  | .continue_ caught v why => ∀ n reason, why = .int n → reasonOf n = some reason → v.unwindsBy caught reason
  | _ => True

end LambdaMoo
