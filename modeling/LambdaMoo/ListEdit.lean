import LambdaMoo.Calls
import LambdaMoo.Streams

/-! The editing of lists and strings. A list is a block of cells that are counted from 1;
each access is checked against it, and lengths are computed as the server does it. -/
namespace LambdaMoo

inductive Crash
  /-- An element or a character outside of its list or string. -/
  | outside
  /-- A cell that is used and was never set. -/
  | unset
  /-- A size that cannot be allocated. -/
  | panic
  /-- A pointer to a string in a value that has none. -/
  | wild
  deriving DecidableEq, Repr

def intMax : Int := 2 ^ 31 - 1

theorem ok_bind_crash {α β : Type} (x : α) (k : α → Except Crash β) :
    ((Except.ok x : Except Crash α) >>= k) = k x := rfl

theorem intMax_eq : intMax = 2147483647 := rfl

theorem wrap32_cases (n : Int) :
    ∃ k, wrap32 n = n - 4294967296 * k ∧ -2147483648 ≤ wrap32 n ∧ wrap32 n ≤ 2147483647 := by
  refine ⟨n.bdiv (2 ^ 32), ?_, ?_, ?_⟩
  · have := Int.bmod_eq_self_sub_mul_bdiv n (2 ^ 32)
    unfold wrap32
    omega
  · exact Int.le_bmod (by decide)
  · exact Int.bmod_le (by decide)

theorem wrap32_le (n : Int) : wrap32 n ≤ intMax := by
  obtain ⟨k, -, -, hhigh⟩ := wrap32_cases n
  exact hhigh

theorem wrap32_of_fits {n : Int} (h : -2 ^ 31 ≤ n) (h' : n ≤ intMax) : wrap32 n = n := by
  obtain ⟨k, hk, hlow, hhigh⟩ := wrap32_cases n
  rw [intMax_eq] at h'
  omega

/-! Lists. -/

def element (list : List Var) (i : Int) : Except Crash Var :=
  if 1 ≤ i then
    match list[(i - 1).toNat]? with
    | some v => .ok v
    | none => .error .outside
  else .error .outside

def Cells.store (r : Cells) (i : Int) (v : Var) : Except Crash Cells :=
  match r.put i.toNat v with
  | some r => .ok r
  | none => .error .outside

def Cells.finish (r : Cells) : Except Crash Var :=
  match r.value with
  | some v => .ok v
  | none => .error .unset

/-- `new_list(size)`. With the cell for the length it is `size + 1` that is allocated. -/
def newList (size : Int) : Except Crash Cells :=
  if size < 0 ∨ intMax ≤ size then .error .panic else .ok (List.replicate size.toNat none)

def copyElements (list : List Var) : Nat → Int → Int → Cells → Except Crash Cells
  | 0, _, _, r => .ok r
  | count + 1, i, j, r => do
      let r ← r.store j (← element list i)
      copyElements list count (i + 1) (j + 1) r

def doinsert (refcount : Nat) (list : List Var) (value : Var) (pos : Int) : Except Crash Var :=
  let num : Int := list.length
  let size := wrap32 (num + 1)
  if refcount = 1 ∧ pos = size then do
    if size < 0 ∨ intMax ≤ size then .error .panic
    let r ← Cells.store (list.map some ++ [none]) pos value
    r.finish
  else do
    let r ← newList size
    let r ← copyElements list (pos - 1).toNat 1 1 r
    let r ← r.store pos value
    let r ← copyElements list (num - pos + 1).toNat pos (pos + 1) r
    r.finish

def listinsert (refcount : Nat) (list : List Var) (value : Var) (pos : Int) : Except Crash Var :=
  let num : Int := list.length
  if pos ≤ 0 then doinsert refcount list value 1
  else if num < pos then doinsert refcount list value (wrap32 (num + 1))
  else doinsert refcount list value pos

def listappend (refcount : Nat) (list : List Var) (value : Var) : Except Crash Var :=
  doinsert refcount list value (wrap32 (list.length + 1))

def listdelete (list : List Var) (pos : Int) : Except Crash Var := do
  let num : Int := list.length
  let r ← newList (num - 1)
  let r ← copyElements list (pos - 1).toNat 1 1 r
  let r ← copyElements list (num - pos).toNat (pos + 1) pos r
  r.finish

def ismember (lhs : Var) (caseMatters : Bool) : List Var → Int → Except Crash Int
  | [], _ => .ok 0
  | v :: rhs, i =>
      match equality caseMatters lhs v with
      | none => .error .panic
      | some true => .ok i
      | some false => ismember lhs caseMatters rhs (i + 1)

def setadd (refcount : Nat) (list : List Var) (value : Var) : Except Crash Var := do
  if (← ismember value false list 1) ≠ 0 then return .list list
  listappend refcount list value

def setremove (list : List Var) (value : Var) : Except Crash Var := do
  let i ← ismember value false list 1
  if i ≠ 0 then listdelete list i else return .list list

def listrangeset (base : List Var) (from' to' : Int) (value : List Var) : Except Crash Var := do
  let valLen : Int := value.length
  let baseLen : Int := base.length
  let lenleft := if 1 < from' then from' - 1 else 0
  let lenright := if to' < baseLen then baseLen - to' else 0
  let r ← newList (wrap32 (lenleft + valLen + lenright))
  let r ← copyElements base lenleft.toNat 1 1 r
  let r ← copyElements value valLen.toNat 1 (lenleft + 1) r
  let r ← copyElements base lenright.toNat (to' + 1) (lenleft + valLen + 1) r
  r.finish

def sublist (list : List Var) (lower upper : Int) : Except Crash Var :=
  if upper < lower then return .list []
  else do
    let r ← newList (wrap32 (wrap32 (upper - lower) + 1))
    let r ← copyElements list (upper - lower + 1).toNat lower 1 r
    r.finish

/-! Strings. -/

def intLength (s : Str) : Int := wrap32 s.length

/-- The characters that a loop copies from the place `i`, counted from 0, on. -/
def copyChars (s : Str) : Nat → Int → Except Crash Str
  | 0, _ => .ok []
  | count + 1, i =>
      if 0 ≤ i then
        match s[i.toNat]? with
        | some c => do return c :: (← copyChars s count (i + 1))
        | none => .error .outside
      else .error .outside

/-- A string written with its NUL into a block of its own. A negative size is no size. -/
def allocated (size : Int) (s : Str) : Except Crash Var :=
  if size < 0 then .error .panic
  else if size < s.length + 1 then .error .outside
  else .ok (.str s)

def strrangeset (base : Str) (from' to' : Int) (value : Str) : Except Crash Var := do
  let valLen := intLength value
  let baseLen := intLength base
  let lenleft := if 1 < from' then from' - 1 else 0
  let lenright := if to' < baseLen then baseLen - to' else 0
  let left ← copyChars base lenleft.toNat 0
  let middle ← copyChars value valLen.toNat 0
  let right ← copyChars base lenright.toNat to'
  allocated (wrap32 (wrap32 (lenleft + valLen + lenright) + 1)) (left ++ middle ++ right)

def substr (s : Str) (lower upper : Int) : Except Crash Var :=
  if upper < lower then return .str []
  else do allocated (wrap32 (upper - lower + 2)) (← copyChars s (upper - lower + 1).toNat (lower - 1))

def strget (s : Str) (i : Int) : Except Crash Var := do
  return .str (← copyChars s 1 (i - 1))

/-! The opcodes, on the values that they pop. -/

def opRef (list index : Var) : Except Crash (Except Error Var) :=
  match list, index with
  | .list l, .int i =>
      if i ≤ 0 ∨ l.length < i then return .error .eRange
      else do return .ok (← element l i)
  | .str s, .int i =>
      if i ≤ 0 ∨ intLength s < i then return .error .eRange
      else do return .ok (← strget s i)
  | _, _ => return .error .eType

def opPushRef (list index : Var) : Except Crash (Except Error Var) :=
  match list, index with
  | .list l, .int i =>
      if i ≤ 0 ∨ l.length < i then return .error .eRange
      else do return .ok (← element l i)
  | _, _ => return .error .eType

def outOfRange (len from' to' : Int) : Prop := from' ≤ to' ∧ (from' ≤ 0 ∨ len < from' ∨ to' ≤ 0 ∨ len < to')

instance (len from' to' : Int) : Decidable (outOfRange len from' to') :=
  inferInstanceAs (Decidable (_ ∧ _))

def opRangeRef (base from' to' : Var) : Except Crash (Except Error Var) :=
  match base, from', to' with
  | .list l, .int from', .int to' =>
      if outOfRange l.length from' to' then return .error .eRange
      else do return .ok (← sublist l from' to')
  | .str s, .int from', .int to' =>
      if outOfRange (intLength s) from' to' then return .error .eRange
      else do return .ok (← substr s from' to')
  | _, _, _ => return .error .eType

def rangesetCheck (last from' to' : Int) : Bool := wrap32 (last + 1) < from' || to' < 0

def hasZeroByte (bits : UInt64) : Bool := (List.range 8).any fun i => bits.toNat / 256 ^ i % 256 = 0

/-- `strlen(base.v.str)` on whatever the value is. For a list the zero in the tag of its
length ends it, and the number is not used; for a floating-point number one of its bytes
has to. The other values hold no pointer. -/
def strlenAnyway : Var → Except Crash Nat
  | .str s => .ok s.length
  | .list _ => .ok 0
  | .float bits => if hasZeroByte bits then .ok 0 else .error .outside
  | _ => .error .wild

def eopRangeset (base from' to' value : Var) : Except Crash (Except Error Var) := do
  let len ← strlenAnyway base
  match base, from', to', value with
  | .list l, .int from', .int to', .list value =>
      if rangesetCheck l.length from' to' then return .error .eRange
      else return .ok (← listrangeset l from' to' value)
  | .str s, .int from', .int to', .str value =>
      if rangesetCheck (min len intMax) from' to' then return .error .eRange
      else return .ok (← strrangeset s from' to' value)
  | _, _, _, _ => return .error .eType

/-! The built-in functions, with the check of their arguments. -/

def Var.isInt : Var → Bool
  | .int _ => true
  | _ => false

def Var.isList : Var → Bool
  | .list _ => true
  | _ => false

/-- What `call_bi_func` does before it calls the function: the count of the arguments, and
their types. -/
def checkArgs (minargs : Nat) (prototype : List (Var → Bool)) (args : List Var) : Option Error :=
  if args.length < minargs ∨ prototype.length < args.length then some .eArgs
  else if (args.zip prototype).all fun (arg, proto) => proto arg then none
  else some .eType

def any (_ : Var) : Bool := true

def bfSetadd (refcount : Nat) : List Var → Except Crash (Except Error Var)
  | [.list l, value] => do return .ok (← setadd refcount l value)
  | _ => .error .wild

def bfSetremove : List Var → Except Crash (Except Error Var)
  | [.list l, value] => do return .ok (← setremove l value)
  | _ => .error .wild

def bfListappend (refcount : Nat) : List Var → Except Crash (Except Error Var)
  | [.list l, value] => do return .ok (← listappend refcount l value)
  | [.list l, value, .int num] => do return .ok (← listinsert refcount l value (wrap32 (num + 1)))
  | _ => .error .wild

def bfListinsert (refcount : Nat) : List Var → Except Crash (Except Error Var)
  | [.list l, value] => do return .ok (← listinsert refcount l value 1)
  | [.list l, value, .int num] => do return .ok (← listinsert refcount l value num)
  | _ => .error .wild

def bfListdelete : List Var → Except Crash (Except Error Var)
  | [.list l, .int num] =>
      if num ≤ 0 ∨ l.length < num then return .error .eRange
      else do return .ok (← listdelete l num)
  | _ => .error .wild

/-- What the representation of a value has room for: an `int` of 32 bits, and the lists that
can be allocated. -/
def Var.storable : Var → Bool
  | .int num => -2 ^ 31 ≤ num && num ≤ intMax
  | .list l => l.length < intMax
  | _ => true

abbrev Operand := { v : Var // v.isValue = true ∧ v.storable = true }

/-- A built-in function or an opcode that edits lists and strings. -/
inductive Edit
  | setadd (args : List Operand)
  | setremove (args : List Operand)
  | listappend (args : List Operand)
  | listinsert (args : List Operand)
  | listdelete (args : List Operand)
  | ref (list index : Operand)
  | pushRef (list index : Operand)
  | rangeRef (base from' to' : Operand)
  | rangeset (base from' to' value : Operand)

def values (args : List Operand) : List Var := args.map (·.val)

def checked (minargs : Nat) (prototype : List (Var → Bool)) (args : List Operand)
    (f : List Var → Except Crash (Except Error Var)) : Except Crash (Except Error Var) :=
  match checkArgs minargs prototype (values args) with
  | some e => return .error e
  | none => f (values args)

/-- What the server does. The references to the list are counted with the one that is passed. -/
def Edit.run (refcount : Nat) : Edit → Except Crash (Except Error Var)
  | .setadd args => checked 2 [Var.isList, any] args (bfSetadd refcount)
  | .setremove args => checked 2 [Var.isList, any] args bfSetremove
  | .listappend args => checked 2 [Var.isList, any, Var.isInt] args (bfListappend refcount)
  | .listinsert args => checked 2 [Var.isList, any, Var.isInt] args (bfListinsert refcount)
  | .listdelete args => checked 2 [Var.isList, Var.isInt] args bfListdelete
  | .ref list index => opRef list index
  | .pushRef list index => opPushRef list index
  | .rangeRef base from' to' => opRangeRef base from' to'
  | .rangeset base from' to' value => eopRangeset base from' to' value

end LambdaMoo
