import Mathlib.Data.Nat.Init
import LambdaMoo.DbProperties
import LambdaMoo.Dbio

/-! Objects of the database file, as db_file.c writes and reads them. -/
namespace LambdaMoo
namespace DbFile

open Codec Dbio

/-! The numbers that flags and permissions are kept as. -/

def flagBits : List ObjectFlag :=
  [.user, .programmer, .wizard, .obsolete1, .read, .write, .obsolete2, .fertile]

def flagsNum (flags : ObjectFlag → Bool) : Int :=
  Nat.ofBits fun i : Fin 8 => flags flagBits[i]

def flagsOf (n : Int) : ObjectFlag → Bool := fun f => n.toNat.testBit (flagBits.idxOf f)

def permsNum (perms : PropPerms) : Int :=
  Nat.ofBits fun i : Fin 3 => [perms.read, perms.write, perms.chown][i]

def permsOf (n : Int) : PropPerms where
  read := n.toNat.testBit 0
  write := n.toNat.testBit 1
  chown := n.toNat.testBit 2

def argSpecNum : ArgSpec → Nat
  | .none => 0
  | .any => 1
  | .this => 2

def argSpecOf : Nat → Option ArgSpec
  | 0 => some .none
  | 1 => some .any
  | 2 => some .this
  | _ => none

/-- A verb's flags, with the argument specs at the places of `DOBJSHIFT` and `IOBJSHIFT`. -/
def verbPermsNum (v : Verbdef) : Int :=
  Nat.ofBits fun i : Fin 11 =>
    [v.flags.read, v.flags.write, v.flags.exec, v.flags.debug,
      (argSpecNum v.dobj).testBit 0, (argSpecNum v.dobj).testBit 1,
      (argSpecNum v.iobj).testBit 0, (argSpecNum v.iobj).testBit 1, false, false, v.flags.notO][i]

def verbFlagsOf (n : Int) : VerbFlags where
  read := n.toNat.testBit 0
  write := n.toNat.testBit 1
  exec := n.toNat.testBit 2
  debug := n.toNat.testBit 3
  notO := n.toNat.testBit 10

def argSpecAt (n : Int) (shift : Nat) : Option ArgSpec :=
  argSpecOf ((n.toNat.testBit shift).toNat + 2 * (n.toNat.testBit (shift + 1)).toNat)

/-! The readers. -/

def orFail {α : Type} (a : Option α) : Reader α := fun input => a.map (·, input)

/-- `read_verbdef`; where the verb is in memory, and its program, are not known yet. -/
def readVerbdef : Reader Verbdef := do
  let name ← readString
  let owner ← readObjid
  let perms ← readNum
  let prep ← readNum
  let dobj ← orFail (argSpecAt perms 4)
  let iobj ← orFail (argSpecAt perms 6)
  return { addr := 0, name, program := none, owner, flags := verbFlagsOf perms, dobj, prep, iobj }

def readPropdef : Reader Propdef := do
  let name ← readString
  return { name, tag := 0 }

def readPropval (fmt : FloatFormat) (prehistory : Bool) : Reader Pval := do
  let var ← readVar fmt prehistory
  let owner ← readObjid
  let perms ← readNum
  return { var, owner, perms := permsOf perms, tag := 0 }

def scanChar (c : Char) : Reader Unit := fun input =>
  match input.dropWhile isspace with
  | [] => none
  | d :: rest => if d = c then some ((), rest) else none

def scanNum : Reader Int := fun input =>
  let digits (s : Str) : Option (Nat × Str) :=
    if s.takeWhile Char.isDigit = [] then none
    else some (Nat.ofDigitChars 10 (s.takeWhile Char.isDigit) 0, s.dropWhile Char.isDigit)
  match input.dropWhile isspace with
  | '-' :: s => (digits s).map fun (n, rest) => (-(n : Int), rest)
  | '+' :: s => (digits s).map fun (n, rest) => ((n : Int), rest)
  | s => (digits s).map fun (n, rest) => ((n : Int), rest)

def readFields (fmt : FloatFormat) (prehistory : Bool) (oid : Objid) : Reader Object := do
  let name ← readString
  let _ ← readString
  let flags ← readNum
  let owner ← readObjid
  let location ← readObjid
  let contents ← readObjid
  let next ← readObjid
  let parent ← readObjid
  let child ← readObjid
  let sibling ← readObjid
  let nverbdefs ← readNum
  let verbdefs ← many readVerbdef nverbdefs.toNat
  let npropdefs ← readNum
  let propdefs ← many readPropdef npropdefs.toNat
  let nprops ← readNum
  let propval ← many (readPropval fmt prehistory) nprops.toNat
  return {
    id := oid, owner, location, contents, next, parent, child, sibling, name
    flags := flagsOf flags, verbdefs, propdefs, propval }

/-- `read_object`, in a table of `numObjects` objects so far: the next one, or none for a number
that is not in use. -/
def readObject (fmt : FloatFormat) (prehistory : Bool) (numObjects : Int) :
    Reader (Option Object) := do
  scanChar '#'
  let oid ← scanNum
  if oid ≠ numObjects then orFail none
  else do
  let s ← fgets 20
  if s = " recycled\n".toList then return none
  else if s ≠ ['\n'] then orFail none
  else return some (← readFields fmt prehistory oid)

/-! The writers. -/

def writeVerbdef (v : Verbdef) : Str :=
  writeString v.name ++ (writeObjid v.owner ++ (writeNum (verbPermsNum v) ++ writeNum v.prep))

def writePropdef (p : Propdef) : Str := writeString p.name

def writePropval (fmt : FloatFormat) (p : Pval) : Str :=
  writeVar fmt p.var ++ (writeObjid p.owner ++ writeNum (permsNum p.perms))

def writeFields (fmt : FloatFormat) (o : Object) (propval : List Pval) : Str :=
  writeString o.name ++ (writeString [] ++ (writeNum (flagsNum o.flags) ++
  (writeObjid o.owner ++ (writeObjid o.location ++ (writeObjid o.contents ++
  (writeObjid o.next ++ (writeObjid o.parent ++ (writeObjid o.child ++
  (writeObjid o.sibling ++ (writeNum o.verbdefs.length ++
  (o.verbdefs.flatMap writeVerbdef ++ (writeNum o.propdefs.length ++
  (o.propdefs.flatMap writePropdef ++ (writeNum propval.length ++
  propval.flatMap (writePropval fmt)))))))))))))))

def writeObject (fmt : FloatFormat) (db : Db) (oid : Objid) : Option Str := do
  match db.find oid with
  | none => return '#' :: (decimal oid ++ " recycled\n".toList)
  | some o =>
    let nprops ← db.countProperties oid
    let propval ← copySlots o.propval 0 nprops
    return '#' :: (decimal oid ++ ['\n']) ++ writeFields fmt o propval

def bfChr (code : Int) : Except Error Var :=
  if code < 0 ∨ 255 < code then .error .eInvarg
  else .ok (.str (if code = 0 then [] else [Char.ofNat code.toNat]))

end DbFile
end LambdaMoo
