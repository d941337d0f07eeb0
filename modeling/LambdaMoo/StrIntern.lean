import LambdaMoo.Db
import LambdaMoo.Lib.Probing
import LambdaMoo.Storage

/-! The table of strings that are shared while a database is loaded. A loop that passes all of
the slots passes them again. -/
namespace LambdaMoo
namespace StrIntern

structure CString where
  address : Nat
  bytes : Str
  deriving DecidableEq, Repr

structure InternEntry where
  s : CString
  len : Nat
  hash : UInt32

abbrev Table := Probing.Table InternEntry

inductive Stop
  | endless
  | crash (c : Crash)

/-- The static variables, and the address of the next block. -/
structure Interning where
  table : Option Table
  count : Nat
  bytesSaved : Nat
  allocationsSaved : Nat
  next : Nat

def Interning.initial : Interning := ⟨none, 0, 0, 0, 1⟩

def sizeT (n : Nat) : Nat := n % 2 ^ 64

def sizeMax : Nat := 2 ^ 64 - 1

def emptyString : CString := ⟨0, []⟩

def strDup (st : Interning) (s : Option Str) : CString × Interning :=
  match s with
  | none | some [] => (emptyString, st)
  | some s => (⟨st.next, s⟩, { st with next := st.next + 1 })

def normalizeLoop (requested : Nat) : Nat → Nat → Nat
  | 0, size => size
  | fuel + 1, size =>
      if size < requested ∧ size ≤ sizeMax / 2 then normalizeLoop requested fuel (size * 2) else size

def normalizeTableSize (requested : Nat) : Nat := normalizeLoop requested 60 16

def entrySize : Nat := 24

def makeInternTable (size : Nat) : Except Stop Table :=
  match mymalloc (sizeT (entrySize * size)) with
  | .error crash => .error (.crash crash)
  | .ok bytes =>
      if bytes < entrySize * size then .error (.crash .outside) else .ok (List.replicate size none)

def internIndex (hash : UInt32) (tableSize : Nat) : Nat := hash.toNat &&& (tableSize - 1)

def insertLoop (table : Table) (entry : InternEntry) : Nat → Nat → Except Stop Table
  | 0, _ => .error .endless
  | fuel + 1, index =>
      match table[index]? with
      | none => .error (.crash .outside)
      | some none => .ok (table.set index (some entry))
      | some (some _) => insertLoop table entry fuel ((index + 1) &&& (table.length - 1))

def insertInternEntry (table : Table) (entry : InternEntry) : Except Stop Table :=
  insertLoop table entry table.length (internIndex entry.hash table.length)

def InternEntry.holds (s : Str) (len : Nat) (hash : UInt32) (entry : InternEntry) : Bool :=
  entry.hash == hash && entry.len == len && s.take len == entry.s.bytes.take len

def findLoop (table : Table) (s : Str) (len : Nat) (hash : UInt32) :
    Nat → Nat → Except Stop (Option InternEntry)
  | 0, _ => .error .endless
  | fuel + 1, index =>
      match table[index]? with
      | none => .error (.crash .outside)
      | some none => .ok none
      | some (some entry) =>
          if entry.holds s len hash then .ok (some entry)
          else findLoop table s len hash fuel ((index + 1) &&& (table.length - 1))

def findInternedString (table : Table) (s : Str) (len : Nat) (hash : UInt32) :
    Except Stop (Option InternEntry) :=
  findLoop table s len hash table.length (internIndex hash table.length)

def rehashLoop : List (Option InternEntry) → Table → Except Stop Table
  | [], table => .ok table
  | none :: old, table => rehashLoop old table
  | some entry :: old, table => do rehashLoop old (← insertInternEntry table entry)

def internRehash (old : Table) (newSize : Nat) : Except Stop Table := do
  rehashLoop old (← makeInternTable newSize)

def strInternOpen (st : Interning) (tableSize : Int) : Except Stop Interning := do
  let tableSize := if tableSize = 0 then 10007 else tableSize
  let table ← makeInternTable (normalizeTableSize (tableSize % 2 ^ 64).toNat)
  return { st with table := some table, count := 0, bytesSaved := 0, allocationsSaved := 0 }

def growTable (table : Table) (count : Nat) : Except Stop Table :=
  if sizeT (table.length * 3) / 4 ≤ count then internRehash table (sizeT (table.length * 2))
  else .ok table

def strIntern (st : Interning) (s : Option Str) : Except Stop (CString × Interning) :=
  match s with
  | none | some [] => .ok (strDup st s)
  | some (c :: cs) =>
      match st.table with
      | none => .ok (strDup st s)
      | some table => do
          let len := (c :: cs).length
          let hash := strHash (c :: cs)
          match ← findInternedString table (c :: cs) len hash with
          | some entry =>
              return (entry.s, { st with
                allocationsSaved := sizeT (st.allocationsSaved + 1)
                bytesSaved := sizeT (st.bytesSaved + len) })
          | none =>
              let table ← growTable table st.count
              let (r, st) := strDup st s
              let table ← insertInternEntry table { s := r, len, hash }
              return (r, { st with table := some table, count := sizeT (st.count + 1) })

def internAll : List (Option Str) → Interning → Except Stop (List CString × Interning)
  | [], st => .ok ([], st)
  | s :: more, st => do
      let (r, st) ← strIntern st s
      let (rs, st) ← internAll more st
      return (r :: rs, st)

def internLoad (tableSize : Int) (args : List (Option Str)) :
    Except Stop (List CString × Interning) := do
  internAll args (← strInternOpen .initial tableSize)

end StrIntern
end LambdaMoo
