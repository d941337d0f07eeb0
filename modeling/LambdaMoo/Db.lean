import LambdaMoo.Program
import Mathlib.Logic.Function.Basic

/-! The object table. A read of a link or of a table entry that is not there is a
crash of the server and none here, as is a loop that does not end. -/
namespace LambdaMoo

inductive ObjectFlag
  | user | programmer | wizard | obsolete1 | read | write | obsolete2 | fertile
  deriving DecidableEq, Repr

structure PropPerms where
  read : Bool := false
  write : Bool := false
  chown : Bool := false
  deriving DecidableEq, Repr

/-- A property definition. The `tag` is not in the source: it tells definitions
apart that came and went under one name. -/
structure Propdef where
  name : Str
  tag : Nat

/-- A property slot. The `tag` is not in the source: it is the one of the
definition the slot was made for, and copied with it. -/
structure Pval where
  var : Var
  owner : Objid
  perms : PropPerms
  tag : Nat

inductive ArgSpec
  | none | any | this
  deriving DecidableEq, Repr

structure VerbFlags where
  read : Bool := false
  write : Bool := false
  exec : Bool := false
  debug : Bool := false
  notO : Bool := false
  deriving DecidableEq, Repr

/-- A verb. Its `perms` are the flags and the two argument specs, which do not
overlap; `addr` is where it was allocated. -/
structure Verbdef where
  addr : Nat
  name : Str
  program : Option Program
  owner : Objid
  flags : VerbFlags
  dobj : ArgSpec
  prep : Int
  iobj : ArgSpec

structure Object where
  id : Objid
  owner : Objid
  location : Objid
  contents : Objid
  next : Objid
  parent : Objid
  child : Objid
  sibling : Objid
  name : Str
  flags : ObjectFlag → Bool
  verbdefs : List Verbdef
  propdefs : List Propdef
  propval : List Pval

/-- A verb handle: where the verb is defined, and where it was allocated. -/
structure VerbHandle where
  definer : Objid
  verbdef : Nat
  deriving DecidableEq, Repr

structure VcEntry where
  hash : UInt32
  oidKey : Objid
  verbname : Str
  h : Option VerbHandle

/-- The table has an entry for every number, those from `num_objects` on without
meaning. `nextTag` is not in the source. -/
structure Db where
  objects : Objid → Option Object
  numObjects : Int
  allUsers : List Objid
  vcTable : Nat → List VcEntry
  nextTag : Nat

/-- The two ways objects hang under each other: parents with their children and
siblings, locations with their contents. -/
inductive Hier
  | family | place
  deriving DecidableEq, Repr

namespace Object

def up : Hier → Object → Objid
  | .family, o => o.parent
  | .place, o => o.location

def head : Hier → Object → Objid
  | .family, o => o.child
  | .place, o => o.contents

def nextIn : Hier → Object → Objid
  | .family, o => o.sibling
  | .place, o => o.next

def setUp (oid : Objid) : Hier → Object → Object
  | .family, o => { o with parent := oid }
  | .place, o => { o with location := oid }

def setHead (oid : Objid) : Hier → Object → Object
  | .family, o => { o with child := oid }
  | .place, o => { o with contents := oid }

def setNextIn (oid : Objid) : Hier → Object → Object
  | .family, o => { o with sibling := oid }
  | .place, o => { o with next := oid }

def linksIn (h : Hier) (o : Object) : Objid × Objid × Objid × Objid :=
  (o.id, o.up h, o.head h, o.nextIn h)

end Object

namespace Db

def find (db : Db) (oid : Objid) : Option Object :=
  if oid < 0 ∨ db.numObjects ≤ oid then none else db.objects oid

def valid (db : Db) (oid : Objid) : Bool := (db.find oid).isSome

def set (db : Db) (oid : Objid) (o : Object) : Db :=
  { db with objects := Function.update db.objects oid (some o) }

def modify (f : Object → Object) (oid : Objid) (db : Db) : Option Db :=
  (db.objects oid).map fun o => db.set oid (f o)

def fuel (db : Db) : Nat := db.numObjects.toNat + 2

def lineage (db : Db) : Nat → Objid → Option (List Object)
  | 0, _ => none
  | fuel + 1, oid =>
      match db.find oid with
      | none => some []
      | some o => (db.lineage fuel o.parent).map (o :: ·)

def ancestry (db : Db) (oid : Objid) : Option (List Object) := db.lineage db.fuel oid

def listFrom (db : Db) (h : Hier) : Nat → Objid → Option (List Objid)
  | 0, _ => none
  | fuel + 1, oid =>
      if oid = nothing then some []
      else do
        let o ← db.objects oid
        return oid :: (← db.listFrom h fuel (o.nextIn h))

def membersOf (db : Db) (h : Hier) (oid : Objid) : Option (List Objid) := do
  let o ← db.objects oid
  db.listFrom h db.fuel (o.head h)

def walkUp (db : Db) (h : Hier) : Nat → Objid → Option (List Objid)
  | 0, _ => none
  | fuel + 1, oid =>
      if oid = nothing then some []
      else do
        let o ← db.objects oid
        return oid :: (← db.walkUp h fuel (o.up h))

/-- A search of an object and then, one child after the other, of what is below it. -/
def anyBelow (db : Db) (p : Object → Option Bool) : Nat → Objid → Option Bool
  | 0, _ => none
  | fuel + 1, oid => do
      let o ← db.objects oid
      if ← p o then return true
      let children ← db.listFrom .family db.fuel o.child
      children.anyM (db.anyBelow p fuel)

/-- A change of an object and then, one child after the other, of what is below it;
`arg` is the argument for a child. The changes made so leave the lists alone. -/
def forSubtree {γ : Type} (visit : γ → Objid → Db → Option Db) (arg : Object → Object → γ → γ) :
    Nat → γ → Objid → Db → Option Db
  | 0, _, _, _ => none
  | fuel + 1, g, oid, db => do
      let db ← visit g oid db
      let me ← db.objects oid
      let children ← db.listFrom .family db.fuel me.child
      children.foldlM (fun db c => do
        let child ← db.objects c
        forSubtree visit arg fuel (arg me child g) c db) db

def hasFlag (db : Db) (oid : Objid) (f : ObjectFlag) : Bool :=
  match db.find oid with
  | none => false
  | some o => o.flags f

def isWizard (db : Db) (oid : Objid) : Bool := db.hasFlag oid .wizard

def isProgrammer (db : Db) (oid : Objid) : Bool := db.hasFlag oid .programmer

def isUser (db : Db) (oid : Objid) : Bool := db.hasFlag oid .user

def objectAllows (db : Db) (o : Object) (progr : Objid) (f : ObjectFlag) : Bool :=
  progr == o.owner || db.isWizard progr || o.flags f

def affectedCallableVerbLookup (db : Db) : Db := { db with vcTable := fun _ => [] }

end Db

def strHash (s : Str) : UInt32 :=
  s.foldl (fun ans c => (ans <<< 3) + (ans >>> 28) + UInt32.ofNat (asciiTolower c).toNat) 0

end LambdaMoo
