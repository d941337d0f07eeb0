import LambdaMoo.Db

/-! `validate_hierarchies`, as it is called on the objects of a database file. What it logs is
left out. -/
namespace LambdaMoo

namespace Db

def oids (db : Db) : List Objid := (List.range db.numObjects.toNat).map Int.ofNat

/-! Phase 1. -/

def checkField (db : Db) (field : Object → Objid) (put : Objid → Object → Object) (o : Object) :
    Object :=
  if field o ≠ nothing ∧ (db.find (field o)).isNone then put nothing o else o

def checkLinks (db : Db) (o : Object) : Object :=
  let o := if o.location = nothing ∧ o.next ≠ nothing then { o with next := nothing } else o
  let o := db.checkField Object.parent (fun oid o => { o with parent := oid }) o
  let o := db.checkField Object.child (fun oid o => { o with child := oid }) o
  let o := db.checkField Object.sibling (fun oid o => { o with sibling := oid }) o
  let o := db.checkField Object.location (fun oid o => { o with location := oid }) o
  let o := db.checkField Object.contents (fun oid o => { o with contents := oid }) o
  db.checkField Object.next (fun oid o => { o with next := oid }) o

def checkInvalid (db : Db) : Db :=
  db.oids.foldl (fun db oid =>
    match db.find oid with
    | none => db
    | some o => db.set oid (db.checkLinks o)) db

/-! The other phases only look for what is broken. -/

def anyObject (db : Db) (check : Objid → Object → Option Bool) : Option Bool :=
  db.oids.foldlM (fun broken oid =>
    match db.find oid with
    | none => return broken
    | some o => return broken || (← check oid o)) false

def isCycle (db : Db) (field : Object → Objid) : Nat → Objid → Option Bool
  | 0, oid2 => return oid2 ≠ nothing
  | rounds + 1, oid2 =>
      if oid2 = nothing then return false
      else do
        let o ← db.find oid2
        db.isCycle field rounds (field o)

def checkCycles (db : Db) : Option Bool :=
  db.anyObject fun _ o => do
    let size := db.numObjects.toNat
    let parent ← db.isCycle Object.parent size o.parent
    let child ← db.isCycle Object.sibling size o.child
    let location ← db.isCycle Object.location size o.location
    let contents ← db.isCycle Object.next size o.contents
    return parent || child || location || contents

def isOnList (db : Db) (across : Object → Objid) (oid : Objid) : Nat → Objid → Option Bool
  | 0, _ => none
  | fuel + 1, oid2 =>
      if oid2 = nothing then return false
      else if oid2 = oid then return true
      else do
        let o ← db.find oid2
        db.isOnList across oid fuel (across o)

/-- The third `CHECK`: is `oid` missing from the list of what it is under? -/
def isMissing (db : Db) (fuel : Nat) (h : Hier) (oid : Objid) (o : Object) : Option Bool :=
  if o.up h = nothing then return false
  else do
    let above ← db.find (o.up h)
    return !(← db.isOnList (Object.nextIn h) oid fuel (above.head h))

/-- The last `CHECK`: is something on the list of `oid` that is not under it? -/
def hasStray (db : Db) (h : Hier) (oid : Objid) : Nat → Objid → Option Bool
  | 0, _ => none
  | fuel + 1, oid2 =>
      if oid2 = nothing then return false
      else do
        let o ← db.find oid2
        return decide (o.up h ≠ oid) || (← db.hasStray h oid fuel (o.nextIn h))

def checkLists (db : Db) (fuel : Nat) : Option Bool :=
  db.anyObject fun oid o => do
    let parent ← db.isMissing fuel .family oid o
    let location ← db.isMissing fuel .place oid o
    let child ← db.hasStray .family oid fuel o.child
    let contents ← db.hasStray .place oid fuel o.contents
    return parent || location || child || contents

/-- `validate_hierarchies`, with loops that go on for `fuel` rounds at most where the source sets
no bound: whether the objects are sound, and what has become of them. -/
def validateHierarchies (fuel : Nat) (db : Db) : Option (Bool × Db) := do
  let db := db.checkInvalid
  if ← db.checkCycles then return (false, db)
  return (!(← db.checkLists fuel), db)

end Db
end LambdaMoo
