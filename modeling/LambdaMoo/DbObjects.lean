import LambdaMoo.DbProperties
import LambdaMoo.DbVerbs

/-! The table of objects: making, renumbering and destroying them, and the lists that
hold them together. -/
namespace LambdaMoo

/-- What all the functions that make an object put into it. The owner is set by their
caller. -/
def newObject (oid : Objid) : Object :=
  { id := oid, owner := nothing, location := nothing, contents := nothing, next := nothing
    parent := nothing, child := nothing, sibling := nothing, name := []
    flags := fun _ => false, verbdefs := [], propdefs := [], propval := [] }

def renumberedOwner (old new owner : Objid) : Objid :=
  if owner = new then nothing else if owner = old then new else owner

/-- Where the list of the users itself stands, as `players()` gives it out: in which slots of which
objects, and at which places in their values. -/
abbrev Sharing := Objid → Nat → List Nat → Bool

def Sharing.moved (shared : Sharing) (old new : Objid) : Sharing :=
  fun oid => shared (if oid = new then old else oid)

namespace Var

def areObjs : List Var → List Objid → Bool
  | [], [] => true
  | .obj x :: vs, y :: ys => x == y && areObjs vs ys
  | _, _ => false

mutual
/-- A value when the list `users` has been made `users'` where it stands itself. -/
def withUsers (users users' : List Objid) (here : List Nat → Bool) : Var → Var
  | .list l =>
      if here [] && areObjs l users then .list (users'.map .obj) else .list (withUsersFrom users users' here 0 l)
  | v => v
def withUsersFrom (users users' : List Objid) (here : List Nat → Bool) (i : Nat) : List Var → List Var
  | [] => []
  | v :: vs =>
      withUsers users users' (fun path => here (i :: path)) v :: withUsersFrom users users' here (i + 1) vs
end

end Var

def Object.withUsers (users users' : List Objid) (here : Nat → List Nat → Bool) (o : Object) : Object :=
  { o with propval := o.propval.mapIdx fun n p => { p with var := p.var.withUsers users users' (here n) } }

namespace Db

def replaceNext (h : Hier) (old new : Objid) (db : Db) : Nat → Objid → Option Db
  | 0, _ => none
  | fuel + 1, oid => do
      let o ← db.objects oid
      if o.nextIn h = old then return db.set oid (o.setNextIn new h)
      else if o.nextIn h = nothing then none
      else replaceNext h old new db fuel (o.nextIn h)

/-- The list that `old` is on gets `new` in its place; none is the panic when it is
not there. -/
def replaceMember (h : Hier) (old new where' : Objid) (db : Db) : Option Db := do
  let o ← db.objects where'
  if o.head h = old then return db.set where' (o.setHead new h)
  else if o.head h = nothing then none
  else db.replaceNext h old new db.fuel (o.head h)

/-- The cleanup of one of the two hierarchies for the object now numbered `new`. -/
def renumberLinks (h : Hier) (old new : Objid) (db : Db) : Option Db := do
  let o ← db.objects new
  let db ← if o.up h ≠ nothing then db.replaceMember h old new (o.up h) else some db
  let members ← db.listFrom h db.fuel (o.head h)
  members.foldlM (fun db oid => db.modify (fun o => o.setUp new h) oid) db

/-- The fix of what the object `oid` and its verbs and slots are owned by. -/
def renumberOwners (old new : Objid) (db : Db) (oid : Objid) : Option Db :=
  match db.objects oid with
  | none => some db
  | some o => do
      let count ← db.countProperties oid
      let slots ← copySlots o.propval 0 count
      return db.set oid { o with
        owner := renumberedOwner old new o.owner
        verbdefs := o.verbdefs.map fun v => { v with owner := renumberedOwner old new v.owner }
        propval := slots.map (fun p => { p with owner := renumberedOwner old new p.owner }) ++
          o.propval.drop count }

def withUsers (users users' : List Objid) (shared : Sharing) (db : Db) : Db :=
  { db with objects := fun oid => (db.objects oid).map (Object.withUsers users users' (shared oid)) }

/-- The first `old` in the list of the users is overwritten in place, whoever else has the list. -/
def replaceUser (shared : Sharing) (old new : Objid) (db : Db) : Db :=
  let users := db.allUsers.replace old new
  { db.withUsers db.allUsers users (shared.moved old new) with allUsers := users }

def setObjectNumber (shared : Sharing) (db : Db) (old new : Objid) : Option Db := do
  let db := db.affectedCallableVerbLookup
  if db.valid new then none
  let o ← db.objects old
  let objects := Function.update (Function.update db.objects new (some o)) old none
  let db ← { db with objects }.modify (fun o => { o with id := new }) new
  let db ← db.renumberLinks .family old new
  let db ← db.renumberLinks .place old new
  let db := if db.isUser new then db.replaceUser shared old new else db
  ((List.range db.numObjects.toNat).map Int.ofNat).foldlM (renumberOwners old new) db

def renumberObject (shared : Sharing) (db : Db) (old : Objid) : Option (Objid × Db) := do
  let db := db.affectedCallableVerbLookup
  match ((List.range old.toNat).map Int.ofNat).find? fun new => (db.objects new).isNone with
  | some new => return (new, ← db.setObjectNumber shared old new)
  | none => return (old, db)

def createObject (db : Db) : Objid × Db :=
  let oid := db.numObjects
  (oid, { db.set oid (newObject oid) with numObjects := db.numObjects + 1 })

def createObjectAndRenum (shared : Sharing) (db : Db) : Option (Objid × Db) := do
  let ooid := db.numObjects
  let (oid, db) ← (db.set ooid (newObject ooid)).renumberObject shared ooid
  -- we could not renumber it
  if oid = ooid then return (oid, { db with numObjects := db.numObjects + 1 })
  else return (oid, db)

def createObjectWithNum (shared : Sharing) (db : Db) (num : Objid) : Option (Objid × Db) := do
  if num > db.numObjects ∨ num < 0 then return (-1, db)
  if db.valid num then return (-1, db)
  let oid := db.numObjects
  return (num, ← (db.set oid (newObject oid)).setObjectNumber shared oid num)

def destroyObject (db : Db) (oid : Objid) : Option Db := do
  let db := db.affectedCallableVerbLookup
  let o ← db.find oid
  if o.location ≠ nothing ∨ o.contents ≠ nothing ∨ o.parent ≠ nothing ∨ o.child ≠ nothing then none
  let users := if o.flags .user then db.allUsers.erase oid else db.allUsers
  if o.propval.length < o.propdefs.length then none
  return { db with allUsers := users, objects := Function.update db.objects oid none }

def unlinkNext (h : Hier) (what next : Objid) (db : Db) : Nat → Objid → Option Db
  | 0, _ => none
  | fuel + 1, lid =>
      if lid = nothing then some db
      else do
        let o ← db.objects lid
        if o.nextIn h = what then return db.set lid (o.setNextIn next h)
        else unlinkNext h what next db fuel (o.nextIn h)

def llRemove (h : Hier) (where' what : Objid) (db : Db) : Option Db := do
  let w ← db.objects where'
  let x ← db.objects what
  let db ← if w.head h = what then some (db.set where' (w.setHead (x.nextIn h) h))
    else db.unlinkNext h what (x.nextIn h) db.fuel (w.head h)
  db.modify (fun o => o.setNextIn nothing h) what

def linkLast (h : Hier) (what : Objid) (db : Db) : Nat → Objid → Option Db
  | 0, _ => none
  | fuel + 1, lid => do
      let o ← db.objects lid
      if o.nextIn h = nothing then return db.set lid (o.setNextIn what h)
      else linkLast h what db fuel (o.nextIn h)

def llAppend (h : Hier) (where' what : Objid) (db : Db) : Option Db := do
  let w ← db.objects where'
  let db ← if w.head h = nothing then some (db.set where' (w.setHead what h))
    else db.linkLast h what db.fuel (w.head h)
  db.modify (fun o => o.setNextIn nothing h) what

def changeParent (db : Db) (oid parent : Objid) : Option (Bool × Db) := do
  if !(← db.checkPropertiesForChparent oid parent) then return (false, db)
  let o ← db.objects oid
  -- without children and verbs it has had no part in any lookup
  let db := if o.child = nothing ∧ o.verbdefs.isEmpty then db else db.affectedCallableVerbLookup
  let oldParent := o.parent
  let db ← if oldParent ≠ nothing then db.llRemove .family oldParent oid else some db
  let db ← if parent ≠ nothing then db.llAppend .family parent oid else some db
  let db ← db.modify (fun o => { o with parent }) oid
  return (true, ← db.fixPropertiesAfterChparent oid oldParent)

def changeLocation (db : Db) (oid location : Objid) : Option Db := do
  let oldLocation := (← db.objects oid).location
  let db ← if db.valid oldLocation then db.llRemove .place oldLocation oid else some db
  let db ← if db.valid location then db.llAppend .place location oid else some db
  db.modify (fun o => { o with location }) oid

/-- `db_reset_last_used_objid()`; none is the read of `objects[-1]`. -/
def resetLastUsedObjid : Nat → Db → Option Db
  | 0, _ => none
  | fuel + 1, db =>
      if db.numObjects ≤ 0 then none
      else if (db.objects (db.numObjects - 1)).isSome then some db
      else resetLastUsedObjid fuel { db with numObjects := db.numObjects - 1 }

end Db
end LambdaMoo
