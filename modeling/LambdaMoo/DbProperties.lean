import LambdaMoo.Db

/-! Property definitions and slots. An object has a slot for each property defined on
it or on an ancestor: its own come first, then its parent's, and so on up. -/
namespace LambdaMoo

inductive BiProp
  | name | owner | programmer | wizard | r | w | f | location | contents
  deriving DecidableEq, Repr

/-- A found property: `slot` is `propval + n` of an object, and who defines it. -/
inductive PropHandle
  | builtIn (prop : BiProp) (oid : Objid)
  | slot (oid : Objid) (n : Nat) (definer : Objid)
  deriving DecidableEq, Repr

def ptable : List (Str × BiProp) :=
  [(['n', 'a', 'm', 'e'], .name), (['o', 'w', 'n', 'e', 'r'], .owner),
    (['p', 'r', 'o', 'g', 'r', 'a', 'm', 'm', 'e', 'r'], .programmer),
    (['w', 'i', 'z', 'a', 'r', 'd'], .wizard), (['r'], .r), (['w'], .w), (['f'], .f),
    (['l', 'o', 'c', 'a', 't', 'i', 'o', 'n'], .location),
    (['c', 'o', 'n', 't', 'e', 'n', 't', 's'], .contents)]

/-- How names are compared: the hashes are equal, and the names but for case. -/
def nameMatches (s t : Str) : Bool := strHash s == strHash t && sameName s t

def Var.isTrue : Var → Bool
  | .int n => n ≠ 0
  | .float bits => !Float64.isZero bits
  | .str s => !s.isEmpty
  | .list l => !l.isEmpty
  | _ => false

/-- `n` slots from the `i`-th on; none beyond the end of the array. -/
def copySlots (slots : List Pval) (i n : Nat) : Option (List Pval) :=
  if i + n ≤ slots.length then some ((slots.drop i).take n) else none

namespace Db

def countProperties (db : Db) (oid : Objid) : Option Nat := do
  return ((← db.ancestry oid).map fun o => o.propdefs.length).sum

def propertyDefinedAtOrBelow (db : Db) (pname : Str) (oid : Objid) : Option Bool :=
  db.anyBelow (fun o => some (o.propdefs.any fun p => nameMatches p.name pname)) db.fuel oid

def findPropdef (db : Db) (name : Str) : Nat → Objid → Nat → Option (Option (Nat × Objid))
  | 0, _, _ => none
  | fuel + 1, oid, n =>
      match db.find oid with
      | none => some none
      | some o =>
          match o.propdefs.findIdx? fun p => nameMatches p.name name with
          | some i => some (some (n + i, o.id))
          | none => db.findPropdef name fuel o.parent (n + o.propdefs.length)

def findProperty (db : Db) (oid : Objid) (name : Str) : Option (Option PropHandle) :=
  match ptable.find? fun e => nameMatches e.1 name with
  | some e => some (some (.builtIn e.2 oid))
  | none => do
      let found ← db.findPropdef name db.fuel oid 0
      return found.map fun e => .slot oid e.1 e.2

def followClear (db : Db) : Nat → Object → Int → Option Var
  | 0, _, _ => none
  | fuel + 1, o, n => do
      if n < 0 then none
      let prop ← o.propval[n.toNat]?
      match prop.var with
      | .clear => db.followClear fuel (← db.find o.parent) (n - o.propdefs.length)
      | var => return var

def getBiValue (db : Db) (oid : Objid) : BiProp → Option Var
  | .name => do return .str (← db.objects oid).name
  | .owner => do return .obj (← db.objects oid).owner
  | .programmer => do return .int (if (← db.objects oid).flags .programmer then 1 else 0)
  | .wizard => do return .int (if (← db.objects oid).flags .wizard then 1 else 0)
  | .r => do return .int (if (← db.objects oid).flags .read then 1 else 0)
  | .w => do return .int (if (← db.objects oid).flags .write then 1 else 0)
  | .f => do return .int (if (← db.objects oid).flags .fertile then 1 else 0)
  | .location => do return .obj (← db.objects oid).location
  | .contents => do return .list ((← db.membersOf .place oid).map .obj)

def findPropertyValue (db : Db) (oid : Objid) (name : Str) :
    Option (Option (PropHandle × Var)) := do
  match ← db.findProperty oid name with
  | none => return none
  | some (.builtIn prop oid) => return some (.builtIn prop oid, ← db.getBiValue oid prop)
  | some (.slot oid n definer) =>
      let o ← db.find oid
      return some (.slot oid n definer, ← db.followClear db.fuel o n)

def insertProp (pos : Nat) (pval : Pval) (oid : Objid) (db : Db) : Option Db := do
  let nprops ← db.countProperties oid
  let o ← db.find oid
  if nprops ≤ pos then none
  let before ← copySlots o.propval 0 pos
  let owner := if pval.perms.chown then o.owner else pval.owner
  let after ← copySlots o.propval pos (nprops - (pos + 1))
  return db.set oid { o with propval := before ++ { pval with owner } :: after }

def insertPropRecursively (db : Db) (root : Objid) (rootPos : Nat) (pv : Pval) : Option Db :=
  forSubtree (fun g => insertProp g.1 g.2)
    (fun _ c g => (c.propdefs.length + g.1, { g.2 with var := .clear })) db.fuel (rootPos, pv) root db

def addPropdef (db : Db) (oid : Objid) (pname : Str) (value : Var) (owner : Objid)
    (flags : PropPerms) : Option (Bool × Db) := do
  let h ← db.findProperty oid pname
  if h.isSome then return (false, db)
  if ← db.propertyDefinedAtOrBelow pname oid then return (false, db)
  let o ← db.find oid
  let newdef : Propdef := { name := pname, tag := db.nextTag }
  let db := db.set oid { o with propdefs := o.propdefs ++ [newdef] }
  let db ← insertPropRecursively { db with nextTag := db.nextTag + 1 } oid o.propdefs.length
    { var := value, owner, perms := flags, tag := newdef.tag }
  return (true, db)

def renamePropdef (db : Db) (oid : Objid) (old new : Str) : Option (Bool × Db) := do
  let o ← db.find oid
  match o.propdefs.findIdx? fun p => nameMatches p.name old with
  | none => return (false, db)
  | some i =>
      -- not changing just the case
      if !sameName old new then
        let h ← db.findProperty oid new
        if h.isSome then return (false, db)
        if ← db.propertyDefinedAtOrBelow new oid then return (false, db)
      return (true, db.set oid
        { o with propdefs := o.propdefs.modify i fun p => { p with name := new } })

def removeProp (pos : Nat) (oid : Objid) (db : Db) : Option Db := do
  let o ← db.find oid
  let nprops ← db.countProperties oid
  let before ← copySlots o.propval 0 pos
  let after ← copySlots o.propval (pos + 1) (nprops - pos)
  return db.set oid { o with propval := before ++ after }

def removePropRecursively (db : Db) (root : Objid) (rootPos : Nat) : Option Db :=
  forSubtree removeProp (fun _ c pos => c.propdefs.length + pos) db.fuel rootPos root db

def deletePropdef (db : Db) (oid : Objid) (pname : Str) : Option (Bool × Db) := do
  let o ← db.find oid
  match o.propdefs.findIdx? fun p => nameMatches p.name pname with
  | none => return (false, db)
  | some i =>
      let db := db.set oid { o with propdefs := o.propdefs.eraseIdx i }
      return (true, ← db.removePropRecursively oid i)

def setObjectFlag (db : Db) (oid : Objid) (f : ObjectFlag) (on : Bool) : Option Db := do
  let db ← db.modify (fun o => { o with flags := Function.update o.flags f on }) oid
  if f = .user then
    let users := if on then
        if oid ∈ db.allUsers then db.allUsers else db.allUsers ++ [oid]
      else db.allUsers.erase oid
    return { db with allUsers := users }
  else return db

def modifySlot (f : Pval → Pval) (oid : Objid) (n : Nat) (db : Db) : Option Db := do
  let o ← db.objects oid
  if o.propval.length ≤ n then none
  return db.set oid { o with propval := o.propval.modify n f }

/-- `db_set_property_value(h, value)`; none is its panic on a built-in property that
cannot be set to the value. -/
def setPropertyValue (db : Db) : PropHandle → Var → Option Db
  | .slot oid n _, value => db.modifySlot (fun p => { p with var := value }) oid n
  | .builtIn .name oid, .str s => db.modify (fun o => { o with name := s }) oid
  | .builtIn .owner oid, .obj owner => db.modify (fun o => { o with owner }) oid
  | .builtIn .programmer oid, value => db.setObjectFlag oid .programmer value.isTrue
  | .builtIn .wizard oid, value => db.setObjectFlag oid .wizard value.isTrue
  | .builtIn .r oid, value => db.setObjectFlag oid .read value.isTrue
  | .builtIn .w oid, value => db.setObjectFlag oid .write value.isTrue
  | .builtIn .f oid, value => db.setObjectFlag oid .fertile value.isTrue
  | .builtIn .name _, _ | .builtIn .owner _, _ => none
  | .builtIn .location _, _ | .builtIn .contents _, _ => none

/-- The slot behind a handle; none is the panic on a built-in property. -/
def slotOf (db : Db) : PropHandle → Option Pval
  | .builtIn .. => none
  | .slot oid n _ => do (← db.objects oid).propval[n]?

def propertyAllows (db : Db) (h : PropHandle) (progr : Objid) (flag : PropPerms → Bool) :
    Option Bool := do
  let pval ← db.slotOf h
  return flag pval.perms || progr == pval.owner || db.isWizard progr

def setPropertyOwner (db : Db) (owner : Objid) : PropHandle → Option Db
  | .builtIn .. => none
  | .slot oid n _ => db.modifySlot (fun p => { p with owner }) oid n

def setPropertyFlags (db : Db) (perms : PropPerms) : PropHandle → Option Db
  | .builtIn .. => none
  | .slot oid n _ => db.modifySlot (fun p => { p with perms }) oid n

def fixPropsOf (old new common : Nat) (parentLocal : Nat) (oid : Objid) (db : Db) : Option Db := do
  let me ← db.find oid
  let loc := parentLocal + me.propdefs.length
  let localSlots ← copySlots me.propval 0 loc
  -- with no new slots the parent, which may be missing, is not looked at
  let newSlots ← if new = 0 then some [] else do
    let parent ← db.find me.parent
    copySlots parent.propval parentLocal new
  let commonSlots ← copySlots me.propval (loc + old) common
  let inherit := fun pv : Pval =>
    { pv with var := .clear, owner := if pv.perms.chown then me.owner else pv.owner }
  return db.set oid { me with propval := localSlots ++ newSlots.map inherit ++ commonSlots }

def fixProps (db : Db) (oid : Objid) (parentLocal old new common : Nat) : Option Db :=
  forSubtree (fixPropsOf old new common) (fun me _ loc => loc + me.propdefs.length) db.fuel
    parentLocal oid db

def checkPropertiesForChparent (db : Db) (oid newParent : Objid) : Option Bool := do
  let os ← db.ancestry newParent
  let found ← (os.flatMap fun o => o.propdefs).anyM
    fun p => db.propertyDefinedAtOrBelow p.name oid
  return !found

def fixPropertiesAfterChparent (db : Db) (oid oldParent : Objid) : Option Db := do
  let newParent := (← db.objects oid).parent
  -- the nearest common ancestor of the old and the new parent
  let news ← db.walkUp .family db.fuel newParent
  let olds ← db.walkUp .family db.fuel oldParent
  let commonProps ← match news.find? fun o1 => o1 ∈ olds with
    | some common => db.countProperties common
    | none => some 0
  let oldProps := (← db.countProperties oldParent) - commonProps
  let newProps := (← db.countProperties newParent) - commonProps
  db.fixProps oid 0 oldProps newProps commonProps

end Db
end LambdaMoo
