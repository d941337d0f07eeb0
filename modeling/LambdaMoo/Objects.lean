import LambdaMoo.Verbs

/-! The built-in functions on objects. One that calls verbs is cut at the calls: each
of its parts is entered with what the source keeps in its `data`. -/
namespace LambdaMoo
namespace Db

def controls (db : Db) (who : Objid) (what : Object) : Bool :=
  db.isWizard who || who == what.owner

def initializeCreated (env : Env) (db : Db) (oid parent owner : Objid) : Option (Package × Db) := do
  let db ← db.modify (fun o => { o with name := [] }) oid
  let db ← db.modify (fun o => { o with owner := if owner = nothing then oid else owner }) oid
  let (_, db) ← db.changeParent oid parent
  match ← db.callVerb env oid "initialize".toList with
  | (.eNone, db) => return (.call, db)
  | (.eMaxrec, db) => return (.raise .eMaxrec, db)
  | (_, db) => return (.retVar (.obj oid), db)

/-- The parent of a new object must exist and be fertile for the programmer, or be
`NOTHING`. -/
def mayParent (db : Db) (progr parent : Objid) : Bool :=
  match db.find parent with
  | some o => db.objectAllows o progr .fertile
  | none => parent = nothing

def createOwned (env : Env) (make : Db → Option (Except Error Objid × Db)) (db : Db)
    (parent owner : Objid) : Option (Package × Db) := do
  let (granted, db) ← if db.valid owner then db.decrQuota owner else some (true, db)
  if !granted then return (.raise .eQuota, db)
  match ← make db with
  | (.error e, db) => return (.raise e, db)
  | (.ok oid, db) => db.initializeCreated env oid parent owner

def bfCreate (env : Env) (db : Db) (progr parent : Objid) (owner? : Option Objid) :
    Option (Package × Db) :=
  let owner := owner?.getD progr
  if !db.mayParent progr parent || (owner ≠ progr && !db.isWizard progr) then
    some (.raise .ePerm, db)
  else createOwned env (fun db => some (.ok db.createObject.1, db.createObject.2)) db parent owner

def bfCreateAndRenumber (env : Env) (db : Db) (progr parent : Objid) (owner? : Option Objid) :
    Option (Package × Db) :=
  let owner := owner?.getD progr
  if !db.mayParent progr parent || (owner ≠ progr && !db.isWizard progr) then
    some (.raise .ePerm, db)
  else
    let make (db : Db) := do
      let (oid, db) ← db.createObjectAndRenum env.players
      return (.ok oid, db)
    createOwned env make db parent owner

def bfCreateWithId (env : Env) (db : Db) (progr id parent : Objid) (owner? : Option Objid) :
    Option (Package × Db) :=
  let owner := owner?.getD progr
  if !db.mayParent progr parent || !db.isWizard progr then some (.raise .ePerm, db)
  else
    let make (db : Db) := do
      let (oid, db) ← db.createObjectWithNum env.players id
      return (if oid = -1 then .error .eNacc else .ok oid, db)
    createOwned env make db parent owner

def bfChparent (db : Db) (progr what parent : Objid) : Option (Package × Db) := do
  match db.find what with
  | none => return (.raise .eInvarg, db)
  | some o =>
  if !db.valid parent && parent ≠ nothing then return (.raise .eInvarg, db)
  if !db.controls progr o || !db.mayParent progr parent then return (.raise .ePerm, db)
  if what ∈ (← db.walkUp .family db.fuel parent) then return (.raise .eRecmove, db)
  if ← db.checkVerbsBeforeChparent parent what then return (.raise .eInvarg, db)
  let (changed, db) ← db.changeParent what parent
  return (if changed then .noVar else .raise .eInvarg, db)

def moveExited (env : Env) (db : Db) (what where' : Objid) : Option (Package × Db) := do
  match db.find what with
  | none => return (.noVar, db)
  | some o =>
  if !db.valid where' || o.location ≠ where' then return (.noVar, db)
  match ← db.callVerb env where' "enterfunc".toList with
  | (.eNone, db) => return (.call, db)
  | (.eMaxrec, db) => return (.raise .eMaxrec, db)
  | (_, db) => return (.noVar, db)

def moveAccepted (env : Env) (db : Db) (progr what where' : Objid) (accepts : Bool) :
    Option (Package × Db) := do
  if !db.isWizard progr && !accepts then return (.raise .eNacc, db)
  match db.find what with
  | none => return (.noVar, db)
  | some o =>
  if (where' ≠ nothing && !db.valid where') || o.location = where' then return (.noVar, db)
  if what ∈ (← db.walkUp .place db.fuel where') then return (.raise .eRecmove, db)
  let db ← db.changeLocation what where'
  match ← db.callVerb env o.location "exitfunc".toList with
  | (.eNone, db) => return (.call, db)
  | (.eMaxrec, db) => return (.raise .eMaxrec, db)
  | (_, db) => db.moveExited env what where'

def bfMove (env : Env) (db : Db) (progr what where' : Objid) : Option (Package × Db) := do
  match db.find what with
  | none => return (.raise .eInvarg, db)
  | some o =>
  if !db.valid where' && where' ≠ nothing then return (.raise .eInvarg, db)
  if !db.controls progr o then return (.raise .ePerm, db)
  if where' = nothing then db.moveAccepted env progr what where' true
  else
    match ← db.callVerb env where' "accept".toList with
    | (.eNone, db) => return (.call, db)
    | (.eVerbnf, db) => db.moveAccepted env progr what where' false
    | (e, db) => return (.raise e, db)

def moveToNothing (env : Env) (db : Db) (oid : Objid) : Option (Bool × Db) := do
  let o ← db.objects oid
  let db ← db.changeLocation oid nothing
  let (e, db) ← db.callVerb env o.location "exitfunc".toList
  return (e = .eNone, db)

/-- Moving the contents to `NOTHING`, up to the first that has its `exitfunc` called. -/
def recycleContents (env : Env) (oid : Objid) : Nat → Db → Option (Bool × Db)
  | 0, _ => none
  | fuel + 1, db => do
      let o ← db.objects oid
      if o.contents = nothing then return (false, db)
      match ← db.moveToNothing env o.contents with
      | (true, db) => return (true, db)
      | (false, db) => recycleContents env oid fuel db

def recycleChildren (oid : Objid) : Nat → Db → Option Db
  | 0, _ => none
  | fuel + 1, db => do
      let o ← db.objects oid
      if o.child = nothing then return db
      let (_, db) ← db.changeParent o.child o.parent
      recycleChildren oid fuel db

def recycleResumed (env : Env) (db : Db) (oid : Objid) : Option (Package × Db) := do
  if !db.valid oid then return (.noVar, db)
  let (called, db) ← recycleContents env oid db.fuel db
  if called then return (.call, db)
  let o ← db.objects oid
  let (called, db) ← if o.location ≠ nothing then db.moveToNothing env oid else some (false, db)
  if called then return (.call, db)
  let db ← recycleChildren oid db.fuel db
  let (_, db) ← db.changeParent oid nothing
  let db ← db.incrQuota (← db.objects oid).owner
  return (.noVar, ← db.destroyObject oid)

def bfRecycle (env : Env) (db : Db) (progr oid : Objid) : Option (Package × Db) := do
  match db.find oid with
  | none => return (.raise .eInvarg, db)
  | some o =>
  if !db.controls progr o then return (.raise .ePerm, db)
  match ← db.callVerb env oid "recycle".toList with
  | (.eNone, db) => return (.call, db)
  | (_, db) => db.recycleResumed env oid

def bfRenumber (env : Env) (db : Db) (progr oid : Objid) : Option (Package × Db) := do
  if !db.valid oid then return (.raise .eInvarg, db)
  if !db.isWizard progr then return (.raise .ePerm, db)
  let (new, db) ← db.renumberObject env.players oid
  return (.retVar (.obj new), db)

def bfResetMaxObject (db : Db) (progr : Objid) : Option (Package × Db) := do
  if !db.isWizard progr then return (.raise .ePerm, db)
  return (.noVar, ← resetLastUsedObjid (db.numObjects.toNat + 1) db)

end Db
end LambdaMoo
