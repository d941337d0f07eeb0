import LambdaMoo.Functions

/-! The built-in functions on properties, and the assignment to a property. -/
namespace LambdaMoo

structure PropInfo where
  owner : Objid
  flags : PropPerms
  newName : Option Str

def propFlagLetter (flags : PropPerms) (c : Char) : Option PropPerms :=
  if c = 'r' ∨ c = 'R' then some { flags with read := true }
  else if c = 'w' ∨ c = 'W' then some { flags with write := true }
  else if c = 'c' ∨ c = 'C' then some { flags with chown := true }
  else none

namespace Db

def validatePropInfo (db : Db) (info : Var) : Except Error PropInfo :=
  let validate (owner : Objid) (perms : Str) (newName : Option Str) : Except Error PropInfo :=
    if !db.valid owner then .error .eInvarg
    else
      match perms.foldlM propFlagLetter {} with
      | none => .error .eInvarg
      | some flags => .ok { owner, flags, newName }
  match info with
  | .list [.obj owner, .str perms] => validate owner perms none
  | .list [.obj owner, .str perms, .str name] => validate owner perms (some name)
  | _ => .error .eType

def bfSetPropInfo (db : Db) (progr oid : Objid) (pname : Str) (info : Var) :
    Option (Package × Db) := do
  if !db.valid oid then return (.raise .eInvarg, db)
  match db.validatePropInfo info with
  | .error e => return (.raise e, db)
  | .ok info =>
  match ← db.findProperty oid pname with
  | none | some (.builtIn ..) => return (.raise .ePropnf, db)
  | some h =>
  if !(← db.propertyAllows h progr PropPerms.write) ||
      (!db.isWizard progr && (← db.slotOf h).owner ≠ info.owner) then
    return (.raise .ePerm, db)
  match info.newName with
  | none =>
      let db ← db.setPropertyOwner info.owner h
      return (.noVar, ← db.setPropertyFlags info.flags h)
  | some newName =>
      let (renamed, db) ← db.renamePropdef oid pname newName
      if !renamed then return (.raise .eInvarg, db)
      let h ← (← db.findProperty oid newName)
      let db ← db.setPropertyOwner info.owner h
      return (.noVar, ← db.setPropertyFlags info.flags h)

def bfAddProp (db : Db) (progr oid : Objid) (pname : Str) (value info : Var) :
    Option (Package × Db) := do
  match db.validatePropInfo info with
  | .error e => return (.raise e, db)
  | .ok info =>
  if info.newName.isSome then return (.raise .eType, db)
  match db.find oid with
  | none => return (.raise .eInvarg, db)
  | some o =>
  if !db.objectAllows o progr .write || (progr ≠ info.owner && !db.isWizard progr) then
    return (.raise .ePerm, db)
  let (added, db) ← db.addPropdef oid pname value info.owner info.flags
  return (if added then .noVar else .raise .eInvarg, db)

def bfDeleteProp (db : Db) (progr oid : Objid) (pname : Str) : Option (Package × Db) := do
  match db.find oid with
  | none => return (.raise .eInvarg, db)
  | some o =>
  if !db.objectAllows o progr .write then return (.raise .ePerm, db)
  let (deleted, db) ← db.deletePropdef oid pname
  return (if deleted then .noVar else .raise .ePropnf, db)

def bfClearProp (db : Db) (progr oid : Objid) (pname : Str) : Option (Package × Db) := do
  if !db.valid oid then return (.raise .eInvarg, db)
  match ← db.findProperty oid pname with
  | none => return (.raise .ePropnf, db)
  | some (.builtIn ..) => return (.raise .ePerm, db)
  | some (.slot oid' n definer) =>
      let h := PropHandle.slot oid' n definer
      if progr ≠ (← db.slotOf h).owner && !db.isWizard progr then return (.raise .ePerm, db)
      if definer = oid then return (.raise .eInvarg, db)
      return (.noVar, ← db.setPropertyValue h .clear)

def putPropError (db : Db) (progr : Objid) (rhs : Var) : PropHandle → Option Error
  | h@(.slot ..) => do
      return if ← db.propertyAllows h progr PropPerms.write then .eNone else .ePerm
  | .builtIn prop oid => do
      let o ← db.objects oid
      match prop, rhs with
      | .name, .str _ =>
          return if !db.isWizard progr && (db.isUser oid || progr ≠ o.owner) then .ePerm else .eNone
      | .name, _ => return .eType
      | .owner, .obj _ => return if db.isWizard progr then .eNone else .ePerm
      | .owner, _ => return .eType
      | .programmer, _ | .wizard, _ => return if db.isWizard progr then .eNone else .ePerm
      | .r, _ | .w, _ | .f, _ =>
          return if progr ≠ o.owner && !db.isWizard progr then .ePerm else .eNone
      | .location, _ | .contents, _ => return .ePerm

/-- The opcode `OP_PUT_PROP` after its operands are popped: the error it raises, or
`E_NONE`. -/
def putProp (db : Db) (progr : Objid) (obj propname rhs : Var) : Option (Error × Db) := do
  match obj, propname with
  | .obj oid, .str propname =>
      if !db.valid oid then return (.eInvind, db)
      match ← db.findProperty oid propname with
      | none => return (.ePropnf, db)
      | some h =>
          let err ← db.putPropError progr rhs h
          if err ≠ .eNone then return (err, db)
          return (.eNone, ← db.setPropertyValue h rhs)
  | _, _ => return (.eType, db)

end Db
end LambdaMoo
