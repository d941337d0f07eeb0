import LambdaMoo.DbObjects

/-! What the built-in functions share: their results, calls of verbs and the server's
options. A built-in that calls a verb is left and entered again when the verb returns. -/
namespace LambdaMoo

/-- `package`: `call` is left to the verb that was called. -/
inductive Package
  | retVar (v : Var)
  | noVar
  | raise (e : Error)
  | call

/-- What the database has no say in: whether one more activation fits on the stack,
where the next verb is allocated, the table of prepositions, the parser, the timer, what a
string reads as that has been freed, the first and the second time it is read, and where the list
of the users itself stands. A string that something else refers to is not freed and reads as it is. -/
structure Env where
  pushActivation : Bool
  addr : Nat
  matchPrep : Str → Int
  parse : List Var → Option Program
  taskTimedOut : Bool
  freed : Bool → Str → Str
  players : Sharing

namespace Db

def callVerb (env : Env) (this : Objid) (vname : Str) (db : Db) : Option (Error × Db) := do
  if !db.valid this then return (.eInvind, db)
  match ← db.findCallableVerb this vname with
  | (db, none) => return (.eVerbnf, db)
  | (db, some h) =>
      if !env.pushActivation then return (.eMaxrec, db)
      let _ ← db.verbOf h
      return (.eNone, db)

def getServerOption (db : Db) (name : Str) : Option (Option Var) := do
  if !db.valid systemObject then return none
  match ← db.findPropertyValue systemObject "server_options".toList with
  | some (_, .obj options) =>
      if db.valid options then
        return (← db.findPropertyValue options name).map Prod.snd
      else return none
  | _ => return none

def serverFlagOption (db : Db) (name : Str) : Option Bool := do
  return (← db.getServerOption name).any Var.isTrue

def decrQuota (db : Db) (player : Objid) : Option (Bool × Db) := do
  if !db.valid player then return (true, db)
  match ← db.findPropertyValue player "ownership_quota".toList with
  | some (h, .int num) =>
      if num ≤ 0 then return (false, db)
      return (true, ← db.setPropertyValue h (.int (wrap32 (num - 1))))
  | _ => return (true, db)

def incrQuota (db : Db) (player : Objid) : Option Db := do
  if !db.valid player then return db
  match ← db.findPropertyValue player "ownership_quota".toList with
  | some (h, .int num) => db.setPropertyValue h (.int (wrap32 (num + 1)))
  | _ => return db

end Db
end LambdaMoo
