import LambdaMoo.Functions

/-! The built-in functions on verbs, and the protection of the verbs that must not be
overridden. -/
namespace LambdaMoo

/-- The loop of `single_names_share_namespace` for one name that has met its star and
one that has not: what is left of both, and the last character taken from the starred
one; none on a mismatch. -/
def shareStarred : Str → Str → Char → Option (Str × Str × Char)
  | [], plain, last => some ([], plain, last)
  | s :: starred, plain, last =>
      match plain with
      | [] => some (s :: starred, [], last)
      | c :: plain =>
          if c = '*' then some (s :: starred, c :: plain, last)
          else if s = '*' then shareStarred starred (c :: plain) s
          else if asciiTolower s ≠ asciiTolower c then none
          else shareStarred starred plain s

def shareBothStarred : Str → Str → Bool
  | f :: foo, b :: bar =>
      if f = '*' then shareBothStarred foo (b :: bar)
      else if b = '*' then shareBothStarred (f :: foo) bar
      else if asciiTolower f ≠ asciiTolower b then false
      else shareBothStarred foo bar
  | _, _ => true
termination_by foo bar => foo.length + bar.length

/-- What follows from where that loop has ended: `both` when the other name has met its
star too. -/
def starredOutcome (both : Str → Str → Option Bool) : Option (Str × Str × Char) → Option Bool
  | none => some false
  | some (_, [], _) => some true
  | some (starred, p :: plain, last) =>
      if p = '*' then both starred (p :: plain) else some (last == '*')

/-- `single_names_share_namespace`; none is the loop that sets `barstar` where
`foostar` is meant and so never ends. -/
def singleNamesShareNamespace : Str → Str → Option Bool
  | [], [] => some true
  | [], b :: bar =>
      if b = '*' then starredOutcome (fun _ _ => none) (shareStarred (b :: bar) [] '*')
      else some false
  | f :: foo, [] =>
      if f = '*' then starredOutcome (fun f b => some (shareBothStarred f b)) (shareStarred (f :: foo) [] '*')
      else some false
  | f :: foo, b :: bar =>
      if f = '*' then
        if b = '*' then some (shareBothStarred (f :: foo) (b :: bar))
        else starredOutcome (fun f b => some (shareBothStarred f b))
          (shareStarred (f :: foo) (b :: bar) '*')
      else if b = '*' then
        starredOutcome (fun _ _ => none) (shareStarred (b :: bar) (f :: foo) '*')
      else if asciiTolower f ≠ asciiTolower b then some false
      else singleNamesShareNamespace foo bar

def verbWords (names : Str) : List Str := (names.splitOn ' ').filter fun w => !w.isEmpty

def verbnamesShareNamespace (foo bar : Str) : Option Bool :=
  (verbWords foo).anyM fun f => (verbWords bar).anyM fun b => singleNamesShareNamespace f b

structure VerbInfo where
  owner : Objid
  flags : VerbFlags
  names : Str

def verbFlagLetter (useBlockedNotation : Bool) (flags : VerbFlags) (c : Char) : Option VerbFlags :=
  if c = 'r' ∨ c = 'R' then some { flags with read := true }
  else if c = 'w' ∨ c = 'W' then some { flags with write := true }
  else if c = 'x' ∨ c = 'X' then some { flags with exec := true }
  else if c = 'd' ∨ c = 'D' then some { flags with debug := true }
  else if useBlockedNotation = true ∧ (c = 'b' ∨ c = 'B') then some { flags with notO := true }
  else if useBlockedNotation = false ∧ (c = 'o' ∨ c = 'O') then some { flags with notO := false }
  else none

def matchArgSpec (s : Str) : Option ArgSpec :=
  if sameName s ['n', 'o', 'n', 'e'] then some .none
  else if sameName s ['a', 'n', 'y'] then some .any
  else if sameName s ['t', 'h', 'i', 's'] then some .this
  else none

def prepNone : Int := -1
def prepAny : Int := -2

def matchPrepSpec (env : Env) (s : Str) : Option Int :=
  if sameName s ['n', 'o', 'n', 'e'] then some prepNone
  else if sameName s ['a', 'n', 'y'] then some prepAny
  else if env.matchPrep s = prepNone then none
  else some (env.matchPrep s)

def validateVerbArgs (env : Env) : List Var → Except Error ArgSpecs
  | [.str dobj, .str prep, .str iobj] =>
      match matchArgSpec dobj, matchPrepSpec env prep, matchArgSpec iobj with
      | some dobj, some prep, some iobj => .ok { dobj, prep, iobj }
      | _, _, _ => .error .eInvarg
  | _ => .error .eType

def validateVerbDescriptor : Var → Error
  | .str _ => .eNone
  | .int n => if n ≤ 0 then .eInvarg else .eNone
  | _ => .eType

namespace Db

def validateVerbInfo (db : Db) : List Var → Option (Except Error VerbInfo)
  | [.obj owner, .str perms, .str names] => do
      if !db.valid owner then return .error .eInvarg
      let useBlockedNotation ← db.serverFlagOption "use_blocked_notation".toList
      match perms.foldlM (verbFlagLetter useBlockedNotation) { notO := !useBlockedNotation } with
      | none => return .error .eInvarg
      | some flags =>
          let names := names.dropWhile (· = ' ')
          if names.isEmpty then return .error .eInvarg
          return .ok { owner, flags, names }
  | _ => some (.error .eType)

def nameConflictWithAncestor (db : Db) (oid owner : Objid) (names : Str) : Option Bool := do
  let victims ← db.ancestry oid
  (victims.flatMap fun o => o.verbdefs).anyM fun v =>
    if v.flags.notO ∧ v.owner ≠ owner then verbnamesShareNamespace names v.name else some false

def nameConflictWithDescendants (db : Db) (oid owner : Objid) (names : Str) : Option Bool := do
  let children ← db.membersOf .family oid
  children.anyM <| db.anyBelow (fun o => o.verbdefs.anyM fun v =>
    if !db.isWizard v.owner ∧ v.owner ≠ owner then verbnamesShareNamespace names v.name
    else some false) db.fuel

def checkVerbsBeforeChparent (db : Db) (newParent oid : Objid) : Option Bool :=
  db.anyBelow (fun o => o.verbdefs.anyM fun v =>
    if !db.isWizard v.owner then db.nameConflictWithAncestor newParent v.owner v.name
    else some false) db.fuel oid

/-- The `&&` of C: its right side is only looked at when the left one holds. -/
def andAlso (c : Bool) (b : Option Bool) : Option Bool := if c then b else some false

def bfAddVerb (env : Env) (db : Db) (progr oid : Objid) (info args : List Var) :
    Option (Package × Db) := do
  match ← db.validateVerbInfo info with
  | .error e => return (.raise e, db)
  | .ok info =>
  match validateVerbArgs env args with
  | .error e => return (.raise e, db)
  | .ok specs =>
  match db.find oid with
  | none => return (.raise .eInvarg, db)
  | some o =>
  if !db.objectAllows o progr .write || (progr ≠ info.owner && !db.isWizard progr) then
    return (.raise .ePerm, db)
  if ← andAlso (!db.isWizard progr && info.flags.notO)
      (db.serverFlagOption "protect_o_flag".toList) then
    return (.raise .ePerm, db)
  if ← andAlso (!db.isWizard info.owner)
      (db.nameConflictWithAncestor o.parent info.owner info.names) then
    return (.raise .ePerm, db)
  if ← andAlso info.flags.notO (db.nameConflictWithDescendants oid info.owner info.names) then
    return (.raise .eInvarg, db)
  let (count, db) ← db.addVerb oid env.addr info.names info.owner info.flags specs
  return (.retVar (.int count), db)

def findDescribedVerb (db : Db) (oid : Objid) : Var → Option (Option VerbHandle)
  | .int n => db.findIndexedVerb oid n
  | .str s => do
      let flag ← db.serverFlagOption "support_numeric_verbname_strings".toList
      db.findDefinedVerb oid s flag
  | _ => none

def bfDeleteVerb (db : Db) (progr oid : Objid) (desc : Var) : Option (Package × Db) := do
  if validateVerbDescriptor desc ≠ .eNone then
    return (.raise (validateVerbDescriptor desc), db)
  match db.find oid with
  | none => return (.raise .eInvarg, db)
  | some o =>
  if !db.objectAllows o progr .write then return (.raise .ePerm, db)
  match ← db.findDescribedVerb oid desc with
  | none => return (.raise .eVerbnf, db)
  | some h => return (.noVar, ← db.deleteVerb h)

def describedVerb (db : Db) (oid : Objid) (desc : Var) : Option (Except Error VerbHandle) := do
  match ← db.findDescribedVerb oid desc with
  | none => return .error .eVerbnf
  | some h => return .ok h

def freedDesc (env : Env) (again : Bool) : Var → Var
  | .str s => .str (env.freed again s)
  | desc => desc

/-- `name_conflict_with_ancestor` is asked for a new owner or new names, and
`name_conflict_with_descendants` for a new owner, a new flag or, as the code has it, the
old names. The verb is matched three times; the last match is what is written to. -/
def bfSetVerbInfo (env : Env) (db : Db) (progr oid : Objid) (desc : Var) (info : List Var) :
    Option (Package × Db) := do
  if validateVerbDescriptor desc ≠ .eNone then
    return (.raise (validateVerbDescriptor desc), db)
  match db.find oid with
  | none => return (.raise .eInvarg, db)
  | some o =>
  match ← db.validateVerbInfo info with
  | .error e => return (.raise e, db)
  | .ok info =>
  match ← db.describedVerb oid desc with
  | .error e => return (.raise e, db)
  | .ok h =>
  let v ← db.verbOf h
  if !(← db.verbAllows h progr VerbFlags.write) ||
      (!db.isWizard progr && v.owner ≠ info.owner) then
    return (.raise .ePerm, db)
  if (← andAlso (!db.isWizard progr) (db.serverFlagOption "protect_o_flag".toList)) &&
      info.flags.notO != v.flags.notO then
    return (.raise .ePerm, db)
  if ← andAlso ((info.owner != v.owner || !sameName info.names v.name) && !db.isWizard info.owner)
      (db.nameConflictWithAncestor o.parent info.owner info.names) then
    return (.raise .ePerm, db)
  let rematched ← db.findDescribedVerb oid (freedDesc env false desc)
  if ← andAlso info.flags.notO (do
      let v ← db.verbOf (← rematched)
      andAlso (info.owner != v.owner || !v.flags.notO || sameName info.names v.name)
        (db.nameConflictWithDescendants oid info.owner info.names)) then
    return (.raise .eInvarg, db)
  -- a handle without a verb is a panic
  let h ← (← db.findDescribedVerb oid (freedDesc env true desc))
  let db ← db.setVerbOwner info.owner h
  let db ← db.setVerbFlags info.flags h
  return (.noVar, ← db.setVerbNames info.names h)

def bfSetVerbArgs (env : Env) (db : Db) (progr oid : Objid) (desc : Var) (args : List Var) :
    Option (Package × Db) := do
  if validateVerbDescriptor desc ≠ .eNone then
    return (.raise (validateVerbDescriptor desc), db)
  if !db.valid oid then return (.raise .eInvarg, db)
  match validateVerbArgs env args with
  | .error e => return (.raise e, db)
  | .ok specs =>
  match ← db.describedVerb oid desc with
  | .error e => return (.raise e, db)
  | .ok h =>
  if !(← db.verbAllows h progr VerbFlags.write) then return (.raise .ePerm, db)
  return (.noVar, ← db.setVerbArgSpecs specs h)

/-- The result is the list of the parser's errors, which is left out. -/
def bfSetVerbCode (env : Env) (db : Db) (progr oid : Objid) (desc : Var) (code : List Var) :
    Option (Package × Db) := do
  if code.any fun v => !v.sameType (.str []) then return (.raise .eType, db)
  if validateVerbDescriptor desc ≠ .eNone then
    return (.raise (validateVerbDescriptor desc), db)
  if !db.valid oid then return (.raise .eInvarg, db)
  match ← db.describedVerb oid desc with
  | .error e => return (.raise e, db)
  | .ok h =>
  if !db.isProgrammer progr || !(← db.verbAllows h progr VerbFlags.write) then
    return (.raise .ePerm, db)
  match env.parse code with
  | none => return (.retVar (.list []), db)
  | some program =>
      if env.taskTimedOut then return (.retVar (.list []), db)
      return (.retVar (.list []), ← db.setVerbProgram program h)

end Db
end LambdaMoo
