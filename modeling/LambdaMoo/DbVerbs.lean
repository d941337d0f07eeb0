import LambdaMoo.Db

/-! Verbs on objects, and the cache of verb lookups. -/
namespace LambdaMoo

structure ArgSpecs where
  dobj : ArgSpec
  prep : Int
  iobj : ArgSpec
  deriving DecidableEq, Repr

inductive Star
  | none | inner | ending
  deriving DecidableEq, Repr

/-- One name of a verb against a word: what is left of both, and the last star seen. -/
def matchVerbName : Str → Str → Star → Str × Str × Star
  | [], w, star => ([], w, star)
  | '*' :: v, w, _ => matchVerbName v w (if v.isEmpty || v.head? == some ' ' then .ending else .inner)
  | c :: v, w, star =>
      match w with
      | [] => (c :: v, [], star)
      | x :: w' =>
          if c = ' ' ∨ asciiTolower x ≠ asciiTolower c then (c :: v, w, star)
          else matchVerbName v w' star

def verbcasecmpFrom : Nat → Str → Str → Bool
  | 0, _, _ => false
  | fuel + 1, verb, word =>
      if verb.isEmpty then false
      else
        let (v, w, star) := matchVerbName verb word .none
        if (if w.isEmpty then star ≠ .none ∨ v.isEmpty ∨ v.head? = some ' ' else star = .ending) then
          true
        else verbcasecmpFrom fuel ((v.dropWhile (· ≠ ' ')).dropWhile (· = ' ')) word

/-- `verbcasecmp(verb, word)` of the two strings' contents. Each round takes at least
one character off `verb`. -/
def verbcasecmp (verb word : Str) : Bool := verbcasecmpFrom (verb.length + 1) verb word

def isSpace (c : Char) : Bool := c = ' ' ∨ 9 ≤ c.toNat ∧ c.toNat ≤ 13

def strtol (s : Str) : Int × Str :=
  let t := s.dropWhile isSpace
  let (neg, t) := match t with
    | '-' :: t => (true, t)
    | '+' :: t => (false, t)
    | t => (false, t)
  let digits := t.takeWhile Char.isDigit
  if digits.isEmpty then (0, s)
  else
    let n : Int := digits.foldl (fun n c => 10 * n + (c.toNat - '0'.toNat)) 0
    let n := if neg then max (-n) (-2 ^ 63) else min n (2 ^ 63 - 1)
    (wrap32 n, t.dropWhile Char.isDigit)

namespace Db

def verbOf (db : Db) (h : VerbHandle) : Option Verbdef := do
  (← db.objects h.definer).verbdefs.find? fun v => v.addr == h.verbdef

def modifyVerb (f : Verbdef → Verbdef) (h : VerbHandle) (db : Db) : Option Db := do
  let o ← db.objects h.definer
  let _ ← db.verbOf h
  return db.set h.definer
    { o with verbdefs := o.verbdefs.map fun v => if v.addr = h.verbdef then f v else v }

def freshAddr (db : Db) (addr : Nat) : Prop :=
  ∀ i ∈ List.range db.numObjects.toNat, ∀ o ∈ db.objects i, ∀ v ∈ o.verbdefs, v.addr ≠ addr

instance (db : Db) (addr : Nat) : Decidable (db.freshAddr addr) :=
  inferInstanceAs (Decidable (∀ i ∈ List.range db.numObjects.toNat, ∀ o ∈ db.objects i,
    ∀ v ∈ o.verbdefs, v.addr ≠ addr))

def addVerb (db : Db) (oid : Objid) (addr : Nat) (vnames : Str) (owner : Objid) (flags : VerbFlags)
    (specs : ArgSpecs) : Option (Nat × Db) := do
  let db := db.affectedCallableVerbLookup
  let o ← db.find oid
  if ¬ db.freshAddr addr then none
  let newv : Verbdef :=
    { addr, name := vnames, program := none, owner, flags, dobj := specs.dobj
      prep := specs.prep, iobj := specs.iobj }
  return (o.verbdefs.length + 1, db.set oid { o with verbdefs := o.verbdefs ++ [newv] })

def findVerbdefByName (o : Object) (vname : Str) (checkXBit : Bool) : Option Verbdef :=
  o.verbdefs.find? fun v => verbcasecmp v.name vname && (!checkXBit || v.flags.exec)

def deleteVerb (db : Db) (h : VerbHandle) : Option Db := do
  let db := db.affectedCallableVerbLookup
  let o ← db.find h.definer
  let _ ← db.verbOf h
  return db.set h.definer
    { o with verbdefs := o.verbdefs.eraseP fun v => v.addr == h.verbdef }

def firstParentWithVerbs (db : Db) : Nat → Objid → Option (Option Object)
  | 0, _ => none
  | fuel + 1, oid =>
      match db.find oid with
      | none => some none
      | some o => if o.verbdefs.isEmpty then db.firstParentWithVerbs fuel o.parent else some (some o)

def callableVerbWalk (db : Db) (verb : Str) : Nat → Objid → Option (Option VerbHandle)
  | 0, _ => none
  | fuel + 1, oid =>
      match db.find oid with
      | none => some none
      | some o =>
          match findVerbdefByName o verb true with
          | some v => some (some { definer := o.id, verbdef := v.addr })
          | none => db.callableVerbWalk verb fuel o.parent

def vcSize : Nat := 7507

def vcHash (verb : Str) (key : Objid) : UInt32 := strHash verb ^^^ ~~~(UInt32.ofInt key)

def vcKey : Option Object → Objid
  | some o => o.id
  | none => nothing

/-- `db_find_callable_verb(oid, verb)`. What is not in the cache is put there, found or
not. -/
def findCallableVerb (db : Db) (oid : Objid) (verb : Str) : Option (Db × Option VerbHandle) := do
  let first ← db.firstParentWithVerbs db.fuel oid
  let key := vcKey first
  let hash := vcHash verb key
  let bucket := hash.toNat % vcSize
  match (db.vcTable bucket).find? fun vc =>
      hash == vc.hash && key == vc.oidKey && sameName verb vc.verbname with
  | some vc => return (db, vc.h)
  | none =>
      let h ← db.callableVerbWalk verb db.fuel key
      let newVc : VcEntry := { hash, oidKey := key, verbname := verb, h }
      return ({ db with vcTable := Function.update db.vcTable bucket (newVc :: db.vcTable bucket) }, h)

def findDefinedVerb (db : Db) (oid : Objid) (vname : Str) (allowNumbers : Bool) :
    Option (Option VerbHandle) := do
  let o ← db.find oid
  let (num, p) := strtol vname
  let num := if !allowNumbers || (vname.head?.any isSpace || !p.isEmpty) then -1 else num
  let found := o.verbdefs.zipIdx.find? fun (v, i) => (i : Int) == num || verbcasecmp v.name vname
  return found.map fun (v, _) => { definer := o.id, verbdef := v.addr }

def findIndexedVerb (db : Db) (oid : Objid) (index : Int) : Option (Option VerbHandle) := do
  let o ← db.find oid
  if index ≤ 0 then return none
  return o.verbdefs[index.toNat - 1]?.map fun v => { definer := o.id, verbdef := v.addr }

def setVerbNames (names : Str) (h : VerbHandle) (db : Db) : Option Db :=
  db.affectedCallableVerbLookup.modifyVerb (fun v => { v with name := names }) h

def setVerbOwner (owner : Objid) (h : VerbHandle) (db : Db) : Option Db :=
  db.modifyVerb (fun v => { v with owner }) h

def setVerbFlags (flags : VerbFlags) (h : VerbHandle) (db : Db) : Option Db :=
  db.affectedCallableVerbLookup.modifyVerb (fun v => { v with flags }) h

def setVerbProgram (program : Program) (h : VerbHandle) (db : Db) : Option Db :=
  db.modifyVerb (fun v => { v with program := some program }) h

def setVerbArgSpecs (specs : ArgSpecs) (h : VerbHandle) (db : Db) : Option Db :=
  db.affectedCallableVerbLookup.modifyVerb
    (fun v => { v with dobj := specs.dobj, prep := specs.prep, iobj := specs.iobj }) h

def verbAllows (db : Db) (h : VerbHandle) (progr : Objid) (flag : VerbFlags → Bool) :
    Option Bool := do
  let v ← db.verbOf h
  return flag v.flags || progr == v.owner || db.isWizard progr

end Db
end LambdaMoo
