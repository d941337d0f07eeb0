import Mathlib.Logic.Relation
import LambdaMoo.Names
import LambdaMoo.Objects
import LambdaMoo.Property

/-! Sequences of calls. A built-in that is left for a verb is entered again by a call
of its own, at any time and whatever has been called since. -/
namespace LambdaMoo

mutual
/-- The values a program can come by. Markers and the two types without values are
internal to the server, and no string has a NUL inside. -/
def Var.isValue : Var → Bool
  | .str s => decide (Terminated s)
  | .list l => Var.areValues l
  | .clear | .none | .catchMarker _ | .finallyMarker _ => false
  | .int _ | .obj _ | .err _ | .float _ => true
def Var.areValues : List Var → Bool
  | [] => true
  | v :: vs => v.isValue && Var.areValues vs
end

abbrev Value := { v : Var // v.isValue = true }

/-- A C string with its NUL at the end. -/
abbrev CStr := { s : Str // Terminated s }

namespace Db

/-- A built-in function or assignment called with permissions `progr`, or entered again
after a verb it called has returned. -/
inductive Call
  | create (progr parent : Objid) (owner? : Option Objid)
  | createAndRenumber (progr parent : Objid) (owner? : Option Objid)
  | createWithId (progr id parent : Objid) (owner? : Option Objid)
  | chparent (progr what parent : Objid)
  | move (progr what where' : Objid)
  | moveAccepted (progr what where' : Objid) (accepts : Bool)
  | moveExited (progr what where' : Objid)
  | recycle (progr oid : Objid)
  | recycleResumed (progr oid : Objid)
  | renumber (progr oid : Objid)
  | resetMaxObject (progr : Objid)
  | setPropInfo (progr oid : Objid) (pname : CStr) (info : Value)
  | addProp (progr oid : Objid) (pname : CStr) (value info : Value)
  | deleteProp (progr oid : Objid) (pname : CStr)
  | clearProp (progr oid : Objid) (pname : CStr)
  | putProp (progr : Objid) (obj propname rhs : Value)
  | addVerb (progr oid : Objid) (info args : List Value)
  | deleteVerb (progr oid : Objid) (desc : Value)
  | setVerbInfo (progr oid : Objid) (desc : Value) (info : List Value)
  | setVerbArgs (progr oid : Objid) (desc : Value) (args : List Value)
  | setVerbCode (progr oid : Objid) (desc : Value) (code : List Value)
  | findCallableVerb (progr oid : Objid) (verb : CStr)

/-- The state a call leaves; none is a crash of the server. -/
def perform (env : Env) (db : Db) : Call → Option Db
  | .create progr parent owner? => (db.bfCreate env progr parent owner?).map Prod.snd
  | .createAndRenumber progr parent owner? =>
      (db.bfCreateAndRenumber env progr parent owner?).map Prod.snd
  | .createWithId progr id parent owner? =>
      (db.bfCreateWithId env progr id parent owner?).map Prod.snd
  | .chparent progr what parent => (db.bfChparent progr what parent).map Prod.snd
  | .move progr what where' => (db.bfMove env progr what where').map Prod.snd
  | .moveAccepted progr what where' accepts =>
      (db.moveAccepted env progr what where' accepts).map Prod.snd
  | .moveExited _ what where' => (db.moveExited env what where').map Prod.snd
  | .recycle progr oid => (db.bfRecycle env progr oid).map Prod.snd
  | .recycleResumed _ oid => (db.recycleResumed env oid).map Prod.snd
  | .renumber progr oid => (db.bfRenumber env progr oid).map Prod.snd
  | .resetMaxObject progr => (db.bfResetMaxObject progr).map Prod.snd
  | .setPropInfo progr oid pname info => (db.bfSetPropInfo progr oid pname info).map Prod.snd
  | .addProp progr oid pname value info => (db.bfAddProp progr oid pname value info).map Prod.snd
  | .deleteProp progr oid pname => (db.bfDeleteProp progr oid pname).map Prod.snd
  | .clearProp progr oid pname => (db.bfClearProp progr oid pname).map Prod.snd
  | .putProp progr obj propname rhs => (db.putProp progr obj propname rhs).map Prod.snd
  | .addVerb progr oid info args =>
      (db.bfAddVerb env progr oid (info.map Subtype.val) (args.map Subtype.val)).map Prod.snd
  | .deleteVerb progr oid desc => (db.bfDeleteVerb progr oid desc).map Prod.snd
  | .setVerbInfo progr oid desc info =>
      (db.bfSetVerbInfo env progr oid desc (info.map Subtype.val)).map Prod.snd
  | .setVerbArgs progr oid desc args =>
      (db.bfSetVerbArgs env progr oid desc (args.map Subtype.val)).map Prod.snd
  | .setVerbCode progr oid desc code =>
      (db.bfSetVerbCode env progr oid desc (code.map Subtype.val)).map Prod.snd
  | .findCallableVerb _ oid verb => (db.findCallableVerb oid verb).map Prod.fst

def Call.progr : Call → Objid
  | .create p .. | .createAndRenumber p .. | .createWithId p .. | .chparent p .. | .move p ..
  | .moveAccepted p .. | .moveExited p .. | .recycle p .. | .recycleResumed p .. | .renumber p ..
  | .resetMaxObject p | .setPropInfo p .. | .addProp p .. | .deleteProp p .. | .clearProp p ..
  | .putProp p .. | .addVerb p .. | .deleteVerb p .. | .setVerbInfo p .. | .setVerbArgs p ..
  | .setVerbCode p .. | .findCallableVerb p .. => p

def Step (ok : Env → Call → Db → Prop) (db db' : Db) : Prop :=
  ∃ env call, ok env call db ∧ db.perform env call = some db'

/-- A sequence of calls. -/
abbrev Run (ok : Env → Call → Db → Prop) : Db → Db → Prop := Relation.ReflTransGen (Step ok)

theorem Run.invariant {ok : Env → Call → Db → Prop} {I : Db → Prop} {db db' : Db}
    (hstep : ∀ {env call db db'}, I db → ok env call db → db.perform env call = some db' → I db')
    (hi : I db) (hrun : Run ok db db') : I db' := by
  induction hrun with
  | refl => exact hi
  | tail _ hlast ih =>
      obtain ⟨env, call, hok, hdo⟩ := hlast
      exact hstep ih hok hdo

def performAll : List (Env × Call) → Db → Option Db
  | [], db => some db
  | (env, call) :: calls, db => (db.perform env call).bind (performAll calls)

theorem performAll_run {ok : Env → Call → Db → Prop} {db db' : Db} (calls : List (Env × Call))
    (hok : ∀ c ∈ calls, ∀ db, ok c.1 c.2 db) (hdo : performAll calls db = some db') : Run ok db db' := by
  induction calls generalizing db with
  | nil =>
      obtain rfl := Option.some.inj hdo
      exact .refl
  | cons c calls ih =>
      obtain ⟨db₁, hfirst, hrest⟩ := Option.bind_eq_some_iff.mp hdo
      exact .head ⟨c.1, c.2, hok c (by simp) db, hfirst⟩ (ih (fun c hc => hok c (by simp [hc])) hrest)

end Db
end LambdaMoo
