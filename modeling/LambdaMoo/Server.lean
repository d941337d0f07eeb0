import Mathlib.Logic.Function.Basic
import LambdaMoo.Functions
import LambdaMoo.Lib.TailList

/-! Task queues and connections: the state that `tasks.c` and `server.c` keep. -/
namespace LambdaMoo

/-- What stops the server: a connection that is looked up and not there, a pointer to
what has been freed, a number without a successor, a loop without an end, or a read of
the database. -/
inductive Fault
  | noConnection | badPointer | overflow | endless | database
  deriving DecidableEq, Repr

abbrev Outcome := Except Fault

def Outcome.ofOption {α : Type} : Option α → Outcome α
  | none => .error .database
  | some a => .ok a

/-- What the queues look at of a suspended computation. The `tag` is not in the source:
it tells tasks apart that were given the same random id. -/
structure Vm where
  tag : Nat
  taskId : Int
  progr : Objid

/-- A `task` that is not input. Its `tag` is not in the source either. -/
inductive BgTask
  | forked (tag : Nat) (id : Int) (progr : Objid) (startTime : Int)
  | suspended (vm : Vm) (startTime : Int) (value : Var)

structure InputTask where
  string : Str
  length : Int

namespace BgTask

def tag : BgTask → Nat
  | forked tag .. => tag
  | suspended vm .. => vm.tag

def id : BgTask → Int
  | forked _ id .. => id
  | suspended vm .. => vm.taskId

def progr : BgTask → Objid
  | forked _ _ progr _ => progr
  | suspended vm .. => vm.progr

def startTime : BgTask → Int
  | forked _ _ _ startTime => startTime
  | suspended _ startTime _ => startTime

end BgTask

/-- Lengths and counts are as large as memory lets them get and have no bound here.
`reading` is the flag and `reading_vm`, `programming` whether `program_stream` is set. -/
structure Tqueue where
  player : Objid
  connected : Bool
  input : TailList InputTask
  totalInputLength : Int
  inputSuspended : Bool
  bg : TailList BgTask
  usage : Int
  numBgTasks : Int
  holdInput : Bool
  flushCmd : Option Str
  programming : Bool
  reading : Option Vm

/-- A connection, with the one field of the network's handle that is used here. -/
structure Shandle where
  nhandle : Nat
  connectionTime : Int
  lastActivityTime : Int
  player : Objid
  listener : Objid
  tasks : Nat
  disconnectMe : Bool
  outbound : Bool
  netInputSuspended : Bool

/-- The queue whose task is run, since when, and whether that is a login. -/
structure Current where
  queue : Nat
  start : Int
  login : Bool

/-- Queues and handles are known by numbers that are not used again. The tags given out
and those of the tasks that were run or killed are not in the source. -/
structure Server where
  queues : Nat → Option Tqueue
  nextQueue : Nat
  idle : List Nat
  active : List Nat
  waiting : List BgTask
  shandles : List Shandle
  nextHandle : Nat
  nextUnconnectedPlayer : Int
  current : Option Current
  currentTaskId : Int
  nextTag : Nat
  ended : List Nat

def noUsage : Int := -1

def inputHiwat : Int := 131072
def inputLowat : Int := inputHiwat / 2

def defaultConnectTimeout : Int := 300

namespace Db

def serverOption (db : Db) (oid : Objid) (name : Str) : Option (Option Var) := do
  let options (oid : Objid) : Option (Option Var) :=
    if db.valid oid then do
      return (← db.findPropertyValue oid "server_options".toList).map Prod.snd
    else some none
  let found ← match ← options oid with
    | some v => some (some v)
    | none => options systemObject
  match found with
  | some (.obj options) =>
      if db.valid options then
        return (← db.findPropertyValue options name).map Prod.snd
      else return none
  | _ => return none

def serverIntOption (db : Db) (name : Str) (default : Int) : Option Int := do
  match ← db.serverOption systemObject name with
  | some (.int n) => return n
  | _ => return default

def defaultFlushCommand (db : Db) : Option (Option Str) := do
  match ← db.serverOption systemObject "default_flush_command".toList with
  | none => return some ".flush".toList
  | some (.str s) => return if s.isEmpty then none else some s
  | some _ => return none

end Db
end LambdaMoo
