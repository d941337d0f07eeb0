import Mathlib.Logic.Relation
import LambdaMoo.RunTasks

/-! What can happen to the queues and connections, in any order. Verbs are run by
`run_ready_tasks` and by the notifiers; the calls they make are events of their own. -/
namespace LambdaMoo

namespace Server

inductive Event
  | serverTask (id : Int)
  | fork (progr : Objid) (now : Int) (afterSeconds : Nat) (id : Int)
  | suspend (taskId : Int) (progr : Objid) (now afterSeconds : Nat)
  | readTask (progr : Objid) (startTime id : Int) (suspendedValue : Option Var)
  | resumeTask (taskId : Int) (progr : Objid) (value : Var)
  | readInputNow (connection : Objid)
  | makeReadingTask (taskId : Int) (progr player : Objid)
  | killTask (id : Int) (owner : Objid)
  | resume (id : Int) (value : Var) (progr : Objid) (now : Int)
  | forceInput (progr conn : Objid) (line : Str) (atFront : Bool)
  | flushInput (progr conn : Objid)
  | setConnectionOption (progr oid : Objid) (option : QueueOption)
  | startProgramming (q : Nat)
  | bootPlayer (player : Objid)
  | openConnection (now : Int)
  | newConnection (listener : Objid) (now : Int)
  | receiveLine (nhandle : Nat) (line : Str) (now : Int)
  | serverClosing (nhandle : Nat)
  | serverClose (nhandle : Nat)
  | closeUseless (nhandle : Nat) (now : Int)
  | runReadyTasks (now start : Int)
  | login (newPlayer : Objid) (now : Int)
  | taskDone (stop : Int)

/-- The network is looked at, and `run_ready_tasks` called, between tasks only. A login
comes to its end once. -/
def Event.possible (s : Server) : Event → Prop
  | .newConnection .. | .receiveLine .. | .serverClosing _ | .serverClose _ | .closeUseless ..
  | .runReadyTasks .. => s.current = none
  | .startProgramming q => ∃ c, s.current = some c ∧ c.queue = q ∧ c.login = false
  | .login .. => ∃ c, s.current = some c ∧ c.login = true
  | .taskDone _ => s.current.isSome
  | _ => True

def perform (db : Db) (s : Server) : Event → Outcome Server
  | .serverTask id => .ok { s with currentTaskId := id }
  | .fork progr now afterSeconds id => do return (← s.enqueueForkedTask db progr now afterSeconds id).2
  | .suspend taskId progr now afterSeconds => do
      return (← s.enqueueSuspendedTask db taskId progr now afterSeconds).2
  | .readTask progr startTime id none => s.enqueueWaiting db (.forked s.nextTag id progr startTime)
  | .readTask progr startTime id (some value) =>
      s.enqueueWaiting db (.suspended { tag := s.nextTag, taskId := id, progr } startTime value)
  | .resumeTask taskId progr value => s.resumeTask db taskId progr value
  | .readInputNow connection => do return (← s.readInputNow connection).2
  | .makeReadingTask taskId progr player => do return (← s.makeReadingTask taskId progr player).2
  | .killTask id owner => do return (← s.killTask db id owner).2
  | .resume id value progr now => do return (← s.doResume db id value progr now).2
  | .forceInput progr conn line atFront => do return (← s.bfForceInput db progr conn line atFront).2
  | .flushInput progr conn => do return (← s.bfFlushInput db progr conn).2
  | .setConnectionOption progr oid option => do return (← s.bfSetConnectionOption db progr oid option).2
  | .startProgramming q => s.modifyQueue (fun tq => { tq with programming := true }) q
  | .bootPlayer player => .ok (s.bootPlayer player)
  | .openConnection now => s.serverNewConnection db now systemObject true
  | .newConnection listener now => s.serverNewConnection db now listener false
  | .receiveLine nhandle line now => s.serverReceiveLine nhandle line now
  | .serverClosing nhandle => s.serverClosing nhandle
  | .serverClose nhandle => s.serverClose nhandle
  | .closeUseless nhandle now => s.closeUseless db nhandle now
  | .runReadyTasks now start => s.runReadyTasks db now start
  | .login newPlayer now =>
      match s.current with
      | none => .ok s
      | some c => doLoginTask db newPlayer now c.queue { s with current := some { c with login := false } }
  | .taskDone stop =>
      match s.current with
      | none => .ok s
      | some c => s.taskDone c stop

def start : Server :=
  { queues := fun _ => none, nextQueue := 0, idle := [], active := [], waiting := [], shandles := []
    nextHandle := 0, nextUnconnectedPlayer := -2, current := none, currentTaskId := 0, nextTag := 0
    ended := [] }

def Step (ok : Db → Event → Server → Prop) (s s' : Server) : Prop :=
  ∃ db event, event.possible s ∧ ok db event s ∧ s.perform db event = .ok s'

abbrev Run (ok : Db → Event → Server → Prop) : Server → Server → Prop := Relation.ReflTransGen (Step ok)

end Server
end LambdaMoo
