import LambdaMoo.TaskQueues

/-! Connections. The verbs that `server.c` calls to tell the database of what happens to
them are run between these functions. -/
namespace LambdaMoo

namespace Server

def freeShandle (h : Shandle) (s : Server) : Outcome Server :=
  freeTaskQueue h.tasks { s with shandles := s.shandles.filter fun h' => h'.nhandle ≠ h.nhandle }

def serverNewConnection (db : Db) (now : Int) (listener : Objid) (outbound : Bool) (s : Server) :
    Outcome Server := do
  if s.nextUnconnectedPlayer = -2 ^ 31 then throw .overflow
  let player := s.nextUnconnectedPlayer
  let listener := if outbound then systemObject else listener
  let (tasks, s) ← newTaskQueue db player { s with nextUnconnectedPlayer := player - 1 }
  let h : Shandle :=
    { nhandle := s.nextHandle, connectionTime := 0, lastActivityTime := now, player, listener, tasks
      disconnectMe := false, outbound, netInputSuspended := false }
  let s := { s with shandles := h :: s.shandles, nextHandle := s.nextHandle + 1 }
  if outbound then return s
  else
    let s ← s.newInputTask tasks []
    s.taskSuspendInput tasks

def shandle (nhandle : Nat) (s : Server) : Outcome Shandle :=
  match s.shandles.find? fun h => h.nhandle = nhandle with
  | none => .error .badPointer
  | some h => .ok h

def serverReceiveLine (nhandle : Nat) (line : Str) (now : Int) (s : Server) : Outcome Server := do
  let h ← s.shandle nhandle
  let s := s.modifyShandle (fun h => { h with lastActivityTime := now }) nhandle
  s.newInputTask h.tasks line

def serverClosing (nhandle : Nat) (s : Server) : Outcome Server := do
  let _ ← s.shandle nhandle
  return s.modifyShandle (fun h => { h with disconnectMe := true }) nhandle

def serverClose (nhandle : Nat) (s : Server) : Outcome Server := do
  s.freeShandle (← s.shandle nhandle)

/-- Whether a connection that has not logged in has been idle for too long. -/
def timedOut (db : Db) (now : Int) (h : Shandle) : Outcome Bool := do
  match ← Outcome.ofOption (db.serverOption h.listener "connect_timeout".toList) with
  | some (.int n) => return 0 < n && n < now - h.lastActivityTime
  | some _ => return false
  | none => return defaultConnectTimeout < now - h.lastActivityTime

def closeUseless (db : Db) (nhandle : Nat) (now : Int) (s : Server) : Outcome Server := do
  let h ← s.shandle nhandle
  if !h.outbound && h.connectionTime = 0 && (← timedOut db now h) then s.freeShandle h
  else if h.connectionTime ≠ 0 && !db.valid h.player then s.freeShandle h
  else if h.disconnectMe then s.freeShandle h
  else return s

def bootPlayer (player : Objid) (s : Server) : Server :=
  match s.findShandle player with
  | none => s
  | some h => s.modifyShandle (fun h => { h with disconnectMe := true }) h.nhandle

/-- `player_connected(old_id, new_id, …)`. A missing connection is a panic. -/
def playerConnected (oldId newId : Objid) (now : Int) (s : Server) : Outcome Server := do
  let existing := s.findShandle newId
  match s.findShandle oldId with
  | none => throw .noConnection
  | some newH =>
      let s := s.modifyShandle (fun h => { h with player := newId, connectionTime := now }) newH.nhandle
      match existing with
      | none => return s
      | some existingH => s.freeShandle existingH

/-- The two options of a connection that belong to its queue. -/
inductive QueueOption
  | flushCommand (value : Var)
  | holdInput (value : Var)

def tasksSetConnectionOption (q : Nat) (option : QueueOption) (s : Server) : Outcome Server := do
  match option with
  | .flushCommand (.str cmd) =>
      s.modifyQueue (fun tq => { tq with flushCmd := if cmd.isEmpty then none else some cmd }) q
  | .flushCommand _ => s.modifyQueue (fun tq => { tq with flushCmd := none }) q
  | .holdInput value =>
      let s ← s.modifyQueue (fun tq => { tq with holdInput := value.isTrue }) q
      let tq ← s.queue q
      if !tq.holdInput && !tq.input.cells.isEmpty then s.ensureUsage q else return s

def bfSetConnectionOption (db : Db) (progr oid : Objid) (option : QueueOption) (s : Server) :
    Outcome (Error × Server) := do
  if oid ≠ progr && !db.isWizard progr then return (.ePerm, s)
  match s.findShandle oid with
  | none => return (.eInvarg, s)
  | some h =>
      if h.disconnectMe then return (.eInvarg, s)
      return (.eNone, ← s.tasksSetConnectionOption h.tasks option)

end Server
end LambdaMoo
