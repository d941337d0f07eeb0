import LambdaMoo.Server

/-! Task queues, and the requests they make of connections. -/
namespace LambdaMoo

namespace Server

def queue (q : Nat) (s : Server) : Outcome Tqueue :=
  match s.queues q with
  | none => .error .badPointer
  | some tq => .ok tq

def setQueue (q : Nat) (tq : Tqueue) (s : Server) : Server :=
  { s with queues := Function.update s.queues q (some tq) }

def modifyQueue (f : Tqueue → Tqueue) (q : Nat) (s : Server) : Outcome Server := do
  return s.setQueue q (f (← s.queue q))

def usageOf (s : Server) (q : Nat) : Int := (s.queues q).elim noUsage Tqueue.usage

def playerOf (s : Server) (q : Nat) : Option Objid := (s.queues q).map Tqueue.player

def insertByUsage (usageOf : Nat → Int) (usage : Int) (q : Nat) : List Nat → List Nat
  | [] => [q]
  | x :: xs => if usageOf x ≤ usage then x :: insertByUsage usageOf usage q xs else q :: x :: xs

def deactivateTqueue (q : Nat) (s : Server) : Outcome Server := do
  let s ← s.modifyQueue (fun tq => { tq with usage := noUsage }) q
  return { s with idle := q :: s.idle }

def activateTqueue (q : Nat) (s : Server) : Server :=
  { s with active := insertByUsage s.usageOf (s.usageOf q) q s.active }

def ensureUsage (q : Nat) (s : Server) : Outcome Server := do
  let tq ← s.queue q
  if tq.usage = noUsage then
    let usage := match s.active with
      | [] => 0
      | a :: _ => s.usageOf a
    if q ∉ s.idle then throw .badPointer
    let s := s.setQueue q { tq with usage }
    return activateTqueue q { s with idle := s.idle.erase q }
  else return s

def findTqueue (s : Server) (player : Objid) : Option Nat :=
  (s.active ++ s.idle).find? fun q => s.playerOf q = some player

def newTqueue (player : Objid) (flushCmd : Option Str) : Tqueue :=
  { player, connected := false, input := .empty, totalInputLength := 0, inputSuspended := false
    bg := .empty, usage := noUsage, numBgTasks := 0, holdInput := false, flushCmd
    programming := false, reading := none }

def findOrNewTqueue (db : Db) (player : Objid) (s : Server) : Outcome (Nat × Server) := do
  match s.findTqueue player with
  | some q => return (q, s)
  | none =>
      let flushCmd ← Outcome.ofOption db.defaultFlushCommand
      let s' := { s with
        queues := Function.update s.queues s.nextQueue (some (newTqueue player flushCmd))
        nextQueue := s.nextQueue + 1
        idle := s.nextQueue :: s.idle }
      return (s.nextQueue, s')

def freeTqueue (q : Nat) (s : Server) : Server :=
  { s with queues := Function.update s.queues q none, idle := s.idle.erase q }

/-! Requests to connections. -/

def findShandle (s : Server) (player : Objid) : Option Shandle :=
  s.shandles.find? fun h => h.player = player

def modifyShandle (f : Shandle → Shandle) (nhandle : Nat) (s : Server) : Server :=
  { s with shandles := s.shandles.map fun h => if h.nhandle = nhandle then f h else h }

def setNetInput (suspended : Bool) (connection : Objid) (s : Server) : Outcome Server :=
  match s.findShandle connection with
  | none => .error .noConnection
  | some h => .ok (s.modifyShandle (fun h => { h with netInputSuspended := suspended }) h.nhandle)

/-! Tasks on a queue. -/

def enqueueBgTask (q : Nat) (t : BgTask) : Server → Outcome Server :=
  modifyQueue (fun tq => { tq with bg := tq.bg.enqueue t }) q

def dequeueBgTask (q : Nat) (s : Server) : Outcome (Option BgTask × Server) := do
  let tq ← s.queue q
  match tq.bg.dequeue with
  | none => return (none, s)
  | some (t, bg) => return (some t, s.setQueue q { tq with bg, numBgTasks := tq.numBgTasks - 1 })

def dequeueInputTask (q : Nat) (s : Server) : Outcome (Option InputTask × Server) := do
  let tq ← s.queue q
  match tq.input.dequeue with
  | none => return (none, s)
  | some (t, input) =>
      let totalInputLength := tq.totalInputLength - t.length
      let s := s.setQueue q { tq with input, totalInputLength }
      if tq.inputSuspended && tq.connected && totalInputLength < inputLowat then
        let s ← s.setNetInput false tq.player
        return (some t, ← s.modifyQueue (fun tq => { tq with inputSuspended := false }) q)
      else return (some t, s)

def dequeueAnyTask (q : Nat) (s : Server) : Outcome (Option (InputTask ⊕ BgTask) × Server) := do
  match ← s.dequeueInputTask q with
  | (some t, s) => return (some (.inl t), s)
  | (none, s) =>
      let (t, s) ← s.dequeueBgTask q
      return (t.map .inr, s)

def suspendInput (q : Nat) (s : Server) : Outcome Server := do
  let tq ← s.queue q
  let s ← s.setNetInput true tq.player
  s.modifyQueue (fun tq => { tq with inputSuspended := true }) q

def taskSuspendInput (q : Nat) (s : Server) : Outcome Server := do
  let tq ← s.queue q
  if !tq.inputSuspended && tq.connected then s.suspendInput q else return s

def enqueueInputTask (q : Nat) (input : Str) (atFront : Bool) (s : Server) : Outcome Server := do
  let tq ← s.queue q
  let t : InputTask := { string := input, length := input.length }
  let totalInputLength := tq.totalInputLength + t.length
  let cells := if atFront && !tq.input.cells.isEmpty then tq.input.pushFront t else tq.input.enqueue t
  let s := s.setQueue q { tq with input := cells, totalInputLength }
  let s ← if !tq.holdInput || tq.reading.isSome then s.ensureUsage q else .ok s
  if !tq.inputSuspended && tq.connected && totalInputLength > inputHiwat then s.suspendInput q
  else return s

def flushInput (q : Nat) (s : Server) : Outcome Server := do
  let tq ← s.queue q
  tq.input.cells.foldlM (fun s _ => do return (← s.dequeueInputTask q).2) s

def newInputTask (q : Nat) (input : Str) (s : Server) : Outcome Server := do
  let tq ← s.queue q
  if tq.flushCmd.any fun cmd => sameName input cmd then s.flushInput q
  else s.enqueueInputTask q input false

def isOutOfInput (tq : Tqueue) : Bool := !tq.connected && tq.input.cells.isEmpty

def newTaskQueue (db : Db) (player : Objid) (s : Server) : Outcome (Nat × Server) := do
  let (q, s) ← s.findOrNewTqueue db player
  return (q, ← s.modifyQueue (fun tq => { tq with connected := true }) q)

def freeTaskQueue (q : Nat) (s : Server) : Outcome Server := do
  let s ← s.modifyQueue (fun tq => { tq with connected := false }) q
  if (← s.queue q).reading.isSome then s.ensureUsage q else return s

/-! Tasks that wait. -/

/-- The place of a task on `waiting_tasks`: after all that do not start later. -/
def insertWaiting (t : BgTask) : List BgTask → List BgTask
  | [] => [t]
  | x :: xs => if t.startTime < x.startTime then t :: x :: xs else x :: insertWaiting t xs

def enqueueWaiting (db : Db) (t : BgTask) (s : Server) : Outcome Server := do
  let (q, s) ← s.findOrNewTqueue db t.progr
  let s ← s.modifyQueue (fun tq => { tq with numBgTasks := tq.numBgTasks + 1 }) q
  return { s with waiting := insertWaiting t s.waiting, nextTag := s.nextTag + 1 }

def checkUserTaskLimit (db : Db) (user : Objid) (s : Server) : Outcome Bool := do
  let own ← Outcome.ofOption <| if db.valid user then
      db.findPropertyValue user "queued_task_limit".toList else some none
  let limit : Int := match own with
    | some (_, .int n) => n
    | _ => -1
  let limit ← if limit < 0 then Outcome.ofOption (db.serverIntOption "queued_task_limit".toList (-1))
    else .ok limit
  if limit < 0 then return true
  let count ← match s.findTqueue user with
    | none => .ok 0
    | some q => (s.queue q).map Tqueue.numBgTasks
  return decide (count < limit)

def enqueueForkedTask (db : Db) (progr : Objid) (now : Int) (afterSeconds : Nat) (id : Int) (s : Server) :
    Outcome (Bool × Server) := do
  if ← s.checkUserTaskLimit db progr then
    return (true, ← s.enqueueWaiting db (.forked s.nextTag id progr (now + afterSeconds)))
  else return (false, s)

/-- When a suspended task is to go on. Of `now` and `after_seconds` the code keeps 32
bits. -/
def suspendedUntil (now afterSeconds : Nat) : Int :=
  if (now % 2 ^ 32 + afterSeconds) % 2 ^ 32 < now % 2 ^ 32 then 2 ^ 31 - 1
  else (now % 2 ^ 32 + afterSeconds) % 2 ^ 32

def enqueueSuspendedTask (db : Db) (taskId : Int) (progr : Objid) (now afterSeconds : Nat) (s : Server) :
    Outcome (Bool × Server) := do
  if ← s.checkUserTaskLimit db progr then
    let vm : Vm := { tag := s.nextTag, taskId, progr }
    return (true, ← s.enqueueWaiting db (.suspended vm (suspendedUntil now afterSeconds) (.int 0)))
  else return (false, s)

def resumeTask (db : Db) (taskId : Int) (progr : Objid) (value : Var) (s : Server) : Outcome Server := do
  let vm : Vm := { tag := s.nextTag, taskId, progr }
  let (q, s) ← s.findOrNewTqueue db progr
  let s ← s.enqueueBgTask q (.suspended vm 0 value)
  let s ← s.ensureUsage q
  return { s with nextTag := s.nextTag + 1 }

def readInputNow (connection : Objid) (s : Server) : Outcome (Except Error (Option Str) × Server) := do
  match s.findTqueue connection with
  | none => return (.error .eInvarg, s)
  | some q =>
      if isOutOfInput (← s.queue q) then return (.error .eInvarg, s)
      let (t, s) ← s.dequeueInputTask q
      return (.ok (t.map InputTask.string), s)

def makeReadingTask (taskId : Int) (progr player : Objid) (s : Server) : Outcome (Bool × Server) := do
  match s.findTqueue player with
  | none => return (false, s)
  | some q =>
      let tq ← s.queue q
      if tq.reading.isSome || isOutOfInput tq then return (false, s)
      let vm : Vm := { tag := s.nextTag, taskId, progr }
      let s := { s.setQueue q { tq with reading := some vm } with nextTag := s.nextTag + 1 }
      if tq.input.cells.isEmpty then return (true, s) else return (true, ← s.ensureUsage q)

end Server
end LambdaMoo
