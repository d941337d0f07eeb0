import LambdaMoo.Connections

/-! Running tasks. A function that runs a task is left when the task begins, and goes on
when it is done; what the task does comes in between. -/
namespace LambdaMoo

namespace Server

/-! Killing and resuming. -/

def readingId (s : Server) (q : Nat) : Option Int :=
  (s.queues q).bind fun tq => tq.reading.map Vm.taskId

def stopReading (q : Nat) (s : Server) : Outcome Server := do
  let tq ← s.queue q
  match tq.reading with
  | none => return s
  | some vm => return { s.setQueue q { tq with reading := none } with ended := vm.tag :: s.ended }

/-- A reading task is killed by the player of its queue or a wizard. -/
def killReading (db : Db) (owner : Objid) (q : Nat) (s : Server) : Outcome (Error × Server) := do
  if !db.isWizard owner && owner ≠ (← s.queue q).player then return (.ePerm, s)
  return (.eNone, ← s.stopReading q)

def killActive (db : Db) (id : Int) (owner : Objid) : List Nat → Server → Outcome (Error × Server)
  | [], s => .ok (.eInvarg, s)
  | q :: qs, s => do
      let tq ← s.queue q
      if tq.reading.any fun vm => vm.taskId = id then s.killReading db owner q
      else
        match tq.bg.cells.findIdx? fun t => t.id = id with
        | none => killActive db id owner qs s
        | some i =>
            if !db.isWizard owner && owner ≠ tq.player then return (.ePerm, s)
            let tags := (tq.bg.cells[i]?.map BgTask.tag).toList
            let s := s.setQueue q { tq with bg := tq.bg.unlink i, numBgTasks := tq.numBgTasks - 1 }
            return (.eNone, { s with ended := tags ++ s.ended })

def killTask (db : Db) (id : Int) (owner : Objid) (s : Server) : Outcome (Error × Server) := do
  if id = s.currentTaskId then return (.eNone, s)
  match s.waiting.findIdx? fun t => t.id = id with
  | some i =>
      match s.waiting[i]? with
      | none => return (.eInvarg, s)
      | some t =>
          if !db.isWizard owner && owner ≠ t.progr then return (.ePerm, s)
          let s ← match s.findTqueue t.progr with
            | none => .ok s
            | some q => s.modifyQueue (fun tq => { tq with numBgTasks := tq.numBgTasks - 1 }) q
          return (.eNone, { s with waiting := s.waiting.eraseIdx i, ended := t.tag :: s.ended })
  | none =>
      match s.idle.find? fun q => s.readingId q = some id with
      | some q => s.killReading db owner q
      | none => killActive db id owner s.active s

def resumed (value : Var) (startTime : Option Int) : BgTask → BgTask
  | .forked tag id progr start => .forked tag id progr start
  | .suspended vm start _ => .suspended vm (startTime.getD start) value

def isSuspended (id : Int) : BgTask → Bool
  | .forked .. => false
  | .suspended vm .. => vm.taskId = id

def resumeActive (db : Db) (id : Int) (value : Var) (progr : Objid) :
    List Nat → Server → Outcome (Error × Server)
  | [], s => .ok (.eInvarg, s)
  | q :: qs, s => do
      let tq ← s.queue q
      match tq.bg.cells.findIdx? (isSuspended id) with
      | none => resumeActive db id value progr qs s
      | some i =>
          if !db.isWizard progr && progr ≠ tq.player then return (.ePerm, s)
          let bg := { tq.bg with cells := tq.bg.cells.modify i (resumed value none) }
          return (.eNone, s.setQueue q { tq with bg })

def doResume (db : Db) (id : Int) (value : Var) (progr : Objid) (now : Int) (s : Server) :
    Outcome (Error × Server) := do
  match s.waiting.findIdx? (isSuspended id) with
  | some i =>
      match s.waiting[i]? with
      | none => return (.eInvarg, s)
      | some t =>
          if !db.isWizard progr && progr ≠ t.progr then return (.ePerm, s)
          let (q, s) ← s.findOrNewTqueue db t.progr
          let s ← ensureUsage q { s with waiting := s.waiting.eraseIdx i }
          return (.eNone, ← s.enqueueBgTask q (resumed value (some now) t))
  | none => resumeActive db id value progr s.active s

def bfForceInput (db : Db) (progr conn : Objid) (line : Str) (atFront : Bool) (s : Server) :
    Outcome (Error × Server) := do
  if !db.isWizard progr && progr ≠ conn then return (.ePerm, s)
  let (q, s) ← s.findOrNewTqueue db conn
  return (.eNone, ← s.enqueueInputTask q line atFront)

def bfFlushInput (db : Db) (progr conn : Objid) (s : Server) : Outcome (Error × Server) := do
  if !db.isWizard progr && progr ≠ conn then return (.ePerm, s)
  let (q, s) ← s.findOrNewTqueue db conn
  return (.eNone, ← s.flushInput q)

/-! Logging in. -/

def moveBgTasks (q q' : Nat) (s : Server) : Outcome Server := do
  let tq ← s.queue q
  tq.bg.cells.foldlM (fun s _ => do
    match ← s.dequeueBgTask q with
    | (none, s) => return s
    | (some t, s) => s.enqueueBgTask q' t) s

def moveAnyTasks (q q' : Nat) (s : Server) : Outcome Server := do
  let tq ← s.queue q
  (List.range (tq.input.cells.length + tq.bg.cells.length)).foldlM (fun s _ => do
    match ← s.dequeueAnyTask q with
    | (none, s) | (some (.inl _), s) => return s
    | (some (.inr t), s) => s.enqueueBgTask q' t) s

/-- `do_login_task` from the return of `do_login_command` with `newPlayer` on, and up to
the notifiers that `player_connected` calls. -/
def doLoginTask (db : Db) (newPlayer : Objid) (now : Int) (q : Nat) (s : Server) : Outcome Server := do
  let tq ← s.queue q
  if tq.connected && db.isUser newPlayer then
    let oldPlayer := tq.player
    let deadTq := s.findTqueue newPlayer
    let s := s.setQueue q { tq with player := newPlayer }
    let s ← if tq.numBgTasks ≠ 0 then do
        let (oldTq, s) ← s.findOrNewTqueue db oldPlayer
        let s ← s.modifyQueue (fun old => { old with numBgTasks := tq.numBgTasks }) oldTq
        let s ← s.moveBgTasks q oldTq
        s.modifyQueue (fun tq => { tq with numBgTasks := 0 }) q
      else .ok s
    let s ← match deadTq with
      | none => .ok s
      | some dead => do
          let numBgTasks := (← s.queue dead).numBgTasks
          let s ← s.modifyQueue (fun tq => { tq with numBgTasks }) q
          let s ← s.moveAnyTasks dead q
          s.modifyQueue (fun tq => { tq with player := nothing, numBgTasks := 0 }) dead
    s.playerConnected oldPlayer newPlayer now
  else return s

/-! Running tasks. -/

def moveReady (db : Db) (now : Int) : List BgTask → Server → Outcome Server
  | [], s => .ok s
  | t :: ts, s =>
      if t.startTime ≤ now then do
        let (q, s) ← s.findOrNewTqueue db t.progr
        let s ← s.ensureUsage q
        let s ← s.enqueueBgTask q t
        moveReady db now ts { s with waiting := ts }
      else .ok s

inductive Job
  | outOfBand | line | login | task

def outOfBandPrefix : Str := "#$#".toList

/-- The loop over the tasks of a queue: blank commands are passed over, unless a verb is
being programmed. Every round but the last takes a line. -/
def pickTask (q : Nat) : Nat → Server → Outcome (Option (Job × Int) × Server)
  | 0, _ => .error .endless
  | fuel + 1, s => do
      let tq ← s.queue q
      let (t, s) ← if tq.holdInput && tq.reading.isNone then do
          let (t, s) ← s.dequeueBgTask q
          pure (t.map Sum.inr, s)
        else s.dequeueAnyTask q
      match t with
      | none => return (none, s)
      | some (.inl t) =>
          if outOfBandPrefix.isPrefixOf t.string then return (some (.outOfBand, s.currentTaskId), s)
          else
            match tq.reading with
            | some vm => return (some (.line, vm.taskId), ← s.stopReading q)
            | none =>
                if tq.player < 0 then return (some (.login, s.currentTaskId), s)
                else if tq.programming || t.string.any (· ≠ ' ') then
                  let programming := tq.programming && t.string ≠ ['.']
                  return (some (.line, s.currentTaskId),
                    ← s.modifyQueue (fun tq => { tq with programming }) q)
                else pickTask q fuel s
      | some (.inr t) => return (some (.task, t.id), { s with ended := t.tag :: s.ended })

/-- One round of the loop over `active_tqueues`. A reader that no input can come for is
resumed first. -/
def serveQueue (q : Nat) (s : Server) : Outcome (Option (Job × Int) × Server) := do
  let tq ← s.queue q
  match tq.reading with
  | some vm =>
      if isOutOfInput tq then return (some (.line, vm.taskId), ← s.stopReading q)
      else pickTask q (tq.input.cells.length + 1) s
  | none => pickTask q (tq.input.cells.length + 1) s

def popActive (q : Nat) (s : Server) : Server :=
  { s with active := (s.active.dropWhile fun x => x ≠ q).tail }

def freeUseless (s : Server) : Outcome Server :=
  s.idle.foldlM (fun s q => do
    let tq ← s.queue q
    if !tq.connected && tq.input.cells.isEmpty && tq.numBgTasks = 0 then return s.freeTqueue q
    else return s) s

/-- The loop over `active_tqueues`, one round for each queue that has nothing to do. -/
def serveQueues (start : Int) : List Nat → Server → Outcome Server
  | [], s => s.freeUseless
  | q :: qs, s => do
      match ← s.serveQueue q with
      | (some (job, id), s) =>
          let login := match job with
            | .login => true
            | _ => false
          return { s with current := some { queue := q, start, login }, currentTaskId := id }
      | (none, s) =>
          let s ← deactivateTqueue q (s.popActive q)
          serveQueues start qs s

def runReadyTasks (db : Db) (now start : Int) (s : Server) : Outcome Server := do
  let s ← moveReady db now s.waiting s
  serveQueues start s.active s

def taskDone (c : Current) (stop : Int) (s : Server) : Outcome Server := do
  let s := s.popActive c.queue
  let s ← s.modifyQueue (fun tq => { tq with usage := wrap32 (tq.usage + (stop - c.start)) }) c.queue
  freeUseless { activateTqueue c.queue s with current := none }

/-! Listing and writing. -/

inductive Queued
  | reading (player : Objid) (vm : Vm)
  | task (t : BgTask)

def Queued.tag : Queued → Nat
  | reading _ vm => vm.tag
  | task t => t.tag

def listReading (tq : Tqueue) : List Queued := tq.reading.toList.map (.reading tq.player)

def bfQueuedTasks (db : Db) (progr : Objid) (s : Server) : List Queued :=
  let showAll := db.isWizard progr
  let reading (tq : Tqueue) := if showAll || tq.player == progr then listReading tq else []
  let shown (t : BgTask) := showAll || t.progr == progr
  let idle := (s.idle.filterMap s.queues).flatMap reading
  let active := (s.active.filterMap s.queues).flatMap fun tq =>
    reading tq ++ (tq.bg.cells.filter shown).map .task
  idle ++ active ++ (s.waiting.filter shown).map .task

def isForked : BgTask → Bool
  | .forked .. => true
  | .suspended .. => false

def writeTaskQueue (s : Server) : List BgTask × List BgTask :=
  let tasks := s.waiting ++ (s.active.filterMap s.queues).flatMap fun tq => tq.bg.cells
  (tasks.filter isForked, tasks.filter fun t => !isForked t)

end Server
end LambdaMoo
