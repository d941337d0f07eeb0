import Mathlib.Algebra.BigOperators.Group.List.Basic
import Mathlib.Algebra.Group.Int.Defs
import LambdaMoo.Events

/-! What the events are made of. A change takes the queues and connections from one state
in which they are in order to the next. -/
namespace LambdaMoo

def Tqueue.core (tq : Tqueue) : Objid × Bool × TailList BgTask × Int × Int × Option Vm :=
  (tq.player, tq.connected, tq.bg, tq.usage, tq.numBgTasks, tq.reading)

/-- The tail pointers designate the ends, and the lengths add up. -/
structure Tqueue.WellFormed (tq : Tqueue) : Prop where
  input : tq.input.Tailed
  bg : tq.bg.Tailed
  lengths : ∀ t ∈ tq.input.cells, t.length = t.string.length
  total : tq.totalInputLength = (tq.input.cells.map InputTask.length).sum

theorem Tqueue.WellFormed.line {tq : Tqueue} (hw : tq.WellFormed) (line : Str) (atFront : Bool) :
    let t : InputTask := { string := line, length := line.length }
    let input := if atFront then tq.input.pushFront t else tq.input.enqueue t
    Tqueue.WellFormed { tq with input, totalInputLength := tq.totalInputLength + t.length } := by
  intro t input
  have hperm : input.cells.Perm (t :: tq.input.cells) := by
    unfold input
    split
    · rfl
    · rw [TailList.cells_enqueue hw.input]
      exact List.perm_append_comm
  constructor
  case input =>
    change TailList.Tailed input
    unfold input
    split
    · exact hw.input.pushFront
    · exact hw.input.enqueue
  case bg => exact hw.bg
  case lengths =>
    intro t' ht'
    rw [hperm.mem_iff, List.mem_cons] at ht'
    cases ht' with
    | inl ht' => exact ht' ▸ rfl
    | inr ht' => exact hw.lengths t' ht'
  case total =>
    change tq.totalInputLength + t.length = (input.cells.map InputTask.length).sum
    rw [(hperm.map _).sum_eq, List.map_cons, List.sum_cons, hw.total]
    omega

/-- What the network and the task code know a connection by. -/
structure Key where
  nhandle : Nat
  player : Objid
  tasks : Nat

def Shandle.key (h : Shandle) : Key := ⟨h.nhandle, h.player, h.tasks⟩

def BgTask.Before (a b : BgTask) : Prop :=
  a.startTime < b.startTime ∨ a.startTime = b.startTime ∧ a.tag < b.tag

namespace Server

def headUsage (s : Server) : Int :=
  match s.active with
  | [] => 0
  | a :: _ => s.usageOf a

def activated (q : Nat) (tq : Tqueue) (s : Server) : Server :=
  activateTqueue q { s.setQueue q { tq with usage := s.headUsage } with idle := s.idle.erase q }

def created (player : Objid) (flushCmd : Option Str) (s : Server) : Server :=
  { s with
    queues := Function.update s.queues s.nextQueue (some (newTqueue player flushCmd))
    nextQueue := s.nextQueue + 1
    idle := s.nextQueue :: s.idle }

def Lacks (s : Server) (player : Objid) : Prop := ∀ q tq, s.queues q = some tq → tq.player ≠ player

def Single (s : Server) (player : Objid) : Prop :=
  ∀ q q' tq tq', s.queues q = some tq → s.queues q' = some tq' → tq.player = player →
    tq'.player = player → q = q'

/-- The tasks of a connection that logs in are left to the player it had. -/
def leaving (flushCmd : Option Str) (tq : Tqueue) (s : Server) : Server :=
  if tq.numBgTasks = 0 then s
  else (created tq.player flushCmd s).setQueue s.nextQueue
    { newTqueue tq.player flushCmd with
      bg := ⟨tq.bg.cells, tq.bg.cells.length⟩, numBgTasks := tq.numBgTasks }

def retiring : Option (Nat × Tqueue) → Server → Server
  | none, s => s
  | some (q, tq), s => s.setQueue q { tq with player := nothing, bg := .empty, numBgTasks := 0 }

def kept (tq : Tqueue) : List BgTask := if tq.numBgTasks = 0 then tq.bg.cells else []

def taken (dead : Option (Nat × Tqueue)) : List BgTask := dead.elim [] fun d => d.2.bg.cells

def heir (tq : Tqueue) (newPlayer : Objid) (dead : Option (Nat × Tqueue)) : Tqueue :=
  { tq with
    player := newPlayer
    bg := ⟨kept tq ++ taken dead, (kept tq ++ taken dead).length⟩
    numBgTasks := dead.elim 0 fun d => d.2.numBgTasks }

def renamed (nhandle : Nat) (newPlayer : Objid) (hs : List Shandle) : List Shandle :=
  hs.map fun h => if h.nhandle = nhandle then { h with player := newPlayer } else h

/-- Where `bare`, a login leaves no background task behind; where `counted`, the counts
stay true and no usage is that of an idle queue. -/
inductive Change (bare counted : Prop) : Server → Server → Prop
  | edit {s : Server} {q : Nat} {tq tq' : Tqueue} (hq : s.queues q = some tq) (hcore : tq'.core = tq.core)
      (hw : tq.WellFormed → tq'.WellFormed) : Change bare counted s (s.setQueue q tq')
  | note {s : Server} (hs : List Shandle) (current : Option Current) (id : Int)
      (hkeys : hs.map Shandle.key = s.shandles.map Shandle.key)
      (hcur : ∀ c, current = some c → s.active.head? = some c.queue ∧
        (c.login = true → ∃ tq, s.queues c.queue = some tq ∧ tq.player < 0)) :
      Change bare counted s { s with shandles := hs, current, currentTaskId := id }
  | create {s : Server} {player : Objid} (flushCmd : Option Str) (h : s.Lacks player) :
      Change bare counted s (created player flushCmd s)
  | activate {s : Server} {q : Nat} {tq : Tqueue} (hq : s.queues q = some tq) (hi : q ∈ s.idle) :
      Change bare counted s (activated q tq s)
  | wait {s : Server} {q : Nat} {tq : Tqueue} {t : BgTask} (hq : s.queues q = some tq)
      (hp : tq.player = t.progr) (ht : t.tag = s.nextTag)
      (hn : counted → t.progr = nothing → s.Single nothing) :
      Change bare counted s
        { s.setQueue q { tq with numBgTasks := tq.numBgTasks + 1 } with
          waiting := insertWaiting t s.waiting, nextTag := s.nextTag + 1 }
  | arrive {s : Server} {q : Nat} {tq : Tqueue} {t : BgTask} (hq : s.queues q = some tq)
      (ha : q ∈ s.active) (ht : t.tag = s.nextTag) (hn : ¬ counted) :
      Change bare counted s
        { s.setQueue q { tq with bg := tq.bg.enqueue t } with nextTag := s.nextTag + 1 }
  | wake {s : Server} {q i : Nat} {tq : Tqueue} {t t' : BgTask} (hq : s.queues q = some tq)
      (ha : q ∈ s.active) (hp : tq.player = t.progr) (hi : s.waiting[i]? = some t) (ht : t'.tag = t.tag) :
      Change bare counted s
        { s.setQueue q { tq with bg := tq.bg.enqueue t' } with waiting := s.waiting.eraseIdx i }
  | killWaiting {s : Server} {q i : Nat} {tq : Tqueue} {t : BgTask} (hq : s.queues q = some tq)
      (hp : tq.player = t.progr) (hi : s.waiting[i]? = some t) :
      Change bare counted s
        { s.setQueue q { tq with numBgTasks := tq.numBgTasks - 1 } with
          waiting := s.waiting.eraseIdx i, ended := t.tag :: s.ended }
  | killStray {s : Server} {i : Nat} {t : BgTask} (h : s.Lacks t.progr) (hi : s.waiting[i]? = some t) :
      Change bare counted s { s with waiting := s.waiting.eraseIdx i, ended := t.tag :: s.ended }
  | endBg {s : Server} {q i : Nat} {tq : Tqueue} {t : BgTask} (bg : TailList BgTask)
      (hq : s.queues q = some tq) (hi : tq.bg.cells[i]? = some t)
      (hc : bg.cells = tq.bg.cells.eraseIdx i) (hb : tq.bg.Tailed → bg.Tailed) :
      Change bare counted s
        { s.setQueue q { tq with bg, numBgTasks := tq.numBgTasks - 1 } with
          ended := t.tag :: s.ended }
  | renew {s : Server} {q : Nat} {tq : Tqueue} (bg : TailList BgTask) (hq : s.queues q = some tq)
      (hc : bg.cells.map BgTask.tag = tq.bg.cells.map BgTask.tag) (hb : tq.bg.Tailed → bg.Tailed) :
      Change bare counted s (s.setQueue q { tq with bg })
  | startReading {s : Server} {q : Nat} {tq : Tqueue} (vm : Vm) (hq : s.queues q = some tq)
      (hr : tq.reading = none) (ha : tq.connected = true ∨ q ∈ s.active) (ht : vm.tag = s.nextTag) :
      Change bare counted s
        { s.setQueue q { tq with reading := some vm } with nextTag := s.nextTag + 1 }
  | stopReading {s : Server} {q : Nat} {tq : Tqueue} (vm : Vm) (hq : s.queues q = some tq)
      (hr : tq.reading = some vm) :
      Change bare counted s
        { s.setQueue q { tq with reading := none } with ended := vm.tag :: s.ended }
  | connect {s : Server} {q : Nat} {tq : Tqueue} (h : Shandle) (hq : s.queues q = some tq)
      (hp : tq.player = s.nextUnconnectedPlayer) (hn : h.nhandle = s.nextHandle)
      (hh : h.player = tq.player) (ht : h.tasks = q) :
      Change bare counted s
        { s.setQueue q { tq with connected := true } with
          shandles := h :: s.shandles, nextHandle := s.nextHandle + 1
          nextUnconnectedPlayer := s.nextUnconnectedPlayer - 1 }
  | disconnect {s : Server} {tq : Tqueue} (h : Shandle) (hh : h ∈ s.shandles)
      (hq : s.queues h.tasks = some tq) (hr : tq.reading.isSome → h.tasks ∈ s.active) :
      Change bare counted s
        { s.setQueue h.tasks { tq with connected := false } with
          shandles := s.shandles.filter fun h' => h'.nhandle ≠ h.nhandle }
  | deactivate {s : Server} {q : Nat} {tq : Tqueue} (rest : List Nat) (hq : s.queues q = some tq)
      (ha : s.active = q :: rest) (hc : s.current = none) (hb : tq.bg.cells = [])
      (hr : tq.reading.isSome → tq.connected = true) :
      Change bare counted s
        { s.setQueue q { tq with usage := noUsage } with idle := q :: s.idle, active := rest }
  | free {s : Server} {q : Nat} {tq : Tqueue} (hq : s.queues q = some tq) (hi : q ∈ s.idle)
      (hc : tq.connected = false) (hn : tq.numBgTasks = 0) : Change bare counted s (s.freeTqueue q)
  | done {s : Server} {q : Nat} {tq : Tqueue} (usage : Int) (rest : List Nat)
      (hq : s.queues q = some tq) (ha : s.active = q :: rest) (hu : counted → usage ≠ noUsage) :
      Change bare counted s
        { activateTqueue q { s.setQueue q { tq with usage } with active := rest } with
          current := none }
  | login {s : Server} {q : Nat} {tq : Tqueue} (h : Shandle) (newPlayer : Objid)
      (dead : Option (Nat × Tqueue)) (flushCmd : Option Str) (hq : s.queues q = some tq)
      (hh : h ∈ s.shandles) (ht : h.tasks = q) (hold : tq.player < 0) (hnew : 0 ≤ newPlayer)
      (hcur : ∃ c, s.current = some c ∧ c.queue = q ∧ c.login = false)
      (hl : dead = none → s.Lacks newPlayer)
      (hd : ∀ d tqd, dead = some (d, tqd) → s.queues d = some tqd ∧ tqd.player = newPlayer ∧
        tqd.connected = false)
      (hbare : bare → tq.numBgTasks ≠ 0 → tq.bg.cells = [])
      (hn : counted → dead.isSome → ∀ t ∈ s.waiting, t.progr ≠ nothing) :
      Change bare counted s
        { leaving flushCmd tq ((retiring dead s).setQueue q (heir tq newPlayer dead)) with
          shandles := renamed h.nhandle newPlayer s.shandles }

abbrev Changes (bare counted : Prop) : Server → Server → Prop :=
  Relation.ReflTransGen (Change bare counted)

end Server
end LambdaMoo
