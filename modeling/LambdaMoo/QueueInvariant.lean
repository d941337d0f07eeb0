import LambdaMoo.QueueCounts
import LambdaMoo.TaskConservation

/-! What holds of the queues between any two events. -/
namespace LambdaMoo

namespace Server

variable {s s' : Server} {bare : Prop}

theorem Ranked.changes (hc : Coherent s) (h : Ranked s) (hch : Changes bare True s s') : Ranked s' := by
  induction hch with
  | refl => exact h
  | tail hsteps hstep ih => exact ih.change (hc.changes hsteps).wired hstep

theorem Charged.changes (hc : Coherent s) (h : Charged s) (hch : Changes bare True s s') : Charged s' := by
  induction hch with
  | refl => exact h
  | tail hsteps hstep ih => exact ih.change (hc.changes hsteps) hstep

/-- Nothing is done that a queue is not charged for, and no login leaves a background task
behind, takes a queue over that waits for tasks of nobody's, or finds two such queues. -/
def Event.KeepsCounts (db : Db) (s : Server) : Event → Prop
  | .resumeTask .. => False
  | .fork progr _ _ _ | .suspend _ progr _ _ =>
      progr = nothing → s.checkUserTaskLimit db progr = .ok true → s.Single nothing
  | .readTask progr _ _ _ => progr = nothing → s.Single nothing
  | .login newPlayer _ => ∀ c tq, s.current = some c → s.queues c.queue = some tq →
      (tq.connected && db.isUser newPlayer) = true → (tq.numBgTasks = 0 ∨ tq.bg.cells = []) ∧
        ((s.findTqueue newPlayer).isSome → ∀ t ∈ s.waiting, t.progr ≠ nothing)
  | .taskDone stop => ∀ c, s.current = some c → wrap32 (s.usageOf c.queue + (stop - c.start)) ≠ noUsage
  | _ => True

theorem Event.KeepsCounts.suits {db : Db} {event : Event} (h : event.KeepsCounts db s) :
    event.Suits True True db s := by
  cases event with
  | login newPlayer now =>
      intro c tq hc hq hlogin
      obtain ⟨hleft, hnobody⟩ := h c tq hc hq hlogin
      exact ⟨fun _ hn => hleft.resolve_left hn, fun _ => hnobody⟩
  | fork | suspend | readTask => exact fun _ => h
  | taskDone stop => exact fun c hc _ => h c hc
  | resumeTask => exact h.elim
  | _ => simp [Event.Suits]

/-- The queues as `tasks.c` keeps them. -/
structure Kept (s : Server) : Prop where
  nodup : s.idle.Nodup ∧ s.active.Nodup
  listed : ∀ q, (s.queues q).isSome ↔ q ∈ s.idle ∨ q ∈ s.active
  place : ∀ q tq, s.queues q = some tq →
    tq.usage = noUsage ∧ q ∈ s.idle ∧ q ∉ s.active ∨ tq.usage ≠ noUsage ∧ q ∉ s.idle ∧ q ∈ s.active
  sorted : s.active.Pairwise fun a b => s.usageOf a ≤ s.usageOf b
  background : ∀ q tq, s.queues q = some tq → tq.bg.cells ≠ [] → q ∈ s.active
  total : ∀ q tq, s.queues q = some tq →
    tq.totalInputLength = (tq.input.cells.map fun t => (t.string.length : Int)).sum
  ends : ∀ q tq, s.queues q = some tq → tq.input.Tailed ∧ tq.bg.Tailed
  counts : ∀ q tq, s.queues q = some tq →
    tq.numBgTasks = (s.waiting.countP fun t => t.progr = tq.player) + tq.bg.cells.length
  waiting : s.waiting.Pairwise BgTask.Before

theorem Wired.kept (hw : Wired s) (hb : Balanced s) (hr : Ranked s) (hc : Charged s) : Kept s where
  nodup := by
    obtain ⟨hidle, hactive, -⟩ := List.nodup_append.mp hw.nodup
    exact ⟨hidle, hactive⟩
  listed q := by
    rw [← hw.listed, List.mem_append]
  place q tq hq := by
    by_cases hi : q ∈ s.idle
    · have hu := hw.idle q hi
      rw [usageOf_eq hq] at hu
      exact .inl ⟨hu, hi, hw.not_active_of_idle hi⟩
    · have ha := hw.mem_active_of_not_idle hq hi
      have hu := hr.usage q ha
      rw [usageOf_eq hq] at hu
      exact .inr ⟨hu, hi, ha⟩
  sorted := hr.sorted
  background q tq hq hcells := hw.mem_active_of_not_idle hq fun hi => hcells (hb.idle_bare hq hi)
  total q tq hq := by
    have hwf := hw.wellFormed q tq hq
    rw [hwf.total]
    exact congrArg List.sum (List.map_congr_left hwf.lengths)
  ends q tq hq := ⟨(hw.wellFormed q tq hq).input, (hw.wellFormed q tq hq).bg⟩
  counts := hc.counts
  waiting := hw.ordered

abbrev KeepsCounts (db : Db) (event : Event) (s : Server) : Prop := event.KeepsCounts db s

end Server
end LambdaMoo
