import LambdaMoo.Lib.Insertion
import LambdaMoo.ListEdit

/-! The timers, and the one that asks for the next checkpoint. Its interval is a property of
the database, which is held against the range of the clock before it is used. -/
namespace LambdaMoo

inductive TimerProc
  | checkpointTimer
  | other (proc : Nat)
  deriving DecidableEq, Repr

structure Timer where
  deadline : Int
  proc : TimerProc
  data : Nat
  id : Int
  deriving DecidableEq, Repr

structure Timers where
  activeTimers : List Timer
  virtualTimer : Option Timer
  nextId : Int

def putTimer (this : Timer) : List Timer → List Timer
  | [] => [this]
  | t :: ts => if t.deadline ≤ this.deadline then t :: putTimer this ts else this :: t :: ts

def unsignedInt (n : Int) : Int := n % 2 ^ 32

def sizeT (n : Int) : Int := n % 2 ^ 64

def Timers.setTimer (ts : Timers) (time seconds : Int) (proc : TimerProc) (data : Nat) : Int × Timers :=
  let this : Timer := ⟨time + unsignedInt seconds, proc, data, ts.nextId⟩
  (this.id, { ts with
    activeTimers := putTimer this ts.activeTimers
    nextId := wrap32 (ts.nextId + 1) })

def Timers.cancelTimer (ts : Timers) (id : Int) : Bool × Timers :=
  if ts.virtualTimer.any (·.id = id) then (true, { ts with virtualTimer := none })
  else
    (ts.activeTimers.any (·.id = id),
      { ts with activeTimers := ts.activeTimers.eraseP (·.id = id) })

/-- The timers, with the static variable of `set_checkpoint_timer`. -/
structure Checkpoints where
  timers : Timers
  lastCheckpointTimer : Int

def outOfClock (now num : Int) : Bool := unsignedInt (wrap32 (now + num)) < sizeT (2 - num)

def checkpointInterval (now : Int) : Var → Int
  | .int num => if num < 60 ∨ outOfClock now num then 3600 else num
  | _ => 3600

def Checkpoints.setCheckpointTimer (cp : Checkpoints) (firstTime : Bool) (v : Var) (time later : Int) :
    Checkpoints :=
  let interval := checkpointInterval (wrap32 time) v
  let timers := if firstTime then cp.timers else (cp.timers.cancelTimer cp.lastCheckpointTimer).2
  let (id, timers) := timers.setTimer later interval .checkpointTimer 0
  ⟨timers, id⟩

/-! The timers in their order. -/

open Insertion

variable {ts : Timers} {t this : Timer} {l : List Timer} {now time later num : Int}

theorem putTimer_between (hs : Ordered Timer.deadline l) (this : Timer) :
    ∃ front back, l = front ++ back ∧ putTimer this l = front ++ this :: back ∧
      Between Timer.deadline this front back := by
  induction l with
  | nil => exact ⟨[], [], rfl, rfl, by simp, by simp⟩
  | cons t l ih =>
      obtain ⟨hfirst, hs⟩ := List.pairwise_cons.mp hs
      rw [putTimer]
      split
      · next hle =>
          obtain ⟨front, back, rfl, hput, hbetween⟩ := ih hs
          refine ⟨t :: front, back, rfl, by rw [hput]; rfl, ?_, hbetween.back⟩
          rw [List.forall_mem_cons]
          exact ⟨hle, hbetween.front⟩
      · next hlt =>
          refine ⟨[], t :: l, rfl, rfl, by simp, ?_⟩
          rw [List.forall_mem_cons]
          exact ⟨Int.not_le.mp hlt, fun b hb => Int.lt_of_lt_of_le (Int.not_le.mp hlt) (hfirst b hb)⟩

theorem putTimer_perm (this : Timer) (l : List Timer) : (putTimer this l).Perm (this :: l) := by
  induction l with
  | nil => exact .refl _
  | cons t l ih =>
      rw [putTimer]
      split
      · exact (ih.cons t).trans (.swap this t l)
      · exact .refl _

def Timers.InOrder (ts : Timers) : Prop := Ordered Timer.deadline ts.activeTimers

theorem Timers.InOrder.setTimer (hs : ts.InOrder) (time seconds : Int) (proc : TimerProc) (data : Nat) :
    (ts.setTimer time seconds proc data).2.InOrder := by
  obtain ⟨front, back, hl, hput, hbetween⟩ := putTimer_between hs
    ⟨time + unsignedInt seconds, proc, data, ts.nextId⟩
  unfold Timers.InOrder at hs ⊢
  rw [hl] at hs
  simp only [Timers.setTimer, hput]
  exact hbetween.ordered hs

theorem Timers.InOrder.cancelTimer (hs : ts.InOrder) (id : Int) : (ts.cancelTimer id).2.InOrder := by
  unfold Timers.cancelTimer
  split
  · exact hs
  · exact List.Pairwise.sublist List.eraseP_sublist hs

theorem Checkpoints.setCheckpointTimer_inOrder {cp : Checkpoints} (hs : cp.timers.InOrder) (firstTime : Bool)
    (v : Var) (time later : Int) : (cp.setCheckpointTimer firstTime v time later).timers.InOrder := by
  unfold setCheckpointTimer
  cases firstTime with
  | true => exact hs.setTimer _ _ _ _
  | false => exact (hs.cancelTimer _).setTimer _ _ _ _

/-! The interval. -/

/-- The interval that is asked for, if it is long enough and the clock gets as far. -/
def dueInterval (now num : Int) : Int := if 60 ≤ num ∧ now + num ≤ intMax then num else 3600

def GuardExact (now num : Int) : Prop := wrap32 (now + num) = now + num ∧ sizeT (2 - num) = 2 - num

/-- The last checkpoint timer is gone, and there is one that runs out in so many seconds. -/
def Scheduled (cp cp' : Checkpoints) (firstTime : Bool) (later seconds : Int) : Prop :=
  let before := if firstTime then cp.timers else (cp.timers.cancelTimer cp.lastCheckpointTimer).2
  cp'.timers.activeTimers.Perm
    (⟨later + seconds, .checkpointTimer, 0, cp'.lastCheckpointTimer⟩ :: before.activeTimers)

theorem setCheckpointTimer_scheduled (cp : Checkpoints) (firstTime : Bool) (v : Var) (time later : Int) :
    Scheduled cp (cp.setCheckpointTimer firstTime v time later) firstTime later
      (unsignedInt (checkpointInterval (wrap32 time) v)) := putTimer_perm _ _

/-- What is to happen when the timer is set: the guard, where it is asked, does not wrap, and
the next checkpoint is as far away as it should be. -/
def Checkpoints.Meets (cp : Checkpoints) (firstTime : Bool) (num time later : Int) : Prop :=
  (60 ≤ num → GuardExact (wrap32 time) num) ∧
    Scheduled cp (cp.setCheckpointTimer firstTime (.int num) time later) firstTime later
      (dueInterval (wrap32 time) num)

theorem checkpointInterval_eq (now : Int) {v : Var} (hv : v.storable = true) : checkpointInterval now v = 3600 := by
  cases v with
  | int num =>
      obtain ⟨-, hhigh⟩ : -2147483648 ≤ num ∧ num ≤ intMax := by simpa [Var.storable] using hv
      refine if_pos (or_iff_not_imp_left.mpr fun hnum => ?_)
      rw [intMax_eq] at hhigh
      unfold outOfClock unsignedInt sizeT
      simp only [decide_eq_true_eq]
      omega
  | _ => rfl

theorem not_guardExact (now : Int) (hnum : 60 ≤ num) : ¬ GuardExact now num := by
  rintro ⟨-, hsize⟩
  unfold sizeT at hsize
  omega

/-- An interval that is asked for comes about only where it is the one that is always taken. -/
theorem dueInterval_eq_iff (time : Int) (hnum : num ≤ intMax) :
    checkpointInterval (wrap32 time) (.int num) = dueInterval (wrap32 time) num ↔
      num < 60 ∨ num = 3600 ∨ intMax < wrap32 time + num := by
  by_cases hlow : num < 60
  · refine iff_of_true ?_ (.inl hlow)
    rw [dueInterval, if_neg (by omega)]
    exact if_pos (.inl hlow)
  · have hv : (Var.int num).storable = true := by
      have hrange : -2 ^ 31 ≤ num ∧ num ≤ intMax := ⟨by omega, hnum⟩
      simpa [Var.storable] using hrange
    rw [checkpointInterval_eq _ hv, dueInterval]
    split <;> omega

/-- The next checkpoint is scheduled as it should be just where nothing is asked for that
the guard would have to look at. -/
theorem checkpoints_meets_iff (cp : Checkpoints) (firstTime : Bool) (num time later : Int) :
    cp.Meets firstTime num time later ↔ num < 60 := by
  constructor
  · rintro ⟨hguard, -⟩
    by_contra hnum
    exact not_guardExact _ (Int.not_lt.mp hnum) (hguard (Int.not_lt.mp hnum))
  · intro hnum
    refine ⟨fun h => absurd hnum (Int.not_lt.mpr h), ?_⟩
    have hscheduled := setCheckpointTimer_scheduled cp firstTime (.int num) time later
    have hinterval : checkpointInterval (wrap32 time) (.int num) = 3600 := if_pos (.inl hnum)
    have hdue : dueInterval (wrap32 time) num = 3600 := if_neg fun h => absurd hnum (Int.not_lt.mpr h.1)
    rw [hinterval] at hscheduled
    rw [hdue]
    exact hscheduled

/-- Half an hour becomes an hour. -/
theorem half_hour : ¬ Checkpoints.Meets ⟨⟨[], none, 0⟩, 0⟩ true 1800 1000000000 1000000000 := by
  rintro ⟨-, h⟩
  have hsame := List.perm_singleton.mp h
  exact absurd (congrArg (List.map Timer.deadline) hsame) (by decide)

end LambdaMoo
