import Mathlib.Tactic.Linarith
import LambdaMoo.NameLookup

/-! # Safety of the name lookups

One invariant ties a context's reference count, its `done` flag and its history to where its two
parties are; a second one ties the shared counter to the workers that run. Each step of a thread
touches one context, so both are kept a context at a time. -/

namespace LambdaMoo.NameLookup

def Event.Allowed (e : Event) (earlier : List Event) : Prop :=
  match e with
  | .access party => .release party ∉ earlier ∧ .free ∉ earlier
  | .release party => .release party ∉ earlier ∧ .free ∉ earlier
  | .useResult result => .setDone ∈ earlier ∧ .stored result ∈ earlier
  | .free => .release .caller ∈ earlier ∧ .release .worker ∈ earlier ∧ .free ∉ earlier
  | .handed | .stored _ | .setDone => .free ∉ earlier

def Lawful : List Event → Prop
  | [] => True
  | e :: earlier => e.Allowed earlier ∧ Lawful earlier

def callerHolds : Option Stage → Bool
  | none | some (.free _) | some .refuseFree => false
  | some _ => true

/-- Whether `run_lookup` has the second reference still to drop or to hand to the worker. -/
def runLookupHolds : Option Stage → Bool
  | some (.fill _) | some .enter | some .overCap | some .create | some .createFailed
  | some .refuse => true
  | _ => false

def running : WorkerPc → Bool
  | .unstarted | .free | .exited => false
  | _ => true

def workerHolds (stage : Option Stage) (worker : WorkerPc) : Bool :=
  running worker || decide (worker = .unstarted) && runLookupHolds stage

/-- Whether the main thread has dropped the last reference and is about to free the context. -/
def callerFrees : Option Stage → Bool
  | some (.free _) | some .refuseFree => true
  | _ => false

structure Handed (stage : Option Stage) (l : Lookup) : Prop where
  filled : ∀ r, stage ≠ some (.fill r)
  entered : stage ≠ some .enter
  refcount : l.ctx.refcount = (callerHolds stage).toInt + (workerHolds stage l.worker).toInt
  caller : .release .caller ∈ l.history ↔ callerHolds stage = false
  worker : .release .worker ∈ l.history ↔ workerHolds stage l.worker = false
  freed : .free ∈ l.history ↔ callerHolds stage = false ∧ workerHolds stage l.worker = false ∧
    callerFrees stage = false ∧ l.worker ≠ .free
  refused : stage ≠ some .refuseFree
  callerLast : callerFrees stage = true → workerHolds stage l.worker = false ∧ l.worker ≠ .free
  workerLast : l.worker = .free → callerHolds stage = false
  unstarted : stage = some .overCap ∨ stage = some .create ∨ stage = some .createFailed ∨
    stage = some .refuse → l.worker = .unstarted
  done : l.ctx.done = true → .setDone ∈ l.history ∧ .stored l.ctx.result ∈ l.history
  undone : l.worker = .unstarted ∨ l.worker = .resolve ∨ (∃ a, l.worker = .store a) →
    l.ctx.done = false
  stored : l.worker = .finish → .stored l.ctx.result ∈ l.history
  finished : stage = some (.returned true) → l.ctx.done = true

/-- A context that `run_lookup` has not been given yet, or never is. -/
structure Unhanded (stage : Option Stage) (l : Lookup) : Prop where
  stage : stage = none ∨ (∃ r, stage = some (.fill r)) ∨ stage = some .enter
  worker : l.worker = .unstarted
  refcount : l.ctx.refcount = 2
  undone : l.ctx.done = false
  history : ∀ e ∈ l.history, e = .access .caller

/-- The invariant of a context, the main thread being at `stage` of its lookup, if anywhere. -/
structure Sound (stage : Option Stage) (l : Lookup) : Prop where
  lawful : Lawful l.history
  handed : .handed ∈ l.history → Handed stage l
  unhanded : .handed ∉ l.history → Unhanded stage l

variable {stage stage' : Option Stage} {l l' : Lookup} {outstanding outstanding' : Int}

theorem Sound.of_handed (hh : .handed ∈ l.history) (hlawful : Lawful l.history)
    (hhanded : Handed stage l) : Sound stage l :=
  ⟨hlawful, fun _ => hhanded, fun hn => absurd hh hn⟩

/-- Past its first step in `run_lookup`, the main thread is at a context it has handed on. -/
theorem Sound.handed_of_stage {st : Stage} (hl : Sound (some st) l)
    (hst : ¬ ((∃ r, st = .fill r) ∨ st = .enter)) :
    .handed ∈ l.history ∧ Handed (some st) l := by
  have hh : .handed ∈ l.history := by
    by_contra hn
    obtain h | ⟨r, h⟩ | h := (hl.unhanded hn).stage <;> simp_all
  exact ⟨hh, hl.handed hh⟩

theorem Sound.handed_of_worker (hl : Sound stage l) (hw : l.worker ≠ .unstarted) :
    .handed ∈ l.history ∧ Handed stage l := by
  have hh : .handed ∈ l.history := by
    by_contra hn
    exact hw (hl.unhanded hn).worker
  exact ⟨hh, hl.handed hh⟩

theorem Unhanded.not_handed (hl : Unhanded stage l) : .handed ∉ l.history := by
  intro hh
  have := hl.history _ hh
  contradiction

theorem Unhanded.lawful (hl : Unhanded stage l) : Lawful l.history := by
  have hhist := hl.history
  generalize l.history = history at hhist
  induction history with
  | nil => trivial
  | cons e earlier ih =>
    obtain ⟨rfl, hrest⟩ := List.forall_mem_cons.mp hhist
    refine ⟨⟨fun h => ?_, fun h => ?_⟩, ih hrest⟩ <;> simpa using hrest _ h

theorem Unhanded.sound (hl : Unhanded stage l) : Sound stage l :=
  ⟨hl.lawful, fun hh => absurd hh hl.not_handed, fun _ => hl⟩

namespace Lookup

@[simp] theorem log_ctx (events : List Event) (l : Lookup) : (l.log events).ctx = l.ctx := rfl

@[simp] theorem log_worker (events : List Event) (l : Lookup) :
    (l.log events).worker = l.worker := rfl

@[simp] theorem log_history (events : List Event) (l : Lookup) :
    (l.log events).history = events ++ l.history := rfl

@[simp] theorem store_refcount (ctx : LookupCtx) (answer : Option Result) :
    (ctx.store answer).refcount = ctx.refcount := by
  unfold LookupCtx.store
  split <;> rfl

@[simp] theorem store_done (ctx : LookupCtx) (answer : Option Result) :
    (ctx.store answer).done = ctx.done := by
  unfold LookupCtx.store
  split <;> rfl

end Lookup

open Lookup

attribute [local simp] Lawful Event.Allowed workerHolds Lookup.lock Lookup.releaseCtx

/-- The lookup is as it was, and so are the references: only the stage is another. -/
theorem Handed.moved {st st' : Stage} (hl : Handed (some st) l)
    (hcaller : callerHolds (some st') = callerHolds (some st))
    (hworker : runLookupHolds (some st') = runLookupHolds (some st))
    (hfrees : callerFrees (some st') = callerFrees (some st))
    (hstage : st' = .createFailed ∨ st' = .refuse ∨ st' = .release none)
    (hunstarted : runLookupHolds (some st') = true → l.worker = .unstarted) :
    Handed (some st') l := by
  obtain ⟨-, -, href, hrcaller, hrworker, hfreed, -, hcallerLast, hworkerLast, -, hdone, hundone,
    hstored, -⟩ := hl
  unfold workerHolds at href hrworker hfreed hcallerLast
  rw [← hcaller] at href hrcaller hfreed hworkerLast
  rw [← hworker] at href hrworker hfreed hcallerLast
  rw [← hfrees] at hfreed hcallerLast
  obtain rfl | rfl | rfl := hstage <;> constructor <;> simp_all [runLookupHolds]

theorem Handed.created (hl : Handed (some .create) l) :
    Handed (some .lock) { l with worker := .resolve } := by
  have hw := hl.unstarted (by simp)
  obtain ⟨-, -, href, hcaller, hworker, hfreed, -, -, -, -, -, hundone, -, -⟩ := hl
  constructor <;> simp_all [callerHolds, callerFrees, runLookupHolds, running]

theorem Handed.refuse (hl : Handed (some .refuse) l) :
    l.releaseCtx .worker .caller = (false, (l.releaseCtx .worker .caller).2) ∧
      Handed (some (.returned false)) (l.releaseCtx .worker .caller).2 := by
  have hw := hl.unstarted (by simp)
  obtain ⟨-, -, href, hcaller, hworker, hfreed, -, -, -, -, -, hundone, -, -⟩ := hl
  have htwo : l.ctx.refcount = 2 := by simpa [callerHolds, runLookupHolds, hw, running] using href
  refine ⟨by simp [htwo], ?_⟩
  constructor <;> simp_all [callerHolds, callerFrees, runLookupHolds, running]

theorem Handed.looked {st st' : Stage} (hl : Handed (some st) l) (hst : st = .lock ∨ st = .wait)
    (hst' : st' = .wait ∨ st' = .returned l.ctx.done) :
    Handed (some st') (l.log [.access .caller]) := by
  obtain ⟨-, -, href, hcaller, hworker, hfreed, -, -, hworkerLast, -, hdone, hundone, hstored,
    -⟩ := hl
  have hholds : callerHolds (some st) = true := by obtain rfl | rfl := hst <;> rfl
  have hlate : runLookupHolds (some st) = false := by obtain rfl | rfl := hst <;> rfl
  rw [hholds] at href hcaller hfreed hworkerLast
  obtain rfl | rfl := hst' <;> constructor <;>
    simp_all [callerHolds, callerFrees, runLookupHolds]

theorem Handed.used (hl : Handed (some (.returned true)) l) (got : Option Result) :
    Handed (some (.release got)) (l.log [.useResult l.ctx.result, .access .caller]) := by
  obtain ⟨-, -, href, hcaller, hworker, hfreed, -, -, hworkerLast, -, hdone, hundone, hstored,
    -⟩ := hl
  constructor <;> simp_all [callerHolds, callerFrees, runLookupHolds]

theorem Handed.released {got : Option Result} (hl : Handed (some (.release got)) l) :
    Handed (if (l.releaseCtx .caller .caller).1 then some (.free got) else none)
      (l.releaseCtx .caller .caller).2 := by
  obtain ⟨-, -, href, hcaller, hworker, hfreed, -, -, hworkerLast, -, hdone, hundone, hstored,
    -⟩ := hl
  cases hw : running l.worker <;> constructor <;>
    simp_all [callerHolds, callerFrees, runLookupHolds, LookupCtx.result]

theorem Handed.gone {got : Option Result} (hl : Handed (some (.free got)) l) :
    Handed none (l.log [.free]) := by
  have hw := hl.callerLast rfl
  obtain ⟨-, -, href, hcaller, hworker, hfreed, -, -, hworkerLast, -, hdone, hundone, hstored,
    -⟩ := hl
  constructor <;> simp_all [callerHolds, callerFrees, runLookupHolds]

namespace Lookup

theorem fresh_sound (request : Request) :
    Sound (some (.fill request)) (fresh request.kind) :=
  Unhanded.sound ⟨.inr (.inl ⟨_, rfl⟩), rfl, rfl, rfl, by simp [fresh]⟩

theorem mainStep_unhanded {input : MainInput} {st : Stage} (hl : Unhanded (some st) l)
    (h : l.mainStep input st outstanding = some (stage', l', outstanding')) :
    Sound stage' l' := by
  have hlawful := hl.lawful
  obtain ⟨hstage, hworker, href, hundone, hhist⟩ := hl
  obtain hst | ⟨r, hst⟩ | hst := hstage
  · contradiction
  · obtain rfl := Option.some.inj hst
    cases r <;> cases input <;>
      simp only [mainStep, reduceCtorEq, Option.some.injEq, Prod.mk.injEq] at h <;>
      obtain ⟨rfl, rfl, rfl⟩ := h <;>
      exact Unhanded.sound ⟨by simp, hworker, href, hundone, by simpa using hhist⟩
  · obtain rfl := Option.some.inj hst
    cases input <;> simp only [mainStep, reduceCtorEq, Option.some.injEq, Prod.mk.injEq] at h
    obtain ⟨rfl, rfl, rfl⟩ := h
    have hnone : ∀ e ∈ l.history, e = .access .caller := hhist
    have hfree : .free ∉ l.history := fun hh => by simpa using hhist _ hh
    have hrelease : ∀ p, .release p ∉ l.history := fun p hh => by simpa using hhist _ hh
    refine .of_handed (by simp) ⟨hfree, hlawful⟩ ?_
    split <;> constructor <;> simp_all [callerHolds, callerFrees, runLookupHolds, running]

theorem mainStep_handed {input : MainInput} {st : Stage} (hh : .handed ∈ l.history)
    (hlawful : Lawful l.history) (hl : Handed (some st) l)
    (h : l.mainStep input st outstanding = some (stage', l', outstanding')) :
    Sound stage' l' := by
  cases st <;> cases input <;>
    simp only [mainStep, reduceCtorEq, Option.some.injEq, Prod.mk.injEq] at h
  case fill.proceed r | fill.fail r => exact absurd rfl (hl.filled r)
  case enter.proceed => exact absurd rfl hl.entered
  case overCap.proceed =>
    obtain ⟨rfl, rfl, rfl⟩ := h
    exact .of_handed hh hlawful (hl.moved rfl rfl rfl (by simp) fun _ => hl.unstarted (by simp))
  case create.proceed =>
    obtain ⟨rfl, rfl, rfl⟩ := h
    exact .of_handed hh hlawful hl.created
  case create.fail | createFailed.proceed =>
    obtain ⟨rfl, rfl, rfl⟩ := h
    exact .of_handed hh hlawful (hl.moved rfl rfl rfl (by simp) fun _ => hl.unstarted (by simp))
  case refuse.proceed =>
    obtain ⟨hlast, hrefused⟩ := hl.refuse
    rw [hlast] at h
    obtain ⟨rfl, rfl, rfl⟩ := h
    have hcaller := hl.caller
    have hworker := hl.worker
    have hfreed := hl.freed
    have hw := hl.unstarted (by simp)
    refine .of_handed (by simpa using hh) ?_ hrefused
    simp_all [callerHolds, runLookupHolds, running]
  case refuseFree.proceed => exact absurd rfl hl.refused
  case lock.proceed | wait.proceed | wait.timedOut =>
    have hfreed := hl.freed
    have hcaller := hl.caller
    obtain ⟨rfl, rfl, rfl⟩ := h
    refine .of_handed (by simpa using hh) (by simp_all [callerHolds]) (hl.looked (by simp) ?_)
    cases hd : l.ctx.done <;> simp [hd]
  case returned.proceed finished =>
    cases finished <;> simp only [Option.some.injEq, Prod.mk.injEq] at h <;>
      obtain ⟨rfl, rfl, rfl⟩ := h
    · exact .of_handed hh hlawful (hl.moved rfl rfl rfl (by simp) (by simp [runLookupHolds]))
    · have hfreed := hl.freed
      have hcaller := hl.caller
      have hd := hl.done (hl.finished rfl)
      exact .of_handed (by simpa using hh) (by simp_all [callerHolds]) (hl.used _)
  case release.proceed got =>
    have hfreed := hl.freed
    have hcaller := hl.caller
    obtain ⟨rfl, rfl, rfl⟩ := h
    exact .of_handed (by simpa using hh) (by simp_all [callerHolds]) hl.released
  case free.proceed got =>
    have hfreed := hl.freed
    have hcaller := hl.caller
    have hworker := hl.worker
    have hw := hl.callerLast rfl
    obtain ⟨rfl, rfl, rfl⟩ := h
    exact .of_handed (by simpa using hh) (by simp_all [callerHolds, callerFrees]) hl.gone

theorem mainStep_sound {input : MainInput} {st : Stage} (hl : Sound (some st) l)
    (h : l.mainStep input st outstanding = some (stage', l', outstanding')) :
    Sound stage' l' := by
  by_cases hh : .handed ∈ l.history
  · exact mainStep_handed hh hl.lawful (hl.handed hh) h
  · exact mainStep_unhanded (hl.unhanded hh) h

theorem workerStep_sound {input : WorkerInput} (hl : Sound stage l)
    (h : l.workerStep input outstanding = some (l', outstanding')) : Sound stage l' := by
  have hstarted : l.worker ≠ .unstarted := by
    intro hw
    simp [workerStep, hw] at h
  obtain ⟨hh, hfilled, hentered, href, hcaller, hworker, hfreed, hrefused, hcallerLast, hworkerLast,
    hunstarted, hdone, hundone, hstored, hfinished⟩ := hl.handed_of_worker hstarted
  have hlawful := hl.lawful
  cases hw : l.worker <;> cases input <;>
    simp only [workerStep, hw, reduceCtorEq, Option.some.injEq, Prod.mk.injEq] at h
  all_goals obtain ⟨rfl, rfl⟩ := h
  case resolve.proceed | resolve.resolved | uncount.proceed =>
    refine .of_handed (by simpa using hh) (by simp_all [running]) ?_
    constructor <;> simp_all [running]
  case store.proceed answer =>
    have hd : l.ctx.done = false := hundone (.inr (.inr ⟨_, hw⟩))
    refine .of_handed (by simpa [store] using hh) (by simp_all [store, running]) ?_
    constructor <;> simp_all [store, running]
  case finish.proceed =>
    have hd := hstored hw
    refine .of_handed (by simpa using hh) (by simp_all [running]) ?_
    constructor <;> simp_all [running, LookupCtx.result]
  case release.proceed =>
    refine .of_handed (by simpa using hh) (by simp_all [running]) ?_
    cases hc : callerHolds stage <;> constructor <;> simp_all [running, LookupCtx.result]
  case free.proceed =>
    have hc := hworkerLast hw
    refine .of_handed (by simpa using hh) (by simp_all [running]) ?_
    constructor <;> simp_all [running, LookupCtx.result]

/-- What `run_lookup` has added to the counter for a worker it has not started yet. -/
def reserved : Option Stage → Int
  | some .overCap | some .create | some .createFailed => 1
  | _ => 0

/-- How far the counter may be above its cap: `run_lookup` adds one before it compares. -/
def excess : Option Stage → Int
  | some .overCap => 1
  | _ => 0

theorem mainStep_outstanding {input : MainInput} {st : Stage} (hl : Sound (some st) l)
    (h : l.mainStep input st outstanding = some (stage', l', outstanding')) :
    outstanding' - l'.counted.toInt - reserved stage' =
      outstanding - l.counted.toInt - reserved (some st) := by
  have hcreate : st = .create → l.worker = .unstarted := by
    intro hst
    exact (hl.handed_of_stage (by simp [hst])).2.unstarted (by simp [hst])
  cases st with
  | fill r =>
    cases r <;> cases input <;> simp only [mainStep, reduceCtorEq, Option.some.injEq,
      Prod.mk.injEq] at h <;> obtain ⟨rfl, rfl, rfl⟩ := h <;> rfl
  | create =>
    cases input <;> simp only [mainStep, reduceCtorEq, Option.some.injEq, Prod.mk.injEq] at h <;>
      obtain ⟨rfl, rfl, rfl⟩ := h <;> simp [reserved, counted, hcreate]
  | returned finished =>
    cases finished <;> cases input <;> simp only [mainStep, reduceCtorEq, Option.some.injEq,
      Prod.mk.injEq] at h <;> obtain ⟨rfl, rfl, rfl⟩ := h <;> rfl
  | refuse =>
    cases input <;> simp only [mainStep, reduceCtorEq, Option.some.injEq, Prod.mk.injEq] at h
    obtain ⟨rfl, rfl, rfl⟩ := h
    generalize (l.releaseCtx .worker .caller).1 = last
    cases last <;> rfl
  | release got =>
    cases input <;> simp only [mainStep, reduceCtorEq, Option.some.injEq, Prod.mk.injEq] at h
    obtain ⟨rfl, rfl, rfl⟩ := h
    generalize (l.releaseCtx .caller .caller).1 = last
    cases last <;> rfl
  | _ =>
    cases input <;> simp only [mainStep, reduceCtorEq, Option.some.injEq, Prod.mk.injEq] at h
    all_goals
      obtain ⟨rfl, rfl, rfl⟩ := h
      change _ - l.counted.toInt - _ = _
      try simp only [lock, apply_ite some, apply_ite reserved]
      simp only [reserved]
      try split
    all_goals omega

theorem mainStep_excess {input : MainInput} {st : Stage}
    (hle : outstanding ≤ maxOutstandingLookups + excess (some st))
    (h : l.mainStep input st outstanding = some (stage', l', outstanding')) :
    outstanding' ≤ maxOutstandingLookups + excess stage' := by
  cases st with
  | fill r =>
    cases r <;> cases input <;> simp only [mainStep, reduceCtorEq, Option.some.injEq,
      Prod.mk.injEq] at h <;> obtain ⟨rfl, rfl, rfl⟩ := h <;> exact hle
  | returned finished =>
    cases finished <;> cases input <;> simp only [mainStep, reduceCtorEq, Option.some.injEq,
      Prod.mk.injEq] at h <;> obtain ⟨rfl, rfl, rfl⟩ := h <;> exact hle
  | refuse =>
    cases input <;> simp only [mainStep, reduceCtorEq, Option.some.injEq, Prod.mk.injEq] at h
    obtain ⟨rfl, rfl, rfl⟩ := h
    generalize (l.releaseCtx .worker .caller).1 = last
    cases last <;> exact hle
  | release got =>
    cases input <;> simp only [mainStep, reduceCtorEq, Option.some.injEq, Prod.mk.injEq] at h
    obtain ⟨rfl, rfl, rfl⟩ := h
    generalize (l.releaseCtx .caller .caller).1 = last
    cases last <;> exact hle
  | _ =>
    cases input <;> simp only [mainStep, reduceCtorEq, Option.some.injEq, Prod.mk.injEq] at h
    all_goals
      obtain ⟨rfl, rfl, rfl⟩ := h
      try simp only [lock, apply_ite some, apply_ite excess]
      simp only [excess] at hle ⊢
      try split
    all_goals omega

theorem workerStep_outstanding {input : WorkerInput}
    (h : l.workerStep input outstanding = some (l', outstanding')) :
    outstanding' - l'.counted.toInt = outstanding - l.counted.toInt ∧
      outstanding' ≤ outstanding := by
  cases hw : l.worker <;> cases input <;>
    simp only [workerStep, hw, reduceCtorEq, Option.some.injEq, Prod.mk.injEq] at h
  all_goals
    obtain ⟨rfl, rfl⟩ := h
  case release.proceed =>
    cases hlast : l.ctx.refcount - 1 == 0 <;> simp [counted, hlast, hw]
  all_goals simp [counted, store, hw]

end Lookup

end LambdaMoo.NameLookup
