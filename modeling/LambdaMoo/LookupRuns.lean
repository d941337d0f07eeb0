import LambdaMoo.LookupSafety

/-! # Runs of the name lookups

The two invariants along every interleaving of the main thread and its workers. -/

namespace LambdaMoo.NameLookup

/-- The invariant of a state: every context's, and the shared counter's. -/
structure State.Safe (s : State) : Prop where
  sound : ∀ c l, s.lookups[c]? = some l → Sound (s.stage c) l
  main : ∀ c st, s.main = some (c, st) → c < s.lookups.length
  outstanding : s.outstanding =
    s.lookups.countP Lookup.counted + Lookup.reserved (s.main.map Prod.snd)
  limit : s.outstanding ≤ maxOutstandingLookups + Lookup.excess (s.main.map Prod.snd)

theorem countP_set_toInt {l l' : Lookup} {c : Nat} {lookups : List Lookup}
    (hl : lookups[c]? = some l) :
    ((lookups.set c l').countP Lookup.counted : Int) =
      lookups.countP Lookup.counted - l.counted.toInt + l'.counted.toInt := by
  obtain ⟨hc, hget⟩ := List.getElem?_eq_some_iff.mp hl
  have hpos : l.counted.toNat ≤ lookups.countP Lookup.counted := by
    cases hcounted : l.counted with
    | false => simp
    | true =>
      have := List.countP_pos_iff.mpr ⟨l, List.mem_of_getElem? hl, hcounted⟩
      simpa using this
  rw [List.countP_set hc, hget]
  cases h : l.counted <;> cases h' : l'.counted <;> simp only [h, Bool.toNat_true, Bool.toNat_false, Bool.toInt, cond_true, cond_false] at hpos ⊢
  all_goals simp
  all_goals omega

namespace State

variable {s s' : State} {c : Nat} {l l' : Lookup}

theorem safe_start : start.Safe where
  sound c l hl := by simp [start] at hl
  main c st hmain := by simp [start] at hmain
  outstanding := rfl
  limit := by decide

theorem stage_eq {st : Stage} (h : s.main = some (c, st)) : s.stage c = some st := by
  simp [stage, h]

theorem stage_ne {st : Stage} {d : Nat} (h : s.main = some (c, st)) (hd : c ≠ d) :
    s.stage d = none := by
  simp [stage, h, hd]

theorem Safe.call (hs : s.Safe) (hmain : s.main = none) (request : Request) :
    State.Safe { s with
      main := some (s.lookups.length, .fill request)
      lookups := s.lookups ++ [Lookup.fresh request.kind] } := by
  obtain ⟨hsound, -, hout, hlimit⟩ := hs
  rw [hmain] at hout hlimit
  refine ⟨?_, ?_, ?_, hlimit⟩
  · intro d m hm
    rw [List.getElem?_append] at hm
    split at hm
    · rename_i hd
      have := hsound d m hm
      simp only [stage, hmain] at this ⊢
      rwa [if_neg (by omega)]
    · obtain ⟨hd, rfl⟩ : d - s.lookups.length = 0 ∧ m = Lookup.fresh request.kind := by
        rw [List.getElem?_eq_some_iff] at hm
        obtain ⟨hlt, rfl⟩ := hm
        have : d - s.lookups.length = 0 := by simpa using hlt
        simp [this]
      have : s.lookups.length = d := by omega
      simpa [stage, this] using Lookup.fresh_sound request
  · rintro d st ⟨⟩
    simp
  · simpa [Lookup.reserved, Lookup.counted, Lookup.fresh] using hout

theorem Safe.mainStep {input : MainInput} {st : Stage} {stage' : Option Stage}
    {outstanding' : Int} (hs : s.Safe) (hmain : s.main = some (c, st))
    (hl : s.lookups[c]? = some l)
    (h : l.mainStep input st s.outstanding = some (stage', l', outstanding')) :
    State.Safe ⟨stage'.map (c, ·), s.lookups.set c l', outstanding'⟩ := by
  obtain ⟨hsound, hlt, hout, hlimit⟩ := hs
  have hl0 : Sound (some st) l := stage_eq hmain ▸ hsound c l hl
  have hl' : Sound stage' l' := Lookup.mainStep_sound hl0 h
  have heffect := Lookup.mainStep_outstanding hl0 h
  rw [hmain] at hout hlimit
  refine ⟨?_, ?_, ?_, ?_⟩
  · intro d m hm
    rw [List.getElem?_set] at hm
    split at hm
    · subst d
      simp only [hlt c st hmain, ↓reduceIte, Option.some.injEq] at hm
      subst m
      cases stage' <;> simpa [stage] using hl'
    · rename_i hd
      have := hsound d m hm
      rw [stage_ne hmain hd] at this
      cases stage' <;> simpa [stage, hd] using this
  · intro d st' hd
    obtain ⟨st'', -, hst⟩ := Option.map_eq_some_iff.mp hd
    obtain ⟨rfl, -⟩ := Prod.mk.inj hst
    simpa using hlt c st hmain
  · have hmap : (stage'.map (c, ·)).map Prod.snd = stage' := by cases stage' <;> rfl
    simp only [hmap, countP_set_toInt hl, Option.map_some] at hout ⊢
    omega
  · have hmap : (stage'.map (c, ·)).map Prod.snd = stage' := by cases stage' <;> rfl
    rw [hmap]
    exact Lookup.mainStep_excess hlimit h

theorem Safe.workerStep {input : WorkerInput} {outstanding' : Int} (hs : s.Safe)
    (hl : s.lookups[c]? = some l)
    (h : l.workerStep input s.outstanding = some (l', outstanding')) :
    State.Safe { s with lookups := s.lookups.set c l', outstanding := outstanding' } := by
  obtain ⟨hsound, hlt, hout, hlimit⟩ := hs
  have hl' := Lookup.workerStep_sound (hsound c l hl) h
  obtain ⟨heffect, hle⟩ := Lookup.workerStep_outstanding h
  refine ⟨?_, ?_, ?_, by dsimp only; omega⟩
  · intro d m hm
    rw [List.getElem?_set] at hm
    split at hm
    · subst d
      split at hm
      · obtain rfl := Option.some.inj hm
        exact hl'
      · contradiction
    · exact hsound d m hm
  · intro d st hd
    simpa using hlt d st hd
  · simp only [countP_set_toInt hl]
    omega

theorem Safe.step {move : Move} (hs : s.Safe) (h : s.step move = some s') : s'.Safe := by
  cases move with
  | main input =>
    unfold State.step at h
    dsimp only at h
    split at h
    · rename_i request hmain
      obtain rfl := Option.some.inj h
      exact hs.call hmain request
    · obtain rfl := Option.some.inj h
      exact hs
    · contradiction
    · rename_i d st input hmain
      simp only [Option.bind_eq_bind, Option.bind_eq_some_iff, Option.pure_def, Option.some.injEq]
        at h
      obtain ⟨l, hl, ⟨stage', l', outstanding'⟩, hstep, rfl⟩ := h
      exact hs.mainStep hmain hl hstep
  | worker d input =>
    simp only [State.step, Option.bind_eq_bind, Option.bind_eq_some_iff, Option.pure_def,
      Option.some.injEq] at h
    obtain ⟨l, hl, ⟨l', outstanding'⟩, hstep, rfl⟩ := h
    exact hs.workerStep hl hstep

theorem Reachable.safe (hs : Reachable s) : s.Safe := by
  induction hs with
  | start => exact safe_start
  | step move _ h ih => exact ih.step h

end State

theorem Lawful.count_free {history : List Event} (h : Lawful history) :
    history.count .free = if .free ∈ history then 1 else 0 := by
  induction history with
  | nil => rfl
  | cons e earlier ih =>
    obtain ⟨hallowed, hearlier⟩ := h
    specialize ih hearlier
    by_cases he : e = .free
    · subst he
      have hnone : .free ∉ earlier := hallowed.2.2
      simpa [hnone] using ih
    · simp [he, ih, eq_comm]

theorem Sound.count_free {stage : Option Stage} {l : Lookup} (hl : Sound stage l)
    (hh : .handed ∈ l.history) :
    l.history.count .free = if l.isOver stage then 1 else 0 := by
  rw [hl.lawful.count_free]
  have hfreed := (hl.handed hh).freed
  congr 1
  rw [hfreed]
  cases stage with
  | none =>
    cases hw : l.worker <;>
      simp [Lookup.isOver, callerHolds, callerFrees, workerHolds, running, runLookupHolds, hw]
  | some st => cases st <;> simp [Lookup.isOver, callerHolds, callerFrees]

/-- Each context that `run_lookup` is given is freed once, when both its parties are through with
it, and its history is lawful: its references are dropped before it is freed, no party touches it
after its own release, and the main thread uses a result that the worker has stored and announced.
While the main thread is out of `run_lookup`, the counter counts the workers that have yet to take
themselves off it. -/
theorem reachable_safe {s : State} (hs : s.Reachable) :
    (∀ (c : Nat) (l : Lookup), s.lookups[c]? = some l → .handed ∈ l.history →
      Lawful l.history ∧ l.history.count .free = if l.isOver (s.stage c) then 1 else 0) ∧
    ((∀ c st, s.main = some (c, st) → st.inRunLookup = false) →
      s.outstanding = s.lookups.countP Lookup.counted ∧
      0 ≤ s.outstanding ∧ s.outstanding ≤ maxOutstandingLookups) := by
  obtain ⟨hsound, -, hout, hlimit⟩ := hs.safe
  refine ⟨fun c l hl hh => ⟨(hsound c l hl).lawful, (hsound c l hl).count_free hh⟩, ?_⟩
  intro hoff
  have hnone : Lookup.reserved (s.main.map Prod.snd) = 0 ∧
      Lookup.excess (s.main.map Prod.snd) = 0 := by
    cases hmain : s.main with
    | none => exact ⟨rfl, rfl⟩
    | some at' =>
      obtain ⟨c, st⟩ := at'
      have hout := hoff c st hmain
      cases st <;> first | exact ⟨rfl, rfl⟩ | contradiction
  omega

theorem reachable_safe_answered :
    ∃ (s : State) (l : Lookup), s.lookups = [l] ∧ .handed ∈ l.history ∧ Lawful l.history ∧
      l.history.count .free = 1 ∧ s.outstanding = 0 := by
  have h := State.Reachable.start
    |>.step (.main (.call (.addrFromName "moo.example"))) rfl
    |>.step (.main .proceed) rfl |>.step (.main .proceed) rfl |>.step (.main .proceed) rfl
    |>.step (.worker 0 (.resolved 7 none)) rfl |>.step (.worker 0 .proceed) rfl
    |>.step (.worker 0 .proceed) rfl
    |>.step (.main .proceed) rfl |>.step (.main .proceed) rfl |>.step (.main .proceed) rfl
    |>.step (.worker 0 .proceed) rfl |>.step (.worker 0 .proceed) rfl
    |>.step (.worker 0 .proceed) rfl
  obtain ⟨hlookups, hcounter⟩ := reachable_safe h
  have hlookup := hlookups 0 _ rfl (by decide)
  exact ⟨_, _, rfl, by decide, hlookup.1, hlookup.2, (hcounter (by intro c st hst; cases hst)).1⟩

end LambdaMoo.NameLookup
