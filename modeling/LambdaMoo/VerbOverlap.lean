import LambdaMoo.VerbMatching

/-! When two names of verbs stand for a common word, and when the test for it tells so.
It does not return where the first star of the second name comes before that of the
first, and it does not see the words that end before the letters part. -/
namespace LambdaMoo

variable {a b n m st pl : Str} {s t : Star} {c d last : Char}

def overlap (a b : Str) : Prop := ∃ w, nameAccepts a w ∧ nameAccepts b w

theorem overlap_comm (a b : Str) : overlap a b ↔ overlap b a :=
  exists_congr fun _ => and_comm

def restOverlap (s : Star) (a : Str) (t : Star) (b : Str) : Prop :=
  ∃ w, restAccepts s a w ∧ restAccepts t b w

theorem none_ne_ending : Star.none ≠ .ending := nofun

theorem restAccepts_none (n w : Str) : restAccepts .none n w ↔ nameAccepts n w := by
  simp [restAccepts]

theorem restOverlap_none (a b : Str) : restOverlap .none a .none b ↔ overlap a b := by
  simp only [restOverlap, restAccepts_none, overlap]

theorem restAccepts_cut (hs : s ≠ .none) (n : Str) : restAccepts s n [] :=
  .inr (.inl ⟨hs, by simp [lowered]⟩)

theorem restAccepts_open (n : Str) : restAccepts .none ('*' :: n) [] := by
  rw [restAccepts_star none_ne_ending]
  exact restAccepts_cut (by split <;> simp) n

theorem restAccepts_nil (s : Star) (w : Str) : restAccepts s [] w ↔ w = [] ∨ s = .ending := by
  cases w <;> simp [restAccepts, nameAccepts_nil, lowered]

theorem lowered_letters (n : Str) : lowered (letters n) = letters n := by
  induction n with
  | nil => rfl
  | cons c n ih =>
      by_cases hc : c = '*'
      · simpa [letters_cons, hc] using ih
      · simpa [letters_cons, hc, lowered] using ih

theorem restOverlap_letter (hc : c ≠ '*') (hd : d ≠ '*') (hs : s ≠ .ending) (n m : Str) :
    restOverlap s (c :: n) .none (d :: m) ↔
      asciiTolower c = asciiTolower d ∧ restOverlap s n .none m := by
  constructor
  · rintro ⟨w, hn, hm⟩
    cases w with
    | nil => exact absurd rfl ((restAccepts_empty hd none_ne_ending m).mp hm)
    | cons x w =>
        obtain ⟨hcx, hn⟩ := (restAccepts_letter hc hs n w).mp hn
        obtain ⟨hdx, hm⟩ := (restAccepts_letter hd none_ne_ending m w).mp hm
        exact ⟨hcx.trans hdx.symm, w, hn, hm⟩
  · rintro ⟨hcd, w, hn, hm⟩
    exact ⟨c :: w, (restAccepts_letter hc hs n w).mpr ⟨rfl, hn⟩,
      (restAccepts_letter hd none_ne_ending m w).mpr ⟨hcd.symm, hm⟩⟩

theorem restOverlap_end (hd : d ≠ '*') (s : Star) (m : Str) :
    restOverlap s [] .none (d :: m) ↔ s = .ending := by
  constructor
  · rintro ⟨w, hn, hm⟩
    obtain rfl | hs := (restAccepts_nil s w).mp hn
    · exact absurd rfl ((restAccepts_empty hd none_ne_ending m).mp hm)
    · exact hs
  · rintro rfl
    exact ⟨letters (d :: m), (restAccepts_nil _ _).mpr (.inr rfl), .inl (.inl (lowered_letters _).symm)⟩

/-! The name that has met its star. -/

def starState (last : Char) (st : Str) : Star := if last = '*' ∧ st = [] then .ending else .inner

theorem starState_ne_none : starState last st ≠ .none := by
  unfold starState
  split <;> simp

theorem starState_cons (last c : Char) (st : Str) : starState last (c :: st) = .inner := by
  simp [starState]

theorem starState_letter (hc : c ≠ '*') (st : Str) : starState c st = .inner := by
  simp [starState, hc]

theorem starState_star (st : Str) : starState '*' st = if st = [] then .ending else .inner := by
  simp [starState]

def reached (r : Option (Str × Str × Char)) : Prop := ∃ st pl last, r = some (st, '*' :: pl, last)

theorem reached_iff (st pl : Str) (c last : Char) : reached (some (st, c :: pl, last)) ↔ c = '*' := by
  simp [reached]

theorem not_reached_nil (st : Str) (last : Char) : ¬ reached (some (st, [], last)) := by
  simp [reached]

/-- What the end of the loop says of the two names from there on. -/
def loopTells (o : Prop) (r : Option (Str × Str × Char)) : Prop :=
  (reached r → o) ∧ (¬ reached r → ∀ both, ∃ x, starredOutcome both r = some x ∧ (x = true ↔ o))

theorem loopTells_congr {o o' : Prop} (h : o ↔ o') (r : Option (Str × Str × Char)) :
    loopTells o r ↔ loopTells o' r := by
  rw [propext h]

/-- The loop tells whether the two names overlap, where it does not come to the star of
the other one; where it does, they do. -/
theorem shareStarred_tells (st pl : Str) (last : Char) :
    loopTells (restOverlap (starState last st) st .none pl) (shareStarred st pl last) := by
  fun_induction shareStarred st pl last with
  | case1 pl last =>
      cases pl with
      | nil =>
          have : restOverlap (starState last []) [] .none [] :=
            ⟨[], restAccepts_cut starState_ne_none [], (restAccepts_nil _ _).mpr (.inl rfl)⟩
          exact ⟨fun _ => this, fun _ both => ⟨true, rfl, by simp [this]⟩⟩
      | cons c pl =>
          by_cases hc : c = '*'
          · subst hc
            have : restOverlap (starState last []) [] .none ('*' :: pl) :=
              ⟨[], restAccepts_cut starState_ne_none [], restAccepts_open pl⟩
            exact ⟨fun _ => this, fun h => absurd ((reached_iff ..).mpr rfl) h⟩
          · rw [loopTells_congr (restOverlap_end hc _ _)]
            refine ⟨fun h => absurd ((reached_iff ..).mp h) hc, fun _ both => ?_⟩
            refine ⟨last == '*', by simp [starredOutcome, hc], ?_⟩
            by_cases hl : last = '*' <;> simp [starState, hl]
  | case2 s st last =>
      have : restOverlap (starState last (s :: st)) (s :: st) .none [] :=
        ⟨[], restAccepts_cut starState_ne_none _, (restAccepts_nil _ _).mpr (.inl rfl)⟩
      exact ⟨fun _ => this, fun _ both => ⟨true, rfl, by simp [this]⟩⟩
  | case3 s st last pl =>
      have : restOverlap (starState last (s :: st)) (s :: st) .none ('*' :: pl) :=
        ⟨[], restAccepts_cut starState_ne_none _, restAccepts_open pl⟩
      exact ⟨fun _ => this, fun h => absurd ((reached_iff ..).mpr rfl) h⟩
  | case4 st last c pl hc ih =>
      rw [starState_star] at ih
      rw [starState_cons, loopTells_congr]
      · exact ih
      · exact exists_congr fun w => and_congr_left fun _ => restAccepts_star (by simp) st w
  | case5 s st last c pl hc hs hne =>
      rw [starState_cons, loopTells_congr (restOverlap_letter hs hc (by simp) st pl)]
      refine ⟨fun h => ?_, fun _ both => ⟨false, rfl, by simp [hne]⟩⟩
      simp [reached] at h
  | case6 s st last c pl hc hs heq ih =>
      rw [starState_letter hs] at ih
      have heq : asciiTolower s = asciiTolower c := not_not.mp heq
      rw [starState_cons, loopTells_congr (restOverlap_letter hs hc (by simp) st pl)]
      simpa [heq] using ih

def plainPart (n : Str) : Str := n.takeWhile (· ≠ '*')

def comparable (a b : Str) : Prop := letters a <+: letters b ∨ letters b <+: letters a

theorem plainPart_star (n : Str) : plainPart ('*' :: n) = [] := by
  simp [plainPart]

theorem plainPart_letter (hc : c ≠ '*') (n : Str) : plainPart (c :: n) = c :: plainPart n := by
  simp [plainPart, hc]

theorem letters_cons_letter (hc : c ≠ '*') (n : Str) : letters (c :: n) = asciiTolower c :: letters n := by
  rw [letters_cons, if_neg hc]

/-- The loop comes to the other star where everything before it is part of this name. -/
theorem reached_shareStarred (st pl : Str) (last : Char) :
    reached (shareStarred st pl last) ↔ '*' ∈ pl ∧ letters (plainPart pl) <+: letters st := by
  fun_induction shareStarred st pl last with
  | case1 pl last =>
      cases pl with
      | nil => simp [not_reached_nil]
      | cons c pl =>
          by_cases hc : c = '*'
          · subst hc
            simp [reached_iff, plainPart_star]
          · simp [reached_iff, plainPart_letter hc, letters_cons_letter hc, hc]
  | case2 s st last => simp [not_reached_nil]
  | case3 s st last pl => simp [reached_iff, plainPart_star]
  | case4 st last c pl hc ih => rw [ih, letters_star]
  | case5 s st last c pl hc hs hne =>
      simp only [reached, plainPart_letter hc, letters_cons_letter hc, letters_cons_letter hs,
        List.cons_prefix_cons, reduceCtorEq, exists_false, false_iff]
      exact fun h => hne h.2.1.symm
  | case6 s st last c pl hc hs heq ih =>
      have heq : asciiTolower s = asciiTolower c := not_not.mp heq
      simp [ih, plainPart_letter hc, letters_cons_letter hc, letters_cons_letter hs, heq, Ne.symm hc]

theorem shareStarred_comparable {st' pl' : Str} {last' : Char}
    (h : shareStarred st pl last = some (st', pl', last')) : comparable st' pl' ↔ comparable st pl := by
  fun_induction shareStarred st pl last with
  | case1 pl last =>
      obtain ⟨rfl, rfl, -⟩ : [] = st' ∧ pl = pl' ∧ last = last' := by simpa using h
      rfl
  | case2 s st last =>
      obtain ⟨rfl, rfl, -⟩ : s :: st = st' ∧ [] = pl' ∧ last = last' := by simpa using h
      rfl
  | case3 s st last pl =>
      obtain ⟨rfl, rfl, -⟩ : s :: st = st' ∧ '*' :: pl = pl' ∧ last = last' := by simpa using h
      rfl
  | case4 st last c pl hc ih =>
      rw [ih h]
      simp [comparable, letters_star]
  | case5 s st last c pl hc hs hne => cases h
  | case6 s st last c pl hc hs heq ih =>
      have heq : asciiTolower s = asciiTolower c := not_not.mp heq
      rw [ih h]
      simp [comparable, letters_cons_letter hc, letters_cons_letter hs, heq]

/-! The test itself. -/

/-- The two names have both a star, and agree up to the later one of the first stars. -/
def meets (a b : Str) : Prop :=
  '*' ∈ a ∧ '*' ∈ b ∧ letters (plainPart b) <+: letters a ∧ letters (plainPart a) <+: letters b

theorem meets_comm (a b : Str) : meets a b ↔ meets b a := by
  unfold meets
  tauto

theorem comparable_comm (a b : Str) : comparable a b ↔ comparable b a := Or.comm

structure ShareSpec (a b : Str) (r : Option Bool) : Prop where
  apart : ¬ meets a b → ∃ x, r = some x ∧ (x = true ↔ overlap a b)
  overlap : meets a b → overlap a b
  tells : meets a b → (plainPart a).length ≤ (plainPart b).length →
    ∃ x, r = some x ∧ (x = true ↔ comparable a b)
  endless : meets a b → (plainPart b).length < (plainPart a).length → r = none

theorem overlap_letter (hc : c ≠ '*') (hd : d ≠ '*') (n m : Str) :
    overlap (c :: n) (d :: m) ↔ asciiTolower c = asciiTolower d ∧ overlap n m := by
  rw [← restOverlap_none, restOverlap_letter hc hd none_ne_ending, restOverlap_none]

theorem meets_letter (hc : c ≠ '*') (hd : d ≠ '*') (n m : Str) :
    meets (c :: n) (d :: m) ↔ asciiTolower c = asciiTolower d ∧ meets n m := by
  simp only [meets, List.mem_cons, Ne.symm hc, Ne.symm hd, false_or, plainPart_letter hc,
    plainPart_letter hd, letters_cons_letter hc, letters_cons_letter hd, List.cons_prefix_cons]
  constructor
  · rintro ⟨hn, hm, ⟨-, h⟩, hcd, h'⟩
    exact ⟨hcd, hn, hm, h, h'⟩
  · rintro ⟨hcd, hn, hm, h, h'⟩
    exact ⟨hn, hm, ⟨hcd.symm, h⟩, hcd, h'⟩

theorem comparable_letter (hc : c ≠ '*') (hd : d ≠ '*') (hcd : asciiTolower c = asciiTolower d) (n m : Str) :
    comparable (c :: n) (d :: m) ↔ comparable n m := by
  simp [comparable, letters_cons_letter hc, letters_cons_letter hd, hcd]

theorem overlap_star (n b : Str) : overlap ('*' :: n) b ↔ restOverlap (starState '*' ('*' :: n)) ('*' :: n) .none b := by
  rw [starState_cons, ← restOverlap_none]
  refine exists_congr fun w => and_congr_left fun _ => ?_
  rw [restAccepts_star none_ne_ending, restAccepts_star (by simp)]

theorem meets_star (n b : Str) :
    meets ('*' :: n) b ↔ '*' ∈ b ∧ letters (plainPart b) <+: letters n := by
  simp [meets, plainPart_star, letters_star]

/-- The loop with the star of the first name met, in the order in which it comes to an end. -/
theorem share_star (n b : Str) :
    ShareSpec ('*' :: n) b
      (starredOutcome (fun f b => some (shareBothStarred f b)) (shareStarred ('*' :: n) b '*')) := by
  have htells := shareStarred_tells ('*' :: n) b '*'
  rw [← overlap_star] at htells
  have hreach : reached (shareStarred ('*' :: n) b '*') ↔ meets ('*' :: n) b := by
    rw [reached_shareStarred, meets_star, letters_star]
  rw [loopTells, hreach] at htells
  refine ⟨fun h => htells.2 h _, htells.1, fun h _ => ?_, fun _ h => ?_⟩
  · obtain ⟨st, pl, last, hr⟩ := hreach.mpr h
    refine ⟨_, by rw [hr, starredOutcome, if_pos rfl], ?_⟩
    rw [shareBothStarred_iff, ← shareStarred_comparable hr]
    rfl
  · simp [plainPart_star] at h

theorem share_starred (n : Str) (hb : b.head? ≠ some '*') :
    ShareSpec b ('*' :: n) (starredOutcome (fun _ _ => none) (shareStarred ('*' :: n) b '*')) := by
  have htells := shareStarred_tells ('*' :: n) b '*'
  rw [← overlap_star, loopTells_congr (overlap_comm _ _)] at htells
  have hreach : reached (shareStarred ('*' :: n) b '*') ↔ meets b ('*' :: n) := by
    rw [reached_shareStarred, meets_comm, meets_star, letters_star]
  rw [loopTells, hreach] at htells
  refine ⟨fun h => htells.2 h _, htells.1, fun h hle => ?_, fun h _ => ?_⟩
  · obtain ⟨hstar, -⟩ := h
    cases b with
    | nil => simp at hstar
    | cons c b =>
        have hc : c ≠ '*' := by simpa using hb
        simp [plainPart_star, plainPart_letter hc] at hle
  · obtain ⟨st, pl, last, hr⟩ := hreach.mpr h
    rw [hr, starredOutcome, if_pos rfl]

theorem share_letters (hc : c ≠ '*') (hd : d ≠ '*') (hcd : asciiTolower c = asciiTolower d) {n m : Str}
    {r : Option Bool} (h : ShareSpec n m r) : ShareSpec (c :: n) (d :: m) r where
  apart := by simpa only [meets_letter hc hd, overlap_letter hc hd, hcd, true_and] using h.apart
  overlap := by simpa only [meets_letter hc hd, overlap_letter hc hd, hcd, true_and] using h.overlap
  tells := by
    simpa only [meets_letter hc hd, comparable_letter hc hd hcd, hcd, true_and, plainPart_letter hc,
      plainPart_letter hd, List.length_cons, Nat.add_le_add_iff_right] using h.tells
  endless := by
    simpa only [meets_letter hc hd, hcd, true_and, plainPart_letter hc,
      plainPart_letter hd, List.length_cons, Nat.add_lt_add_iff_right] using h.endless

theorem share_stars (n m : Str) :
    ShareSpec ('*' :: n) ('*' :: m) (some (shareBothStarred ('*' :: n) ('*' :: m))) := by
  have hmeets : meets ('*' :: n) ('*' :: m) := by simp [meets, plainPart_star]
  have hoverlap : overlap ('*' :: n) ('*' :: m) :=
    ⟨[], (restAccepts_none _ _).mp (restAccepts_open n), (restAccepts_none _ _).mp (restAccepts_open m)⟩
  refine ⟨fun h => absurd hmeets h, fun _ => hoverlap, fun _ _ => ⟨_, rfl, shareBothStarred_iff _ _⟩, ?_⟩
  intro _ h
  simp [plainPart_star] at h

theorem share_apart {r : Bool} (hmeets : ¬ meets a b) (hr : r = true ↔ overlap a b) :
    ShareSpec a b (some r) :=
  ⟨fun _ => ⟨r, rfl, hr⟩, fun h => absurd h hmeets, fun h => absurd h hmeets, fun h => absurd h hmeets⟩

theorem not_overlap_nil (hd : d ≠ '*') (m : Str) : ¬ overlap [] (d :: m) := by
  rw [← restOverlap_none, restOverlap_end hd]
  exact none_ne_ending

theorem singleNamesShareNamespace_spec (a b : Str) : ShareSpec a b (singleNamesShareNamespace a b) := by
  induction a generalizing b with
  | nil =>
      cases b with
      | nil =>
          refine share_apart (by simp [meets]) (iff_of_true rfl ⟨[], ?_⟩)
          simp [nameAccepts_nil]
      | cons d b =>
          by_cases hd : d = '*'
          · subst hd
            rw [singleNamesShareNamespace, if_pos rfl]
            exact share_starred b (by simp)
          · rw [singleNamesShareNamespace, if_neg hd]
            exact share_apart (by simp [meets]) (by simp [not_overlap_nil hd])
  | cons c a ih =>
      cases b with
      | nil =>
          by_cases hc : c = '*'
          · subst hc
            rw [singleNamesShareNamespace, if_pos rfl]
            exact share_star a []
          · rw [singleNamesShareNamespace, if_neg hc]
            exact share_apart (by simp [meets]) (by simp [overlap_comm _ [], not_overlap_nil hc])
      | cons d b =>
          rw [singleNamesShareNamespace]
          by_cases hc : c = '*'
          · subst hc
            rw [if_pos rfl]
            by_cases hd : d = '*'
            · subst hd
              rw [if_pos rfl]
              exact share_stars a b
            · rw [if_neg hd]
              exact share_star a (d :: b)
          · rw [if_neg hc]
            by_cases hd : d = '*'
            · subst hd
              rw [if_pos rfl]
              exact share_starred b (by simpa using hc)
            · rw [if_neg hd]
              by_cases hcd : asciiTolower c = asciiTolower d
              · rw [if_neg (not_not.mpr hcd)]
                exact share_letters hc hd hcd (ih b)
              · rw [if_pos hcd]
                exact share_apart (by simp [meets_letter hc hd, hcd]) (by simp [overlap_letter hc hd, hcd])

end LambdaMoo
