import LambdaMoo.VerbOverlap
import Mathlib.Data.List.ProdSigma
import Mathlib.Data.List.TakeWhile

/-! The test for common words on the two names as they lie in memory, and on the lists of
names. -/
namespace LambdaMoo

variable {a b n m st pl : Str} {last : Char}

/-- How a run ends without an answer: it does not end, or it reads outside a word. -/
inductive Halt
  | endless | outside
  deriving DecidableEq, Repr

/-- A name in a list of names: its characters, and whether it is the last one. -/
structure Word where
  chars : Str
  last : Bool
  nonempty : chars ≠ []
  unbroken : ' ' ∉ chars
  terminated : Terminated chars

/-- `foo[i]` for a word: its characters, and the blank or the NUL that it ends at. -/
def Word.read (foo : Word) (i : Nat) : Except Halt Char :=
  match (foo.chars ++ [if foo.last then nul else ' '])[i]? with
  | some c => .ok c
  | none => .error .outside

def Word.readBefore (foo : Word) : Nat → Except Halt Char
  | 0 => .error .outside
  | i + 1 => foo.read i

def Word.fend (foo : Word) : Nat := foo.chars.length

/-- The inner loop for a word that has met its star and one that has not; none is the
mismatch. -/
def starredLoop (foo bar : Word) : Nat → Nat → Nat → Except Halt (Option (Nat × Nat))
  | 0, _, _ => .error .endless
  | fuel + 1, f, b => do
      if f = foo.fend ∨ b = bar.fend then return some (f, b)
      let d ← bar.read b
      if d = '*' then return some (f, b)
      let c ← foo.read f
      if c = '*' then starredLoop foo bar fuel (f + 1) b
      else if asciiTolower c ≠ asciiTolower d then return none
      else starredLoop foo bar fuel (f + 1) (b + 1)

def bothLoop (foo bar : Word) : Nat → Nat → Nat → Except Halt Bool
  | 0, _, _ => .error .endless
  | fuel + 1, f, b => do
      if f = foo.fend ∨ b = bar.fend then return true
      let c ← foo.read f
      if c = '*' then bothLoop foo bar fuel (f + 1) b
      else
        let d ← bar.read b
        if d = '*' then bothLoop foo bar fuel f (b + 1)
        else if asciiTolower c ≠ asciiTolower d then return false
        else bothLoop foo bar fuel (f + 1) (b + 1)

def foostarLoop (foo bar : Word) (fuel f b : Nat) : Except Halt Bool := do
  match ← starredLoop foo bar fuel f b with
  | none => return false
  | some (f, b) =>
      if b = bar.fend then return true
      else if (← bar.read b) = '*' then bothLoop foo bar fuel f b
      else return (← foo.readBefore f) = '*'

def barstarLoop (foo bar : Word) : Nat → Nat → Nat → Except Halt Bool
  | 0, _, _ => .error .endless
  | fuel + 1, f, b => do
      match ← starredLoop bar foo fuel b f with
      | none => return false
      | some (b, f) =>
          if f = foo.fend then return true
          else if (← foo.read f) = '*' then barstarLoop foo bar fuel f b
          else return (← bar.readBefore b) = '*'

def plainLoop (foo bar : Word) : Nat → Nat → Nat → Except Halt Bool
  | 0, _, _ => .error .endless
  | fuel + 1, f, b => do
      let c ← foo.read f
      let d ← bar.read b
      if c ≠ '*' ∧ d ≠ '*' then
        if f = foo.fend ∧ b = bar.fend then return true
        else if f = foo.fend ∨ b = bar.fend then return false
        else if asciiTolower c ≠ asciiTolower d then return false
        else plainLoop foo bar fuel (f + 1) (b + 1)
      else if d ≠ '*' then foostarLoop foo bar fuel f b
      else if c ≠ '*' then barstarLoop foo bar fuel f b
      else bothLoop foo bar fuel f b

/-- `single_names_share_namespace(foo, fend, bar, bend)` with at most `fuel` rounds of
each of its loops. -/
def shareNamespaceAt (foo bar : Word) (fuel : Nat) : Except Halt Bool := plainLoop foo bar fuel 0 0

variable {foo bar : Word} {f b' fuel : Nat}

theorem Word.read_eq (foo : Word) {i : Nat} (hi : i ≤ foo.fend) :
    foo.read i = .ok ((foo.chars.drop i).head?.getD (if foo.last then nul else ' ')) := by
  unfold Word.read
  cases h : foo.chars.drop i with
  | nil =>
      have hlen : foo.fend ≤ i := List.drop_eq_nil_iff.mp h
      obtain rfl : i = foo.chars.length := by
        unfold Word.fend at hi hlen
        omega
      simp
  | cons c t =>
      have hlt : i < foo.chars.length := by
        by_contra hge
        rw [List.drop_eq_nil_of_le (by omega)] at h
        cases h
      rw [List.getElem?_append_left hlt, ← List.head?_drop, h]
      rfl

theorem Word.drop_nil_iff {i : Nat} (hi : i ≤ foo.fend) : foo.chars.drop i = [] ↔ i = foo.fend := by
  rw [List.drop_eq_nil_iff]
  unfold Word.fend at *
  omega

theorem Word.read_cons {i : Nat} {c : Char} {t : Str} (h : foo.chars.drop i = c :: t) : foo.read i = .ok c := by
  have hi : i ≤ foo.fend := Nat.le_of_succ_le (drop_succ h).2
  rw [foo.read_eq hi, h]
  rfl

theorem Word.read_end : ∃ c, c ≠ '*' ∧ foo.read foo.fend = .ok c := by
  refine ⟨if foo.last then nul else ' ', by split <;> decide, ?_⟩
  rw [foo.read_eq (Nat.le_refl _), (Word.drop_nil_iff (Nat.le_refl _)).mpr rfl]
  rfl

@[simp] theorem ok_bind {α β : Type} (x : α) (k : α → Except Halt β) : ((Except.ok x : Except Halt α) >>= k) = k x := rfl

@[simp] theorem pure_ok {α : Type} (x : α) : (pure x : Except Halt α) = .ok x := rfl

/-- A run with enough rounds ends with an answer, and one without does not end. -/
def answers {α : Type} (x : Except Halt α) (enough : Prop) (y : α) : Prop :=
  x = .ok y ∨ (x = .error .endless ∧ ¬ enough)

/-- Where the loop for one starred word stands when it ends. -/
structure StopsAt (foo bar : Word) (f f' b' : Nat) (last : Char) (r : Str × Str × Char) : Prop where
  star : foo.chars.drop f' = r.1
  plain : bar.chars.drop b' = r.2.1
  le : f ≤ f'
  inFoo : f' ≤ foo.fend
  inBar : b' ≤ bar.fend
  before : f < f' → foo.readBefore f' = .ok r.2.2
  still : f = f' → r.2.2 = last

theorem StopsAt.step {f' b' : Nat} {c last : Char} {t : Str} {r : Str × Str × Char}
    (h : foo.chars.drop f = c :: t) (hstops : StopsAt foo bar (f + 1) f' b' c r) :
    StopsAt foo bar f f' b' last r where
  star := hstops.star
  plain := hstops.plain
  le := Nat.le_of_succ_le hstops.le
  inFoo := hstops.inFoo
  inBar := hstops.inBar
  before hlt := by
    obtain hlt | heq := Nat.lt_or_eq_of_le hstops.le
    · exact hstops.before hlt
    · rw [← heq, hstops.still heq]
      exact Word.read_cons h
  still heq := by
    have := hstops.le
    omega

theorem starredLoop_spec {f b : Nat} (hf : f ≤ foo.fend) (hb : b ≤ bar.fend) (last : Char) :
    (starredLoop foo bar fuel f b = .error .endless ∧ fuel ≤ foo.fend - f) ∨
    match shareStarred (foo.chars.drop f) (bar.chars.drop b) last with
    | none => starredLoop foo bar fuel f b = .ok none
    | some r => ∃ f' b', starredLoop foo bar fuel f b = .ok (some (f', b')) ∧
        StopsAt foo bar f f' b' last r := by
  induction fuel generalizing f b last with
  | zero => exact .inl ⟨rfl, Nat.zero_le _⟩
  | succ fuel ih =>
      have hstay : ∀ r : Str × Str × Char, r = (foo.chars.drop f, bar.chars.drop b, last) →
          StopsAt foo bar f f b last r := by
        rintro r rfl
        exact ⟨rfl, rfl, Nat.le_refl _, hf, hb, fun h => absurd h (Nat.lt_irrefl _), fun _ => rfl⟩
      cases hfoo : foo.chars.drop f with
      | nil =>
          have hend : f = foo.fend := (Word.drop_nil_iff hf).mp hfoo
          refine .inr ?_
          rw [shareStarred]
          exact ⟨f, b, by simp [starredLoop, hend], hstay _ (by rw [hfoo])⟩
      | cons s st =>
          have hfend : f ≠ foo.fend := fun h => by simp [(Word.drop_nil_iff hf).mpr h] at hfoo
          obtain ⟨hst, hf₁⟩ := drop_succ hfoo
          cases hbar : bar.chars.drop b with
          | nil =>
              have hend : b = bar.fend := (Word.drop_nil_iff hb).mp hbar
              refine .inr ?_
              rw [shareStarred]
              exact ⟨f, b, by simp [starredLoop, hend], hstay _ (by rw [hfoo, hbar])⟩
          | cons c pl =>
              have hbend : b ≠ bar.fend := fun h => by simp [(Word.drop_nil_iff hb).mpr h] at hbar
              obtain ⟨hpl, hb₁⟩ := drop_succ hbar
              have hs := Word.read_cons hfoo
              have hc := Word.read_cons hbar
              rw [shareStarred]
              by_cases hplain : c = '*'
              · refine .inr ?_
                rw [if_pos hplain]
                refine ⟨f, b, ?_, hstay _ (by rw [hfoo, hbar])⟩
                simp only [starredLoop, hfend, hbend, or_self, if_false, hc, hplain, if_true, ok_bind, pure_ok]
              · rw [if_neg hplain]
                by_cases hstar : s = '*'
                · rw [if_pos hstar]
                  have hloop : starredLoop foo bar (fuel + 1) f b = starredLoop foo bar fuel (f + 1) b := by
                    simp only [starredLoop, hfend, hbend, or_self, if_false, hc, hplain, hs, hstar, if_true, ok_bind, pure_ok]
                  obtain ⟨h, hfuel⟩ | h := ih (f := f + 1) (b := b) hf₁ hb s
                  · exact .inl ⟨hloop.trans h, by unfold Word.fend at *; omega⟩
                  · refine .inr ?_
                    rw [hst, hbar] at h
                    rw [hloop]
                    revert h
                    cases shareStarred st (c :: pl) s with
                    | none => exact id
                    | some r =>
                      rintro ⟨f', b', h, hstops⟩
                      exact ⟨f', b', h, hstops.step hfoo⟩
                · rw [if_neg hstar]
                  by_cases heq : asciiTolower s = asciiTolower c
                  · rw [if_neg (not_not.mpr heq)]
                    have hloop : starredLoop foo bar (fuel + 1) f b =
                        starredLoop foo bar fuel (f + 1) (b + 1) := by
                      simp only [starredLoop, hfend, hbend, or_self, if_false, hc, hplain, hs, hstar, heq,
                        ne_eq, not_true_eq_false, ok_bind, pure_ok]
                    obtain ⟨h, hfuel⟩ | h := ih (f := f + 1) (b := b + 1) hf₁ hb₁ s
                    · exact .inl ⟨hloop.trans h, by unfold Word.fend at *; omega⟩
                    · refine .inr ?_
                      rw [hst, hpl] at h
                      rw [hloop]
                      revert h
                      cases shareStarred st pl s with
                      | none => exact id
                      | some r =>
                        rintro ⟨f', b', h, hstops⟩
                        exact ⟨f', b', h, hstops.step hfoo⟩
                  · rw [if_pos heq]
                    refine .inr ?_
                    simp only [starredLoop, hfend, hbend, or_self, if_false, hc, hplain, hs, hstar, ne_eq, heq,
                      not_false_eq_true, if_true, ok_bind, pure_ok]

theorem bothLoop_spec {f b : Nat} (hf : f ≤ foo.fend) (hb : b ≤ bar.fend) :
    answers (bothLoop foo bar fuel f b) ((foo.fend - f) + (bar.fend - b) < fuel)
      (shareBothStarred (foo.chars.drop f) (bar.chars.drop b)) := by
  induction fuel generalizing f b with
  | zero => exact .inr ⟨rfl, by omega⟩
  | succ fuel ih =>
      have hgo : ∀ {f' b' : Nat} {y : Bool}, bothLoop foo bar (fuel + 1) f b = bothLoop foo bar fuel f' b' →
          (foo.fend - f) + (bar.fend - b) = (foo.fend - f') + (bar.fend - b') + 1 ∨
            (foo.fend - f) + (bar.fend - b) = (foo.fend - f') + (bar.fend - b') + 2 →
          answers (bothLoop foo bar fuel f' b') ((foo.fend - f') + (bar.fend - b') < fuel) y →
          answers (bothLoop foo bar (fuel + 1) f b) ((foo.fend - f) + (bar.fend - b) < fuel + 1) y := by
        rintro f' b' y hloop hlen (h | ⟨h, hfuel⟩)
        · exact .inl (hloop.trans h)
        · exact .inr ⟨hloop.trans h, by omega⟩
      cases hfoo : foo.chars.drop f with
      | nil =>
          have hend : f = foo.fend := (Word.drop_nil_iff hf).mp hfoo
          exact .inl (by simp [bothLoop, hend, shareBothStarred])
      | cons c fs =>
          have hfend : f ≠ foo.fend := fun h => by simp [(Word.drop_nil_iff hf).mpr h] at hfoo
          obtain ⟨hfs, hf₁⟩ := drop_succ hfoo
          cases hbar : bar.chars.drop b with
          | nil =>
              have hend : b = bar.fend := (Word.drop_nil_iff hb).mp hbar
              exact .inl (by simp [bothLoop, hend, shareBothStarred])
          | cons d bs =>
              have hbend : b ≠ bar.fend := fun h => by simp [(Word.drop_nil_iff hb).mpr h] at hbar
              obtain ⟨hbs, hb₁⟩ := drop_succ hbar
              have hc := Word.read_cons hfoo
              have hd := Word.read_cons hbar
              rw [shareBothStarred]
              by_cases hcs : c = '*'
              · rw [if_pos hcs, ← hbar, ← hfs]
                refine hgo ?_ (.inl (by unfold Word.fend at *; omega)) (ih hf₁ hb)
                simp only [bothLoop, hfend, hbend, or_self, if_false, hc, hcs, if_true, ok_bind, pure_ok]
              · rw [if_neg hcs]
                by_cases hds : d = '*'
                · rw [if_pos hds, ← hfoo, ← hbs]
                  refine hgo ?_ (.inl (by unfold Word.fend at *; omega)) (ih hf hb₁)
                  simp only [bothLoop, hfend, hbend, or_self, if_false, hc, hcs, hd, hds, if_true, ok_bind, pure_ok]
                · rw [if_neg hds]
                  by_cases heq : asciiTolower c = asciiTolower d
                  · rw [if_neg (not_not.mpr heq), ← hfs, ← hbs]
                    refine hgo ?_ (.inr (by unfold Word.fend at *; omega)) (ih hf₁ hb₁)
                    simp only [bothLoop, hfend, hbend, or_self, if_false, hc, hcs, hd, hds, heq, ne_eq,
                      not_true_eq_false, ok_bind, pure_ok]
                  · rw [if_pos heq]
                    refine .inl ?_
                    simp only [bothLoop, hfend, hbend, or_self, if_false, hc, hcs, hd, hds, heq, ne_eq,
                      not_false_eq_true, if_true, ok_bind, pure_ok]

theorem answers_mono {α : Type} {x : Except Halt α} {enough enough' : Prop} {y : α} (h : answers x enough y)
    (himp : enough' → enough) : answers x enough' y :=
  h.imp_right fun h => ⟨h.1, fun he => h.2 (himp he)⟩

/-- A run that ends with the answer, if there is one, or does not end. -/
def answersIf {α : Type} (x : Except Halt α) (enough : Prop) : Option α → Prop
  | some y => answers x enough y
  | none => x = .error .endless

theorem answersIf_endless {α : Type} {x : Except Halt α} {enough : Prop} (h : x = .error .endless)
    (hfew : ¬ enough) (r : Option α) : answersIf x enough r := by
  cases r with
  | none => exact h
  | some y => exact .inr ⟨h, hfew⟩

theorem answersIf_mono {α : Type} {x : Except Halt α} {enough enough' : Prop} {r : Option α}
    (h : answersIf x enough r) (himp : enough' → enough) : answersIf x enough' r := by
  cases r with
  | none => exact h
  | some y => exact answers_mono h himp

/-- What follows the loop for one starred word: `both` where the other one is at its star. -/
def starredEnd (foo bar : Word) (both : Nat → Nat → Except Halt Bool) :
    Option (Nat × Nat) → Except Halt Bool
  | none => .ok false
  | some (f, b) => do
      if b = bar.fend then return true
      else if (← bar.read b) = '*' then both f b
      else return (← foo.readBefore f) = '*'

/-- Where the loop ends at a letter of the other name, nothing is left of the starred one. -/
theorem shareStarred_rest {st' pl' : Str} {c' last' : Char} (hc' : c' ≠ '*')
    (h : shareStarred st pl last = some (st', c' :: pl', last')) : st' = [] := by
  fun_induction shareStarred st pl last with
  | case1 pl last =>
      simp only [Option.some.injEq, Prod.mk.injEq] at h
      exact h.1.symm
  | case2 s st last => simp at h
  | case3 s st last pl =>
      simp only [Option.some.injEq, Prod.mk.injEq, List.cons.injEq] at h
      exact absurd h.2.1.1.symm hc'
  | case4 st last c pl hc ih => exact ih h
  | case5 s st last c pl hc hs hne => cases h
  | case6 s st last c pl hc hs heq ih => exact ih h

theorem starredEnd_spec {b : Nat} (hf : f < foo.fend) (hb : b ≤ bar.fend)
    {both : Nat → Nat → Except Halt Bool} {both' : Str → Str → Option Bool} {enough : Prop}
    (hboth : ∀ {f' b' pl}, f' ≤ foo.fend → b' ≤ bar.fend → bar.chars.drop b' = '*' :: pl →
      answersIf (both f' b') enough (both' (foo.chars.drop f') (bar.chars.drop b')))
    (henough : enough → foo.fend - f < fuel) :
    answersIf (starredLoop foo bar fuel f b >>= starredEnd foo bar both) enough
      (starredOutcome both' (shareStarred (foo.chars.drop f) (bar.chars.drop b) '*')) := by
  obtain ⟨h, hfuel⟩ | h := @starredLoop_spec foo bar fuel f b (Nat.le_of_lt hf) hb '*'
  · exact answersIf_endless (by rw [h]; rfl) (fun he => by have := henough he; omega) _
  · revert h
    cases hshare : shareStarred (foo.chars.drop f) (bar.chars.drop b) '*' with
    | none =>
        intro h
        rw [h]
        exact .inl rfl
    | some r =>
        obtain ⟨st, pl, last⟩ := r
        rintro ⟨f', b', h, hstops⟩
        obtain ⟨hst, hpl, hle, hinFoo, hinBar, hbefore, -⟩ := hstops
        simp only at hst hpl hbefore
        rw [h, ok_bind]
        cases pl with
        | nil =>
            have hend : b' = bar.fend := (Word.drop_nil_iff hinBar).mp hpl
            exact .inl (by rw [starredEnd, if_pos hend]; rfl)
        | cons c pl =>
            have hbend : b' ≠ bar.fend := fun h => by simp [(Word.drop_nil_iff hinBar).mpr h] at hpl
            have hread := Word.read_cons hpl
            rw [starredOutcome]
            by_cases hc : c = '*'
            · subst hc
              rw [if_pos rfl, ← hst, ← hpl]
              have heq : starredEnd foo bar both (some (f', b')) = both f' b' := by
                simp [starredEnd, hbend, hread]
              rw [heq]
              exact hboth hinFoo hinBar hpl
            · rw [if_neg hc]
              have hmoved : f < f' := by
                have hend : f' = foo.fend := by
                  rw [← Word.drop_nil_iff hinFoo, hst]
                  exact shareStarred_rest hc hshare
                omega
              refine .inl ?_
              simp [starredEnd, hbend, hread, hc, hbefore hmoved, beq_eq_decide]

theorem foostarLoop_eq (foo bar : Word) (fuel f b : Nat) :
    foostarLoop foo bar fuel f b = starredLoop foo bar fuel f b >>= starredEnd foo bar (bothLoop foo bar fuel) := by
  unfold foostarLoop
  refine congrArg _ (funext fun r => ?_)
  cases r <;> rfl

theorem barstarLoop_eq (foo bar : Word) (fuel f b : Nat) :
    barstarLoop foo bar (fuel + 1) f b =
      starredLoop bar foo fuel b f >>= starredEnd bar foo fun b f => barstarLoop foo bar fuel f b := by
  rw [barstarLoop]
  refine congrArg _ (funext fun r => ?_)
  cases r <;> rfl

theorem starredLoop_star {b : Nat} {pl : Str} (h : bar.chars.drop b = '*' :: pl) (f : Nat) :
    starredLoop foo bar (fuel + 1) f b = .ok (some (f, b)) := by
  have hread := Word.read_cons h
  unfold starredLoop
  split
  · rfl
  · simp only [hread, ok_bind, if_true, pure_ok]

/-- At the star of `foo` the second loop sets the flag that is set, and goes on for ever. -/
theorem barstarLoop_endless {b : Nat} {fs : Str} (h : foo.chars.drop f = '*' :: fs) :
    barstarLoop foo bar fuel f b = .error .endless := by
  have hread := Word.read_cons h
  have hfend : f ≠ foo.fend := by
    rintro rfl
    simp [Word.fend] at h
  induction fuel with
  | zero => rfl
  | succ fuel ih =>
      rw [barstarLoop_eq]
      cases fuel with
      | zero => rfl
      | succ fuel =>
          rw [starredLoop_star h, ok_bind]
          simp only [starredEnd, hfend, if_false, hread, ok_bind, if_true]
          exact ih

theorem barstarLoop_spec {b : Nat} (hf : f ≤ foo.fend) (hb : b < bar.fend) :
    answersIf (barstarLoop foo bar fuel f b) (bar.fend - b + 1 < fuel)
      (starredOutcome (fun _ _ => none) (shareStarred (bar.chars.drop b) (foo.chars.drop f) '*')) := by
  cases fuel with
  | zero => exact answersIf_endless rfl (Nat.not_lt_zero _) _
  | succ fuel =>
      rw [barstarLoop_eq]
      refine starredEnd_spec hb hf ?_ fun h => by omega
      intro b' f' fs _ _ hfs
      exact barstarLoop_endless hfs

theorem foostarLoop_spec {b : Nat} (hf : f < foo.fend) (hb : b ≤ bar.fend) :
    answersIf (foostarLoop foo bar fuel f b) (foo.fend + bar.fend < fuel)
      (starredOutcome (fun f b => some (shareBothStarred f b))
        (shareStarred (foo.chars.drop f) (bar.chars.drop b) '*')) := by
  rw [foostarLoop_eq]
  refine starredEnd_spec hf hb ?_ fun h => by omega
  intro f' b' pl hf' hb' _
  refine answers_mono (bothLoop_spec hf' hb') fun h => ?_
  omega

/-- The test on the words in memory ends with what `singleNamesShareNamespace` says, or
goes on for ever, and reads nothing outside them. -/
theorem plainLoop_spec {b : Nat} (hf : f ≤ foo.fend) (hb : b ≤ bar.fend) :
    answersIf (plainLoop foo bar fuel f b) ((foo.fend - f) + foo.fend + bar.fend + 2 < fuel)
      (singleNamesShareNamespace (foo.chars.drop f) (bar.chars.drop b)) := by
  induction fuel generalizing f b with
  | zero => exact answersIf_endless rfl (Nat.not_lt_zero _) _
  | succ fuel ih =>
      have hnil : ∀ {w : Word} {i : Nat}, i ≤ w.fend → w.chars.drop i = [] →
          i = w.fend ∧ ∃ c, c ≠ '*' ∧ w.read i = .ok c := by
        intro w i hi h
        obtain rfl := (Word.drop_nil_iff hi).mp h
        exact ⟨rfl, w.read_end⟩
      have hcons : ∀ {w : Word} {i : Nat} {c : Char} {t : Str}, i ≤ w.fend → w.chars.drop i = c :: t →
          i ≠ w.fend ∧ i < w.fend ∧ w.read i = .ok c := by
        intro w i c t hi h
        have hne : i ≠ w.fend := fun he => by simp [(Word.drop_nil_iff hi).mpr he] at h
        exact ⟨hne, by omega, Word.read_cons h⟩
      unfold plainLoop
      cases hfoo : foo.chars.drop f with
      | nil =>
          obtain ⟨hfend, c, hc, hcread⟩ := hnil hf hfoo
          cases hbar : bar.chars.drop b with
          | nil =>
              obtain ⟨hbend, d, hd, hdread⟩ := hnil hb hbar
              refine .inl ?_
              rw [hcread, hdread, ok_bind, ok_bind, if_pos ⟨hc, hd⟩, if_pos ⟨hfend, hbend⟩]
              rfl
          | cons d bs =>
              obtain ⟨hbend, hb₁, hdread⟩ := hcons hb hbar
              simp only [hcread, hdread, ok_bind, hc, ne_eq, not_false_eq_true, true_and, if_true]
              rw [singleNamesShareNamespace]
              by_cases hd : d = '*'
              · rw [if_neg (not_not.mpr hd), if_neg (not_not.mpr hd), if_pos hd, ← hbar, ← hfoo]
                refine answersIf_mono (barstarLoop_spec hf hb₁) fun h => ?_
                omega
              · rw [if_pos hd, if_neg hd]
                refine .inl ?_
                simp only [hfend, hbend, and_false, true_or, if_true, if_false, pure_ok]
      | cons c fs =>
          obtain ⟨hfend, hf₁, hcread⟩ := hcons hf hfoo
          cases hbar : bar.chars.drop b with
          | nil =>
              obtain ⟨hbend, d, hd, hdread⟩ := hnil hb hbar
              simp only [hcread, hdread, ok_bind, hd, ne_eq, not_false_eq_true, and_true, if_true]
              rw [singleNamesShareNamespace]
              by_cases hc : c = '*'
              · rw [if_neg (not_not.mpr hc), if_pos hc, ← hbar, ← hfoo]
                refine answersIf_mono (foostarLoop_spec hf₁ hb) fun h => ?_
                omega
              · rw [if_pos hc, if_neg hc]
                refine .inl ?_
                simp only [hfend, hbend, false_and, or_true, if_true, if_false, pure_ok]
          | cons d bs =>
              obtain ⟨hbend, hb₁, hdread⟩ := hcons hb hbar
              simp only [hcread, hdread, ok_bind, ne_eq]
              rw [singleNamesShareNamespace]
              by_cases hc : c = '*'
              · subst hc
                by_cases hd : d = '*'
                · subst hd
                  simp only [not_true_eq_false, and_self, if_false, if_true]
                  rw [← hfoo, ← hbar]
                  refine answersIf_mono (bothLoop_spec hf hb) fun h => ?_
                  omega
                · simp only [hd, not_true_eq_false, not_false_eq_true, false_and, if_false, if_true]
                  rw [← hfoo, ← hbar]
                  refine answersIf_mono (foostarLoop_spec hf₁ hb) fun h => ?_
                  omega
              · by_cases hd : d = '*'
                · subst hd
                  simp only [hc, not_true_eq_false, not_false_eq_true, and_false, if_false, if_true]
                  rw [← hfoo, ← hbar]
                  refine answersIf_mono (barstarLoop_spec hf hb₁) fun h => ?_
                  omega
                · rw [if_pos ⟨hc, hd⟩, if_neg hc, if_neg hd]
                  simp only [hfend, hbend, and_self, or_self, if_false]
                  by_cases hcd : asciiTolower c = asciiTolower d
                  · rw [if_neg (not_not.mpr hcd), if_neg (not_not.mpr hcd)]
                    have ih := ih (f := f + 1) (b := b + 1) hf₁ hb₁
                    rw [(drop_succ hfoo).1, (drop_succ hbar).1] at ih
                    refine answersIf_mono ih fun h => ?_
                    omega
                  · rw [if_pos hcd, if_pos hcd]
                    exact .inl rfl

theorem shareNamespaceAt_spec (a b : Word) (fuel : Nat) :
    answersIf (shareNamespaceAt a b fuel) (2 * a.fend + b.fend + 2 < fuel)
      (singleNamesShareNamespace a.chars b.chars) := by
  refine answersIf_mono (plainLoop_spec (Nat.zero_le _) (Nat.zero_le _)) fun h => ?_
  omega

def shares (a b : Word) (r : Bool) : Prop := ∃ n, ∀ fuel, n < fuel → shareNamespaceAt a b fuel = .ok r

theorem shares_iff (a b : Word) (r : Bool) :
    shares a b r ↔ singleNamesShareNamespace a.chars b.chars = some r := by
  have hspec := shareNamespaceAt_spec a b
  constructor
  · rintro ⟨n, hn⟩
    have h := hspec (n + (2 * a.fend + b.fend + 3))
    rw [hn _ (by omega)] at h
    cases hr : singleNamesShareNamespace a.chars b.chars with
    | none =>
        rw [hr] at h
        cases h
    | some x =>
        rw [hr] at h
        obtain h | ⟨h, -⟩ := h
        · cases h
          rfl
        · cases h
  · intro hr
    refine ⟨2 * a.fend + b.fend + 2, fun fuel hfuel => ?_⟩
    have h := hspec fuel
    rw [hr] at h
    obtain h | ⟨-, h⟩ := h
    · exact h
    · exact absurd hfuel h

theorem shareNamespaceAt_inside (a b : Word) (fuel : Nat) : shareNamespaceAt a b fuel ≠ .error .outside := by
  intro houtside
  have h := shareNamespaceAt_spec a b fuel
  rw [houtside] at h
  cases hr : singleNamesShareNamespace a.chars b.chars with
  | none =>
      rw [hr] at h
      cases h
  | some x =>
      rw [hr] at h
      obtain h | ⟨h, -⟩ := h <;> cases h

/-! What the test says is wrong for the names that meet but whose letters part later, and
it never ends where the star of the second name comes first. -/

def missed (a b : Str) : Prop :=
  meets a b ∧ (plainPart a).length ≤ (plainPart b).length ∧ ¬ comparable a b

def endless (a b : Str) : Prop := meets a b ∧ (plainPart b).length < (plainPart a).length

theorem share_none (a b : Str) : singleNamesShareNamespace a b = none ↔ endless a b := by
  have h := singleNamesShareNamespace_spec a b
  constructor
  · intro hnone
    rw [hnone] at h
    by_cases hm : meets a b
    · by_cases hle : (plainPart a).length ≤ (plainPart b).length
      · obtain ⟨x, hx, -⟩ := h.tells hm hle
        cases hx
      · exact ⟨hm, Nat.lt_of_not_le hle⟩
    · obtain ⟨x, hx, -⟩ := h.apart hm
      cases hx
  · exact fun he => h.endless he.1 he.2

theorem share_true (a b : Str) :
    singleNamesShareNamespace a b = some true ↔ overlap a b ∧ ¬ missed a b ∧ ¬ endless a b := by
  have h := singleNamesShareNamespace_spec a b
  by_cases hm : meets a b
  · have hoverlap := h.overlap hm
    by_cases hle : (plainPart a).length ≤ (plainPart b).length
    · obtain ⟨x, hx, hiff⟩ := h.tells hm hle
      simp [hx, hiff, missed, endless, hm, hle, hoverlap]
    · have hlt := Nat.lt_of_not_le hle
      simp [h.endless hm hlt, endless, hm, hlt]
  · obtain ⟨x, hx, hiff⟩ := h.apart hm
    simp [hx, hiff, missed, endless, hm]

theorem share_false (a b : Str) :
    singleNamesShareNamespace a b = some false ↔ ¬ endless a b ∧ (¬ overlap a b ∨ missed a b) := by
  have hnone := share_none a b
  have htrue := share_true a b
  match hr : singleNamesShareNamespace a b with
  | none => simp_all
  | some true => simp_all
  | some false =>
      rw [hr] at hnone htrue
      simp only [reduceCtorEq, false_iff, Option.some.injEq, Bool.false_eq_true, not_and, not_not] at hnone htrue
      refine iff_of_true rfl ⟨hnone, ?_⟩
      by_cases ho : overlap a b
      · refine .inr ?_
        by_contra hmissed
        exact hnone (htrue ho hmissed)
      · exact .inl ho

theorem nameAccepts_terminated {w : Str} (hn : Terminated n) (h : nameAccepts n w) :
    nameAccepts n (w.takeWhile (· ≠ nul)) := by
  have hletters : ∀ {s : Str}, Terminated s → ∀ c ∈ letters s, c ≠ nul := by
    intro s hs c hc hnul
    simp only [letters, lowered, List.mem_filter, List.mem_map] at hc
    obtain ⟨⟨x, hx, rfl⟩, -⟩ := hc
    obtain rfl := (asciiTolower_eq_mark (by decide) (by decide) x).mp hnul
    exact hs hx
  have hlow : ∀ {u : Str}, lowered (u.takeWhile (· ≠ nul)) = (lowered u).takeWhile (· ≠ nul) := by
    intro u
    rw [lowered, lowered, List.takeWhile_map]
    congr 2
    funext x
    simp only [Function.comp_apply, decide_eq_decide, ne_eq, not_iff_not]
    exact (asciiTolower_eq_mark (by decide) (by decide) x).symm
  have hwhole : ∀ {u : Str}, (∀ c ∈ u, c ≠ nul) → u.takeWhile (· ≠ nul) = u := by
    intro u hu
    rw [List.takeWhile_eq_self_iff]
    simpa using hu
  have hprefix : ∀ {u x : Str}, (∀ c ∈ u, c ≠ nul) → u <+: x → u <+: x.takeWhile (· ≠ nul) := by
    rintro u _ hu ⟨x, rfl⟩
    rw [List.takeWhile_append_of_pos (by simpa using hu)]
    exact List.prefix_append ..
  have hbefore : ∀ {before after : Str}, n = before ++ '*' :: after → Terminated before := by
    rintro before after rfl hnul
    exact hn (List.mem_append_left _ hnul)
  obtain h | ⟨before, after, hname, hl, hh⟩ | ⟨before, hname, hl⟩ := h
  · refine .inl ?_
    rw [hlow, ← h, hwhole (hletters hn)]
  · refine .inr (.inl ⟨before, after, hname, ?_, ?_⟩)
    · rw [hlow]
      exact hprefix (hletters (hbefore hname)) hl
    · rw [hlow]
      exact (List.takeWhile_prefix _).trans hh
  · refine .inr (.inr ⟨before, hname, ?_⟩)
    rw [hlow]
    exact hprefix (hletters (hbefore hname)) hl

theorem verbWords_word (hne : n ≠ []) (hblank : ' ' ∉ n) : verbWords n = [n] := by
  have h := @verbWords_name _ [] hblank hne trivial
  simpa [verbWords] using h

def sharesWord (a b : Str) : Prop := ∃ w : CStr, verbcasecmp a w = true ∧ verbcasecmp b w = true

theorem verbcasecmp_word (hne : n ≠ []) (hblank : ' ' ∉ n) (w : Str) :
    verbcasecmp n w = true ↔ nameAccepts n w := by
  have hfirst : n.head? ≠ some ' ' := fun h => hblank (List.mem_of_mem_head? h)
  simp [verbcasecmp_iff, namesAccept, verbWords_word hne hblank, hfirst]

def isWord (n : Str) : Prop := n ≠ [] ∧ ' ' ∉ n ∧ Terminated n

theorem sharesWord_iff (ha : isWord a) (hb : isWord b) : sharesWord a b ↔ overlap a b := by
  unfold sharesWord overlap
  simp only [verbcasecmp_word ha.1 ha.2.1, verbcasecmp_word hb.1 hb.2.1]
  constructor
  · rintro ⟨w, h⟩
    exact ⟨w, h⟩
  · rintro ⟨w, hn, hm⟩
    have hw : Terminated (w.takeWhile (· ≠ nul)) := by
      intro hnul
      simpa [nul] using List.mem_takeWhile_imp hnul
    exact ⟨⟨_, hw⟩, nameAccepts_terminated ha.2.2 hn, nameAccepts_terminated hb.2.2 hm⟩

theorem isWord_of_mem {names : CStr} (h : n ∈ verbWords names) : isWord n := by
  obtain ⟨hne, hblank, hwithin⟩ := mem_verbWords h
  exact ⟨hne, hblank, fun hnul => names.property (hwithin.subset hnul)⟩

/-- What the test is for: it ends, the order of the names does not matter, and it tells
whether they share a word. -/
def toldRight (a b : Word) : Prop :=
  ∃ r, shares a b r ∧ shares b a r ∧ (r = true ↔ sharesWord a.chars b.chars)

def listsToldRight (foo bar : CStr) : Prop :=
  ∃ r, verbnamesShareNamespace foo bar = some r ∧
    (r = true ↔ ∃ a ∈ verbWords foo, ∃ b ∈ verbWords bar, sharesWord a b)

/-- The names whose stars meet have these at one place, and the letters of one begin
those of the other. -/
def meetTogether (a b : Str) : Prop :=
  meets a b → (plainPart a).length = (plainPart b).length ∧ comparable a b

/-- No names in the lists share a word, or some do that the test sees, and there are none
before them at which it does not end. -/
def seenFirst (foo bar : Str) : Prop :=
  (∀ p ∈ (verbWords foo).product (verbWords bar), ¬ overlap p.1 p.2) ∨
    ∃ before p after, (verbWords foo).product (verbWords bar) = before ++ p :: after ∧
      (overlap p.1 p.2 ∧ ¬ missed p.1 p.2 ∧ ¬ endless p.1 p.2) ∧ ∀ q ∈ before, ¬ endless q.1 q.2

theorem verbnamesShareNamespace_true (foo bar : Str) :
    verbnamesShareNamespace foo bar = some true ↔
      ∃ before p after, (verbWords foo).product (verbWords bar) = before ++ p :: after ∧
        (overlap p.1 p.2 ∧ ¬ missed p.1 p.2 ∧ ¬ endless p.1 p.2) ∧ ∀ q ∈ before, ¬ endless q.1 q.2 := by
  rw [verbnamesShareNamespace, anyM_anyM, anyM_eq_true_iff]
  simp only [share_true, ne_eq, share_none]

theorem verbnamesShareNamespace_false (foo bar : Str) :
    verbnamesShareNamespace foo bar = some false ↔
      ∀ p ∈ (verbWords foo).product (verbWords bar), singleNamesShareNamespace p.1 p.2 = some false := by
  rw [verbnamesShareNamespace, anyM_anyM, anyM_eq_false_iff]

theorem listsToldRight_iff (foo bar : CStr) : listsToldRight foo bar ↔ seenFirst foo bar := by
  have hshare : (∃ a ∈ verbWords foo, ∃ b ∈ verbWords bar, sharesWord a b) ↔
      ∃ p ∈ (verbWords foo.val).product (verbWords bar), overlap p.1 p.2 := by
    constructor
    · rintro ⟨a, ha, b, hb, h⟩
      exact ⟨(a, b), List.mem_product.mpr ⟨ha, hb⟩, (sharesWord_iff (isWord_of_mem ha) (isWord_of_mem hb)).mp h⟩
    · rintro ⟨⟨a, b⟩, hp, h⟩
      obtain ⟨ha, hb⟩ := List.mem_product.mp hp
      exact ⟨a, ha, b, hb, (sharesWord_iff (isWord_of_mem ha) (isWord_of_mem hb)).mpr h⟩
  unfold listsToldRight seenFirst
  rw [hshare]
  constructor
  · rintro ⟨r, hr, hiff⟩
    cases r with
    | true => exact .inr ((verbnamesShareNamespace_true _ _).mp hr)
    | false =>
        refine .inl fun p hp ho => ?_
        exact absurd (hiff.mpr ⟨p, hp, ho⟩) (by simp)
  · rintro (hnone | hfound)
    · refine ⟨false, (verbnamesShareNamespace_false _ _).mpr fun p hp => ?_, by simpa using hnone⟩
      have ho := hnone p hp
      rw [share_false]
      refine ⟨fun he => ho ?_, .inl ho⟩
      exact (singleNamesShareNamespace_spec p.1 p.2).overlap he.1
    · refine ⟨true, (verbnamesShareNamespace_true _ _).mpr hfound, iff_of_true rfl ?_⟩
      obtain ⟨before, p, after, hl, ⟨ho, -⟩, -⟩ := hfound
      exact ⟨p, by simp [hl], ho⟩

theorem Word.isWord (a : Word) : isWord a.chars := ⟨a.nonempty, a.unbroken, a.terminated⟩

theorem toldRight_iff (a b : Word) : toldRight a b ↔ meetTogether a.chars b.chars := by
  have hoverlap := sharesWord_iff a.isWord b.isWord
  have hspec := singleNamesShareNamespace_spec a.chars b.chars
  have hspec' := singleNamesShareNamespace_spec b.chars a.chars
  unfold toldRight meetTogether
  simp only [shares_iff, hoverlap]
  constructor
  · rintro ⟨r, hr, hr', hiff⟩ hm
    have hle : (plainPart a.chars).length ≤ (plainPart b.chars).length := by
      by_contra hlt
      rw [hspec.endless hm (Nat.lt_of_not_le hlt)] at hr
      cases hr
    have hle' : (plainPart b.chars).length ≤ (plainPart a.chars).length := by
      by_contra hlt
      rw [hspec'.endless ((meets_comm _ _).mp hm) (Nat.lt_of_not_le hlt)] at hr'
      cases hr'
    refine ⟨Nat.le_antisymm hle hle', ?_⟩
    obtain ⟨x, hx, hcomparable⟩ := hspec.tells hm hle
    obtain rfl : r = x := Option.some.inj (hr.symm.trans hx)
    exact hcomparable.mp (hiff.mpr (hspec.overlap hm))
  · intro htogether
    by_cases hm : meets a.chars b.chars
    · obtain ⟨hlen, hcomparable⟩ := htogether hm
      obtain ⟨x, hx, hxiff⟩ := hspec.tells hm (Nat.le_of_eq hlen)
      obtain ⟨y, hy, hyiff⟩ := hspec'.tells ((meets_comm _ _).mp hm) (Nat.le_of_eq hlen.symm)
      obtain rfl := hxiff.mpr hcomparable
      obtain rfl := hyiff.mpr ((comparable_comm _ _).mp hcomparable)
      exact ⟨true, hx, hy, iff_of_true rfl (hspec.overlap hm)⟩
    · obtain ⟨x, hx, hxiff⟩ := hspec.apart hm
      obtain ⟨y, hy, -⟩ := hspec'.apart fun h => hm ((meets_comm _ _).mp h)
      obtain rfl := singleNamesShareNamespace_comm hx hy
      exact ⟨x, hx, hy, hxiff⟩

/-- `single_names_share_namespace` reads nothing outside the two words. It tells whether
they share a word, both ways round, where the words that meet do so together, and
`verbnames_share_namespace` tells it of the lists where nothing stands before the first
names that are seen to. -/
theorem shareNamespace_exact_iff (a b : Word) (foo bar : CStr) :
    (∀ fuel, shareNamespaceAt a b fuel ≠ .error .outside) ∧
      (toldRight a b ↔ meetTogether a.chars b.chars) ∧
      (listsToldRight foo bar ↔ seenFirst foo bar) :=
  ⟨shareNamespaceAt_inside a b, toldRight_iff a b, listsToldRight_iff foo bar⟩

def fStarOo : Word := ⟨['f', '*', 'o', 'o'], true, by decide, by decide, by decide⟩

def fStarAr : Word := ⟨['f', '*', 'a', 'r'], true, by decide, by decide, by decide⟩

def foStarO : Word := ⟨['f', 'o', '*', 'o'], true, by decide, by decide, by decide⟩

/-- `f` stands for both names, and the test says that they share no word. With the star of
the second name before that of the first it never ends. -/
theorem shareNamespace_not_exact :
    (¬ toldRight fStarOo fStarAr ∧ sharesWord fStarOo.chars fStarAr.chars ∧ shares fStarOo fStarAr false) ∧
      ∀ fuel, shareNamespaceAt foStarO fStarOo fuel = .error .endless := by
  have hword : sharesWord fStarOo.chars fStarAr.chars := ⟨⟨['f'], by decide⟩, by decide, by decide⟩
  have hfalse : shares fStarOo fStarAr false := (shares_iff _ _ _).mpr (by decide +kernel)
  refine ⟨⟨?_, hword, hfalse⟩, fun fuel => ?_⟩
  · rintro ⟨r, hr, -, hiff⟩
    rw [shares_iff] at hr hfalse
    rw [hfalse, Option.some.injEq] at hr
    exact absurd (hiff.mpr hword) (by simp [← hr])
  · have h := shareNamespaceAt_spec foStarO fStarOo fuel
    have hnone : singleNamesShareNamespace foStarO.chars fStarOo.chars = none := by decide +kernel
    rwa [hnone] at h

end LambdaMoo
