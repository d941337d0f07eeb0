import LambdaMoo.Calls
import LambdaMoo.VerbNamespaces

/-! The words that the names of a verb match. A star in a name lets it be cut short from
there on, a star at its end lets it be continued. -/
namespace LambdaMoo

variable {n v w rest : Str} {star : Star}

def nameAccepts (name word : Str) : Prop :=
  letters name = lowered word ∨
  (∃ before after, name = before ++ '*' :: after ∧
    letters before <+: lowered word ∧ lowered word <+: letters name) ∨
  ∃ before, name = before ++ ['*'] ∧ letters before <+: lowered word

def namesAccept (names word : Str) : Prop := ∃ name ∈ verbWords names, nameAccepts name word

@[simp] theorem letters_nil : letters [] = [] := rfl

/-- The test on what is left of the name and the word when the inner loop ends. -/
def matched (v w : Str) (star : Star) : Prop :=
  if w.isEmpty then star ≠ .none ∨ v.isEmpty ∨ v.head? = some ' ' else star = .ending

def nameEnd : Str → Prop
  | [] => True
  | c :: _ => c = ' '

/-- `nameAccepts` for what is left of a name after the stars that `star` tells of. -/
def restAccepts (star : Star) (name word : Str) : Prop :=
  nameAccepts name word ∨ (star ≠ .none ∧ lowered word <+: letters name) ∨
    (star = .ending ∧ letters name <+: lowered word)

theorem nameAccepts_nil (w : Str) : nameAccepts [] w ↔ w = [] := by
  simp [nameAccepts, lowered]

theorem nameAccepts_star (n w : Str) :
    nameAccepts ('*' :: n) w ↔ restAccepts (if n = [] then .ending else .inner) n w := by
  unfold restAccepts nameAccepts
  simp only [letters_star]
  constructor
  · rintro (h | ⟨before, after, hname, hlow, hhigh⟩ | ⟨before, hname, hlow⟩)
    · exact .inl (.inl h)
    · exact .inr (.inl ⟨by split <;> simp, hhigh⟩)
    · cases before with
      | nil =>
          obtain rfl : n = [] := by simpa using hname
          exact .inr (.inr ⟨by simp, by simp⟩)
      | cons c before =>
          obtain ⟨rfl, rfl⟩ : '*' = c ∧ n = before ++ ['*'] := by simpa using hname
          exact .inl (.inr (.inr ⟨before, rfl, by simpa [letters_star] using hlow⟩))
  · rintro ((h | ⟨before, after, rfl, hlow, hhigh⟩ | ⟨before, rfl, hlow⟩) | ⟨-, hhigh⟩ | ⟨hend, hlow⟩)
    · exact .inl h
    · exact .inr (.inl ⟨'*' :: before, after, rfl, by rwa [letters_star], hhigh⟩)
    · exact .inr (.inr ⟨'*' :: before, rfl, by rwa [letters_star]⟩)
    · exact .inr (.inl ⟨[], n, rfl, by simp, hhigh⟩)
    · obtain rfl : n = [] := by
        by_contra hn
        simp [hn] at hend
      exact .inr (.inr ⟨[], rfl, by simp⟩)

theorem nameAccepts_letter {c x : Char} (hc : c ≠ '*') (n w : Str) :
    nameAccepts (c :: n) (x :: w) ↔ asciiTolower c = asciiTolower x ∧ nameAccepts n w := by
  have hlow : lowered (x :: w) = asciiTolower x :: lowered w := rfl
  unfold nameAccepts
  simp only [letters_cons, hc, if_false, hlow, List.cons.injEq]
  constructor
  · rintro (⟨hx, h⟩ | ⟨before, after, hname, hl, hh⟩ | ⟨before, hname, hl⟩)
    · exact ⟨hx, .inl h⟩
    · cases before with
      | nil => simp [hc] at hname
      | cons b before =>
          obtain ⟨rfl, rfl⟩ : c = b ∧ n = before ++ '*' :: after := by simpa using hname
          simp only [letters_cons, hc, if_false, List.cons_prefix_cons] at hl hh
          exact ⟨hl.1, .inr (.inl ⟨before, after, rfl, hl.2, hh.2⟩)⟩
    · cases before with
      | nil => simp [hc] at hname
      | cons b before =>
          obtain ⟨rfl, rfl⟩ : c = b ∧ n = before ++ ['*'] := by simpa using hname
          simp only [letters_cons, hc, if_false, List.cons_prefix_cons] at hl
          exact ⟨hl.1, .inr (.inr ⟨before, rfl, hl.2⟩)⟩
  · rintro ⟨hx, h | ⟨before, after, rfl, hl, hh⟩ | ⟨before, rfl, hl⟩⟩
    · exact .inl ⟨hx, h⟩
    · refine .inr (.inl ⟨c :: before, after, rfl, ?_, ?_⟩)
      · rw [letters_cons, if_neg hc, List.cons_prefix_cons]
        exact ⟨hx, hl⟩
      · rw [List.cons_prefix_cons]
        exact ⟨hx.symm, hh⟩
    · refine .inr (.inr ⟨c :: before, rfl, ?_⟩)
      rw [letters_cons, if_neg hc, List.cons_prefix_cons]
      exact ⟨hx, hl⟩

theorem not_nameAccepts_empty {c : Char} (hc : c ≠ '*') (n : Str) : ¬ nameAccepts (c :: n) [] := by
  unfold nameAccepts
  rintro (h | ⟨before, after, hname, hl, -⟩ | ⟨before, hname, hl⟩)
  · simp [letters_cons, hc, lowered] at h
  all_goals
    cases before with
    | nil => simp [hc] at hname
    | cons b before =>
        obtain ⟨rfl, -⟩ := List.cons.inj hname
        simp [letters_cons, hc, lowered] at hl

theorem matched_end (hrest : nameEnd rest) : matched rest w star ↔ restAccepts star [] w := by
  have hhead : rest = [] ∨ rest.head? = some ' ' := by
    cases rest with
    | nil => exact .inl rfl
    | cons c rest => exact .inr (congrArg some hrest)
  unfold matched restAccepts
  rw [nameAccepts_nil]
  cases w with
  | nil => simp [hhead]
  | cons x w => simp [lowered]

theorem matchVerbName_end (hrest : nameEnd rest) (w : Str) (star : Star) :
    matchVerbName rest w star = (rest, w, star) := by
  cases rest with
  | nil => rw [matchVerbName]
  | cons c rest =>
      obtain rfl : c = ' ' := hrest
      cases w <;> simp [matchVerbName]

theorem star_passed (hn : ' ' ∉ n) (hrest : nameEnd rest) :
    ((n ++ rest).isEmpty ∨ (n ++ rest).head? = some ' ') ↔ n = [] := by
  cases n with
  | nil =>
      cases rest with
      | nil => simp
      | cons c rest =>
          obtain rfl : c = ' ' := hrest
          simp
  | cons c n => simp_all [eq_comm]

theorem restAccepts_star (hstar : star ≠ .ending) (n w : Str) :
    restAccepts star ('*' :: n) w ↔ restAccepts (if n = [] then .ending else .inner) n w := by
  rw [restAccepts, nameAccepts_star, letters_star]
  constructor
  · rintro (h | ⟨-, h⟩ | ⟨h, -⟩)
    · exact h
    · exact .inr (.inl ⟨by split <;> simp, h⟩)
    · exact absurd h hstar
  · exact .inl

theorem restAccepts_letter {c x : Char} (hc : c ≠ '*') (hstar : star ≠ .ending) (n w : Str) :
    restAccepts star (c :: n) (x :: w) ↔ asciiTolower c = asciiTolower x ∧ restAccepts star n w := by
  have hlow : lowered (x :: w) = asciiTolower x :: lowered w := rfl
  simp only [restAccepts, nameAccepts_letter hc, letters_cons, hc, if_false, hlow,
    List.cons_prefix_cons, hstar, false_and, or_false]
  constructor
  · rintro (⟨hx, h⟩ | ⟨h, hx, hp⟩)
    · exact ⟨hx, .inl h⟩
    · exact ⟨hx.symm, .inr ⟨h, hp⟩⟩
  · rintro ⟨hx, h | ⟨h, hp⟩⟩
    · exact .inl ⟨hx, h⟩
    · exact .inr ⟨h, hx.symm, hp⟩

theorem restAccepts_empty {c : Char} (hc : c ≠ '*') (hstar : star ≠ .ending) (n : Str) :
    restAccepts star (c :: n) [] ↔ star ≠ .none := by
  simp [restAccepts, not_nameAccepts_empty hc, hstar, lowered]

/-- The inner loop of `verbcasecmp` on one name. It stops inside the name or at its end,
and what it has seen tells whether the name stands for the word. -/
theorem matchVerbName_spec (hn : ' ' ∉ n) (hrest : nameEnd rest) (hstar : star = .ending → n = []) :
    ∃ left, left <:+ n ∧ (matchVerbName (n ++ rest) w star).1 = left ++ rest ∧
      (matched (left ++ rest) (matchVerbName (n ++ rest) w star).2.1
        (matchVerbName (n ++ rest) w star).2.2 ↔ restAccepts star n w) := by
  induction n generalizing w star with
  | nil =>
      rw [List.nil_append, matchVerbName_end hrest]
      exact ⟨[], List.suffix_rfl, rfl, matched_end hrest⟩
  | cons c n ih =>
      obtain ⟨hc, hn'⟩ : c ≠ ' ' ∧ ' ' ∉ n := by simpa [eq_comm] using hn
      have hopen : star ≠ .ending := fun h => nomatch hstar h
      by_cases hmark : c = '*'
      · subst hmark
        obtain ⟨left, hleft, hv, hmatched⟩ :=
          @ih w (if n = [] then .ending else .inner) hn' (by split <;> simp_all)
        have hloop : matchVerbName ('*' :: n ++ rest) w star =
            matchVerbName (n ++ rest) w (if n = [] then .ending else .inner) := by
          simp only [List.cons_append, matchVerbName, Bool.or_eq_true, beq_iff_eq, star_passed hn' hrest]
        refine ⟨left, hleft.trans (List.suffix_cons ..), by rw [hloop, hv], ?_⟩
        rw [hloop, hmatched, restAccepts_star hopen]
      · have hstays : ∀ w : Str, matched (c :: n ++ rest) w star ↔ w = [] ∧ star ≠ .none := by
          intro w
          cases w <;> simp [matched, hc, hopen]
        cases w with
        | nil =>
            have hloop : matchVerbName (c :: n ++ rest) [] star = (c :: n ++ rest, [], star) := by
              simp [matchVerbName]
            refine ⟨c :: n, List.suffix_rfl, by rw [hloop], ?_⟩
            rw [hloop, hstays, restAccepts_empty hmark hopen]
            simp
        | cons x w =>
            by_cases hx : asciiTolower x = asciiTolower c
            · have hloop : matchVerbName (c :: n ++ rest) (x :: w) star =
                  matchVerbName (n ++ rest) w star := by
                simp [matchVerbName, hc, hx]
              obtain ⟨left, hleft, hv, hmatched⟩ := ih (w := w) hn' fun h => absurd h hopen
              refine ⟨left, hleft.trans (List.suffix_cons ..), by rw [hloop, hv], ?_⟩
              rw [hloop, hmatched, restAccepts_letter hmark hopen]
              simp [hx]
            · have hloop : matchVerbName (c :: n ++ rest) (x :: w) star =
                  (c :: n ++ rest, x :: w, star) := by
                simp [matchVerbName, hx]
              refine ⟨c :: n, List.suffix_rfl, by rw [hloop], ?_⟩
              rw [hloop, hstays, restAccepts_letter hmark hopen]
              simp [Ne.symm hx]

/-! The names of a verb, one by one. -/

theorem verbWords_blank (s : Str) : verbWords (' ' :: s) = verbWords s := by
  simp [verbWords, List.splitOn, List.splitOnP_cons_eq_if_modifyHead]

theorem head_dropWhile (t : Str) : (t.dropWhile (· = ' ')).head? ≠ some ' ' := by
  intro h
  have := List.head?_dropWhile_not (fun c => decide (c = ' ')) t
  rw [h] at this
  simp at this

theorem verbWords_blanks (s : Str) : verbWords (s.dropWhile (· = ' ')) = verbWords s := by
  induction s with
  | nil => rfl
  | cons c s ih =>
      by_cases hc : c = ' '
      · subst hc
        rw [verbWords_blank, ← ih]
        simp
      · simp [hc]

theorem verbWords_name (hn : ' ' ∉ n) (hne : n ≠ []) (hrest : nameEnd rest) :
    verbWords (n ++ rest) = n :: verbWords rest := by
  cases rest with
  | nil =>
      rw [List.append_nil, verbWords, List.splitOn_eq_singleton hn]
      simp [hne, verbWords]
  | cons c rest =>
      obtain rfl : c = ' ' := hrest
      rw [verbWords_blank, verbWords, List.splitOn,
        List.splitOnP_append_cons_of_forall_mem (fun x hx => by
          simp only [beq_eq_false_iff_ne]
          exact fun h => hn (h ▸ hx)) ' ' (by simp)]
      simp [hne, verbWords, List.splitOn]

/-- A list of names begins with a name, which is empty where the list begins with a blank. -/
theorem exists_name (s : Str) : ∃ n rest, s = n ++ rest ∧ ' ' ∉ n ∧ nameEnd rest := by
  refine ⟨s.takeWhile (· ≠ ' '), s.dropWhile (· ≠ ' '), List.takeWhile_append_dropWhile.symm, ?_, ?_⟩
  · intro h
    simpa using List.all_eq_true.mp (List.all_takeWhile (p := (· ≠ ' ')) (l := s)) ' ' h
  · cases hd : s.dropWhile (· ≠ ' ') with
    | nil => trivial
    | cons c rest =>
        have := List.head?_dropWhile_not (· ≠ ' ') s
        rw [hd] at this
        simpa [nameEnd] using this

theorem dropWhile_name (hn : ' ' ∉ n) (hrest : nameEnd rest) :
    (n ++ rest).dropWhile (· ≠ ' ') = rest := by
  induction n with
  | nil =>
      cases rest with
      | nil => rfl
      | cons c rest =>
          obtain rfl : c = ' ' := hrest
          rfl
  | cons c n ih =>
      obtain ⟨hc, hn⟩ : c ≠ ' ' ∧ ' ' ∉ n := by simpa [eq_comm] using hn
      rw [List.cons_append, List.dropWhile_cons_of_pos (by simpa using hc), ih hn]

theorem verbcasecmpFrom_succ (fuel : Nat) (verb word : Str) :
    verbcasecmpFrom (fuel + 1) verb word = true ↔ verb ≠ [] ∧
      (matched (matchVerbName verb word .none).1 (matchVerbName verb word .none).2.1
        (matchVerbName verb word .none).2.2 ∨
      verbcasecmpFrom fuel
        (((matchVerbName verb word .none).1.dropWhile (· ≠ ' ')).dropWhile (· = ' ')) word = true) := by
  rw [verbcasecmpFrom]
  cases verb with
  | nil => simp
  | cons c verb =>
      simp only [List.isEmpty_cons, Bool.false_eq_true, if_false, ne_eq, reduceCtorEq,
        not_false_eq_true, true_and]
      unfold matched
      split_ifs <;> simp_all

theorem verbcasecmpFrom_iff {fuel : Nat} (hfuel : v.length < fuel) (hfirst : v.head? ≠ some ' ') :
    verbcasecmpFrom fuel v w = true ↔ namesAccept v w := by
  induction fuel generalizing v with
  | zero => omega
  | succ fuel ih =>
      rw [verbcasecmpFrom_succ]
      obtain ⟨n, rest, rfl, hn, hrest⟩ := exists_name v
      cases n with
      | nil =>
          cases rest with
          | nil => simp [namesAccept, verbWords]
          | cons c rest =>
              obtain rfl : c = ' ' := hrest
              exact absurd rfl hfirst
      | cons c n =>
          obtain ⟨left, hleft, hv, hmatched⟩ :=
            @matchVerbName_spec _ w _ .none hn hrest (by intros; contradiction)
          have hleft' : ' ' ∉ left := fun h => hn (hleft.mem h)
          have hlen : (rest.dropWhile (· = ' ')).length ≤ rest.length :=
            (List.dropWhile_suffix _).length_le
          have hhead := head_dropWhile rest
          rw [hv, hmatched, dropWhile_name hleft' hrest,
            ih (by simp only [List.cons_append, List.length_cons, List.length_append] at hfuel; omega) hhead,
            namesAccept, namesAccept, verbWords_blanks, verbWords_name hn (by simp) hrest,
            List.exists_mem_cons_iff]
          simp [restAccepts]

/-- What `verbcasecmp` makes of the two strings' contents: a list of names that begins
with a blank also stands for the empty word. -/
theorem verbcasecmp_iff (verb word : Str) :
    verbcasecmp verb word = true ↔ namesAccept verb word ∨ (verb.head? = some ' ' ∧ word = []) := by
  unfold verbcasecmp
  by_cases hfirst : verb.head? = some ' '
  · obtain ⟨rest, rfl⟩ : ∃ rest, verb = ' ' :: rest := by
      cases verb <;> simp_all
    have hlen : (rest.dropWhile (· = ' ')).length ≤ rest.length := (List.dropWhile_suffix _).length_le
    have hhead := head_dropWhile (' ' :: rest)
    have hloop := @matchVerbName_end (' ' :: rest) rfl word .none
    have hmatched : matched (' ' :: rest) word .none ↔ word = [] := by
      cases word <;> simp [matched]
    rw [verbcasecmpFrom_succ, hloop, hmatched]
    simp only [ne_eq, reduceCtorEq, not_false_eq_true, true_and, List.head?_cons]
    rw [List.dropWhile_cons_of_neg (by simp), verbcasecmpFrom_iff (by simp; omega) hhead, namesAccept,
      verbWords_blanks, Or.comm]
    rfl
  · rw [verbcasecmpFrom_iff (by omega) hfirst]
    simp [hfirst]

/-! The same on the strings as they lie in memory, character by character. -/

def nul : Char := '\x00'

/-- `s[i]` of a C string: its characters and then a NUL; none beyond. -/
def charAt (s : Str) (i : Nat) : Option Char := (s ++ [nul])[i]?

def skipStars (verb : Str) : Nat → Nat → Star → Option (Nat × Star)
  | 0, _, _ => none
  | fuel + 1, v, star => do
      if (← charAt verb v) = '*' then
        let c ← charAt verb (v + 1)
        skipStars verb fuel (v + 1) (if c = nul ∨ c = ' ' then .ending else .inner)
      else return (v, star)

def matchAt (verb word : Str) : Nat → Nat → Nat → Star → Option (Nat × Nat × Star)
  | 0, _, _, _ => none
  | fuel + 1, v, w, star => do
      let (v, star) ← skipStars verb fuel v star
      let c ← charAt verb v
      if c = nul ∨ c = ' ' then return (v, w, star)
      let x ← charAt word w
      if x = nul ∨ asciiTolower x ≠ asciiTolower c then return (v, w, star)
      matchAt verb word fuel (v + 1) (w + 1) star

def skipWhile (s : Str) (p : Char → Bool) : Nat → Nat → Option Nat
  | 0, _ => none
  | fuel + 1, i => do
      if p (← charAt s i) then skipWhile s p fuel (i + 1) else return i

def verbcasecmpRounds (verb word : Str) : Nat → Nat → Option Bool
  | 0, _ => none
  | fuel + 1, v => do
      if (← charAt verb v) = nul then return false
      let (v, w, star) ← matchAt verb word fuel v 0 .none
      let c ← charAt verb v
      let x ← charAt word w
      if (if x = nul then star ≠ .none ∨ c = nul ∨ c = ' ' else star = .ending) then return true
      let v ← skipWhile verb (fun c => c ≠ nul ∧ c ≠ ' ') fuel v
      let v ← skipWhile verb (· = ' ') fuel v
      verbcasecmpRounds verb word fuel v

/-- `verbcasecmp(verb, word)` of two addresses; none would be a read beyond the end of one
of the strings. No loop takes more rounds than there are characters. -/
def verbcasecmpAt (mem : Nat → CStr) (verb word : Nat) : Option Bool :=
  if verb = word then some true
  else verbcasecmpRounds (mem verb) (mem word) (2 * (mem verb).val.length + 4) 0

theorem charAt_nil {s : Str} {i : Nat} (h : s.drop i = []) (hi : i ≤ s.length) : charAt s i = some nul := by
  have hlen : s.length ≤ i := List.drop_eq_nil_iff.mp h
  obtain rfl : i = s.length := by omega
  simp [charAt]

theorem charAt_cons {s t : Str} {i : Nat} {c : Char} (h : s.drop i = c :: t) : charAt s i = some c := by
  have hi : i < s.length := by
    by_contra hi
    rw [List.drop_eq_nil_of_le (by omega)] at h
    cases h
  rw [charAt, List.getElem?_append_left hi, ← List.head?_drop, h]
  rfl

theorem drop_succ {s t : Str} {i : Nat} {c : Char} (h : s.drop i = c :: t) :
    s.drop (i + 1) = t ∧ i + 1 ≤ s.length := by
  constructor
  · rw [← List.drop_drop, h]
    rfl
  · have := congrArg List.length h
    simp only [List.length_drop, List.length_cons] at this
    omega

theorem ne_nul {s t : Str} {i : Nat} {c : Char} (hs : Terminated s) (h : s.drop i = c :: t) : c ≠ nul := by
  rintro rfl
  exact hs (List.mem_of_mem_drop (h ▸ List.mem_cons_self))

theorem charAt_isSome {s : Str} {i : Nat} (hi : i ≤ s.length) :
    charAt s i = some ((s.drop i).head?.getD nul) := by
  cases h : s.drop i with
  | nil => exact charAt_nil h hi
  | cons c t => exact charAt_cons h

theorem skipStars_spec {verb : Str} (hs : Terminated verb) {fuel v : Nat} {star : Star}
    (hv : v ≤ verb.length) (hfuel : (verb.drop v).length < fuel) (W : Str) :
    ∃ v' star', skipStars verb fuel v star = some (v', star') ∧ v ≤ v' ∧ v' ≤ verb.length ∧
      (verb.drop v').head? ≠ some '*' ∧
      matchVerbName (verb.drop v) W star = matchVerbName (verb.drop v') W star' := by
  induction fuel generalizing v star with
  | zero => omega
  | succ fuel ih =>
      cases h : verb.drop v with
      | nil =>
          refine ⟨v, star, ?_, Nat.le_refl _, hv, by simp [h], by rw [h]⟩
          simp [skipStars, charAt_nil h hv, nul]
      | cons c t =>
          by_cases hc : c = '*'
          · subst hc
            obtain ⟨ht, hv'⟩ := drop_succ h
            rw [h, List.length_cons] at hfuel
            obtain ⟨v', star', hskip, hle, hlen, hhead, hmatch⟩ :=
              @ih (v + 1) (if t.isEmpty ∨ t.head? = some ' ' then .ending else .inner) hv' (by rw [ht]; omega)
            have hnext : (t.head?.getD nul = nul ∨ t.head?.getD nul = ' ') ↔
                (t.isEmpty = true ∨ t.head? = some ' ') := by
              cases ht' : t with
              | nil => simp
              | cons d u =>
                  have := ne_nul hs (ht.trans ht')
                  simp [this]
            refine ⟨v', star', ?_, by omega, hlen, hhead, ?_⟩
            · rw [skipStars]
              simp only [charAt_cons h, charAt_isSome hv', ht, Option.bind_eq_bind, Option.bind_some,
                if_true, hnext]
              exact hskip
            · rw [← hmatch, ht, matchVerbName]
              simp
          · refine ⟨v, star, ?_, Nat.le_refl _, hv, by simp [h, hc], by rw [h]⟩
            simp [skipStars, charAt_cons h, hc]

theorem matchAt_spec {verb word : Str} (hs : Terminated verb) (hword : Terminated word) {fuel v w : Nat}
    {star : Star} (hv : v ≤ verb.length) (hw : w ≤ word.length)
    (hfuel : (verb.drop v).length + 1 < fuel) :
    ∃ v' w' star', matchAt verb word fuel v w star = some (v', w', star') ∧ v ≤ v' ∧
      v' ≤ verb.length ∧ w' ≤ word.length ∧
      matchVerbName (verb.drop v) (word.drop w) star = (verb.drop v', word.drop w', star') := by
  induction fuel generalizing v w star with
  | zero => omega
  | succ fuel ih =>
      obtain ⟨v₁, star₁, hskip, hle, hlen, hhead, hmatch⟩ :=
        @skipStars_spec verb hs fuel v star hv (by omega) (word.drop w)
      cases h : verb.drop v₁ with
      | nil =>
          refine ⟨v₁, w, star₁, ?_, hle, hlen, hw, by rw [hmatch, h, matchVerbName]⟩
          simp [matchAt, hskip, charAt_nil h hlen]
      | cons c t =>
          have hstar : c ≠ '*' := by simpa [h] using hhead
          have hc : c ≠ nul := ne_nul hs h
          by_cases hblank : c = ' '
          · subst hblank
            refine ⟨v₁, w, star₁, ?_, hle, hlen, hw, by rw [hmatch, h, @matchVerbName_end (' ' :: t) rfl]⟩
            simp [matchAt, hskip, charAt_cons h]
          · cases hx : word.drop w with
            | nil =>
                refine ⟨v₁, w, star₁, ?_, hle, hlen, hw, ?_⟩
                · simp [matchAt, hskip, charAt_cons h, charAt_nil hx hw]
                · rw [hx] at hmatch
                  rw [hmatch, h, hx]
                  simp [matchVerbName]
            | cons x u =>
                have hx₀ : x ≠ nul := ne_nul hword hx
                obtain ⟨ht, hv₂⟩ := drop_succ h
                obtain ⟨hu, hw₂⟩ := drop_succ hx
                rw [hx, h] at hmatch
                by_cases heq : asciiTolower x = asciiTolower c
                · have hless : (verb.drop (v₁ + 1)).length + 1 < fuel := by
                    simp only [List.length_drop] at hfuel ⊢
                    omega
                  obtain ⟨v', w', star', hloop, hle', hlen', hlenw, hmatch'⟩ :=
                    @ih _ _ star₁ hv₂ hw₂ hless
                  refine ⟨v', w', star', ?_, by omega, hlen', hlenw, ?_⟩
                  · rw [← hloop]
                    simp [matchAt, hskip, charAt_cons h, hc, hblank, charAt_cons hx, hx₀, heq]
                  · rw [← hmatch', hmatch, ht, hu]
                    simp [matchVerbName, hblank, heq]
                · refine ⟨v₁, w, star₁, ?_, hle, hlen, hw, ?_⟩
                  · simp [matchAt, hskip, charAt_cons h, hc, hblank, charAt_cons hx, hx₀, heq]
                  · rw [hmatch, hx, h]
                    simp [matchVerbName, heq]

theorem skipWhile_spec {s : Str} (p : Char → Bool) (hnul : p nul = false) {fuel i : Nat} (hi : i ≤ s.length)
    (hfuel : (s.drop i).length < fuel) :
    ∃ i', skipWhile s p fuel i = some i' ∧ i ≤ i' ∧ i' ≤ s.length ∧ s.drop i' = (s.drop i).dropWhile p := by
  induction fuel generalizing i with
  | zero => omega
  | succ fuel ih =>
      cases h : s.drop i with
      | nil => exact ⟨i, by simp [skipWhile, charAt_nil h hi, hnul], Nat.le_refl _, hi, by simp [h]⟩
      | cons c t =>
          by_cases hc : p c = true
          · obtain ⟨ht, hi'⟩ := drop_succ h
            rw [h, List.length_cons] at hfuel
            obtain ⟨i', hskip, hle, hlen, hdrop⟩ := ih hi' (by rw [ht]; omega)
            refine ⟨i', ?_, by omega, hlen, ?_⟩
            · simp [skipWhile, charAt_cons h, hc, hskip]
            · rw [hdrop, ht, List.dropWhile_cons_of_pos hc]
          · refine ⟨i, ?_, Nat.le_refl _, hi, ?_⟩
            · simp [skipWhile, charAt_cons h, hc]
            · rw [h, List.dropWhile_cons_of_neg hc]

theorem dropWhile_ne_nul {s : Str} (hs : Terminated s) :
    s.dropWhile (fun c => c ≠ nul ∧ c ≠ ' ') = s.dropWhile (· ≠ ' ') := by
  induction s with
  | nil => rfl
  | cons c s ih =>
      obtain ⟨hc, hs⟩ : c ≠ nul ∧ Terminated s := by simpa [Terminated, nul, eq_comm] using hs
      by_cases hblank : c = ' '
      · simp [hblank]
      · rw [List.dropWhile_cons_of_pos (by simp [hc, hblank]), List.dropWhile_cons_of_pos (by simp [hblank]),
          ih hs]

theorem Terminated.drop {s : Str} (hs : Terminated s) (i : Nat) : Terminated (s.drop i) :=
  fun h => hs (List.mem_of_mem_drop h)

theorem head_eq_nul {t : Str} (ht : Terminated t) : t.head?.getD nul = nul ↔ t.isEmpty = true := by
  cases t with
  | nil => simp
  | cons c t =>
      have : c ≠ nul := fun h => ht (h ▸ List.mem_cons_self)
      simpa using this

theorem head_eq_blank (t : Str) : t.head?.getD nul = ' ' ↔ t.head? = some ' ' := by
  cases t <;> simp [nul]

theorem length_nextName_lt (c : Char) (t : Str) :
    (((c :: t).dropWhile (· ≠ ' ')).dropWhile (· = ' ')).length < (c :: t).length := by
  have hshorter : ∀ (p : Char → Bool) (s : Str), (s.dropWhile p).length ≤ s.length :=
    fun p s => (List.dropWhile_suffix p).length_le
  by_cases hc : c = ' '
  · rw [List.dropWhile_cons_of_neg (by simpa using hc), List.dropWhile_cons_of_pos (by simpa using hc)]
    exact Nat.lt_succ_of_le (hshorter _ t)
  · rw [List.dropWhile_cons_of_pos (by simpa using hc)]
    exact Nat.lt_succ_of_le (Nat.le_trans (hshorter _ _) (hshorter _ t))

theorem verbcasecmpRounds_spec {verb word : Str} (hs : Terminated verb) (hword : Terminated word)
    {fuel k v : Nat} (hv : v ≤ verb.length) (hk : (verb.drop v).length < k)
    (hfuel : (verb.drop v).length + verb.length + 3 < fuel) :
    verbcasecmpRounds verb word fuel v = some (verbcasecmpFrom k (verb.drop v) word) := by
  induction fuel generalizing k v with
  | zero => omega
  | succ fuel ih =>
      obtain _ | k := k
      · omega
      have hlen₀ : (verb.drop v).length ≤ verb.length := (List.drop_suffix v verb).length_le
      cases h : verb.drop v with
      | nil => simp [verbcasecmpRounds, charAt_nil h hv, verbcasecmpFrom]
      | cons c t =>
          obtain ⟨v₁, w₁, star₁, hmatch, hle₁, hlen₁, hlenw, heq⟩ :=
            @matchAt_spec verb word hs hword fuel v 0 .none hv (Nat.zero_le _) (by omega)
          obtain ⟨v₂, hname, -, hlen₂, hdrop₂⟩ :=
            @skipWhile_spec verb (fun c => c ≠ nul ∧ c ≠ ' ') (by simp) fuel v₁ hlen₁
              (by simp only [List.length_drop] at hfuel ⊢; omega)
          obtain ⟨v₃, hblanks, -, hlen₃, hdrop₃⟩ :=
            @skipWhile_spec verb (· = ' ') (by decide) fuel v₂ hlen₂
              (by simp only [List.length_drop] at hfuel ⊢; omega)
          rw [dropWhile_ne_nul (hs.drop v₁)] at hdrop₂
          rw [hdrop₂] at hdrop₃
          rw [List.drop_zero, h] at heq
          have hshort : (verb.drop v₃).length < (verb.drop v).length := by
            have hnext : ∀ i, v ≤ i → i ≤ verb.length →
                (((verb.drop i).dropWhile (· ≠ ' ')).dropWhile (· = ' ')).length < (verb.drop v).length := by
              intro i hi hilen
              cases hi' : verb.drop i with
              | nil => simp [h]
              | cons d u =>
                  refine Nat.lt_of_lt_of_le (length_nextName_lt d u) ?_
                  rw [← hi', List.length_drop, List.length_drop]
                  omega
            rw [hdrop₃]
            exact hnext v₁ hle₁ hlen₁
          have hrest := ih (k := k) hlen₃ (by omega) (by omega)
          have hne := ne_nul hs h
          simp only [verbcasecmpRounds, charAt_cons h, Option.bind_eq_bind, Option.bind_some, hne, if_false,
            hmatch, charAt_isSome hlen₁, charAt_isSome hlenw, head_eq_nul (hs.drop v₁),
            head_eq_nul (hword.drop w₁), head_eq_blank, hname, hblanks, hrest]
          simp only [verbcasecmpFrom, List.isEmpty_cons, Bool.false_eq_true, if_false, heq, hdrop₃]
          split_ifs <;> rfl

theorem verbcasecmpAt_eq (mem : Nat → CStr) (verb word : Nat) :
    verbcasecmpAt mem verb word =
      some (decide (verb = word) || verbcasecmp (mem verb) (mem word)) := by
  unfold verbcasecmpAt
  split_ifs with h
  · simp [h]
  · rw [verbcasecmpRounds_spec (mem verb).2 (mem word).2 (Nat.zero_le _) (Nat.lt_succ_self _)
      (by rw [List.drop_zero]; omega)]
    simp [h, verbcasecmp]

/-! Where that is what the names stand for. -/

theorem mem_verbWords {s name : Str} (h : name ∈ verbWords s) : name ≠ [] ∧ ' ' ∉ name ∧ name <:+: s := by
  induction hlen : s.length using Nat.strongRecOn generalizing s with
  | ind len ih =>
      obtain ⟨n, rest, rfl, hn, hrest⟩ := exists_name s
      have hafter : name ∈ verbWords rest → name ≠ [] ∧ ' ' ∉ name ∧ name <:+: n ++ rest := by
        intro h
        cases rest with
        | nil => simp [verbWords] at h
        | cons c rest =>
            obtain rfl : c = ' ' := hrest
            rw [verbWords_blank] at h
            have hshort : rest.length < len := by
              rw [← hlen, List.length_append, List.length_cons]
              omega
            obtain ⟨hne, hblank, hin⟩ := ih rest.length hshort h rfl
            exact ⟨hne, hblank, hin.trans ((List.suffix_cons ..).trans (List.suffix_append ..)).isInfix⟩
      by_cases hne : n = []
      · subst hne
        exact hafter h
      · rw [verbWords_name hn hne hrest, List.mem_cons] at h
        obtain rfl | h := h
        · exact ⟨hne, hn, (List.prefix_append ..).isInfix⟩
        · exact hafter h

theorem length_letters (s : Str) : (letters s).length + s.count '*' = s.length := by
  induction s with
  | nil => rfl
  | cons c s ih =>
      by_cases hc : c = '*'
      · simp [letters_cons, hc, ← ih, Nat.add_assoc]
      · simp [letters_cons, hc, ← ih]
        omega

theorem letters_eq (h : '*' ∉ n) : letters n = lowered n := by
  rw [letters, List.filter_eq_self]
  intro c hc
  obtain ⟨d, hd, rfl⟩ := List.mem_map.mp hc
  have : d ≠ '*' := fun hd' => h (hd' ▸ hd)
  simpa using this

/-- A string that stands for itself: a single name without stars, or one of its names can
be continued to the whole of it. -/
def namesItself (s : Str) : Prop :=
  (s ≠ [] ∧ ' ' ∉ s ∧ '*' ∉ s) ∨
    ∃ before, before ++ ['*'] ∈ verbWords s ∧ letters before <+: lowered s

theorem namesAccept_self (s : Str) : namesAccept s s ↔ namesItself s := by
  have hlower : (lowered s).length = s.length := List.length_map ..
  constructor
  · rintro ⟨name, hmem, h | ⟨before, after, rfl, -, hhigh⟩ | ⟨before, rfl, hlow⟩⟩
    · obtain ⟨hne, hblank, hin⟩ := mem_verbWords hmem
      have hcount := length_letters name
      rw [h, hlower] at hcount
      have hle := hin.length_le
      obtain rfl := hin.eq_of_length (by omega)
      exact .inl ⟨hne, hblank, List.count_eq_zero.mp (by omega)⟩
    · obtain ⟨-, -, hin⟩ := mem_verbWords hmem
      have hcount := length_letters (before ++ '*' :: after)
      have hle := hin.length_le
      have hhigh := hhigh.length_le
      have hpos : 0 < (before ++ '*' :: after).count '*' := List.count_pos_iff.mpr (by simp)
      omega
    · exact .inr ⟨before, hmem, hlow⟩
  · rintro (⟨hne, hblank, hstar⟩ | ⟨before, hmem, hlow⟩)
    · refine ⟨s, ?_, .inl (letters_eq hstar)⟩
      have := @verbWords_name _ [] hblank hne trivial
      rw [List.append_nil] at this
      simp [this]
    · exact ⟨_, hmem, .inr (.inr ⟨before, rfl, hlow⟩)⟩

theorem namesAccept_empty (s : Str) :
    namesAccept s [] ↔ ∃ name ∈ verbWords s, name.head? = some '*' := by
  refine exists_congr fun name => and_congr_right fun hmem => ?_
  obtain ⟨hne, -, -⟩ := mem_verbWords hmem
  cases name with
  | nil => exact absurd rfl hne
  | cons c name =>
      by_cases hc : c = '*'
      · subst hc
        exact ⟨fun _ => rfl, fun _ => .inr (.inl ⟨[], name, rfl, by simp, by simp [lowered]⟩)⟩
      · simp [not_nameAccepts_empty hc, hc]

/-- `verbcasecmp` tells the words that the names stand for, except that a string is taken
to stand for itself wherever it is at one address, and that a blank before the first name
makes the list stand for the empty word. -/
theorem verbcasecmpAt_iff (mem : Nat → CStr) (verb word : Nat) :
    (∃ r, verbcasecmpAt mem verb word = some r ∧ (r = true ↔ namesAccept (mem verb) (mem word))) ↔
      (verb = word → namesItself (mem verb)) ∧
      ((mem verb).val.head? = some ' ' → (mem word).val = [] →
        ∃ name ∈ verbWords (mem verb), name.head? = some '*') := by
  rw [← namesAccept_self, ← namesAccept_empty]
  constructor
  · rintro ⟨r, hr, hiff⟩
    rw [verbcasecmpAt_eq, Option.some.injEq] at hr
    subst hr
    rw [Bool.or_eq_true, decide_eq_true_eq, verbcasecmp_iff] at hiff
    refine ⟨?_, fun hfirst hempty => hempty ▸ hiff.mp (.inr (.inr ⟨hfirst, hempty⟩))⟩
    rintro rfl
    exact hiff.mp (.inl rfl)
  · rintro ⟨hself, hempty⟩
    refine ⟨_, verbcasecmpAt_eq mem verb word, ?_⟩
    rw [Bool.or_eq_true, decide_eq_true_eq, verbcasecmp_iff]
    constructor
    · rintro (rfl | h | ⟨hfirst, hword⟩)
      · exact hself rfl
      · exact h
      · exact hword ▸ hempty hfirst hword
    · exact fun h => .inr (.inl h)

/-- Two names in one string: it does not stand for itself. -/
theorem verbcasecmpAt_not_exact :
    ¬ ∃ r, verbcasecmpAt (fun _ => ⟨"foo bar".toList, by decide⟩) 0 0 = some r ∧
      (r = true ↔ namesAccept "foo bar".toList "foo bar".toList) := by
  rintro ⟨r, hr, hiff⟩
  have hcmp := verbcasecmp_iff "foo bar".toList "foo bar".toList
  have hfalse : verbcasecmp "foo bar".toList "foo bar".toList = false := by decide
  rw [verbcasecmpAt_eq, Option.some.injEq] at hr
  have haccept := hiff.mp (hr ▸ rfl)
  rw [hcmp.mpr (.inl haccept)] at hfalse
  cases hfalse

end LambdaMoo
