import LambdaMoo.CommandWords

/-! Which phrase of a preposition is found in the words of a command. -/
namespace LambdaMoo

variable {argv : List Str} {i : Nat} {words : List Str}

theorem prepTable_words : ∀ p ∈ prepList, ∀ cprep ∈ p.splitOn '/', parseIntoWords cprep = .ok (cprep.splitOn ' ') := by
  decide +kernel

/-- The words of a phrase stand in the command from a place on, whatever their case. -/
def PhraseAt (argv : List Str) (i : Nat) (words : List Str) : Prop :=
  words.map lowered <+: (argv.drop i).map lowered

instance (argv : List Str) (i : Nat) (words : List Str) : Decidable (PhraseAt argv i words) :=
  inferInstanceAs (Decidable (_ <+: _))

def phrases : List (List Str) := prepTable.flatten

/-- No phrase stands before the place. -/
def NoneBefore (argv : List Str) (i : Nat) : Prop :=
  ∀ i' < i, ∀ words ∈ phrases, ¬ PhraseAt argv i' words

/-- What is to be found: the longest phrase at the first place where there is one. -/
def FoundRight (argv : List Str) : Option (Nat × Nat × Nat) → Prop
  | none => ∀ i, ∀ words ∈ phrases, ¬ PhraseAt argv i words
  | some (j, first, last) =>
      (∃ aliases words, prepTable[j]? = some aliases ∧ words ∈ aliases ∧ PhraseAt argv first words ∧
        last + 1 = first + words.length) ∧
      NoneBefore argv first ∧
      ∀ words ∈ phrases, PhraseAt argv first words → first + words.length ≤ last + 1

def off : List Str := [['o', 'f', 'f']]

def offOf : List Str := [['o', 'f', 'f'], ['o', 'f']]

theorem phrases_checked :
    (∀ words ∈ phrases, ∀ word ∈ words, Terminated word) ∧ [] ∉ phrases ∧ off ∈ phrases ∧ offOf ∈ phrases ∧
      (phrases.Pairwise fun words later => words.map lowered <+: later.map lowered → words = off ∧ later = offOf) ∧
      (∀ words ∈ phrases, offOf.map lowered <+: words.map lowered → words = offOf) ∧
      phrases.Pairwise fun words later => words = offOf → later ≠ off := by
  decide +kernel

theorem phrases_terminated : ∀ words ∈ phrases, ∀ word ∈ words, Terminated word := phrases_checked.1

theorem phrases_ne_nil : [] ∉ phrases := phrases_checked.2.1

theorem off_mem : off ∈ phrases := phrases_checked.2.2.1

theorem offOf_mem : offOf ∈ phrases := phrases_checked.2.2.2.1

/-- A phrase that begins with another one stands before it in the table, but for "off of". -/
theorem phrases_ordered : phrases.Pairwise fun words later =>
    words.map lowered <+: later.map lowered → words = off ∧ later = offOf := phrases_checked.2.2.2.2.1

theorem phrases_offOf : ∀ words ∈ phrases, offOf.map lowered <+: words.map lowered → words = offOf :=
  phrases_checked.2.2.2.2.2.1

theorem phrases_off_first : phrases.Pairwise fun words later => words = offOf → later ≠ off := phrases_checked.2.2.2.2.2.2

theorem zip_sameName_iff {args : List Str} (hargs : ∀ arg ∈ args, Terminated arg)
    (hwords : ∀ word ∈ words, Terminated word) :
    (words.length ≤ args.length ∧ ((args.zip words).all fun (arg, word) => sameName arg word) = true) ↔
      words.map lowered <+: args.map lowered := by
  induction words generalizing args with
  | nil => simp
  | cons word words ih =>
      cases args with
      | nil => simp
      | cons arg args =>
          obtain ⟨harg, hargs⟩ := List.forall_mem_cons.mp hargs
          obtain ⟨hword, hwords⟩ := List.forall_mem_cons.mp hwords
          have ih := ih hargs hwords
          rw [List.map_cons, List.map_cons, List.cons_prefix_cons, ← ih, List.zip_cons_cons, List.all_cons,
            Bool.and_eq_true, sameName_iff harg hword, List.length_cons, List.length_cons]
          constructor
          · rintro ⟨hlen, hsame, hall⟩
            exact ⟨hsame.symm, Nat.le_of_succ_le_succ hlen, hall⟩
          · rintro ⟨hsame, hlen, hall⟩
            exact ⟨Nat.succ_le_succ hlen, hsame.symm, hall⟩

theorem aliasAt_iff (hargv : ∀ arg ∈ argv, Terminated arg) (hi : i < argv.length) (hmem : words ∈ phrases) :
    aliasAt argv i words = true ↔ PhraseAt argv i words := by
  have hwords := phrases_terminated words hmem
  have hdrop : ∀ arg ∈ argv.drop i, Terminated arg := fun arg harg => hargv arg (List.mem_of_mem_drop harg)
  unfold aliasAt PhraseAt
  rw [← zip_sameName_iff hdrop hwords, Bool.and_eq_true, decide_eq_true_eq, List.length_drop]
  apply and_congr_left'
  omega

theorem PhraseAt.lt (h : PhraseAt argv i words) (hmem : words ∈ phrases) : i < argv.length := by
  by_contra hi
  unfold PhraseAt at h
  rw [List.drop_eq_nil_of_le (Nat.le_of_not_lt hi), List.map_nil, List.prefix_nil, List.map_eq_nil_iff] at h
  rw [h] at hmem
  exact phrases_ne_nil hmem

theorem prepAt_eq (argv : List Str) (i : Nat) : (prepAt argv i).map Prod.snd = phrases.find? (aliasAt argv i) := by
  have hfun : ((Option.map Prod.snd) ∘ fun (e : List (List Str) × Nat) =>
      (e.1.find? (aliasAt argv i)).map fun words => (e.2, words)) =
        (fun aliases : List (List Str) => aliases.find? (aliasAt argv i)) ∘ Prod.fst := by
    funext e
    dsimp only [Function.comp_apply]
    cases e.1.find? (aliasAt argv i) with
    | none => rfl
    | some words => rfl
  unfold prepAt phrases
  rw [List.find?_flatten, List.map_findSome?, hfun, ← List.findSome?_map, List.zipIdx_map_fst]

theorem prepAt_mem {j : Nat} (h : prepAt argv i = some (j, words)) :
    ∃ aliases, prepTable[j]? = some aliases ∧ words ∈ aliases := by
  obtain ⟨⟨aliases, j'⟩, hmem, hfind⟩ := List.exists_of_findSome?_eq_some h
  obtain ⟨words', hwords, hpair⟩ := Option.map_eq_some_iff.mp hfind
  cases hpair
  exact ⟨aliases, List.mem_zipIdx_iff_getElem?.mp hmem, List.mem_of_find?_eq_some hwords⟩

theorem prepAt_none_iff : prepAt argv i = none ↔ ∀ words ∈ phrases, ¬ aliasAt argv i words = true := by
  rw [← Option.map_eq_none_iff (f := Prod.snd), prepAt_eq, List.find?_eq_none]

theorem dbFindPrep_cases (hargv : ∀ arg ∈ argv, Terminated arg) :
    (dbFindPrep argv = none ∧ ∀ i, ∀ words ∈ phrases, ¬ PhraseAt argv i words) ∨
      ∃ j i words, dbFindPrep argv = some (j, i, i + words.length - 1) ∧ prepAt argv i = some (j, words) ∧
        i < argv.length ∧ NoneBefore argv i := by
  have hnone : ∀ i, (i < argv.length → prepAt argv i = none) → ∀ words ∈ phrases, ¬ PhraseAt argv i words := by
    intro i hat words hmem hphrase
    have hi := hphrase.lt hmem
    exact prepAt_none_iff.mp (hat hi) words hmem ((aliasAt_iff hargv hi hmem).mpr hphrase)
  cases hfound : dbFindPrep argv with
  | none =>
      left
      refine ⟨rfl, fun i => hnone i fun hi => ?_⟩
      have hi' := List.findSome?_eq_none_iff.mp hfound i (List.mem_range.mpr hi)
      exact Option.map_eq_none_iff.mp hi'
  | some found =>
      right
      obtain ⟨before, i, behind, hrange, hi, hbefore⟩ := List.findSome?_eq_some_iff.mp hfound
      obtain ⟨⟨j, words⟩, hat, rfl⟩ := Option.map_eq_some_iff.mp hi
      rw [List.range_eq_range', List.range'_eq_append_iff] at hrange
      obtain ⟨k, hk, rfl, hbehind⟩ := hrange
      obtain ⟨rfl, hlt, -⟩ := List.range'_eq_cons_iff.mp hbehind.symm
      refine ⟨j, 0 + k * 1, words, rfl, hat, by omega, ?_⟩
      intro i' hi'
      apply hnone
      intro _
      apply Option.map_eq_none_iff.mp
      apply hbefore
      rw [List.mem_range'_1]
      omega

theorem PhraseAt.prefix_of_length_le {later : List Str} (h : PhraseAt argv i words) (h' : PhraseAt argv i later)
    (hle : words.length ≤ later.length) : words.map lowered <+: later.map lowered := by
  apply List.prefix_of_prefix_length_le h h'
  rw [List.length_map, List.length_map]
  exact hle

/-- At one place, the phrase that is found is the longest, unless that is "off of". -/
theorem found_longest_iff (hargv : ∀ arg ∈ argv, Terminated arg) (hi : i < argv.length)
    (hfind : phrases.find? (aliasAt argv i) = some words) :
    (∀ later ∈ phrases, PhraseAt argv i later → later.length ≤ words.length) ↔ ¬ PhraseAt argv i offOf := by
  obtain ⟨hat, before, behind, htable, hbefore⟩ := List.find?_eq_some_iff_append.mp hfind
  have hmem : words ∈ phrases := List.mem_of_find?_eq_some hfind
  have hphrase : PhraseAt argv i words := (aliasAt_iff hargv hi hmem).mp hat
  have hnot : ∀ later ∈ before, ¬ PhraseAt argv i later := by
    intro later hlater
    have hin : later ∈ phrases := by
      rw [htable]
      exact List.mem_append_left _ hlater
    rw [← aliasAt_iff hargv hi hin]
    simpa using hbefore later hlater
  have hordered := phrases_ordered
  rw [htable, List.pairwise_append, List.pairwise_cons] at hordered
  obtain ⟨-, ⟨hordered, -⟩, -⟩ := hordered
  constructor
  · intro hlongest hoff
    -- the phrase found would have to be "off of", but then "off" stands before it and there
    have hpre := hoff.prefix_of_length_le hphrase (hlongest offOf offOf_mem hoff)
    have hwords := phrases_offOf words hmem hpre
    have hfirst := phrases_off_first
    rw [htable, List.pairwise_append, List.pairwise_cons] at hfirst
    obtain ⟨-, ⟨hfirst, -⟩, -⟩ := hfirst
    have hin := off_mem
    rw [htable, List.mem_append, List.mem_cons] at hin
    obtain hin | hin | hin := hin
    · apply hnot off hin
      exact List.IsPrefix.trans (by decide) hoff
    · exact absurd (hin.trans hwords) (by decide)
    · exact hfirst off hin hwords rfl
  · intro hoff later hlater hthere
    rw [htable, List.mem_append, List.mem_cons] at hlater
    obtain hlater | rfl | hlater := hlater
    · exact absurd hthere (hnot later hlater)
    · exact Nat.le_refl _
    · by_contra hlt
      have hpre := hphrase.prefix_of_length_le hthere (by omega)
      obtain ⟨-, rfl⟩ := hordered later hlater hpre
      exact hoff hthere

/-- In every command, what `db_find_prep` finds is the longest phrase at the first place where there is
one, just if that is not "off of". -/
theorem dbFindPrep_foundRight_iff (argv : List Str) (hargv : ∀ arg ∈ argv, Terminated arg) :
    FoundRight argv (dbFindPrep argv) ↔ ∀ i, NoneBefore argv i → ¬ PhraseAt argv i offOf := by
  obtain ⟨hfound, hnone⟩ | ⟨j, i, words, hfound, hat, hi, hbefore⟩ := dbFindPrep_cases hargv
  · rw [hfound]
    exact ⟨fun _ i _ => hnone i offOf offOf_mem, fun _ => hnone⟩
  · have hfind : phrases.find? (aliasAt argv i) = some words := by
      rw [← prepAt_eq, hat]
      rfl
    have hmem : words ∈ phrases := List.mem_of_find?_eq_some hfind
    have hphrase : PhraseAt argv i words := (aliasAt_iff hargv hi hmem).mp (List.find?_some hfind)
    have hpos : 0 < words.length := List.length_pos_iff.mpr fun h => phrases_ne_nil (h ▸ hmem)
    have hlast : i + words.length - 1 + 1 = i + words.length := by omega
    have hlongest := found_longest_iff hargv hi hfind
    rw [hfound]
    unfold FoundRight
    dsimp only
    rw [hlast]
    constructor
    · rintro ⟨-, -, hlong⟩ i' hbefore' hoff
      have hsame : i' = i := by
        by_contra hne
        obtain hlt | hgt := Nat.lt_or_gt_of_ne hne
        · exact hbefore i' hlt offOf offOf_mem hoff
        · exact hbefore' i hgt words hmem hphrase
      rw [hsame] at hoff
      refine hlongest.mp ?_ hoff
      intro later hlater hthere
      have := hlong later hlater hthere
      omega
    · intro h
      obtain ⟨aliases, hj, hin⟩ := prepAt_mem hat
      refine ⟨⟨aliases, words, hj, hin, hphrase, rfl⟩, hbefore, ?_⟩
      intro later hlater hthere
      have := hlongest.mpr (h i hbefore) later hlater hthere
      omega

def offOfBoat : List Str := ["off".toList, "of".toList, "boat".toList]

theorem offOfBoat_not_foundRight : ¬ FoundRight offOfBoat (dbFindPrep offOfBoat) := by
  rintro ⟨-, -, hlong⟩
  have := hlong offOf offOf_mem (by decide)
  exact absurd this (by decide)

theorem inBoat_foundRight :
    FoundRight [['i', 'n'], ['b', 'o', 'a', 't']] (dbFindPrep [['i', 'n'], ['b', 'o', 'a', 't']]) := by
  refine (dbFindPrep_foundRight_iff _ (by decide)).mpr ?_
  intro i _ hoff
  have hi := hoff.lt offOf_mem
  have : i = 0 ∨ i = 1 := by
    rw [List.length_cons, List.length_cons, List.length_nil] at hi
    omega
  obtain rfl | rfl := this
  · exact absurd hoff (by decide)
  · exact absurd hoff (by decide)

end LambdaMoo
