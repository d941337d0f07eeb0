import LambdaMoo.Names
import LambdaMoo.Verbs

/-! Two verb names that share a namespace: the case of letters does not matter, and the
order of the two only where one order never returns. -/
namespace LambdaMoo

variable {s t foo bar : Str} {c : Char}

theorem asciiTolower_eq_mark (hc : ¬ (65 ≤ c.toNat ∧ c.toNat ≤ 90))
    (hc' : ¬ (97 ≤ c.toNat ∧ c.toNat ≤ 122)) (x : Char) : asciiTolower x = c ↔ x = c := by
  rw [← Char.toNat_inj, ← Char.toNat_inj, asciiTolower_toNat]
  split <;> omega

@[simp] theorem asciiTolower_eq_star (x : Char) : asciiTolower x = '*' ↔ x = '*' :=
  asciiTolower_eq_mark (by decide) (by decide) x

@[simp] theorem asciiTolower_eq_blank (x : Char) : asciiTolower x = ' ' ↔ x = ' ' :=
  asciiTolower_eq_mark (by decide) (by decide) x

@[simp] theorem asciiTolower_idem (x : Char) : asciiTolower (asciiTolower x) = asciiTolower x := by
  rw [← Char.toNat_inj, asciiTolower_toNat, asciiTolower_toNat]
  split_ifs <;> omega

/-! Names in small letters. -/

theorem shareStarred_lowered (foo bar : Str) (last : Char) :
    shareStarred (lowered foo) (lowered bar) (asciiTolower last) =
      (shareStarred foo bar last).map fun r => (lowered r.1, lowered r.2.1, asciiTolower r.2.2) := by
  fun_induction shareStarred foo bar last <;> simp_all [lowered, shareStarred]

theorem shareBothStarred_lowered (foo bar : Str) :
    shareBothStarred (lowered foo) (lowered bar) = shareBothStarred foo bar := by
  fun_induction shareBothStarred foo bar with
  | case5 foo bar hends =>
      cases foo with
      | nil => simp [lowered, shareBothStarred]
      | cons f foo =>
          cases bar with
          | nil => simp [lowered, shareBothStarred]
          | cons b bar => exact (hends f foo b bar rfl rfl).elim
  | _ => simp_all [lowered, shareBothStarred]

theorem starredOutcome_lowered {both : Str → Str → Option Bool}
    (hboth : ∀ f b, both (lowered f) (lowered b) = both f b) (r : Option (Str × Str × Char)) :
    starredOutcome both (r.map fun r => (lowered r.1, lowered r.2.1, asciiTolower r.2.2)) =
      starredOutcome both r := by
  match r with
  | none => rfl
  | some (_, [], _) => rfl
  | some (starred, p :: plain, last) =>
      have hb := hboth starred (p :: plain)
      simp only [lowered, List.map_cons] at hb
      simp only [Option.map_some, lowered, List.map_cons, starredOutcome, asciiTolower_eq_star, hb]
      split
      · rfl
      · rw [Option.some.injEq, Bool.eq_iff_iff, beq_iff_eq, beq_iff_eq, asciiTolower_eq_star]

theorem outcome_lowered (both : Str → Str → Option Bool)
    (hboth : ∀ f b, both (lowered f) (lowered b) = both f b) (foo bar : Str) :
    starredOutcome both (shareStarred (lowered foo) (lowered bar) '*') =
      starredOutcome both (shareStarred foo bar '*') := by
  rw [← starredOutcome_lowered hboth (shareStarred foo bar '*'), ← shareStarred_lowered]
  rfl

theorem singleNamesShareNamespace_lowered (foo bar : Str) :
    singleNamesShareNamespace (lowered foo) (lowered bar) = singleNamesShareNamespace foo bar := by
  have hboth : ∀ f b, some (shareBothStarred (lowered f) (lowered b)) = some (shareBothStarred f b) :=
    fun f b => by rw [shareBothStarred_lowered]
  induction foo generalizing bar with
  | nil =>
      cases bar with
      | nil => rfl
      | cons b bar =>
          have h := outcome_lowered (fun _ _ => none) (fun _ _ => rfl) (b :: bar) []
          simp only [lowered, List.map_cons, List.map_nil] at h
          simp only [lowered, List.map_cons, List.map_nil, singleNamesShareNamespace,
            asciiTolower_eq_star, h]
  | cons f foo ih =>
      cases bar with
      | nil =>
          have h := outcome_lowered (fun f b => some (shareBothStarred f b)) hboth (f :: foo) []
          simp only [lowered, List.map_cons, List.map_nil] at h
          simp only [lowered, List.map_cons, List.map_nil, singleNamesShareNamespace,
            asciiTolower_eq_star, h]
      | cons b bar =>
          have h₁ := hboth (f :: foo) (b :: bar)
          have h₂ := outcome_lowered (fun f b => some (shareBothStarred f b)) hboth (f :: foo) (b :: bar)
          have h₃ := outcome_lowered (fun _ _ => none) (fun _ _ => rfl) (b :: bar) (f :: foo)
          have h₄ := ih bar
          simp only [lowered, List.map_cons] at h₁ h₂ h₃ h₄
          simp only [lowered, List.map_cons, singleNamesShareNamespace, asciiTolower_eq_star,
            asciiTolower_idem, h₁, h₂, h₃, h₄]

theorem anyM_map {α β : Type} {p : β → Option Bool} {g : α → β} (l : List α) :
    (l.map g).anyM p = l.anyM fun a => p (g a) := by
  induction l with
  | nil => rfl
  | cons a l ih => simp only [List.map_cons, List.anyM_cons, ih]

theorem verbWords_lowered (names : Str) : verbWords (lowered names) = (verbWords names).map lowered := by
  have hsplit : ∀ l : Str, (lowered l).splitOn ' ' = (l.splitOn ' ').map lowered := by
    intro l
    unfold List.splitOn
    induction l with
    | nil => rfl
    | cons c l ih =>
        have hc : (asciiTolower c == ' ') = (c == ' ') := by
          rw [Bool.eq_iff_iff, beq_iff_eq, beq_iff_eq, asciiTolower_eq_blank]
        have hcons : lowered (c :: l) = asciiTolower c :: lowered l := rfl
        rw [hcons, List.splitOnP_cons_eq_if_modifyHead, List.splitOnP_cons_eq_if_modifyHead, hc, ih]
        split
        · rfl
        · cases List.splitOnP (· == ' ') l <;> rfl
  rw [verbWords, verbWords, hsplit, List.filter_map]
  congr 1
  refine List.filter_congr fun w _ => ?_
  simp [lowered]

theorem verbnamesShareNamespace_lowered {foo' bar' : Str} (hf : lowered foo = lowered foo')
    (hb : lowered bar = lowered bar') :
    verbnamesShareNamespace foo bar = verbnamesShareNamespace foo' bar' := by
  have hlow : ∀ f b, verbnamesShareNamespace (lowered f) (lowered b) = verbnamesShareNamespace f b := by
    intro f b
    unfold verbnamesShareNamespace
    rw [verbWords_lowered, verbWords_lowered, anyM_map]
    congr 1
    funext w
    rw [anyM_map]
    congr 1
    funext w'
    exact singleNamesShareNamespace_lowered w w'
  rw [← hlow foo, ← hlow foo', hf, hb]

/-! The order of the two. -/

def letters (s : Str) : Str := (lowered s).filter fun c => c ≠ '*'

theorem letters_cons {c : Char} (s : Str) :
    letters (c :: s) = if c = '*' then letters s else asciiTolower c :: letters s := by
  by_cases hc : c = '*' <;> simp [letters, lowered, hc]

theorem letters_star (s : Str) : letters ('*' :: s) = letters s := by
  rw [letters_cons, if_pos rfl]

theorem shareBothStarred_iff (foo bar : Str) :
    shareBothStarred foo bar = true ↔ letters foo <+: letters bar ∨ letters bar <+: letters foo := by
  fun_induction shareBothStarred foo bar with
  | case1 foo b bar ih =>
      rw [ih, letters_star]
  | case2 f foo bar hf ih =>
      rw [ih, letters_star]
  | case3 f foo b bar hf hb hne =>
      simp only [letters_cons, hf, hb, if_false, List.cons_prefix_cons]
      simp [hne, Ne.symm hne]
  | case4 f foo b bar hf hb heq ih =>
      have heq : asciiTolower f = asciiTolower b := not_not.mp heq
      simp only [letters_cons, hf, hb, if_false, List.cons_prefix_cons, heq, true_and, ih]
  | case5 foo bar hends =>
      cases foo with
      | nil => simp [letters, lowered]
      | cons f foo =>
          cases bar with
          | nil => simp [letters, lowered]
          | cons b bar => exact (hends f foo b bar rfl rfl).elim

theorem shareBothStarred_comm (foo bar : Str) : shareBothStarred foo bar = shareBothStarred bar foo := by
  rw [Bool.eq_iff_iff, shareBothStarred_iff, shareBothStarred_iff, Or.comm]

theorem starredOutcome_none {both : Str → Str → Option Bool} {r : Option (Str × Str × Char)} {x y : Bool}
    (hx : starredOutcome both r = some x) (hy : starredOutcome (fun _ _ => none) r = some y) : x = y := by
  match r with
  | none => simp_all [starredOutcome]
  | some (_, [], _) => simp_all [starredOutcome]
  | some (starred, p :: plain, last) =>
      by_cases hp : p = '*' <;> simp_all [starredOutcome]

theorem singleNamesShareNamespace_comm {foo bar : Str} {x y : Bool}
    (hx : singleNamesShareNamespace foo bar = some x) (hy : singleNamesShareNamespace bar foo = some y) :
    x = y := by
  induction foo generalizing bar with
  | nil =>
      cases bar with
      | nil => exact Option.some.inj (hx.symm.trans hy)
      | cons b bar =>
          by_cases hb : b = '*'
          · simp only [singleNamesShareNamespace, hb, if_true] at hx hy
            exact (starredOutcome_none hy hx).symm
          · simp_all [singleNamesShareNamespace]
  | cons f foo ih =>
      cases bar with
      | nil =>
          by_cases hf : f = '*'
          · simp only [singleNamesShareNamespace, hf, if_true] at hx hy
            exact starredOutcome_none hx hy
          · simp_all [singleNamesShareNamespace]
      | cons b bar =>
          by_cases hf : f = '*' <;> by_cases hb : b = '*' <;>
            simp only [singleNamesShareNamespace, hf, hb, if_true, if_false] at hx hy
          · rw [shareBothStarred_comm, hy] at hx
            exact (Option.some.inj hx).symm
          · exact starredOutcome_none hx hy
          · exact (starredOutcome_none hy hx).symm
          · by_cases hfb : asciiTolower f = asciiTolower b
            · simp only [hfb, ne_eq, not_true_eq_false, if_false] at hx hy
              exact ih hx hy
            · simp_all [eq_comm]

theorem anyM_eq_false {α : Type} {p : α → Option Bool} {l : List α} (h : l.anyM p = some false) :
    ∀ a ∈ l, p a = some false := by
  induction l with
  | nil => simp
  | cons a l ih =>
      rw [List.anyM_cons, Option.bind_eq_bind, Option.bind_eq_some_iff] at h
      obtain ⟨b, hb, h⟩ := h
      cases b with
      | true => cases h
      | false => exact List.forall_mem_cons.mpr ⟨hb, ih h⟩

theorem anyM_eq_true {α : Type} {p : α → Option Bool} {l : List α} (h : l.anyM p = some true) :
    ∃ a ∈ l, p a = some true := by
  induction l with
  | nil => cases h
  | cons a l ih =>
      rw [List.anyM_cons, Option.bind_eq_bind, Option.bind_eq_some_iff] at h
      obtain ⟨b, hb, h⟩ := h
      cases b with
      | true => exact ⟨a, by simp, hb⟩
      | false =>
          obtain ⟨c, hc, hp⟩ := ih h
          exact ⟨c, by simp [hc], hp⟩

/-- A search that ends has seen no pair before the one it finds that it does not get past. -/
theorem anyM_eq_true_iff {α : Type} {p : α → Option Bool} {l : List α} :
    l.anyM p = some true ↔ ∃ before a after, l = before ++ a :: after ∧ p a = some true ∧
      ∀ b ∈ before, p b ≠ none := by
  constructor
  · intro h
    induction l with
    | nil => cases h
    | cons a l ih =>
        rw [List.anyM_cons, Option.bind_eq_bind, Option.bind_eq_some_iff] at h
        obtain ⟨b, hb, h⟩ := h
        cases b with
        | true => exact ⟨[], a, l, rfl, hb, by simp⟩
        | false =>
            obtain ⟨before, c, after, rfl, hc, hbefore⟩ := ih h
            exact ⟨a :: before, c, after, rfl, hc, by simpa [hb] using hbefore⟩
  · rintro ⟨before, a, after, rfl, ha, hbefore⟩
    induction before with
    | nil => simp [ha]
    | cons b before ih =>
        obtain ⟨hb, hbefore⟩ := List.forall_mem_cons.mp hbefore
        obtain ⟨r, hr⟩ := Option.ne_none_iff_exists'.mp hb
        cases r with
        | true => simp [hr]
        | false => simpa [hr] using ih hbefore

theorem anyM_eq_false_iff {α : Type} {p : α → Option Bool} {l : List α} :
    l.anyM p = some false ↔ ∀ a ∈ l, p a = some false := by
  refine ⟨anyM_eq_false, fun h => ?_⟩
  induction l with
  | nil => rfl
  | cons a l ih =>
      obtain ⟨ha, h⟩ := List.forall_mem_cons.mp h
      simpa [ha] using ih h

theorem anyM_append {α : Type} {p : α → Option Bool} (l m : List α) :
    (l ++ m).anyM p = (l.anyM p).bind fun r => if r then some true else m.anyM p := by
  induction l with
  | nil => simp
  | cons a l ih =>
      simp only [List.cons_append, List.anyM_cons, ih, Option.bind_eq_bind, Option.bind_assoc]
      refine congrArg _ (funext fun r => ?_)
      cases r <;> rfl

theorem anyM_anyM {α β : Type} {p : α → β → Option Bool} (l : List α) (m : List β) :
    (l.anyM fun a => m.anyM fun b => p a b) = (l.product m).anyM fun q => p q.1 q.2 := by
  induction l with
  | nil => rfl
  | cons a l ih =>
      have hcons : (a :: l).product m = m.map (fun b => (a, b)) ++ l.product m := rfl
      rw [hcons, anyM_append, anyM_map, List.anyM_cons, ih]
      refine congrArg _ (funext fun r => ?_)
      cases r <;> rfl

theorem verbnamesShareNamespace_comm (h : verbnamesShareNamespace foo bar = some false) :
    verbnamesShareNamespace bar foo ≠ some true := by
  intro htrue
  obtain ⟨b, hb, htrue⟩ := anyM_eq_true htrue
  obtain ⟨f, hf, htrue⟩ := anyM_eq_true htrue
  have := singleNamesShareNamespace_comm (anyM_eq_false (anyM_eq_false h f hf) b hb) htrue
  cases this

end LambdaMoo
