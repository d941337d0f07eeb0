import Mathlib.Data.List.Nodup

/-! Looking an element up by a label that no other element of the list has. -/

namespace Labelled

variable {α κ : Type*} [DecidableEq κ] {label : α → κ} {as bs cs : List α} {t : κ}

def lookup (label : α → κ) (l : List α) (t : κ) : Option α := l.find? fun a => label a == t

theorem lookup_eq_none : lookup label as t = none ↔ t ∉ as.map label := by
  rw [lookup, List.find?_eq_none]
  constructor
  · intro h hmem
    obtain ⟨a, ha, rfl⟩ := List.mem_map.mp hmem
    exact h a ha (by simp)
  · intro h a ha heq
    exact h (List.mem_map.mpr ⟨a, ha, by simpa using heq⟩)

theorem lookup_isSome : (lookup label as t).isSome ↔ t ∈ as.map label := by
  rw [← not_iff_not, Option.not_isSome_iff_eq_none, lookup_eq_none]

theorem lookup_append : lookup label (as ++ bs) t = (lookup label as t).or (lookup label bs t) :=
  List.find?_append

theorem lookup_left (ht : t ∈ as.map label) : lookup label (as ++ bs) t = lookup label as t := by
  obtain ⟨a, ha⟩ := Option.isSome_iff_exists.mp (lookup_isSome.mpr ht)
  rw [lookup_append, ha]
  rfl

theorem lookup_right (ht : t ∉ as.map label) : lookup label (as ++ bs) t = lookup label bs t := by
  rw [lookup_append, lookup_eq_none.mpr ht]
  rfl

theorem lookup_cons_self {a : α} : lookup label (a :: as) (label a) = some a := by simp [lookup]

theorem lookup_cons_ne {a : α} (ht : label a ≠ t) : lookup label (a :: as) t = lookup label as t := by
  simp [lookup, ht]

theorem lookup_getElem? {n : Nat} (hnodup : (as.map label).Nodup) (hn : (as.map label)[n]? = some t) :
    lookup label as t = as[n]? := by
  induction as generalizing n with
  | nil => simp at hn
  | cons a as ih =>
      rw [List.map_cons, List.nodup_cons] at hnodup
      cases n with
      | zero =>
          have ht : label a = t := by simpa using hn
          subst ht
          exact lookup_cons_self
      | succ n =>
          have hmem : t ∈ as.map label := List.mem_of_getElem? hn
          rw [lookup_cons_ne, List.getElem?_cons_succ]
          · exact ih hnodup.2 hn
          · intro h
            exact hnodup.1 (h ▸ hmem)

theorem lookup_filter_ne {u : κ} (h : t ≠ u) :
    lookup label (as.filter fun a => label a ≠ u) t = lookup label as t := by
  induction as with
  | nil => rfl
  | cons a as ih =>
      by_cases ha : label a = u
      · rw [List.filter_cons_of_neg (by simpa using ha), ih, lookup_cons_ne]
        exact ha ▸ h.symm
      · rw [List.filter_cons_of_pos (by simpa using ha)]
        by_cases hat : label a = t
        · subst hat
          rw [lookup_cons_self, lookup_cons_self]
        · rw [lookup_cons_ne hat, lookup_cons_ne hat, ih]

omit [DecidableEq κ] in
theorem exists_split {β : Type*} {name : β → κ} {l : List α} {xs ys : List β}
    (hlabels : l.map label = (xs ++ ys).map name) :
    ∃ as bs, l = as ++ bs ∧ as.map label = xs.map name ∧ bs.map label = ys.map name := by
  rw [List.map_append, List.map_eq_append_iff] at hlabels
  obtain ⟨as, bs, rfl, has, hbs⟩ := hlabels
  exact ⟨as, bs, rfl, has, hbs⟩

theorem lookup_map {f : α → α} (hf : ∀ a, label (f a) = label a) :
    lookup label (as.map f) t = (lookup label as t).map f := by
  rw [lookup, List.find?_map]
  simp only [Function.comp_def, hf]
  rfl

end Labelled
