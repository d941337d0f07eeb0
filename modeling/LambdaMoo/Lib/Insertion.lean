import Mathlib.Data.List.Sort
import Mathlib.Order.Basic

/-! Putting an element into a sorted list, behind all those that are not greater. What is equal keeps
its order. -/
namespace Insertion

variable {α κ : Type*} [LinearOrder κ] {key : α → κ} {x : α} {front back : List α}

structure Between (key : α → κ) (x : α) (front back : List α) : Prop where
  front : ∀ a ∈ front, key a ≤ key x
  back : ∀ b ∈ back, key x < key b

/-- The list is sorted by the keys. -/
abbrev Ordered (key : α → κ) (l : List α) : Prop := l.Pairwise fun a b => key a ≤ key b

theorem Between.ordered (h : Between key x front back) (hs : Ordered key (front ++ back)) :
    Ordered key (front ++ x :: back) := by
  obtain ⟨hfront, hback, hacross⟩ := List.pairwise_append.mp hs
  refine List.pairwise_append.mpr ⟨hfront, List.pairwise_cons.mpr ⟨?_, hback⟩, ?_⟩
  · intro b hb
    exact le_of_lt (h.back b hb)
  · intro a ha b hb
    obtain rfl | hb := List.mem_cons.mp hb
    · exact h.front a ha
    · exact hacross a ha b hb

theorem Between.filter_eq (h : Between key x front back) {p : α → Bool}
    (hp : ∀ b ∈ back, p x = true → p b = true → key x = key b) :
    (front ++ x :: back).filter p = (front ++ back).filter p ++ [x].filter p := by
  rw [List.filter_append, List.filter_append, List.filter_cons, List.filter_singleton]
  cases hx : p x with
  | true =>
      have hnone : back.filter p = [] := by
        rw [List.filter_eq_nil_iff]
        intro b hb hpb
        have hlt := h.back b hb
        rw [hp b hb hx hpb] at hlt
        exact lt_irrefl _ hlt
      rw [hnone, if_pos rfl, List.append_nil]
      rfl
  | false => rw [if_neg Bool.false_ne_true, cond_false, List.append_nil]

end Insertion
