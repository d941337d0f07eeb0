import Mathlib.Data.List.Basic

/-! A list cut into segments, each of them made from one element of another list:
where a segment begins, and what the list is from there on. -/
namespace Segments

variable {α β : Type*} (f : α → List β)

def start (xs : List α) (i : Nat) : Nat := ((xs.take i).flatMap f).length

@[simp] theorem start_zero (xs : List α) : start f xs 0 = 0 := by simp [start]

theorem start_length (xs : List α) : start f xs xs.length = (xs.flatMap f).length := by
  simp [start]

theorem start_succ {xs : List α} {i : Nat} {x : α} (h : xs[i]? = some x) :
    start f xs (i + 1) = start f xs i + (f x).length := by
  obtain ⟨hlt, rfl⟩ := List.getElem?_eq_some_iff.mp h
  rw [start, List.take_succ_eq_append_getElem hlt, List.flatMap_append, List.length_append, start]
  simp

theorem start_mono (xs : List α) {i j : Nat} (h : i ≤ j) : start f xs i ≤ start f xs j := by
  obtain ⟨k, rfl⟩ := Nat.exists_eq_add_of_le h
  rw [start, start, List.take_add, List.flatMap_append, List.length_append]
  omega

theorem drop_start (xs : List α) (i : Nat) :
    (xs.flatMap f).drop (start f xs i) = (xs.drop i).flatMap f := by
  have h : xs.flatMap f = (xs.take i).flatMap f ++ (xs.drop i).flatMap f := by
    rw [← List.flatMap_append, List.take_append_drop]
  rw [h, start, List.drop_left']
  rfl

theorem start_lt {xs : List α} (hf : ∀ x, 0 < (f x).length) {i j : Nat} (hij : i < j)
    (hi : i < xs.length) : start f xs i < start f xs j := by
  have := start_mono f xs (Nat.succ_le_of_lt hij)
  rw [start_succ f (List.getElem?_eq_getElem hi)] at this
  have := hf xs[i]
  omega

end Segments
