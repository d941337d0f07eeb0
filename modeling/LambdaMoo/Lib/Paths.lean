import Mathlib.Data.List.Infix

/-! Paths as lists of components between separators, and what resolving one component after the
other makes of them. -/
namespace Paths

variable {α : Type*} [DecidableEq α] {sep : α} {s : List α}

theorem splitOn_cases (sep : α) (s : List α) :
    ∃ w ws, s.splitOn sep = w :: ws ∧ w <+: s ∧ ∀ c ∈ ws, sep :: c <:+: s := by
  induction s with
  | nil => exact ⟨[], [], by simp, List.prefix_refl _, by simp⟩
  | cons y ys ih =>
    obtain ⟨w, ws, hsplit, hw, hws⟩ := ih
    rw [List.splitOn_cons_eq_if_modifyHead, hsplit]
    by_cases hy : y = sep
    · subst hy
      refine ⟨[], w :: ws, by simp, List.nil_prefix, fun c hc => ?_⟩
      obtain rfl | hc := List.mem_cons.mp hc
      · exact (List.cons_prefix_cons.mpr ⟨rfl, hw⟩).isInfix
      · exact (hws c hc).trans (List.suffix_cons y ys).isInfix
    · refine ⟨y :: w, ws, by simp [hy], List.cons_prefix_cons.mpr ⟨rfl, hw⟩, fun c hc => ?_⟩
      exact (hws c hc).trans (List.suffix_cons y ys).isInfix

/-- A component that neither begins the path nor follows a separator is none of its components. -/
theorem notMem_splitOn {c : List α} (hstart : ¬ c <+: s) (hafter : ¬ sep :: c <:+: s) :
    c ∉ s.splitOn sep := by
  obtain ⟨w, ws, hsplit, hw, hws⟩ := splitOn_cases sep s
  rw [hsplit]
  intro hc
  obtain rfl | hc := List.mem_cons.mp hc
  · exact hstart hw
  · exact hafter (hws c hc)

variable (here up : List α)

def walk (stack : List (List α)) : List (List α) → List (List α)
  | [] => stack
  | c :: cs =>
      walk (if c = [] ∨ c = here then stack else if c = up then stack.tail else c :: stack) cs

theorem walk_append (stack cs ds : List (List α)) :
    walk here up stack (cs ++ ds) = walk here up (walk here up stack cs) ds := by
  induction cs generalizing stack with
  | nil => rfl
  | cons c cs ih => exact ih _

theorem walk_suffix {stack cs : List (List α)} (hup : up ∉ cs) :
    stack <:+ walk here up stack cs := by
  induction cs generalizing stack with
  | nil => exact List.suffix_refl _
  | cons c cs ih =>
    rw [List.mem_cons, not_or] at hup
    obtain ⟨hc, hcs⟩ := hup
    apply List.IsSuffix.trans _ (ih hcs)
    by_cases hstay : c = [] ∨ c = here
    · rw [if_pos hstay]
    · rw [if_neg hstay, if_neg (Ne.symm hc)]
      exact List.suffix_cons c stack

end Paths
