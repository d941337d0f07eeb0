import LambdaMoo.Arithmetic
import LambdaMoo.Dbio
import LambdaMoo.Editing
import LambdaMoo.Lib.Insertion
import LambdaMoo.Names
import Mathlib.Data.Char
import Mathlib.Data.List.Lex
import Mathlib.Data.Prod.Lex

/-! `sort`: elements are put one by one into a list that is sorted, at a place that is found by
bisection. It has a comparison of its own, which is that of the language. -/
namespace LambdaMoo

variable (fl : Doubles)

/-! The operator `<`. -/

def comparison (lhs rhs : Var) : Except Error Int :=
  match compareNumbers fl lhs rhs with
  | some (.int c) => .ok c
  | _ =>
      if !rhs.sameType lhs then .error .eType
      else
        match lhs, rhs with
        | .list _, _ => .error .eType
        | .obj a, .obj b => .ok (compareIntegers a b)
        | .err a, .err b => .ok (Dbio.errorNum a - Dbio.errorNum b)
        | .str a, .str b => .ok (mystrcasecmp a b)
        | _, _ => .ok 0

def sortKey : Var → Lex (Str × Int)
  | .int n => toLex ([], n)
  | .obj n => toLex ([], n)
  | .err e => toLex ([], Dbio.errorNum e)
  | .str s => toLex (lowered s, 0)
  | _ => toLex ([], 0)

variable (fl : Doubles) {a b : Var} {k : Kind}

open Insertion

/-- The elements that have been seen, in order, those that are equal as they came. -/
structure Sorts (done sorted : List Var) : Prop where
  perm : sorted.Perm done
  ordered : Ordered sortKey sorted
  stable : ∀ p : Var → Bool, (∀ a ∈ done, ∀ b ∈ done, p a = true → p b = true → sortKey a = sortKey b) →
    sorted.filter p = done.filter p

theorem Sorts.nil : Sorts [] [] := ⟨.refl _, .nil, fun _ _ => rfl⟩

theorem Sorts.insert {done sorted : List Var} {e : Var} {m : Nat} (h : Sorts done sorted)
    (hbetween : Between sortKey e (sorted.take m) (sorted.drop m)) :
    Sorts (done ++ [e]) (sorted.take m ++ e :: sorted.drop m) := by
  have hwhole : sorted.take m ++ sorted.drop m = sorted := List.take_append_drop m sorted
  refine ⟨?_, hbetween.ordered ?_, fun p hp => ?_⟩
  · have hperm : (sorted.take m ++ e :: sorted.drop m).Perm (e :: sorted) := by
      have hmiddle : (sorted.take m ++ e :: sorted.drop m).Perm (e :: (sorted.take m ++ sorted.drop m)) :=
        List.perm_middle
      rwa [hwhole] at hmiddle
    exact hperm.trans ((h.perm.cons e).trans (List.perm_append_singleton e done).symm)
  · rw [hwhole]
    exact h.ordered
  · have hback : ∀ b ∈ sorted.drop m, p e = true → p b = true → sortKey e = sortKey b := by
      intro b hb hpe hpb
      have hb := h.perm.mem_iff.mp (List.mem_of_mem_drop hb)
      exact hp e (List.mem_append_right _ List.mem_cons_self) b (List.mem_append_left _ hb) hpe hpb
    have hdone : sorted.filter p = done.filter p := by
      apply h.stable
      intro a ha b hb
      exact hp a (List.mem_append_left _ ha) b (List.mem_append_left _ hb)
    rw [hbetween.filter_eq hback, hwhole, hdone, List.filter_append]

end LambdaMoo
