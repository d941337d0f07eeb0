import LambdaMoo.Structures

/-! Lists while they are filled, cell by cell. -/
namespace LambdaMoo

/-- A list that is being filled; none are the cells that are not yet set. -/
abbrev Cells := List (Option Var)

/-- `r.v.list[i] = v`; none is a write outside of the list. -/
def Cells.put (r : Cells) (i : Nat) (v : Var) : Option Cells :=
  if 1 ≤ i ∧ i ≤ r.length then some (r.set (i - 1) (some v)) else none

def Cells.value (r : Cells) : Option Var := (r.mapM id).map .list

def partly (done : List Var) (room : Nat) : Cells := done.map some ++ List.replicate room none

theorem put_partly (done : List Var) (room : Nat) (v : Var) :
    (partly done (room + 1)).put (done.length + 1) v = some (partly (done ++ [v]) room) := by
  unfold Cells.put partly
  rw [if_pos (by simp)]
  simp [List.replicate_succ]

theorem value_partly (l : List Var) : (partly l 0).value = some (.list l) := by
  have h : (l.map some).mapM id = some l := by
    induction l with
    | nil => rfl
    | cons v l ih => simp [ih]
  simp [partly, Cells.value, h]

end LambdaMoo
