import LambdaMoo.Db

/-! The arrays that the definitions of an object are kept in: doubled when they are full, halved
when they are nearly empty, and moved up in place when one is deleted. -/
namespace LambdaMoo

/-- A `Proplist`: of the `max_length` cells of `l` the first `cur_length` are in use. -/
structure Proplist where
  maxLength : Nat
  curLength : Nat
  l : List (Option Propdef)

/-- `n` cells from the `i`-th on; none beyond the end of the array. -/
def copyCells (l : List (Option Propdef)) (i n : Nat) : Option (List (Option Propdef)) :=
  if i + n ≤ l.length then some ((l.drop i).take n) else none

def setCell (l : List (Option Propdef)) (i : Nat) (p : Option Propdef) : Option (List (Option Propdef)) :=
  if i < l.length then some (l.set i p) else none

namespace Proplist

structure Holds (props : Proplist) (ds : List Propdef) : Prop where
  cells : props.l.length = props.maxLength
  used : props.curLength = ds.length
  defs : ∃ free, props.l = ds.map some ++ free

def makeRoom (props : Proplist) : Option Proplist := do
  if props.curLength = props.maxLength then
    let newSize := if props.maxLength = 0 then 8 else 2 * props.maxLength
    let old ← copyCells props.l 0 props.maxLength
    return { props with maxLength := newSize, l := old ++ List.replicate (newSize - old.length) none }
  else return props

def add (props : Proplist) (newdef : Propdef) : Option Proplist := do
  let props ← props.makeRoom
  let l ← setCell props.l props.curLength (some newdef)
  return { props with l, curLength := props.curLength + 1 }

def moveUp : Nat → Nat → List (Option Propdef) → Option (List (Option Propdef))
  | 0, _, l => some l
  | n + 1, j, l => do
      let p ← l[j]?
      moveUp n (j + 1) (← setCell l (j - 1) p)

def delete (props : Proplist) (i : Nat) : Option Proplist := do
  let rest := props.curLength - (i + 1)
  if 8 < props.maxLength ∧ props.curLength ≤ props.maxLength * 3 / 8 then
    let newSize := props.maxLength / 2
    let before ← copyCells props.l 0 i
    let after ← copyCells props.l (i + 1) rest
    -- the new array is to have a cell for each
    if newSize < i + rest then none
    return { maxLength := newSize, curLength := props.curLength - 1
             l := before ++ after ++ List.replicate (newSize - (i + rest)) none }
  else
    let l ← moveUp rest (i + 1) props.l
    return { props with l, curLength := props.curLength - 1 }

variable {props : Proplist} {ds : List Propdef} {newdef : Propdef} {i : Nat}

theorem Holds.makeRoom (h : props.Holds ds) :
    ∃ props', props.makeRoom = some props' ∧ props'.Holds ds ∧ props'.curLength < props'.maxLength := by
  obtain ⟨free, hl⟩ := h.defs
  have hcells := h.cells
  have hused := h.used
  rw [hl, List.length_append, List.length_map] at hcells
  by_cases hfull : props.curLength = props.maxLength
  · have hcopy : copyCells props.l 0 props.maxLength = some props.l := by
      unfold copyCells
      rw [if_pos (by rw [h.cells]; omega), List.drop_zero, ← h.cells, List.take_length]
    set newSize := if props.maxLength = 0 then 8 else 2 * props.maxLength with hnew
    have hlarger : props.maxLength < newSize := by
      rw [hnew]
      split <;> omega
    have hmake : props.makeRoom = some { props with
        maxLength := newSize, l := props.l ++ List.replicate (newSize - props.l.length) none } := by
      rw [Proplist.makeRoom, if_pos hfull, hcopy]
      rfl
    refine ⟨_, hmake, ⟨?_, hused, ?_⟩, hfull ▸ hlarger⟩
    · rw [List.length_append, List.length_replicate, h.cells]
      exact Nat.add_sub_of_le (Nat.le_of_lt hlarger)
    · refine ⟨free ++ List.replicate (newSize - props.l.length) none, ?_⟩
      rw [← List.append_assoc, ← hl]
  · refine ⟨props, by rw [Proplist.makeRoom, if_neg hfull]; rfl, h, ?_⟩
    omega

theorem Holds.add (h : props.Holds ds) (newdef : Propdef) :
    ∃ props', props.add newdef = some props' ∧ props'.Holds (ds ++ [newdef]) := by
  obtain ⟨props₁, hroom, h₁, hlt⟩ := h.makeRoom
  obtain ⟨free, hl⟩ := h₁.defs
  have hcells := h₁.cells
  have hused := h₁.used
  cases free with
  | nil =>
      rw [hl, List.append_nil, List.length_map] at hcells
      omega
  | cons c free =>
      have hset : setCell props₁.l props₁.curLength (some newdef) =
          some ((ds ++ [newdef]).map some ++ free) := by
        unfold setCell
        rw [if_pos (by omega), hl, hused]
        simp
      refine ⟨_, by rw [Proplist.add, hroom, Option.bind_eq_bind, Option.bind_some, hset]; rfl, ?_, ?_, free, rfl⟩
      · change ((ds ++ [newdef]).map some ++ free).length = props₁.maxLength
        rw [← hcells, hl]
        simp
      · simp [hused]

theorem moveUp_eq (as : List (Option Propdef)) (x : Option Propdef) (bs free : List (Option Propdef)) :
    ∃ y, moveUp bs.length (as.length + 1) (as ++ x :: (bs ++ free)) = some (as ++ (bs ++ y :: free)) := by
  induction bs generalizing as x with
  | nil => exact ⟨x, rfl⟩
  | cons b bs ih =>
      obtain ⟨y, hy⟩ := ih (as ++ [b]) b
      refine ⟨y, ?_⟩
      have hread : (as ++ x :: (b :: bs ++ free))[as.length + 1]? = some b := by simp
      have hset : setCell (as ++ x :: (b :: bs ++ free)) as.length b = some (as ++ b :: (b :: bs ++ free)) := by
        unfold setCell
        rw [if_pos (by simp)]
        simp
      rw [List.length_cons, moveUp, hread, Option.bind_eq_bind, Option.bind_some, Nat.add_sub_cancel, hset]
      simpa using hy

/-- A definition is taken out, and those behind it are moved up, in the same array or in one of
half the size. -/
theorem Holds.delete (h : props.Holds ds) (hi : i < ds.length) :
    ∃ props', props.delete i = some props' ∧ props'.Holds (ds.eraseIdx i) := by
  obtain ⟨free, hl⟩ := h.defs
  have hcells := h.cells
  have hused := h.used
  have hsplit : ds.map some = (ds.take i).map some ++ some ds[i] :: (ds.drop (i + 1)).map some := by
    rw [← List.map_cons, ← List.map_append, List.getElem_cons_drop, List.take_append_drop]
  have htake : ((ds.take i).map some).length = i := by
    rw [List.length_map, List.length_take]
    omega
  have hrest : ((ds.drop (i + 1)).map some).length = props.curLength - (i + 1) := by
    rw [List.length_map, List.length_drop, hused]
  have herase : (ds.eraseIdx i).map some = (ds.take i).map some ++ (ds.drop (i + 1)).map some := by
    rw [List.eraseIdx_eq_take_drop_succ, List.map_append]
  have hlen : (ds.eraseIdx i).length = props.curLength - 1 := by
    rw [List.length_eraseIdx_of_lt hi, hused]
  unfold Proplist.delete
  by_cases hhalf : 8 < props.maxLength ∧ props.curLength ≤ props.maxLength * 3 / 8
  · have hbefore : copyCells props.l 0 i = some ((ds.take i).map some) := by
      unfold copyCells
      rw [if_pos (by rw [h.cells]; omega), List.drop_zero, hl, hsplit, List.append_assoc,
        List.take_left' htake]
    have hafter : copyCells props.l (i + 1) (props.curLength - (i + 1)) =
        some ((ds.drop (i + 1)).map some) := by
      unfold copyCells
      have hdrop : (ds.map some ++ free).drop (i + 1) = (ds.drop (i + 1)).map some ++ free := by
        rw [List.drop_append_of_le_length (by rw [List.length_map]; omega), List.map_drop]
      rw [if_pos (by rw [h.cells]; omega), hl, hdrop, List.take_left' hrest]
    have hroom : ¬ props.maxLength / 2 < i + (props.curLength - (i + 1)) := by omega
    rw [if_pos hhalf, hbefore, Option.bind_eq_bind, Option.bind_some, hafter, Option.bind_some, if_neg hroom,
      ← herase]
    refine ⟨_, rfl, ?_, hlen.symm, _, rfl⟩
    simp only [List.length_append, List.length_map, List.length_replicate, hlen]
    omega
  · rw [if_neg hhalf]
    obtain ⟨y, hy⟩ := moveUp_eq ((ds.take i).map some) (some ds[i]) ((ds.drop (i + 1)).map some) free
    rw [htake, hrest] at hy
    have hmove : moveUp (props.curLength - (i + 1)) (i + 1) props.l =
        some ((ds.eraseIdx i).map some ++ y :: free) := by
      rw [hl, hsplit, List.append_assoc, List.cons_append, hy, herase, List.append_assoc]
    refine ⟨_, by rw [hmove]; rfl, ?_, hlen.symm, y :: free, rfl⟩
    change ((ds.eraseIdx i).map some ++ y :: free).length = props.maxLength
    rw [← hcells, hl]
    simp only [List.length_append, List.length_map, List.length_cons, hlen, hused]
    omega

end Proplist
end LambdaMoo
