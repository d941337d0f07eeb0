import LambdaMoo.ListEdit

/-! What is allocated. -/
namespace LambdaMoo

def ptrdiffMax : Nat := 2 ^ 63 - 1

/-- `mymalloc(size)`: how many bytes are allocated. What is passed is taken as a `size_t`. -/
def mymalloc (size : Int) : Except Crash Nat :=
  let size := (size % 2 ^ 64).toNat
  let size := if size = 0 then 1 else size
  if ptrdiffMax < size then .error .panic else .ok size

theorem mymalloc_ok {size : Int} (h : 0 ≤ size) (h' : size ≤ ptrdiffMax) :
    mymalloc size = .ok (max size.toNat 1) := by
  have hmax : ptrdiffMax < 2 ^ 63 := by decide
  have hsize : (size % 2 ^ 64).toNat = size.toNat := by rw [Int.emod_eq_of_lt h (by omega)]
  unfold mymalloc
  simp only [hsize]
  split
  · rename_i hzero
    rw [hzero]
    rfl
  · rw [Nat.max_eq_left (by omega), if_neg (by omega)]

theorem mymalloc_panic {size : Int} (h : ptrdiffMax < size % 2 ^ 64) :
    mymalloc size = .error .panic := by
  have hpos : ¬ (size % 2 ^ 64).toNat = 0 := by omega
  unfold mymalloc
  simp only [if_neg hpos]
  rw [if_pos (by omega)]

theorem mymalloc_negative {size : Int} (h : -2 ^ 31 ≤ size) (h' : size < 0) :
    mymalloc size = .error .panic := by
  have hmax : ptrdiffMax = 9223372036854775807 := by decide
  exact mymalloc_panic (by omega)

end LambdaMoo
