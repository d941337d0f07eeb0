import LambdaMoo.Lib.Meets
import LambdaMoo.ListEdit

/-! The editing of lists and strings against operations on sequences, and the arguments for
which the two part. -/
namespace LambdaMoo

variable {list done l : List Var} {value v : Var} {pos : Int} {refcount room count : Nat}

/-! Operations on sequences. -/

/-- A sequence with an element before that at a place. The places before the front are those
of the front, those behind the end are those of the end. -/
def insertAt {α : Type} (l : List α) (x : α) (pos : Int) : List α :=
  l.take (pos - 1).toNat ++ x :: l.drop (pos - 1).toNat

def slice {α : Type} (l : List α) (lower upper : Int) : List α :=
  (l.drop (lower - 1).toNat).take (upper - lower + 1).toNat

def nth {α : Type} (l : List α) (i : Int) : Option α := if 1 ≤ i then l[(i - 1).toNat]? else none

def spliced {α : Type} (l : List α) (from' to' : Int) (value : List α) : List α :=
  l.take (from' - 1).toNat ++ value ++ l.drop to'.toNat

/-! The loops. -/

theorem element_eq {i : Nat} (hi : i < list.length) : element list (i + 1) = .ok (list[i]) := by
  have hpos : (1 : Int) ≤ i + 1 := by omega
  have hindex : ((i : Int) + 1 - 1).toNat = i := by omega
  rw [element, if_pos hpos, hindex, List.getElem?_eq_getElem hi]

theorem store_eq {j : Int} (hj : j = done.length + 1) (hroom : 0 < room) (v : Var) :
    (partly done room).store j v = .ok (partly (done ++ [v]) (room - 1)) := by
  obtain ⟨room, rfl⟩ := Nat.exists_eq_succ_of_ne_zero (Nat.ne_of_gt hroom)
  have hindex : j.toNat = done.length + 1 := by omega
  rw [Cells.store, hindex, put_partly]
  rfl

theorem finish_partly (l : List Var) : (partly l 0).finish = .ok (.list l) := by
  rw [Cells.finish, value_partly]

theorem copyElements_eq {i j : Int} {k : Nat} (hi : i = k + 1) (hj : j = done.length + 1)
    (h : count ≤ list.length - k) (hroom : count ≤ room) :
    copyElements list count i j (partly done room) =
      .ok (partly (done ++ (list.drop k).take count) (room - count)) := by
  induction count generalizing i j k done room with
  | zero => simp [copyElements]
  | succ count ih =>
      have hk : k < list.length := by omega
      have hnext : j + 1 = (done ++ [list[k]]).length + 1 := by
        rw [List.length_append, List.length_singleton, hj]
        push_cast
        rfl
      have htake : (list.drop k).take (count + 1) = list[k] :: (list.drop (k + 1)).take count := by
        rw [List.drop_eq_getElem_cons hk, List.take_succ_cons]
      have hleft : room - (count + 1) = room - 1 - count := by omega
      subst hi
      rw [copyElements, element_eq hk, ok_bind_crash, store_eq hj (by omega), ok_bind_crash,
        ih (k := k + 1) (by push_cast; rfl) hnext (by omega) (by omega), htake, hleft, List.append_assoc]
      rfl

theorem copyFront (h : count ≤ list.length) (hroom : count ≤ room) :
    copyElements list count 1 1 (partly [] room) = .ok (partly (list.take count) (room - count)) := by
  have := @copyElements_eq list [] room count 1 1 0 rfl rfl h hroom
  rwa [List.nil_append, List.drop_zero] at this

theorem newList_eq {size : Nat} (h : (size : Int) < intMax) : newList size = .ok (partly [] size) := by
  rw [newList, if_neg (by omega)]
  rfl

theorem lt_intMax {n : Nat} {size : Int} (h : (n : Int) + 1 ≤ wrap32 size) : (n : Int) < intMax := by
  have := wrap32_le size
  omega

/-! What is inserted and deleted. -/

def roomy (l : List Var) : Prop := (l.length : Int) + 1 < intMax

theorem insertAt_succ (l : List Var) (v : Var) (k : Nat) : insertAt l v (k + 1) = l.take k ++ v :: l.drop k := by
  have hindex : ((k : Int) + 1 - 1).toNat = k := by omega
  rw [insertAt, hindex]

theorem doinsert_eq (hroom : roomy l) {k : Nat} (hk : k ≤ l.length) (refcount : Nat) (v : Var) :
    doinsert refcount l v (k + 1) = .ok (.list (insertAt l v (k + 1))) := by
  unfold roomy at hroom
  have hsize : wrap32 ((l.length : Int) + 1) = (l.length + 1 : Nat) := by
    rw [wrap32_of_fits (by omega) (by omega)]
    rfl
  rw [insertAt_succ, doinsert]
  simp only [hsize]
  split
  · next h =>
      obtain ⟨-, hpos⟩ := h
      obtain rfl : k = l.length := by omega
      have hcells : l.map some ++ [none] = partly l 1 := rfl
      rw [if_neg (by omega), hcells, List.take_length, List.drop_length]
      simp only [store_eq rfl Nat.one_pos, ok_bind_crash, Nat.sub_self, finish_partly]
  · have hleft : ((k : Int) + 1 - 1).toNat = k := by omega
    have hright : ((l.length : Int) - (k + 1) + 1).toNat = l.length - k := by omega
    have htake : (l.take k).length = k := by rw [List.length_take, Nat.min_eq_left hk]
    have hafter : (l.take k ++ [v]).length = k + 1 := by
      rw [List.length_append, List.length_take, Nat.min_eq_left hk, List.length_singleton]
    rw [newList_eq (by omega), ok_bind_crash, hleft, hright,
      copyFront hk (by omega), ok_bind_crash, store_eq (by rw [htake]) (by omega), ok_bind_crash,
      copyElements_eq (k := k) rfl (by rw [hafter]; push_cast; rfl) (by omega) (by omega), ok_bind_crash]
    have hend : l.length + 1 - k - 1 - (l.length - k) = 0 := by omega
    have hrest : (l.drop k).take (l.length - k) = l.drop k := List.take_of_length_le (Nat.le_of_eq List.length_drop)
    rw [hend, hrest, finish_partly, List.append_assoc]
    rfl

theorem doinsert_panic (hfits : (l.length : Int) < intMax) (hroom : ¬ roomy l) (refcount : Nat) (v : Var) (pos : Int) :
    doinsert refcount l v pos = .error .panic := by
  unfold roomy at hroom
  have hsize : wrap32 ((l.length : Int) + 1) = intMax := by
    rw [wrap32_of_fits (by omega) (by omega)]
    omega
  rw [doinsert]
  simp only [hsize]
  split
  · rw [if_pos (.inr (Int.le_refl _))]
    rfl
  · rw [newList, if_pos (.inr (Int.le_refl _))]
    rfl

theorem insertAt_front (h : pos ≤ 1) (l : List Var) (v : Var) : insertAt l v pos = v :: l := by
  have hindex : (pos - 1).toNat = 0 := by omega
  rw [insertAt, hindex]
  rfl

theorem insertAt_end (h : (l.length : Int) < pos) (v : Var) : insertAt l v pos = l ++ [v] := by
  rw [insertAt, List.take_of_length_le (by omega), List.drop_of_length_le (by omega)]

theorem listinsert_eq (hroom : roomy l) (refcount : Nat) (v : Var) (pos : Int) :
    listinsert refcount l v pos = .ok (.list (insertAt l v pos)) := by
  have hroom' := hroom
  unfold roomy at hroom'
  unfold listinsert
  dsimp only
  split
  · next h =>
      have := doinsert_eq hroom (Nat.zero_le _) refcount v
      rw [insertAt_front (by omega)] at this ⊢
      exact this
  · split
    · next h =>
        have := doinsert_eq hroom (Nat.le_refl _) refcount v
        rw [wrap32_of_fits (by omega) (by omega), this, insertAt_end (by omega), insertAt_end h]
    · next h h' =>
        obtain ⟨k, rfl⟩ : ∃ k : Nat, pos = k + 1 := ⟨(pos - 1).toNat, by omega⟩
        exact doinsert_eq hroom (by omega) refcount v

theorem listinsert_panic (hfits : (l.length : Int) < intMax) (hroom : ¬ roomy l) (refcount : Nat) (v : Var) (pos : Int) :
    listinsert refcount l v pos = .error .panic := by
  unfold listinsert
  dsimp only
  split
  · exact doinsert_panic hfits hroom refcount v _
  · split <;> exact doinsert_panic hfits hroom refcount v _

theorem listappend_eq (hroom : roomy l) (refcount : Nat) (v : Var) :
    listappend refcount l v = .ok (.list (l ++ [v])) := by
  have hroom' := hroom
  unfold roomy at hroom'
  rw [listappend, wrap32_of_fits (by omega) (by omega), doinsert_eq hroom (Nat.le_refl _), insertAt_end (by omega)]

theorem listappend_panic (hfits : (l.length : Int) < intMax) (hroom : ¬ roomy l) (refcount : Nat) (v : Var) :
    listappend refcount l v = .error .panic := by
  rw [listappend, doinsert_panic hfits hroom]

theorem listdelete_eq (hfits : (l.length : Int) < intMax) {k : Nat} (hk : k < l.length) :
    listdelete l (k + 1) = .ok (.list (l.eraseIdx k)) := by
  have hleft : ((k : Int) + 1 - 1).toNat = k := by omega
  have hright : ((l.length : Int) - (k + 1)).toNat = l.length - (k + 1) := by omega
  have hsize : ((l.length : Int) - 1) = (l.length - 1 : Nat) := by omega
  have htake : (l.take k).length = k := by rw [List.length_take, Nat.min_eq_left (Nat.le_of_lt hk)]
  have hend : l.length - 1 - k - (l.length - (k + 1)) = 0 := by omega
  have hrest : (l.drop (k + 1)).take (l.length - (k + 1)) = l.drop (k + 1) :=
    List.take_of_length_le (Nat.le_of_eq List.length_drop)
  unfold listdelete
  dsimp only
  rw [hsize, newList_eq (by omega), ok_bind_crash, hleft, hright,
    copyFront (Nat.le_of_lt hk) (by omega), ok_bind_crash,
    copyElements_eq (i := k + 1 + 1) (k := k + 1) (by push_cast; rfl) (by rw [htake]) (by omega) (by omega), ok_bind_crash, hend, hrest,
    finish_partly, List.eraseIdx_eq_take_drop_succ]

/-! Sets. -/

theorem equality_isSome_of {c : Bool} {a b : Var} (ha : a.isValue = true) (hb : b.isValue = true)
    (hl : ∀ l m, a = .list l → b = .list m → (equalityList c l m).isSome) : (equality c a b).isSome := by
  cases a <;> cases b <;> simp_all [equality, Var.isValue]
  split <;> simp_all

theorem equalityList_isSome (c : Bool) : ∀ l m : List Var, Var.areValues l = true → Var.areValues m = true →
    (equalityList c l m).isSome
  | [], _, _, _ => by simp [equalityList]
  | _ :: _, [], _, _ => by simp [equalityList]
  | a :: l, b :: m, hl, hm => by
      obtain ⟨ha, hl⟩ := Bool.and_eq_true_iff.mp hl
      obtain ⟨hb, hm⟩ := Bool.and_eq_true_iff.mp hm
      have hab : (equality c a b).isSome := equality_isSome_of ha hb fun l' m' hal hbm => by
        subst hal hbm
        exact equalityList_isSome c l' m' ha hb
      obtain ⟨r, hr⟩ := Option.isSome_iff_exists.mp hab
      rw [equalityList, hr]
      cases r with
      | false => rfl
      | true => exact equalityList_isSome c l m hl hm

theorem equality_isSome {c : Bool} {a b : Var} (ha : a.isValue = true) (hb : b.isValue = true) :
    (equality c a b).isSome :=
  equality_isSome_of ha hb fun l m hal hbm => by
    subst hal hbm
    exact equalityList_isSome c l m ha hb

/-- The element is the same as the value, whatever the case of its letters. -/
def same (value x : Var) : Bool := equality false value x == some true

theorem ismember_eq (hv : value.isValue = true) (hl : Var.areValues l = true) (i : Nat) :
    ismember value false l (i + 1) =
      .ok (match l.findIdx? (same value) with
        | some k => ((i + k : Nat) : Int) + 1
        | none => 0) := by
  induction l generalizing i with
  | nil => rfl
  | cons x l ih =>
      obtain ⟨hx, hl⟩ := Bool.and_eq_true_iff.mp hl
      obtain ⟨r, hr⟩ := Option.isSome_iff_exists.mp (equality_isSome (c := false) hv hx)
      rw [ismember, hr, List.findIdx?_cons]
      cases r with
      | true => simp [same, hr]
      | false =>
          have h := ih hl (i + 1)
          push_cast at h
          have hsame : same value x = false := by simp [same, hr]
          rw [hsame]
          dsimp only
          rw [h]
          cases l.findIdx? (same value) with
          | none => rfl
          | some k =>
              simp only [Option.map_some, Except.ok.injEq, Bool.false_eq_true, if_false]
              omega

theorem setadd_eq (hv : value.isValue = true) (hl : Var.areValues l = true)
    (hroom : roomy l ∨ l.any (same value) = true) (refcount : Nat) :
    setadd refcount l value = .ok (.list (if l.any (same value) then l else l ++ [value])) := by
  have hmember := ismember_eq hv hl 0
  unfold setadd
  rw [show (1 : Int) = (0 : Nat) + 1 from rfl, hmember, ok_bind_crash]
  cases hfind : l.findIdx? (same value) with
  | none =>
      have hnone : l.any (same value) = false := by
        rw [List.findIdx?_eq_none_iff] at hfind
        simpa using hfind
      rw [hnone] at hroom ⊢
      obtain hroom | h := hroom
      · simpa using listappend_eq hroom refcount value
      · cases h
  | some k =>
      have hany : l.any (same value) = true := by
        rw [← List.findIdx?_isSome, hfind]
        rfl
      have hne : (((0 + k : Nat) : Int) + 1) ≠ 0 := by omega
      rw [hany, if_pos rfl]
      dsimp only
      rw [if_pos hne]
      rfl

theorem setadd_panic (hv : value.isValue = true) (hl : Var.areValues l = true) (hfits : (l.length : Int) < intMax)
    (hroom : ¬ roomy l) (hnone : l.any (same value) = false) (refcount : Nat) :
    setadd refcount l value = .error .panic := by
  have hmember := ismember_eq hv hl 0
  have hfind : l.findIdx? (same value) = none := by
    rw [List.findIdx?_eq_none_iff]
    simpa using hnone
  unfold setadd
  rw [show (1 : Int) = (0 : Nat) + 1 from rfl, hmember, ok_bind_crash, hfind]
  dsimp only
  rw [if_neg (by simp)]
  exact listappend_panic hfits hroom refcount value

theorem setremove_eq (hv : value.isValue = true) (hl : Var.areValues l = true) (hfits : (l.length : Int) < intMax) :
    setremove l value = .ok (.list (l.eraseP (same value))) := by
  have hmember := ismember_eq hv hl 0
  unfold setremove
  rw [show (1 : Int) = (0 : Nat) + 1 from rfl, hmember, ok_bind_crash]
  cases hfind : l.findIdx? (same value) with
  | none =>
      have hnone : ∀ x ∈ l, ¬ same value x = true := by
        rw [List.findIdx?_eq_none_iff] at hfind
        simpa using hfind
      rw [List.eraseP_of_forall_not hnone]
      rfl
  | some k =>
      have hne : (((0 + k : Nat) : Int) + 1) ≠ 0 := by omega
      have hk : k < l.length := by
        rw [List.findIdx?_eq_some_iff_findIdx_eq] at hfind
        exact hfind.1
      dsimp only
      rw [if_pos hne, Nat.zero_add, listdelete_eq hfits hk, List.eraseP_eq_eraseIdx, hfind]

/-! Reading. -/

theorem nth_eq_none {α : Type} {l : List α} {i : Int} (h : i ≤ 0 ∨ l.length < i) : nth l i = none := by
  unfold nth
  split
  · rw [List.getElem?_eq_none_iff]
    omega
  · rfl

theorem nth_eq_some {α : Type} {l : List α} {k : Nat} (hk : k < l.length) : nth l (k + 1) = some l[k] := by
  have hindex : ((k : Int) + 1 - 1).toNat = k := by omega
  rw [nth, if_pos (by omega), hindex, List.getElem?_eq_getElem hk]

def elementOr (l : List Var) (i : Int) : Except Error Var :=
  match nth l i with
  | some v => .ok v
  | none => .error .eRange

theorem opRef_list (l : List Var) (i : Int) : opRef (.list l) (.int i) = .ok (elementOr l i) := by
  unfold opRef elementOr
  dsimp only
  split
  · next h =>
      rw [nth_eq_none h]
      rfl
  · next h =>
      obtain ⟨k, rfl⟩ : ∃ k : Nat, i = k + 1 := ⟨(i - 1).toNat, by omega⟩
      have hk : k < l.length := by omega
      rw [nth_eq_some hk, element_eq hk]
      rfl

theorem intLength_le (s : Str) : intLength s ≤ s.length := by
  obtain ⟨k, hk, hlow, hhigh⟩ := wrap32_cases s.length
  unfold intLength
  omega

/-- A character, as a string of its own, or `E_RANGE` where there is none. -/
def characterOr (s : Str) (i : Int) : Except Error Var :=
  match nth s i with
  | some c => .ok (.str [c])
  | none => .error .eRange

theorem copyChars_eq {s : Str} {i : Int} {k : Nat} (hi : i = k) (h : k + count ≤ s.length) :
    copyChars s count i = .ok ((s.drop k).take count) := by
  induction count generalizing i k with
  | zero => simp [copyChars]
  | succ count ih =>
      have hk : k < s.length := by omega
      have hindex : i.toNat = k := by omega
      rw [copyChars, if_pos (by omega), hindex, List.getElem?_eq_getElem hk]
      dsimp only
      rw [ih (k := k + 1) (by omega) (by omega), List.drop_eq_getElem_cons hk, List.take_succ_cons]
      rfl

theorem copyChars_front {s : Str} (h : count ≤ s.length) : copyChars s count 0 = .ok (s.take count) := by
  have := @copyChars_eq count s 0 0 rfl (by omega)
  rwa [List.drop_zero] at this

theorem opRef_str (s : Str) (i : Int) :
    opRef (.str s) (.int i) = .ok (if i ≤ intLength s then characterOr s i else .error .eRange) := by
  have hle := intLength_le s
  unfold opRef characterOr
  dsimp only
  by_cases hlen : i ≤ intLength s
  · rw [if_pos hlen]
    split
    · next h =>
        rw [nth_eq_none (by omega)]
        rfl
    · next h =>
        obtain ⟨k, rfl⟩ : ∃ k : Nat, i = k + 1 := ⟨(i - 1).toNat, by omega⟩
        have hk : k < s.length := by omega
        rw [nth_eq_some hk, strget, copyChars_eq (k := k) (by omega) (by omega),
          List.drop_eq_getElem_cons hk]
        rfl
  · rw [if_neg hlen, if_pos (by omega)]
    rfl

/-- The elements from one place to another: none where one of the places does not exist, and
no elements where the second is before the first. -/
def range {α : Type} (l : List α) (lower upper : Int) : Option (List α) :=
  if upper < lower then some []
  else if 1 ≤ lower ∧ upper ≤ l.length then some (slice l lower upper)
  else none

def rangeOr (r : Option Var) : Except Error Var :=
  match r with
  | some v => .ok v
  | none => .error .eRange

theorem sublist_eq (hfits : (l.length : Int) < intMax) {lower upper : Int} (hlower : 1 ≤ lower) (hle : lower ≤ upper)
    (hupper : upper ≤ l.length) : sublist l lower upper = .ok (.list (slice l lower upper)) := by
  have hsize : wrap32 (wrap32 (upper - lower) + 1) = ((upper - lower + 1).toNat : Int) := by
    rw [wrap32_of_fits (n := upper - lower) (by omega) (by omega), wrap32_of_fits (by omega) (by omega)]
    omega
  have hcopy := @copyElements_eq l [] _ (upper - lower + 1).toNat lower 1 (lower - 1).toNat
    (by omega) rfl (by omega) (Nat.le_refl _)
  rw [sublist, if_neg (by omega), hsize, newList_eq (by omega), ok_bind_crash, hcopy, ok_bind_crash, Nat.sub_self,
    finish_partly]
  rfl

theorem opRangeRef_list (hfits : (l.length : Int) < intMax) (lower upper : Int) :
    opRangeRef (.list l) (.int lower) (.int upper) = .ok (rangeOr ((range l lower upper).map .list)) := by
  unfold opRangeRef range
  dsimp only
  by_cases hlt : upper < lower
  · rw [if_neg (by unfold outOfRange; omega), if_pos hlt, sublist, if_pos hlt]
    rfl
  · rw [if_neg hlt]
    by_cases hout : outOfRange l.length lower upper
    · rw [if_pos hout, if_neg (by unfold outOfRange at hout; omega)]
      rfl
    · rw [if_neg hout]
      unfold outOfRange at hout
      rw [if_pos (by omega), sublist_eq hfits (by omega) (by omega) (by omega)]
      rfl

theorem substr_eq {s : Str} {lower upper : Int} (hlower : 1 ≤ lower) (hle : lower ≤ upper) (hupper : upper ≤ s.length) :
    substr s lower upper = allocated (wrap32 (upper - lower + 2)) (slice s lower upper) := by
  rw [substr, if_neg (by omega), copyChars_eq (k := (lower - 1).toNat) (by omega) (by omega)]
  rfl

theorem length_slice {α : Type} {l : List α} {lower upper : Int} (hlower : 1 ≤ lower) (hupper : upper ≤ l.length) :
    (slice l lower upper).length = (upper - lower + 1).toNat := by
  rw [slice, List.length_take, List.length_drop]
  omega

/-- The range is one that the server takes, and its string can be allocated. -/
def rangeFits (s : Str) (lower upper : Int) : Prop :=
  1 ≤ lower → lower ≤ upper → upper ≤ s.length → upper ≤ intLength s ∧ upper - lower + 2 ≤ intMax

theorem opRangeRef_str {s : Str} {lower upper : Int} (hint : upper ≤ intMax) :
    opRangeRef (.str s) (.int lower) (.int upper) = .ok (rangeOr ((range s lower upper).map .str)) ↔
      rangeFits s lower upper := by
  have hlen := intLength_le s
  unfold opRangeRef range rangeFits
  dsimp only
  by_cases hlt : upper < lower
  · rw [if_neg (by unfold outOfRange; omega), if_pos hlt, substr, if_pos hlt]
    exact iff_of_true rfl fun _ h => by omega
  rw [if_neg hlt]
  by_cases hin : 1 ≤ lower ∧ upper ≤ s.length
  · rw [if_pos hin]
    by_cases hupper : upper ≤ intLength s
    · rw [if_neg (by unfold outOfRange; omega), substr_eq hin.1 (by omega) hin.2]
      have hlength := length_slice hin.1 hin.2
      obtain ⟨k, hk, hlow, hhigh⟩ := wrap32_cases (upper - lower + 2)
      rw [intMax_eq] at hint ⊢
      by_cases hroom : upper - lower + 2 ≤ 2147483647
      · rw [allocated, if_neg (by omega), if_neg (by omega)]
        exact iff_of_true rfl fun _ _ _ => ⟨hupper, hroom⟩
      · rw [allocated, if_pos (by omega)]
        refine iff_of_false (fun h => by cases h) fun h => ?_
        exact hroom (h hin.1 (by omega) hin.2).2
    · rw [if_pos (by unfold outOfRange; omega)]
      refine iff_of_false ?_ fun h => hupper (h hin.1 (by omega) hin.2).1
      intro h
      cases h
  · rw [if_neg hin, if_pos (by unfold outOfRange; omega)]
    exact iff_of_true rfl fun h₁ _ h₂ => absurd ⟨h₁, h₂⟩ hin

/-! Assignment to ranges. -/

theorem length_spliced {α : Type} {l value : List α} {from' to' : Int} (hfrom : from' ≤ l.length + 1) :
    (spliced l from' to' value).length = (from' - 1).toNat + value.length + (l.length - to'.toNat) := by
  simp only [spliced, List.length_append, List.length_take, List.length_drop]
  omega

theorem listrangeset_eq {m : List Var} {from' to' : Int} (hfrom : from' ≤ l.length + 1) (hto : 0 ≤ to')
    (hroom : ((spliced l from' to' m).length : Int) < intMax) :
    listrangeset l from' to' m = .ok (.list (spliced l from' to' m)) := by
  have hlength : (spliced l from' to' m).length = _ := length_spliced hfrom
  have hleft : (if 1 < from' then from' - 1 else 0) = ((from' - 1).toNat : Int) := by
    split <;> omega
  have hright : (if to' < (l.length : Int) then (l.length : Int) - to' else 0) = (l.length - to'.toNat : Nat) := by
    split <;> omega
  have hsize : ((from' - 1).toNat : Int) + m.length + (l.length - to'.toNat : Nat) =
      ((spliced l from' to' m).length : Int) := by
    rw [hlength]
    push_cast
    rfl
  have htake : (l.take (from' - 1).toNat).length = (from' - 1).toNat := by
    rw [List.length_take]
    omega
  unfold listrangeset
  simp only [hleft, hright, hsize, Int.toNat_natCast]
  rw [wrap32_of_fits (by omega) (by omega), newList_eq hroom, ok_bind_crash, copyFront (by omega) (by omega),
    ok_bind_crash, copyElements_eq (i := 1) (k := 0) rfl (by rw [htake]) (by omega) (by omega), ok_bind_crash,
    copyElements_eq (k := to'.toNat) (by omega) ?_ (by omega) (by omega), ok_bind_crash]
  · have hend : (spliced l from' to' m).length - (from' - 1).toNat - m.length - (l.length - to'.toNat) = 0 := by omega
    have hrest : (l.drop to'.toNat).take (l.length - to'.toNat) = l.drop to'.toNat :=
      List.take_of_length_le (Nat.le_of_eq List.length_drop)
    rw [hend, hrest, List.drop_zero, List.take_length, finish_partly]
    rfl
  · rw [List.length_append, htake, List.drop_zero, List.take_length]
    push_cast
    rfl

/-! A block keeps its size while it is filled. -/

abbrev Gives {α : Type} (P : α → Prop) (x : Except Crash α) : Prop := x.Meets (fun _ => False) P

theorem element_gives (l : List Var) (i : Int) : Gives (fun _ => True) (element l i) := by
  cases element l i with
  | error e => exact id
  | ok v => trivial

theorem store_gives (r : Cells) (i : Int) (v : Var) : Gives (fun r' => r'.length = r.length) (r.store i v) := by
  unfold Cells.store Cells.put
  split
  · next r' hput =>
      split at hput
      · cases hput
        exact List.length_set
      · cases hput
  · exact id

theorem copyElements_gives (l : List Var) (count : Nat) (i j : Int) (r : Cells) :
    Gives (fun r' => r'.length = r.length) (copyElements l count i j r) := by
  induction count generalizing i j r with
  | zero => exact rfl
  | succ count ih =>
      unfold copyElements
      refine (element_gives l i).bind fun v _ => ?_
      refine (store_gives r j v).bind fun r₁ h₁ => ?_
      exact (ih (i + 1) (j + 1) r₁).mono fun r' h => h.trans h₁

theorem mapM_id_length {r : Cells} (h : r.mapM id = some l) : l.length = r.length := by
  induction r generalizing l with
  | nil =>
      cases h
      rfl
  | cons v r ih =>
      rw [List.mapM_cons, Option.bind_eq_bind, Option.bind_eq_some_iff] at h
      obtain ⟨x, -, h⟩ := h
      rw [Option.bind_eq_bind, Option.bind_eq_some_iff] at h
      obtain ⟨l', hl', h⟩ := h
      cases h
      rw [List.length_cons, List.length_cons, ih hl']

theorem finish_gives (r : Cells) : Gives (fun v => ∀ l, v = .list l → l.length = r.length) r.finish := by
  unfold Cells.finish Cells.value
  cases hm : r.mapM id with
  | none => exact id
  | some l =>
      rintro _ ⟨⟩
      exact mapM_id_length hm

theorem newList_gives (size : Int) : Gives (fun r => (r.length : Int) = size ∧ size < intMax) (newList size) := by
  unfold newList
  split
  · exact id
  · next h =>
      obtain ⟨hpos, hlt⟩ := not_or.mp h
      exact ⟨by rw [List.length_replicate]; exact Int.toNat_of_nonneg (Int.not_lt.mp hpos), Int.not_le.mp hlt⟩

theorem listrangeset_gives (l m : List Var) (from' to' : Int) :
    Gives (fun v => ∀ l', v = .list l' → (l'.length : Int) = wrap32 ((if 1 < from' then from' - 1 else 0) + m.length +
      (if to' < (l.length : Int) then (l.length : Int) - to' else 0)) ∧ (l'.length : Int) < intMax)
      (listrangeset l from' to' m) := by
  unfold listrangeset
  refine (newList_gives _).bind fun r hr => ?_
  refine (copyElements_gives ..).bind fun r₁ h₁ => ?_
  refine (copyElements_gives ..).bind fun r₂ h₂ => ?_
  refine (copyElements_gives ..).bind fun r₃ h₃ => ?_
  refine (finish_gives r₃).mono fun v hv l' hl' => ?_
  rw [hv l' hl', h₃, h₂, h₁]
  exact ⟨hr.1, hr.1 ▸ hr.2⟩

theorem listrangeset_ne {m : List Var} {from' to' : Int} (hroom : ¬ ((spliced l from' to' m).length : Int) < intMax) :
    listrangeset l from' to' m ≠ .ok (.list (spliced l from' to' m)) := by
  intro h
  exact hroom ((listrangeset_gives l m from' to').of_ok h _ rfl).2

/-- A sequence with others in place of a range of it. The range may begin right behind the end. -/
def splice {α : Type} (l : List α) (from' to' : Int) (value : List α) : Option (List α) :=
  if l.length + 1 < from' ∨ to' < 0 then none else some (spliced l from' to' value)

theorem rangesetCheck_eq {n : Nat} (hn : (n : Int) < intMax) (from' to' : Int) :
    rangesetCheck n from' to' = true ↔ n + 1 < from' ∨ to' < 0 := by
  simp [rangesetCheck, wrap32_of_fits (n := n + 1) (by omega) (by omega)]

def listFits (l : List Var) (from' to' : Int) (m : List Var) : Prop :=
  from' ≤ l.length + 1 → 0 ≤ to' → ((spliced l from' to' m).length : Int) < intMax

theorem eopRangeset_list (hfits : (l.length : Int) < intMax) (m : List Var) (from' to' : Int) :
    eopRangeset (.list l) (.int from') (.int to') (.list m) = .ok (rangeOr ((splice l from' to' m).map .list)) ↔
      listFits l from' to' m := by
  have hcheck := rangesetCheck_eq hfits from' to'
  have hrun : eopRangeset (.list l) (.int from') (.int to') (.list m) =
      if rangesetCheck l.length from' to' then .ok (.error .eRange)
      else (listrangeset l from' to' m >>= fun v => .ok (.ok v)) := rfl
  unfold splice listFits
  rw [hrun]
  by_cases hout : l.length + 1 < from' ∨ to' < 0
  · rw [if_pos (hcheck.mpr hout), if_pos hout]
    exact iff_of_true rfl fun _ _ => by omega
  rw [if_neg (mt hcheck.mp hout), if_neg hout]
  obtain ⟨hfrom, hto⟩ := not_or.mp hout
  by_cases hroom : ((spliced l from' to' m).length : Int) < intMax
  · rw [listrangeset_eq (by omega) (by omega) hroom]
    exact iff_of_true rfl fun _ _ => hroom
  · refine iff_of_false (fun h => ?_) fun h => hroom (h (by omega) (by omega))
    cases hset : listrangeset l from' to' m with
    | error e =>
        rw [hset] at h
        cases h
    | ok v =>
        rw [hset] at h
        cases h
        exact listrangeset_ne hroom hset

theorem copyChars_gives (s : Str) (count : Nat) (i : Int) : Gives (fun t => t.length = count) (copyChars s count i) := by
  induction count generalizing i with
  | zero => exact rfl
  | succ count ih =>
      unfold copyChars
      split
      · split
        · refine (ih (i + 1)).bind fun t ht => ?_
          exact congrArg (· + 1) ht
        · exact id
      · exact id

theorem allocated_gives (size : Int) (s : Str) :
    Gives (fun v => v = .str s ∧ s.length + 1 ≤ size) (allocated size s) := by
  unfold allocated
  split
  · exact id
  · split
    · exact id
    · next h => exact ⟨rfl, Int.not_lt.mp h⟩

theorem strrangeset_gives (s m : Str) (from' to' : Int) :
    Gives (fun v => ∀ t, v = .str t → (t.length : Int) < intMax ∧ t.length = (if 1 < from' then from' - 1 else 0).toNat +
      (intLength m).toNat + (if to' < intLength s then intLength s - to' else 0).toNat) (strrangeset s from' to' m) := by
  unfold strrangeset
  dsimp only
  generalize (if to' < intLength s then intLength s - to' else 0) = lenright
  generalize (if 1 < from' then from' - 1 else 0) = lenleft
  generalize intLength m = valLen
  refine (copyChars_gives s lenleft.toNat 0).bind fun left hleft => ?_
  refine (copyChars_gives m valLen.toNat 0).bind fun middle hmiddle => ?_
  refine (copyChars_gives s lenright.toNat to').bind fun right hright => ?_
  refine (allocated_gives _ _).mono fun v hv t ht => ?_
  obtain ⟨hv, hsize⟩ := hv
  rw [hv, Var.str.injEq] at ht
  rw [← ht]
  exact ⟨lt_intMax hsize, by rw [List.length_append, List.length_append, hleft, hmiddle, hright]⟩

theorem allocated_eq (s : Str) : allocated (s.length + 1) s = .ok (.str s) := by
  rw [allocated, if_neg (by omega), if_neg (by omega)]

theorem wrap32_succ {n : Nat} (h : (n : Int) < intMax) : wrap32 (wrap32 n + 1) = n + 1 := by
  rw [wrap32_of_fits (n := n) (by omega) (by omega), wrap32_of_fits (by omega) (by omega)]

theorem strrangeset_eq {s m : Str} {from' to' : Int} (hs : (s.length : Int) ≤ intMax) (hfrom : from' ≤ s.length + 1)
    (hto : 0 ≤ to') (hroom : ((spliced s from' to' m).length : Int) < intMax) :
    strrangeset s from' to' m = .ok (.str (spliced s from' to' m)) := by
  have hlength : (spliced s from' to' m).length = _ := length_spliced hfrom
  have hbase : intLength s = s.length := wrap32_of_fits (by omega) hs
  have hvalue : intLength m = m.length := wrap32_of_fits (by omega) (by omega)
  have hleft : (if 1 < from' then from' - 1 else 0) = ((from' - 1).toNat : Int) := by
    split <;> omega
  have hright : (if to' < (s.length : Int) then (s.length : Int) - to' else 0) = (s.length - to'.toNat : Nat) := by
    split <;> omega
  have hsize : ((from' - 1).toNat : Int) + m.length + (s.length - to'.toNat : Nat) =
      ((spliced s from' to' m).length : Int) := by
    rw [hlength]
    push_cast
    rfl
  have hrest : (s.drop to'.toNat).take (s.length - to'.toNat) = s.drop to'.toNat :=
    List.take_of_length_le (Nat.le_of_eq List.length_drop)
  unfold strrangeset
  simp only [hbase, hvalue, hleft, hright, hsize, Int.toNat_natCast]
  rw [copyChars_front (by omega), ok_bind_crash, copyChars_front (Nat.le_refl _), ok_bind_crash]
  have hcopy : copyChars s (s.length - to'.toNat) to' = .ok (s.drop to'.toNat) := by
    cases hcount : s.length - to'.toNat with
    | zero => rw [copyChars, List.drop_of_length_le (by omega)]
    | succ count =>
        rw [← hcount, copyChars_eq (k := to'.toNat) (by omega) (by omega), hrest]
  rw [hcopy, ok_bind_crash, List.take_length]
  rw [wrap32_succ hroom]
  exact allocated_eq _

/-- The string that is assigned can be allocated, and the length of the string that is
assigned to can be counted one further. -/
def strFits (s : Str) (from' to' : Int) (m : Str) : Prop :=
  from' ≤ s.length + 1 → 0 ≤ to' → ((spliced s from' to' m).length : Int) < intMax ∧
    ((s.length : Int) < intMax ∨ (s.length : Int) = intMax ∧ from' = -2147483648)

theorem eopRangeset_run (s m : Str) (from' to' : Int) :
    eopRangeset (.str s) (.int from') (.int to') (.str m) =
      if rangesetCheck (min s.length intMax) from' to' then .ok (.error .eRange)
      else (strrangeset s from' to' m >>= fun v => .ok (.ok v)) := rfl

theorem left_toNat (from' : Int) : (if 1 < from' then from' - 1 else 0).toNat = (from' - 1).toNat := by
  split <;> omega

theorem rest_shorter {n : Nat} {b to' : Int} (hto : 0 ≤ to') (hb : b < n) (hn : to' < n) :
    (if to' < b then b - to' else 0).toNat < n - to'.toNat := by
  split <;> omega

theorem strrangeset_iff {s m : Str} {from' to' : Int} (hfrom : from' ≤ s.length + 1) (hto : 0 ≤ to') (hto' : to' ≤ intMax) :
    strrangeset s from' to' m = .ok (.str (spliced s from' to' m)) ↔
      ((spliced s from' to' m).length : Int) < intMax ∧ (s.length : Int) ≤ intMax := by
  constructor
  · intro h
    obtain ⟨hlt, hlen⟩ := (strrangeset_gives s m from' to').of_ok h _ rfl
    refine ⟨hlt, ?_⟩
    by_contra hlong
    rw [length_spliced hfrom] at hlen
    have hlong : intMax < s.length := Int.not_le.mp hlong
    have hbase : intLength s < s.length := Int.lt_of_le_of_lt (wrap32_le _) hlong
    have hright := rest_shorter hto hbase (Int.lt_of_le_of_lt hto' hlong)
    have hvalue : (intLength m).toNat ≤ m.length := Int.toNat_le.mpr (intLength_le m)
    rw [left_toNat] at hlen
    clear hto' hlong hlt h
    omega
  · rintro ⟨hroom, hs⟩
    exact strrangeset_eq hs hfrom hto hroom

theorem eopRangeset_str {s m : Str} {from' to' : Int} (hfrom32 : -2147483648 ≤ from') (hfrom32' : from' ≤ intMax)
    (hto32 : to' ≤ intMax) :
    eopRangeset (.str s) (.int from') (.int to') (.str m) = .ok (rangeOr ((splice s from' to' m).map .str)) ↔
      strFits s from' to' m := by
  have hset : ∀ {x : Except Crash Var} {v : Var}, (x >>= fun v => (.ok (.ok v) : Except Crash (Except Error Var))) =
      .ok (.ok v) ↔ x = .ok v := by
    intro x v
    cases x with
    | error e => exact iff_of_false (fun h => by cases h) fun h => by cases h
    | ok w => exact ⟨fun h => by cases h; rfl, fun h => by cases h; rfl⟩
  rw [eopRangeset_run]
  unfold splice strFits
  by_cases hto : to' < 0
  · have hcheck : rangesetCheck (min s.length intMax) from' to' = true := by
      simp [rangesetCheck, hto]
    rw [if_pos hcheck, if_pos (.inr hto)]
    exact iff_of_true rfl fun _ h => absurd hto (Int.not_lt.mpr h)
  by_cases hshort : (s.length : Int) < intMax
  · have hmin : min (s.length : Int) intMax = s.length := Int.min_eq_left (Int.le_of_lt hshort)
    have hcheck := rangesetCheck_eq hshort from' to'
    rw [hmin]
    by_cases hfrom : s.length + 1 < from'
    · rw [if_pos (hcheck.mpr (.inl hfrom)), if_pos (.inl hfrom)]
      exact iff_of_true rfl fun h => absurd hfrom (Int.not_lt.mpr h)
    · rw [if_neg (mt hcheck.mp (not_or.mpr ⟨hfrom, hto⟩)), if_neg (not_or.mpr ⟨hfrom, hto⟩)]
      refine hset.trans ((strrangeset_iff (by omega) (by omega) hto32).trans ?_)
      exact ⟨fun h _ _ => ⟨h.1, .inl hshort⟩, fun h => ⟨(h (by omega) (by omega)).1, Int.le_of_lt hshort⟩⟩
  · have hmin : min (s.length : Int) intMax = intMax := Int.min_eq_right (Int.not_lt.mp hshort)
    have hwrap : wrap32 (intMax + 1) = -2147483648 := by decide
    have hfrom : ¬ (s.length + 1 < from') := by omega
    rw [hmin, if_neg (not_or.mpr ⟨hfrom, hto⟩)]
    by_cases hlow : from' = -2147483648
    · have hcheck : ¬ rangesetCheck intMax from' to' = true := by
        simp [rangesetCheck, hwrap, hto, hlow]
      rw [if_neg hcheck]
      refine hset.trans ((strrangeset_iff (by omega) (by omega) hto32).trans ?_)
      constructor
      · exact fun h _ _ => ⟨h.1, .inr ⟨by omega, hlow⟩⟩
      · intro h
        obtain ⟨hroom, h | h⟩ := h (by omega) (by omega)
        · exact ⟨hroom, Int.le_of_lt h⟩
        · exact ⟨hroom, Int.le_of_eq h.1⟩
    · have hcheck : rangesetCheck intMax from' to' = true := by
        have : wrap32 (intMax + 1) < from' := by omega
        simp [rangesetCheck, this]
      rw [if_pos hcheck]
      refine iff_of_false (fun h => by cases h) fun h => ?_
      obtain ⟨-, h | h⟩ := h (by omega) (by omega)
      · exact hshort h
      · exact hlow h.2

/-! All of the operations. -/

/-- What the operation is to give for arguments of the right count and types. -/
def refChecked (minargs : Nat) (prototype : List (Var → Bool)) (args : List Operand)
    (f : List Var → Except Error Var) : Except Error Var :=
  match checkArgs minargs prototype (values args) with
  | some e => .error e
  | none => f (values args)

def Edit.reference : Edit → Except Error Var
  | .setadd args => refChecked 2 [Var.isList, any] args fun
      | [.list l, v] => .ok (.list (if l.any (same v) then l else l ++ [v]))
      | _ => .error .eType
  | .setremove args => refChecked 2 [Var.isList, any] args fun
      | [.list l, v] => .ok (.list (l.eraseP (same v)))
      | _ => .error .eType
  | .listappend args => refChecked 2 [Var.isList, any, Var.isInt] args fun
      | [.list l, v] => .ok (.list (l ++ [v]))
      | [.list l, v, .int num] => .ok (.list (insertAt l v (num + 1)))
      | _ => .error .eType
  | .listinsert args => refChecked 2 [Var.isList, any, Var.isInt] args fun
      | [.list l, v] => .ok (.list (v :: l))
      | [.list l, v, .int num] => .ok (.list (insertAt l v num))
      | _ => .error .eType
  | .listdelete args => refChecked 2 [Var.isList, Var.isInt] args fun
      | [.list l, .int num] =>
          if 1 ≤ num ∧ num ≤ l.length then .ok (.list (l.eraseIdx (num - 1).toNat)) else .error .eRange
      | _ => .error .eType
  | .ref list index =>
      match list.val, index.val with
      | .list l, .int i => elementOr l i
      | .str s, .int i => characterOr s i
      | _, _ => .error .eType
  | .pushRef list index =>
      match list.val, index.val with
      | .list l, .int i => elementOr l i
      | _, _ => .error .eType
  | .rangeRef base from' to' =>
      match base.val, from'.val, to'.val with
      | .list l, .int from', .int to' => rangeOr ((range l from' to').map .list)
      | .str s, .int from', .int to' => rangeOr ((range s from' to').map .str)
      | _, _, _ => .error .eType
  | .rangeset base from' to' value =>
      match base.val, from'.val, to'.val, value.val with
      | .list l, .int from', .int to', .list m => rangeOr ((splice l from' to' m).map .list)
      | .str s, .int from', .int to', .str m => rangeOr ((splice s from' to' m).map .str)
      | _, _, _, _ => .error .eType

def hasString : Var → Prop
  | .str _ | .list _ => True
  | .float bits => hasZeroByte bits = true
  | _ => False

def Edit.safe : Edit → Prop
  | .setadd args =>
      match values args with
      | [.list l, v] => roomy l ∨ l.any (same v) = true
      | _ => True
  | .listappend args =>
      match values args with
      | [.list l, _] => roomy l
      | [.list l, v, .int num] => roomy l ∧ (num = intMax → ∀ x ∈ l, x = v)
      | _ => True
  | .listinsert args =>
      match values args with
      | [.list l, _] | [.list l, _, .int _] => roomy l
      | _ => True
  | .ref list index =>
      match list.val, index.val with
      | .str s, .int i => 1 ≤ i → i ≤ s.length → i ≤ intLength s
      | _, _ => True
  | .rangeRef base from' to' =>
      match base.val, from'.val, to'.val with
      | .str s, .int from', .int to' => rangeFits s from' to'
      | _, _, _ => True
  | .rangeset base from' to' value =>
      hasString base.val ∧
        match base.val, from'.val, to'.val, value.val with
        | .list l, .int from', .int to', .list m => listFits l from' to' m
        | .str s, .int from', .int to', .str m => strFits s from' to' m
        | _, _, _, _ => True
  | _ => True

theorem values_spec (args : List Operand) (h : v ∈ values args) : v.isValue = true ∧ v.storable = true := by
  obtain ⟨a, -, rfl⟩ := List.mem_map.mp h
  exact a.property

theorem isList_iff (v : Var) : v.isList = true ↔ ∃ l, v = .list l := by
  cases v <;> simp [Var.isList]

theorem isInt_iff (v : Var) : v.isInt = true ↔ ∃ n, v = .int n := by
  cases v <;> simp [Var.isInt]

theorem checkArgs_none {minargs : Nat} {prototype : List (Var → Bool)} {args : List Var}
    (h : checkArgs minargs prototype args = none) :
    minargs ≤ args.length ∧ args.length ≤ prototype.length ∧ ∀ p ∈ args.zip prototype, p.2 p.1 = true := by
  unfold checkArgs at h
  split at h
  · cases h
  · next hcount =>
      split at h
      · next htypes =>
          rw [List.all_eq_true] at htypes
          exact ⟨by omega, by omega, htypes⟩
      · cases h

theorem checkArgs_pair {args : List Var} {proto : Var → Bool} (h : checkArgs 2 [Var.isList, proto] args = none) :
    ∃ l v, args = [.list l, v] ∧ proto v = true := by
  obtain ⟨hmin, hmax, htypes⟩ := checkArgs_none h
  match args with
  | [] | [_] => simp at hmin
  | [a, v] =>
      obtain ⟨l, rfl⟩ := (isList_iff a).mp (htypes (a, Var.isList) (by simp))
      exact ⟨l, v, rfl, htypes (v, proto) (by simp)⟩
  | _ :: _ :: _ :: _ =>
      simp only [List.length_cons, List.length_nil] at hmax
      omega

theorem checkArgs_place {args : List Var} (h : checkArgs 2 [Var.isList, any, Var.isInt] args = none) :
    (∃ l v, args = [.list l, v]) ∨ ∃ l v n, args = [.list l, v, .int n] := by
  obtain ⟨hmin, hmax, htypes⟩ := checkArgs_none h
  match args with
  | [] | [_] => simp at hmin
  | [a, v] =>
      obtain ⟨l, rfl⟩ := (isList_iff a).mp (htypes (a, Var.isList) (by simp))
      exact .inl ⟨l, v, rfl⟩
  | [a, v, b] =>
      obtain ⟨l, rfl⟩ := (isList_iff a).mp (htypes (a, Var.isList) (by simp))
      obtain ⟨n, rfl⟩ := (isInt_iff b).mp (htypes (b, Var.isInt) (by simp))
      exact .inr ⟨l, v, n, rfl⟩
  | _ :: _ :: _ :: _ :: _ =>
      simp only [List.length_cons, List.length_nil] at hmax
      omega

theorem checked_iff {minargs : Nat} {prototype : List (Var → Bool)} {args : List Operand}
    {f : List Var → Except Crash (Except Error Var)} {g : List Var → Except Error Var} {P : Prop}
    (hnone : checkArgs minargs prototype (values args) = none → (f (values args) = .ok (g (values args)) ↔ P))
    (hsome : checkArgs minargs prototype (values args) ≠ none → P) :
    checked minargs prototype args f = .ok (refChecked minargs prototype args g) ↔ P := by
  unfold checked refChecked
  cases h : checkArgs minargs prototype (values args) with
  | none => exact hnone h
  | some e => exact iff_of_true rfl (hsome (by simp [h]))

theorem ok_ok {x : Except Crash Var} {w : Var} :
    (x >>= fun v => (pure (.ok v) : Except Crash (Except Error Var))) = .ok (.ok w) ↔ x = .ok w := by
  cases x with
  | error e => exact iff_of_false (fun h => by cases h) fun h => by cases h
  | ok v => exact ⟨fun h => by cases h; rfl, fun h => by cases h; rfl⟩

theorem storable_list (h : (Var.list l).storable = true) : (l.length : Int) < intMax := by
  simpa [Var.storable] using h

theorem storable_int {n : Int} (h : (Var.int n).storable = true) : -2147483648 ≤ n ∧ n ≤ intMax := by
  simpa [Var.storable] using h

theorem values_list {args : List Operand} (h : values args = .list l :: done) :
    Var.areValues l = true ∧ (l.length : Int) < intMax := by
  obtain ⟨hl, hfits⟩ := values_spec args (v := .list l) (by simp [h])
  exact ⟨hl, storable_list hfits⟩

theorem pair_refused {args : List Operand} {proto : Var → Bool} {l : List Var} {v : Var}
    (h : checkArgs 2 [Var.isList, proto] (values args) ≠ none) (hproto : proto v = true) : values args ≠ [.list l, v] := by
  intro hargs
  rw [hargs] at h
  simp [checkArgs, Var.isList, hproto] at h

theorem setadd_iff (args : List Operand) (refcount : Nat) :
    (Edit.setadd args).run refcount = .ok (Edit.setadd args).reference ↔ (Edit.setadd args).safe := by
  unfold Edit.run Edit.reference
  refine checked_iff (fun h => ?_) fun h => ?_
  · obtain ⟨l, v, hargs, -⟩ := checkArgs_pair h
    obtain ⟨hl, hfits⟩ := values_list hargs
    obtain ⟨hv, -⟩ := values_spec args (v := v) (by simp [hargs])
    simp only [Edit.safe, hargs, bfSetadd]
    rw [ok_ok]
    by_cases hroom : roomy l ∨ l.any (same v) = true
    · exact iff_of_true (setadd_eq hv hl hroom refcount) hroom
    · obtain ⟨hroom', hnone⟩ := not_or.mp hroom
      rw [setadd_panic hv hl hfits hroom' (Bool.eq_false_iff.mpr hnone)]
      exact iff_of_false (fun h => by cases h) hroom
  · dsimp only [Edit.safe]
    split
    · next l v hargs => exact absurd hargs (pair_refused h rfl)
    · trivial

theorem setremove_ok (args : List Operand) (refcount : Nat) :
    (Edit.setremove args).run refcount = .ok (Edit.setremove args).reference := by
  unfold Edit.run Edit.reference
  refine (checked_iff (P := True) (fun h => ?_) fun _ => trivial).mpr trivial
  obtain ⟨l, v, hargs, -⟩ := checkArgs_pair h
  obtain ⟨hl, hfits⟩ := values_list hargs
  obtain ⟨hv, -⟩ := values_spec args (v := v) (by simp [hargs])
  simp only [hargs, bfSetremove]
  rw [ok_ok]
  exact iff_of_true (setremove_eq hv hl hfits) trivial

/-- To put an element before the others is to put it behind them only where all are alike. -/
theorem cons_eq_append_iff {α : Type} (x : α) (l : List α) : x :: l = l ++ [x] ↔ ∀ y ∈ l, y = x := by
  induction l with
  | nil => simp
  | cons y l ih =>
      rw [List.cons_append, List.cons_eq_cons, List.forall_mem_cons]
      constructor
      · rintro ⟨rfl, h⟩
        exact ⟨rfl, ih.mp h⟩
      · rintro ⟨rfl, h⟩
        exact ⟨rfl, ih.mpr h⟩

theorem ok_list_inj {m m' : List Var} : (Except.ok (.list m) : Except Crash Var) = .ok (.list m') ↔ m = m' := by
  rw [Except.ok.injEq, Var.list.injEq]

theorem listappend_place {num : Int} (hroom : roomy l) (hnum : -2147483648 ≤ num) (hnum' : num ≤ intMax) :
    listinsert refcount l v (wrap32 (num + 1)) = .ok (.list (insertAt l v (num + 1))) ↔
      (num = intMax → ∀ x ∈ l, x = v) := by
  rw [listinsert_eq hroom, ok_list_inj]
  unfold roomy at hroom
  by_cases hmax : num = intMax
  · subst hmax
    have hwrap : wrap32 (intMax + 1) = -2147483648 := by decide
    rw [hwrap, insertAt_front (by omega), insertAt_end (by omega), cons_eq_append_iff]
    exact ⟨fun h _ => h, fun h => h rfl⟩
  · rw [wrap32_of_fits (by omega) (by omega)]
    exact iff_of_true rfl fun h => absurd h hmax

theorem place_refused {args : List Operand} (h : checkArgs 2 [Var.isList, any, Var.isInt] (values args) ≠ none) :
    values args ≠ [.list l, v] ∧ ∀ n, values args ≠ [.list l, v, .int n] := by
  constructor
  · intro hargs
    rw [hargs] at h
    exact h rfl
  · intro n hargs
    rw [hargs] at h
    exact h rfl

theorem listappend_iff (args : List Operand) (refcount : Nat) :
    (Edit.listappend args).run refcount = .ok (Edit.listappend args).reference ↔ (Edit.listappend args).safe := by
  unfold Edit.run Edit.reference
  refine checked_iff (fun h => ?_) fun h => ?_
  · obtain ⟨l, v, hargs⟩ | ⟨l, v, n, hargs⟩ := checkArgs_place h
    all_goals
      obtain ⟨-, hfits⟩ := values_list hargs
      simp only [Edit.safe, hargs, bfListappend]
      rw [ok_ok]
    · by_cases hroom : roomy l
      · exact iff_of_true (listappend_eq hroom refcount v) hroom
      · rw [listappend_panic hfits hroom]
        exact iff_of_false (fun h => by cases h) hroom
    · obtain ⟨-, hn⟩ := values_spec args (v := .int n) (by simp [hargs])
      obtain ⟨hlow, hhigh⟩ := storable_int hn
      by_cases hroom : roomy l
      · rw [listappend_place hroom hlow hhigh]
        exact ⟨fun h => ⟨hroom, h⟩, fun h => h.2⟩
      · rw [listinsert_panic hfits hroom]
        exact iff_of_false (fun h => by cases h) fun h => hroom h.1
  · dsimp only [Edit.safe]
    split
    · next l v hargs => exact absurd hargs (place_refused h).1
    · next l v n hargs => exact absurd hargs ((place_refused h).2 n)
    · trivial

theorem listinsert_iff (args : List Operand) (refcount : Nat) :
    (Edit.listinsert args).run refcount = .ok (Edit.listinsert args).reference ↔ (Edit.listinsert args).safe := by
  unfold Edit.run Edit.reference
  refine checked_iff (fun h => ?_) fun h => ?_
  · obtain ⟨l, v, hargs⟩ | ⟨l, v, n, hargs⟩ := checkArgs_place h
    all_goals
      obtain ⟨-, hfits⟩ := values_list hargs
      simp only [Edit.safe, hargs, bfListinsert]
      rw [ok_ok]
      by_cases hroom : roomy l
    · rw [listinsert_eq hroom, insertAt_front (Int.le_refl 1)]
      exact iff_of_true rfl hroom
    · rw [listinsert_panic hfits hroom]
      exact iff_of_false (fun h => by cases h) hroom
    · exact iff_of_true (listinsert_eq hroom refcount v n) hroom
    · rw [listinsert_panic hfits hroom]
      exact iff_of_false (fun h => by cases h) hroom
  · dsimp only [Edit.safe]
    split
    · next l v hargs => exact absurd hargs (place_refused h).1
    · next l v n hargs => exact absurd hargs ((place_refused h).2 n)
    · trivial

theorem listdelete_ok (args : List Operand) (refcount : Nat) :
    (Edit.listdelete args).run refcount = .ok (Edit.listdelete args).reference := by
  unfold Edit.run Edit.reference
  refine (checked_iff (P := True) (fun h => ?_) fun _ => trivial).mpr trivial
  obtain ⟨l, v, hargs, hint⟩ := checkArgs_pair h
  obtain ⟨n, rfl⟩ := (isInt_iff v).mp hint
  obtain ⟨-, hfits⟩ := values_list hargs
  simp only [hargs, bfListdelete]
  refine iff_of_true ?_ trivial
  by_cases hplace : 1 ≤ n ∧ n ≤ l.length
  · obtain ⟨k, rfl⟩ : ∃ k : Nat, n = k + 1 := ⟨(n - 1).toNat, by omega⟩
    have hindex : ((k : Int) + 1 - 1).toNat = k := by omega
    rw [if_neg (by omega), if_pos hplace, hindex, ok_ok]
    exact listdelete_eq hfits (by omega)
  · rw [if_pos (by omega), if_neg hplace]
    rfl

theorem ok_inj {x y : Except Error Var} : (Except.ok x : Except Crash (Except Error Var)) = .ok y ↔ x = y := by
  rw [Except.ok.injEq]

theorem ref_iff (list index : Operand) (refcount : Nat) :
    (Edit.ref list index).run refcount = .ok (Edit.ref list index).reference ↔ (Edit.ref list index).safe := by
  obtain ⟨list, -⟩ := list
  obtain ⟨index, -⟩ := index
  cases list with
  | list l =>
      cases index with
      | int i => exact iff_of_true (opRef_list l i) trivial
      | _ => exact iff_of_true rfl trivial
  | str s =>
      cases index with
      | int i =>
          dsimp only [Edit.run, Edit.reference, Edit.safe]
          have hle := intLength_le s
          rw [opRef_str, ok_inj]
          by_cases hlen : i ≤ intLength s
          · rw [if_pos hlen]
            exact iff_of_true rfl fun _ _ => hlen
          · rw [if_neg hlen]
            by_cases hplace : 1 ≤ i ∧ i ≤ s.length
            · refine iff_of_false ?_ fun h => hlen (h hplace.1 hplace.2)
              obtain ⟨k, rfl⟩ : ∃ k : Nat, i = k + 1 := ⟨(i - 1).toNat, by omega⟩
              have hk : k < s.length := by omega
              rw [characterOr, nth_eq_some hk]
              exact fun h => by cases h
            · refine iff_of_true ?_ fun h₁ h₂ => absurd ⟨h₁, h₂⟩ hplace
              rw [characterOr, nth_eq_none (by omega)]
      | _ => exact iff_of_true rfl trivial
  | _ => exact iff_of_true rfl trivial

theorem pushRef_ok (list index : Operand) (refcount : Nat) :
    (Edit.pushRef list index).run refcount = .ok (Edit.pushRef list index).reference := by
  obtain ⟨list, -⟩ := list
  obtain ⟨index, -⟩ := index
  cases list with
  | list l =>
      cases index with
      | int i => exact opRef_list l i
      | _ => rfl
  | _ => rfl

theorem rangeRef_iff (base from' to' : Operand) (refcount : Nat) :
    (Edit.rangeRef base from' to').run refcount = .ok (Edit.rangeRef base from' to').reference ↔
      (Edit.rangeRef base from' to').safe := by
  obtain ⟨base, -, hbase⟩ := base
  obtain ⟨from', -⟩ := from'
  obtain ⟨to', -, hto⟩ := to'
  cases base with
  | list l =>
      cases from' with
      | int lower =>
          cases to' with
          | int upper => exact iff_of_true (opRangeRef_list (storable_list hbase) lower upper) trivial
          | _ => exact iff_of_true rfl trivial
      | _ => exact iff_of_true rfl trivial
  | str s =>
      cases from' with
      | int lower =>
          cases to' with
          | int upper => exact opRangeRef_str (storable_int hto).2
          | _ => exact iff_of_true rfl trivial
      | _ => exact iff_of_true rfl trivial
  | _ => exact iff_of_true rfl trivial

theorem eopRangeset_type {base : Var} (from' to' value : Var) (hbase : ∀ l, base ≠ .list l) (hbase' : ∀ s, base ≠ .str s) :
    eopRangeset base from' to' value = .ok (.error .eType) ↔ hasString base := by
  cases base with
  | list l => exact absurd rfl (hbase l)
  | str s => exact absurd rfl (hbase' s)
  | float bits =>
      by_cases hzero : hasZeroByte bits = true
      · refine iff_of_true ?_ hzero
        rw [eopRangeset, strlenAnyway, if_pos hzero]
        rfl
      · refine iff_of_false ?_ hzero
        rw [eopRangeset, strlenAnyway, if_neg hzero]
        exact fun h => by cases h
  | _ => exact iff_of_false (fun h => by cases h) id

theorem rangeset_iff (base from' to' value : Operand) (refcount : Nat) :
    (Edit.rangeset base from' to' value).run refcount = .ok (Edit.rangeset base from' to' value).reference ↔
      (Edit.rangeset base from' to' value).safe := by
  obtain ⟨base, -, hbase⟩ := base
  obtain ⟨from', -, hfrom⟩ := from'
  obtain ⟨to', -, hto⟩ := to'
  obtain ⟨value, -⟩ := value
  cases base with
  | list l =>
      cases from' with
      | int lower =>
          cases to' with
          | int upper =>
              cases value with
              | list m => exact (eopRangeset_list (storable_list hbase) m lower upper).trans (iff_of_eq (true_and _)).symm
              | _ => exact iff_of_true rfl ⟨trivial, trivial⟩
          | _ => exact iff_of_true rfl ⟨trivial, trivial⟩
      | _ => exact iff_of_true rfl ⟨trivial, trivial⟩
  | str s =>
      cases from' with
      | int lower =>
          cases to' with
          | int upper =>
              cases value with
              | str m =>
                  obtain ⟨hlow, hhigh⟩ := storable_int hfrom
                  exact (eopRangeset_str hlow hhigh (storable_int hto).2).trans (iff_of_eq (true_and _)).symm
              | _ => exact iff_of_true rfl ⟨trivial, trivial⟩
          | _ => exact iff_of_true rfl ⟨trivial, trivial⟩
      | _ => exact iff_of_true rfl ⟨trivial, trivial⟩
  | _ =>
      apply (eopRangeset_type from' to' value ?_ ?_).trans (iff_of_eq (and_true _)).symm
      · exact fun _ h => by cases h
      · exact fun _ h => by cases h

/-- The editing of lists and strings gives what the operations on sequences give, with its
list shared or not, exactly where the largest place is not appended at, the assignment to a
range is to a value that has a string to be measured, and the lengths have room. -/
theorem Edit.run_iff (e : Edit) (refcount : Nat) : e.run refcount = .ok e.reference ↔ e.safe := by
  cases e with
  | setadd args => exact setadd_iff args refcount
  | setremove args => exact iff_of_true (setremove_ok args refcount) trivial
  | listappend args => exact listappend_iff args refcount
  | listinsert args => exact listinsert_iff args refcount
  | listdelete args => exact iff_of_true (listdelete_ok args refcount) trivial
  | ref list index => exact ref_iff list index refcount
  | pushRef list index => exact iff_of_true (pushRef_ok list index refcount) trivial
  | rangeRef base from' to' => exact rangeRef_iff base from' to' refcount
  | rangeset base from' to' value => exact rangeset_iff base from' to' value refcount

/-- `listappend({1, 2}, 3, 2147483647)` inserts before the front, and an assignment to a range
of an integer takes its bits for a pointer. -/
theorem listappend_not_end :
    ∃ e e' : Edit, (∃ l v, e.reference = .ok (.list l) ∧ e.run 2 = .ok (.ok (.list v)) ∧ l = [.int 1, .int 2, .int 3] ∧
      v = [.int 3, .int 1, .int 2]) ∧ e'.reference = .error .eType ∧ e'.run 2 = .error .wild := by
  let list : Operand := ⟨.list [.int 1, .int 2], by decide⟩
  let num (n : Int) (h : (Var.int n).storable = true) : Operand := ⟨.int n, rfl, h⟩
  let text : Operand := ⟨.str ['a'], by decide⟩
  refine ⟨.listappend [list, num 3 rfl, num intMax rfl], .rangeset (num 5 rfl) (num 1 rfl) (num 2 rfl) text, ?_, rfl, rfl⟩
  exact ⟨_, _, rfl, rfl, rfl, rfl⟩

end LambdaMoo
