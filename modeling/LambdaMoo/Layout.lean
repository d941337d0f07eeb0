import Mathlib.Data.List.Induction
import Mathlib.Tactic.Ring
import LambdaMoo.GenVector
import LambdaMoo.Lib.BigEndian
import LambdaMoo.Lib.Segments

/-! The vector `stmt_to_code` writes is the listing with every item encoded at the
widths of the header. -/
namespace LambdaMoo.Listing
open CodeGen

def IsWidth (w : Nat) : Prop := w = 1 ∨ w = 2 ∨ w = 4

theorem refSize_isWidth (n : Nat) : IsWidth (refSize n) := by
  unfold refSize IsWidth
  split_ifs <;> simp

theorem labelSize_isWidth (size labels : Nat) : IsWidth (labelSize size labels) := by
  unfold labelSize IsWidth
  split_ifs <;> simp

theorem numBytesOf_isWidth (st : State) (k : FixupKind) :
    IsWidth (operandSize (numBytesOf st) k) := by
  cases k <;> first | exact refSize_isWidth _ | exact labelSize_isWidth _ _

theorem writeOperand_eq {w : Nat} (hw : IsWidth w) (n : Nat) :
    writeOperand w n = BigEndian.encode w n := by
  obtain rfl | rfl | rfl := hw <;>
    simp [writeOperand, BigEndian.encode, Nat.shiftRight_eq_div_pow]

theorem writeOperand_length {w : Nat} (hw : IsWidth w) (n : Nat) :
    (writeOperand w n).length = w := by
  rw [writeOperand_eq hw, BigEndian.encode_length]

theorem readBytes_eq {w : Nat} (hw : IsWidth w) (bytes rest : List UInt8)
    (h : bytes.length = w) : readBytes w (bytes ++ rest) = some (BigEndian.decode bytes, rest) := by
  obtain rfl | rfl | rfl := hw
  · obtain ⟨a, rfl⟩ := List.length_eq_one_iff.mp h
    simp [readBytes, BigEndian.decode]
  · obtain ⟨a, b, rfl⟩ := List.length_eq_two.mp h
    simp [readBytes, BigEndian.decode, Nat.shiftLeft_eq]
  · obtain ⟨a, bytes, rfl⟩ := List.exists_cons_of_length_eq_add_one h
    obtain ⟨b, c, d, rfl⟩ := List.length_eq_three.mp (Nat.succ.inj h)
    simp [readBytes, BigEndian.decode, Nat.shiftLeft_eq]
    omega

theorem readBytes_writeOperand {w : Nat} (hw : IsWidth w) (n : Nat) (rest : List UInt8) :
    readBytes w (writeOperand w n ++ rest) = some (n % 256 ^ w, rest) := by
  rw [readBytes_eq hw _ _ (writeOperand_length hw n), writeOperand_eq hw,
    BigEndian.decode_encode]

def spread (w : NumBytes) (n : Counts) : Nat :=
  n.literals * (w.literal - 1) + n.forks * (w.fork - 1) + n.varRefs * (w.varName - 1) +
    n.labels * (w.label - 1) + n.stackRefs * (w.stack - 1)

def itemValue (w : NumBytes) (literals : List Var) (cells : List Cell) : Item → Nat
  | .literal v => literals.findIdx (sameLiteral v)
  | .fork index => index
  | .varRef slot => slot
  | .stack index => index
  | .label target => target + spread w (counts (cells.take target))
  | _ => 0

def itemSize (w : NumBytes) (item : Item) : Nat := item.kind?.elim 1 (operandSize w)

def encodeItem (w : NumBytes) (literals : List Var) (cells : List Cell) (item : Item) :
    List UInt8 :=
  match item.kind? with
  | none => [item.placeholder]
  | some k => writeOperand (operandSize w k) (itemValue w literals cells item)

def encodeCells (w : NumBytes) (literals : List Var) (cells : List Cell) : List UInt8 :=
  cells.flatMap fun cell => encodeItem w literals cells cell.item

theorem encodeItem_length {w : NumBytes} (hw : ∀ k, IsWidth (operandSize w k))
    (literals : List Var) (cells : List Cell) (item : Item) :
    (encodeItem w literals cells item).length = itemSize w item := by
  unfold encodeItem itemSize
  cases item.kind? with
  | none => rfl
  | some k => exact writeOperand_length (hw k) _

theorem operandValue_eq {w : NumBytes} {literals : List Var} {cells : List Cell} {f : Fixup}
    {item : Item} (hk : some f.kind = item.kind?) (h : Names literals cells f item) :
    operandValue w f = itemValue w literals cells item := by
  unfold operandValue
  cases item with
  | label target =>
      obtain ⟨-, hv, hp⟩ := h
      have hkind : f.kind = .label := by simpa [Item.kind?] using hk
      simp [hkind, itemValue, spread, hv, hp, Nat.add_assoc]
  | literal v =>
      have hkind : f.kind = .literal := by simpa [Item.kind?] using hk
      simp only [hkind, itemValue]
      exact h.1.symm
  | fork | varRef | stack =>
      have hkind := Option.some.inj hk
      simp only [hkind, itemValue]
      exact h
  | _ => exact absurd h not_false

theorem Rep.forall₂ {st : State} {cells : List Cell} {c : Ctx} (h : Rep ∅ st cells c)
    (w : NumBytes) :
    List.Forall₂ (fun f x => f.pc = x.1 ∧ some f.kind = x.2.kind? ∧
      operandValue w f = itemValue w st.gstate.literals cells x.2) st.fixups (fixes 0 cells) := by
  refine List.forall₂_iff_get.mpr ⟨h.fixups_length, fun j hj hj' => ?_⟩
  have hf := List.getElem?_eq_getElem hj
  have hx := List.getElem?_eq_getElem hj'
  have hjk := h.fixups j
  rw [hf, hx] at hjk
  simp only [Option.map_some, Option.some.injEq, Prod.mk.injEq] at hjk
  exact ⟨hjk.1, hjk.2, operandValue_eq hjk.2 (h.names hf hx (Set.notMem_empty j))⟩

theorem le_of_mem_fixes {cells : List Cell} {i : Nat} {x : Nat × Item} (h : x ∈ fixes i cells) :
    i ≤ x.1 := by
  induction cells generalizing i with
  | nil => simp [fixes] at h
  | cons cell cells ih =>
      rw [fixes] at h
      split at h
      · obtain rfl | h := List.mem_cons.mp h
        · exact le_rfl
        · exact Nat.le_of_succ_le (ih h)
      · exact Nat.le_of_succ_le (ih h)

theorem of_mem_fixes {cells : List Cell} {i : Nat} {x : Nat × Item} (h : x ∈ fixes i cells) :
    ∃ (j : Nat) (cell : Cell), x.1 = i + j ∧ cells[j]? = some cell ∧ cell.item = x.2 := by
  induction cells generalizing i with
  | nil => simp [fixes] at h
  | cons cell cells ih =>
      have hnext (h : x ∈ fixes (i + 1) cells) : ∃ (j : Nat) (cell' : Cell),
          x.1 = i + j ∧ (cell :: cells)[j]? = some cell' ∧ cell'.item = x.2 := by
        obtain ⟨j, cell', hj, hcell, hitem⟩ := ih h
        exact ⟨j + 1, cell', by omega, hcell, hitem⟩
      rw [fixes] at h
      split at h
      · obtain rfl | h := List.mem_cons.mp h
        · exact ⟨0, cell, rfl, rfl, rfl⟩
        · exact hnext h
      · exact hnext h

theorem exists_of_forall₂ {α β : Type} {R : α → β → Prop} {as : List α} {bs : List β}
    (h : List.Forall₂ R as bs) {a : α} (ha : a ∈ as) : ∃ b ∈ bs, R a b := by
  induction h with
  | nil => cases ha
  | @cons a' b as bs hr _ ih =>
      obtain rfl | ha := List.mem_cons.mp ha
      · exact ⟨b, by simp, hr⟩
      · obtain ⟨b', hb', hr'⟩ := ih ha
        exact ⟨b', List.mem_cons_of_mem _ hb', hr'⟩

theorem writeVector_copy (w : NumBytes) (i : Nat) (b : UInt8) (bytes : List UInt8)
    (fs : List Fixup) (h : ∀ f ∈ fs, i < f.pc) :
    writeVector w i (b :: bytes) fs = b :: writeVector w (i + 1) bytes fs := by
  cases fs with
  | nil => rfl
  | cons f fs =>
      have := h f (by simp)
      rw [writeVector, if_neg (by omega)]

theorem writeVector_spec (w : NumBytes) (literals : List Var) (all : List Cell) :
    ∀ (cells : List Cell) (i : Nat) (fs fs' : List Fixup),
      List.Forall₂ (fun f x => f.pc = x.1 ∧ some f.kind = x.2.kind? ∧
        operandValue w f = itemValue w literals all x.2) fs (fixes i cells) →
      (∀ f ∈ fs', i + cells.length ≤ f.pc) →
      writeVector w i (cells.map (·.item.placeholder)) (fs ++ fs') =
        cells.flatMap fun cell => encodeItem w literals all cell.item := by
  intro cells
  induction cells with
  | nil => intros; rfl
  | cons cell cells ih =>
      intro i fs fs' hfs hfs'
      have hfs'' : ∀ f ∈ fs', i + 1 + cells.length ≤ f.pc := fun f hf => by
        have := hfs' f hf
        simp only [List.length_cons] at this
        omega
      rw [List.map_cons, List.flatMap_cons, encodeItem]
      cases hk : cell.item.kind? with
      | none =>
          simp only [fixes, hk, Option.isSome_none, Bool.false_eq_true, if_false] at hfs
          rw [writeVector_copy, ih (i + 1) fs fs' hfs hfs'']
          · rfl
          · intro f hf
            obtain hf | hf := List.mem_append.mp hf
            · obtain ⟨x, hx, hpc, -⟩ := exists_of_forall₂ hfs hf
              exact hpc ▸ le_of_mem_fixes hx
            · have := hfs'' f hf
              omega
      | some k =>
          simp only [fixes, hk, Option.isSome_some, if_true] at hfs
          obtain ⟨f, gs, ⟨hpc, hkind, hval⟩, hgs, rfl⟩ := List.forall₂_cons_right_iff.mp hfs
          obtain rfl : f.kind = k := Option.some.inj (hkind.trans hk)
          rw [List.cons_append, writeVector, if_pos hpc, hval, ih (i + 1) gs fs' hgs hfs'']

namespace Rep

variable {st : State} {cells : List Cell} {c : Ctx}

theorem writeVector_eq (h : Rep ∅ st cells c) (w : NumBytes) :
    writeVector w 0 st.bytes st.fixups = encodeCells w st.gstate.literals cells := by
  have := writeVector_spec w st.gstate.literals cells cells 0 st.fixups [] (h.forall₂ w) nofun
  rwa [List.append_nil, ← h.bytes] at this

theorem writeVector_take (h : Rep ∅ st cells c) (w : NumBytes) (i : Nat) :
    (writeVector w 0 (st.bytes.take i) st.fixups).length =
      Segments.start (fun cell : Cell => encodeItem w st.gstate.literals cells cell.item) cells
        i := by
  have hall := h.forall₂ w
  have hsplit : fixes 0 cells = fixes 0 (cells.take i) ++ fixes (cells.take i).length (cells.drop i) := by
    conv_lhs => rw [← List.take_append_drop i cells]
    rw [fixes_append, Nat.zero_add]
  rw [hsplit] at hall
  let n := (fixes 0 (cells.take i)).length
  have hfs := List.forall₂_take_append st.fixups _ _ hall
  have hfs' := List.forall₂_drop_append st.fixups _ _ hall
  have := writeVector_spec w st.gstate.literals cells (cells.take i) 0 _
    (st.fixups.drop n) hfs fun f hf => by
      obtain ⟨x, hx, hpc, -⟩ := exists_of_forall₂ hfs' hf
      rw [hpc, Nat.zero_add]
      exact le_of_mem_fixes hx
  rw [List.take_append_drop, List.map_take, ← h.bytes] at this
  rw [this]
  rfl

end Rep

def numStacks : List Cell → Nat
  | [] => 0
  | cell :: cells => (if cell.item.kind? = some .stack then 1 else 0) + numStacks cells

theorem numStacks_append (cells cells' : List Cell) :
    numStacks (cells ++ cells') = numStacks cells + numStacks cells' := by
  induction cells with
  | nil => simp [numStacks]
  | cons cell cells ih => simp [numStacks, ih, Nat.add_assoc]

theorem numStacks_take_le (cells : List Cell) (i : Nat) :
    numStacks (cells.take i) ≤ numStacks cells := by
  conv_rhs => rw [← List.take_append_drop i cells, numStacks_append]
  omega

theorem numStacks_eq_zero_iff {cells : List Cell} :
    numStacks cells = 0 ↔ ∀ cell ∈ cells, cell.item.kind? ≠ some .stack := by
  induction cells with
  | nil => simp [numStacks]
  | cons cell cells ih =>
      simp only [numStacks, Nat.add_eq_zero_iff, ih, List.mem_cons, forall_eq_or_imp]
      split <;> simp_all

theorem counts_stacks (cells : List Cell) : (counts cells).stackRefs = 0 := by
  induction cells using List.reverseRecOn with
  | nil => rfl
  | append_singleton cells cell ih =>
      rw [counts_snoc]
      cases cell.item <;> exact ih

/-- The encoded length of a listing. Only the stack operands spread it in a way
the generator does not count. -/
theorem flatMap_length {w : NumBytes} (hw : ∀ k, IsWidth (operandSize w k)) (literals : List Var)
    (all cells : List Cell) :
    (cells.flatMap fun cell => encodeItem w literals all cell.item).length =
      cells.length + spread w (counts cells) + numStacks cells * (w.stack - 1) := by
  have hpos (k : FixupKind) : 1 ≤ operandSize w k := by
    obtain h | h | h := hw k <;> omega
  induction cells using List.reverseRecOn with
  | nil => simp [spread, numStacks]
  | append_singleton cells cell ih =>
      rw [List.flatMap_append, List.length_append, ih, List.flatMap_singleton,
        encodeItem_length hw, List.length_append, counts_snoc, numStacks_append]
      have h₁ := hpos .literal
      have h₂ := hpos .fork
      have h₃ := hpos .varRef
      have h₄ := hpos .label
      have h₅ := hpos .stack
      simp only [operandSize] at h₁ h₂ h₃ h₄ h₅
      cases hi : cell.item <;>
        simp [itemSize, operandSize, Item.kind?, countItem, spread, numStacks, Nat.add_mul, hi]
      all_goals omega

/-- Where the byte that was emitted at place `i` is in the final vector: how much
the copying loop has written when it comes to it. -/
def finalOffset (st : State) (i : Nat) : Nat :=
  (writeVector (numBytesOf st) 0 (st.bytes.take i) st.fixups).length

/-- The vector `stmt_to_code` makes of a generator state is right: it has the size
it is allocated with, and every operand read back at the width of the header is
what its fixup recorded, a label being the new place of what it names. -/
structure LayoutCorrect (st : State) : Prop where
  size : (layout st).vector.length = (layout st).size
  operands : ∀ f ∈ st.fixups, ∃ rest,
    readBytes (operandSize (layout st).numbytes f.kind)
        ((layout st).vector.drop (finalOffset st f.pc)) =
      some (if f.kind = .label then finalOffset st f.value else f.value, rest)

def OperandsFit (w : NumBytes) (literals : List Var) (cells : List Cell) : Prop :=
  ∀ cell ∈ cells, ∀ k, cell.item.kind? = some k →
    itemValue w literals cells cell.item < 256 ^ operandSize w k

namespace Rep

variable {st : State} {cells : List Cell} {c : Ctx}

theorem finalOffset_eq (h : Rep ∅ st cells c) (i : Nat) :
    finalOffset st i = Segments.start
      (fun cell : Cell => encodeItem (numBytesOf st) st.gstate.literals cells cell.item) cells i :=
  h.writeVector_take _ i

/-- The new place of a cell, when the stack operands do not get in the way. -/
theorem finalOffset_spread (h : Rep ∅ st cells c)
    (hs : numStacks cells = 0 ∨ (numBytesOf st).stack = 1) {i : Nat} (hi : i ≤ cells.length) :
    finalOffset st i = i + spread (numBytesOf st) (counts (cells.take i)) := by
  rw [h.finalOffset_eq, Segments.start, flatMap_length (numBytesOf_isWidth st),
    List.length_take_of_le hi]
  obtain hs | hs := hs
  · have := numStacks_take_le cells i
    simp [show numStacks (cells.take i) = 0 by omega]
  · simp [hs]

theorem vector_eq (h : Rep ∅ st cells c) :
    (layout st).vector = encodeCells (numBytesOf st) st.gstate.literals cells :=
  h.writeVector_eq _

theorem size_eq (h : Rep ∅ st cells c) :
    (layout st).size = cells.length + spread (numBytesOf st) (counts cells) := by
  simp only [layout, sizeBeforeLabels, h.bytes, h.num, List.length_map, spread, counts_stacks]
  ring

theorem size_iff (h : Rep ∅ st cells c) :
    (layout st).vector.length = (layout st).size ↔
      numStacks cells = 0 ∨ (numBytesOf st).stack = 1 := by
  have hpos : 1 ≤ (numBytesOf st).stack := by
    obtain h | h | h := numBytesOf_isWidth st .stack <;> simp only [operandSize] at h <;> omega
  rw [h.vector_eq, encodeCells, flatMap_length (numBytesOf_isWidth st), h.size_eq]
  rw [Nat.add_eq_left, Nat.mul_eq_zero]
  omega

theorem read_operand (h : Rep ∅ st cells c) {f : Fixup} {cell : Cell}
    (hcell : cells[f.pc]? = some cell) (hk : cell.item.kind? = some f.kind) :
    ∃ rest, readBytes (operandSize (layout st).numbytes f.kind)
        ((layout st).vector.drop (finalOffset st f.pc)) =
      some (itemValue (numBytesOf st) st.gstate.literals cells cell.item %
        256 ^ operandSize (numBytesOf st) f.kind, rest) := by
  obtain ⟨hlt, rfl⟩ := List.getElem?_eq_some_iff.mp hcell
  rw [h.vector_eq, h.finalOffset_eq, encodeCells, Segments.drop_start, List.drop_eq_getElem_cons hlt,
    List.flatMap_cons]
  refine ⟨(cells.drop (f.pc + 1)).flatMap fun cell =>
    encodeItem (numBytesOf st) st.gstate.literals cells cell.item, ?_⟩
  rw [encodeItem, hk]
  exact readBytes_writeOperand (numBytesOf_isWidth st f.kind) _ _

theorem operand_value (h : Rep ∅ st cells c)
    (hs : numStacks cells = 0 ∨ (numBytesOf st).stack = 1) {j : Nat} {f : Fixup}
    {x : Nat × Item} (hf : st.fixups[j]? = some f) (hx : (fixes 0 cells)[j]? = some x) :
    (if f.kind = .label then finalOffset st f.value else f.value) =
      itemValue (numBytesOf st) st.gstate.literals cells x.2 := by
  have hname := h.names hf hx (Set.notMem_empty j)
  have hkind : some f.kind = x.2.kind? := by
    have := h.fixups j
    rw [hf, hx] at this
    exact (Prod.mk.inj (Option.some.inj this)).2
  rw [← operandValue_eq hkind hname, operandValue]
  cases hi : x.2 with
  | label target =>
      rw [hi] at hname hkind
      obtain ⟨hle, hv, hp⟩ := hname
      have hk : f.kind = .label := Option.some.inj hkind
      rw [if_pos hk, hk, hv, h.finalOffset_spread hs hle, hp]
      simp [spread, Nat.add_assoc]
  | literal | fork | varRef | stack =>
      rw [hi] at hkind
      have hk := Option.some.inj hkind
      simp [hk]
  | _ => simp [hi, Item.kind?] at hkind

theorem layoutCorrect_iff (h : Rep ∅ st cells c) :
    LayoutCorrect st ↔ (numStacks cells = 0 ∨ (numBytesOf st).stack = 1) ∧
      OperandsFit (numBytesOf st) st.gstate.literals cells := by
  constructor
  · rintro ⟨hsize, hops⟩
    have hs := h.size_iff.mp hsize
    refine ⟨hs, fun cell hcell k hk => ?_⟩
    obtain ⟨i, hi⟩ := List.mem_iff_getElem?.mp hcell
    obtain ⟨j, f, hf, hx, rfl, hkf⟩ := h.exists_fixup hi (by simp [hk])
    obtain rfl : f.kind = k := Option.some.inj (hkf.symm.trans hk)
    obtain ⟨rest, hr⟩ := hops f (List.mem_of_getElem? hf)
    obtain ⟨rest', hr'⟩ := h.read_operand hi hk
    rw [hr', h.operand_value hs hf hx] at hr
    have hmod := (Prod.mk.inj (Option.some.inj hr)).1
    rw [← hmod]
    exact Nat.mod_lt _ (Nat.pow_pos (by decide))
  · rintro ⟨hs, hfit⟩
    refine ⟨h.size_iff.mpr hs, fun f hf => ?_⟩
    obtain ⟨j, hj⟩ := List.mem_iff_getElem?.mp hf
    have hfix := h.fixups j
    rw [hj] at hfix
    obtain ⟨x, hx, hxf⟩ := Option.map_eq_some_iff.mp hfix.symm
    obtain ⟨hpc, hkind⟩ := Prod.mk.inj hxf
    obtain ⟨i, cell, hi, hcell, hitem⟩ := of_mem_fixes (List.mem_of_getElem? hx)
    obtain rfl : i = f.pc := by omega
    have hk : cell.item.kind? = some f.kind := by rw [hitem, hkind]
    obtain ⟨rest, hr⟩ := h.read_operand hcell hk
    refine ⟨rest, hr.trans ?_⟩
    rw [h.operand_value hs hj hx, ← hitem,
      Nat.mod_eq_of_lt (hfit cell (List.mem_of_getElem? hcell) f.kind hk)]

end Rep

end LambdaMoo.Listing
