import LambdaMoo.Layout

/-! When the layout of a vector is right. The widths suffice for everything but
variables in slots the width was computed one too small for, and for stack operands,
which the size leaves out. -/
namespace LambdaMoo.Listing
open CodeGen

theorem lt_pow_refSize {n m : Nat} (hn : n ≤ m) (hmax : m < 2 ^ 32) :
    n < 256 ^ refSize m ↔ ¬ (n = 256 ∧ m ≤ 256) ∧ ¬ (n = 65536 ∧ m ≤ 65536) := by
  unfold refSize
  split_ifs <;> omega

theorem lt_pow_refSize_of_lt {n max : Nat} (hn : n < max) (hmax : max < 2 ^ 32) :
    n < 256 ^ refSize max := by
  rw [lt_pow_refSize hn.le hmax]
  omega

theorem size_le_pow_labelSize {size labels : Nat}
    (h : size + (labelSize size labels - 1) * labels < 2 ^ 32) :
    size + (labelSize size labels - 1) * labels ≤ 256 ^ labelSize size labels := by
  unfold labelSize at *
  split_ifs at * <;> omega

theorem slot_le_maxSlot {cells : List Cell} {cell : Cell} (h : cell ∈ cells) :
    cell.item.slot ≤ maxSlot cells := by
  induction cells with
  | nil => cases h
  | cons cell' cells ih =>
      rw [maxSlot]
      obtain rfl | h := List.mem_cons.mp h
      · exact Nat.le_max_left _ _
      · exact (ih h).trans (Nat.le_max_right _ _)

theorem exists_maxSlot {cells : List Cell} (h : maxSlot cells ≠ 0) :
    ∃ cell ∈ cells, cell.item = .varRef (maxSlot cells) := by
  induction cells with
  | nil => exact absurd rfl h
  | cons cell cells ih =>
      rw [maxSlot] at h ⊢
      obtain hle | hlt := Nat.lt_or_ge (maxSlot cells) cell.item.slot
      · refine ⟨cell, by simp, ?_⟩
        rw [max_eq_left hle.le]
        cases hi : cell.item <;> simp_all [Item.slot]
      · rw [max_eq_right hlt] at h ⊢
        obtain ⟨cell', hmem, hitem⟩ := ih h
        exact ⟨cell', List.mem_cons_of_mem _ hmem, hitem⟩

/-- The counters of the generator are 32 bits wide, and its sizes also go through an `int`;
none has wrapped around. -/
structure CountersFit (st : State) : Prop where
  size : (layout st).size < 2 ^ 31
  literals : st.gstate.literals.length < 2 ^ 32
  forks : st.gstate.forkVectors.length < 2 ^ 32
  maxVarRef : st.maxVarRef < 2 ^ 32
  varRefs : st.gstate.totalVarRefs < 2 ^ 32

/-- The width of variable operands was computed from a count, or from a slot, that
needs one more value than it has. -/
def SlotsFit (cells : List Cell) (refs : Nat) : Prop :=
  ¬ (maxSlot cells = 256 ∧ refs ≤ 256) ∧ ¬ (maxSlot cells = 65536 ∧ refs ≤ 65536)

/-- Stack operands are one byte wide, and fit. -/
def StacksFit (cells : List Cell) : Prop :=
  numStacks cells = 0 ∨
    maxCur cells ≤ 256 ∧ ∀ cell ∈ cells, ∀ index, cell.item = .stack index → index < 256

namespace Rep

variable {st : State} {cells : List Cell} {c : Ctx}

theorem literal_fits (h : Rep ∅ st cells c) (hfit : CountersFit st) {cell : Cell}
    (hcell : cell ∈ cells) {v : Var} (hitem : cell.item = .literal v) :
    st.gstate.literals.findIdx (sameLiteral v) < 256 ^ (numBytesOf st).literal := by
  obtain ⟨i, hi⟩ := List.mem_iff_getElem?.mp hcell
  obtain ⟨j, f, hf, hx, -⟩ := h.exists_fixup hi (by simp [hitem, Item.kind?])
  have hname := h.names hf hx (Set.notMem_empty j)
  rw [hitem] at hname
  obtain ⟨hi, hlt⟩ := hname
  have := h.maxLiteral
  have := hfit.literals
  exact lt_pow_refSize_of_lt (by omega) (by omega)

theorem fork_fits (h : Rep ∅ st cells c) (hfit : CountersFit st) {cell : Cell}
    (hcell : cell ∈ cells) {index : Nat} (hitem : cell.item = .fork index) :
    index < 256 ^ (numBytesOf st).fork := by
  have := h.forks cell hcell index hitem
  have := h.maxFork
  have := hfit.forks
  exact lt_pow_refSize_of_lt (by omega) (by omega)

theorem label_fits (h : Rep ∅ st cells c) (hfit : CountersFit st)
    (hs : numStacks cells = 0 ∨ (numBytesOf st).stack = 1) {target : Nat}
    (ht : target < cells.length) :
    target + spread (numBytesOf st) (counts (cells.take target)) <
      256 ^ (numBytesOf st).label := by
  have hlt : finalOffset st target < (layout st).size := by
    have hpos (cell : Cell) :
        0 < (encodeItem (numBytesOf st) st.gstate.literals cells cell.item).length := by
      rw [encodeItem_length (numBytesOf_isWidth st), itemSize]
      cases cell.item.kind? with
      | none => exact Nat.one_pos
      | some k =>
          obtain h | h | h := numBytesOf_isWidth st k <;> simp [h]
    rw [← h.size_iff.mpr hs, h.vector_eq, h.finalOffset_eq, encodeCells,
      ← Segments.start_length]
    exact Segments.start_lt _ hpos ht ht
  rw [← h.finalOffset_spread hs ht.le]
  exact hlt.trans_le (size_le_pow_labelSize (hfit.size.trans (by decide)))

theorem varRefs_fit_iff (h : Rep ∅ st cells c) (hfit : CountersFit st) :
    (∀ cell ∈ cells, ∀ slot, cell.item = .varRef slot → slot < 256 ^ (numBytesOf st).varName) ↔
      SlotsFit cells st.gstate.totalVarRefs := by
  have hmax := h.maxVarRef
  have hlt₁ := hfit.maxVarRef
  have hlt₂ := hfit.varRefs
  have hiff {slot : Nat} (hslot : slot ≤ maxSlot cells) :=
    lt_pow_refSize (n := slot) (m := max st.maxVarRef st.gstate.totalVarRefs) (by omega) (by omega)
  constructor
  · intro hall
    by_cases hzero : maxSlot cells = 0
    · simp [SlotsFit, hzero]
    · obtain ⟨cell, hcell, hitem⟩ := exists_maxSlot hzero
      have := (hiff le_rfl).mp (hall cell hcell _ hitem)
      unfold SlotsFit
      omega
  · intro hslots cell hcell slot hitem
    have hle := slot_le_maxSlot hcell
    rw [hitem, Item.slot] at hle
    refine (hiff hle).mpr ?_
    unfold SlotsFit at hslots
    omega

theorem stack_width_iff (h : Rep ∅ st cells c) (hdepth : c.shape.length ≤ maxCur cells) :
    (numBytesOf st).stack = 1 ↔ maxCur cells ≤ 256 := by
  have := h.maxStack
  have := h.curStack
  simp only [numBytesOf, refSize]
  split_ifs <;> omega

theorem layoutCorrect_iff_fit (h : Rep ∅ st cells c) (hfit : CountersFit st)
    (hlabels : LabelsInside cells) (hdepth : c.shape.length ≤ maxCur cells) :
    LayoutCorrect st ↔ StacksFit cells ∧ SlotsFit cells st.gstate.totalVarRefs := by
  rw [h.layoutCorrect_iff, h.stack_width_iff hdepth, ← h.varRefs_fit_iff hfit]
  constructor
  · rintro ⟨hs, hfits⟩
    refine ⟨hs.imp_right fun hle => ⟨hle, fun cell hcell index hitem => ?_⟩,
      fun cell hcell slot hitem => ?_⟩
    · have := hfits cell hcell .stack (by simp [hitem, Item.kind?])
      rw [operandSize, (h.stack_width_iff hdepth).mpr hle, hitem] at this
      exact this
    · have := hfits cell hcell .varRef (by simp [hitem, Item.kind?])
      rwa [hitem] at this
  · rintro ⟨hs, hslots⟩
    have hwidth : numStacks cells = 0 ∨ (numBytesOf st).stack = 1 :=
      hs.imp_right fun hs => (h.stack_width_iff hdepth).mpr hs.1
    refine ⟨hs.imp_right And.left, fun cell hcell k hk => ?_⟩
    cases hitem : cell.item with
    | literal v =>
        obtain rfl : FixupKind.literal = k := by simpa [hitem, Item.kind?] using hk
        exact h.literal_fits hfit hcell hitem
    | fork index =>
        obtain rfl : FixupKind.fork = k := by simpa [hitem, Item.kind?] using hk
        exact h.fork_fits hfit hcell hitem
    | varRef slot =>
        obtain rfl : FixupKind.varRef = k := by simpa [hitem, Item.kind?] using hk
        exact hslots cell hcell slot hitem
    | label target =>
        obtain rfl : FixupKind.label = k := by simpa [hitem, Item.kind?] using hk
        exact h.label_fits hfit hwidth (hlabels cell hcell target hitem)
    | stack index =>
        obtain rfl : FixupKind.stack = k := by simpa [hitem, Item.kind?] using hk
        obtain hs | ⟨hle, hs⟩ := hs
        · exact absurd hk (numStacks_eq_zero_iff.mp hs cell hcell)
        · rw [operandSize, (h.stack_width_iff hdepth).mpr hle]
          exact hs cell hcell index hitem
    | _ => simp [hitem, Item.kind?] at hk

end Rep

/-- `stmt_to_code` makes a vector of every tree the parser builds, and lays it out
correctly exactly when the widths of its stack and variable operands fit. -/
theorem stmtToCode_layoutCorrect_iff {body : Stmts} (h : body.admitted []) (gstate : GState) :
    ∃ st, generateStmts body (initState gstate) = some st ∧
      stmtToCode body gstate = some (layout (emitOp .done st), st.gstate) ∧
      (CountersFit (emitOp .done st) →
        (LayoutCorrect (emitOp .done st) ↔
          StacksFit (vectorCode body gstate.forkVectors.length) ∧
            SlotsFit (vectorCode body gstate.forkVectors.length)
              (gstate.totalVarRefs + stmtsRefs body))) := by
  obtain ⟨st, hst, hcode, hrep, hlabels, -, hrefs, -⟩ := stmtToCode_gen h gstate
  refine ⟨st, hst, hcode, fun hfit => ?_⟩
  rw [hrep.layoutCorrect_iff_fit hfit hlabels (Nat.zero_le _), ← hrefs]
  rfl

def Item.stackIndex : Item → Nat
  | .stack index => index
  | _ => 0

def naming : Nat → Nat → Stmts → Stmts
  | 0, _, rest => rest
  | n + 1, slot, rest => .cons (.expr (.id slot)) (naming n (slot + 1) rest)

/-- After the variables that have opcodes of their own,
`a = "ab"; if (a) fork (0) b = "c"; endfork endif a[$];`. -/
def mixed : Stmts :=
  let forked := Stmts.cons (.expr (.asgn (.id 33) (.var (.str "c".toList)))) .nil
  let guarded := Stmts.cons (.fork none (.var (.int 0)) forked) .nil
  naming 14 18 <|
    .cons (.expr (.asgn (.id 32) (.var (.str "ab".toList)))) <|
      .cons (.cond (.cons (.id 32) guarded .nil) .nil) <|
        .cons (.expr (.index (.id 32) .length)) .nil

instance (st : State) : Decidable (CountersFit st) :=
  decidable_of_iff
    ((layout st).size < 2 ^ 31 ∧ st.gstate.literals.length < 2 ^ 32 ∧
      st.gstate.forkVectors.length < 2 ^ 32 ∧ st.maxVarRef < 2 ^ 32 ∧
      st.gstate.totalVarRefs < 2 ^ 32)
    ⟨fun ⟨h₁, h₂, h₃, h₄, h₅⟩ => ⟨h₁, h₂, h₃, h₄, h₅⟩, fun ⟨h₁, h₂, h₃, h₄, h₅⟩ => ⟨h₁, h₂, h₃, h₄, h₅⟩⟩

theorem stmtToCode_layoutCorrect_mixed :
    ∃ st, generateStmts mixed (initState {}) = some st ∧
      stmtToCode mixed {} = some (layout (emitOp .done st), st.gstate) ∧
      (∀ kind, ∃ f ∈ (emitOp .done st).fixups, f.kind = kind) ∧
      CountersFit (emitOp .done st) ∧ LayoutCorrect (emitOp .done st) := by
  obtain ⟨st, hst, hcode, hiff⟩ := stmtToCode_layoutCorrect_iff (show mixed.admitted [] by decide +kernel) {}
  have hall : (generateStmts mixed (initState {})).all (fun st =>
      decide (CountersFit (emitOp .done st)) &&
        [FixupKind.literal, .fork, .varRef, .label, .stack].all fun kind =>
          (emitOp .done st).fixups.any fun f => f.kind == kind) = true := by decide +kernel
  rw [hst, Option.all_some, Bool.and_eq_true, decide_eq_true_iff] at hall
  obtain ⟨hfit, hkinds⟩ := hall
  have hstacks : StacksFit (vectorCode mixed 0) := by
    refine .inr ⟨by decide +kernel, fun cell hcell index hitem => ?_⟩
    have hsmall : ∀ cell ∈ vectorCode mixed 0, cell.item.stackIndex < 256 := by decide +kernel
    simpa [hitem, Item.stackIndex] using hsmall cell hcell
  have hslots : SlotsFit (vectorCode mixed 0) (0 + stmtsRefs mixed) := by
    unfold SlotsFit
    decide +kernel
  refine ⟨st, hst, hcode, fun kind => ?_, hfit, (hiff hfit).mpr ⟨hstacks, hslots⟩⟩
  rw [List.all_eq_true] at hkinds
  have hkind := hkinds kind (by cases kind <;> simp)
  simpa using hkind

/-- The variable in slot 256 is written as the one in slot 0. -/
theorem naming_not_layoutCorrect :
    (naming 239 18 .nil).admitted [] ∧
      ∃ st, generateStmts (naming 239 18 .nil) (initState {}) = some st ∧
        stmtToCode (naming 239 18 .nil) {} = some (layout (emitOp .done st), st.gstate) ∧
        ¬ LayoutCorrect (emitOp .done st) := by
  have hadmitted : (naming 239 18 .nil).admitted [] := by decide +kernel
  obtain ⟨st, hst, hcode, hrep, -, -, hrefs, -⟩ := stmtToCode_gen hadmitted {}
  refine ⟨hadmitted, st, hst, hcode, fun hcorrect => ?_⟩
  have hslot : maxSlot (vectorCode (naming 239 18 .nil) 0) = 256 := by decide +kernel
  have hcount : stmtsRefs (naming 239 18 .nil) = 225 := by decide +kernel
  obtain ⟨cell, hcell, hitem⟩ := exists_maxSlot (by rw [hslot]; decide)
  have hmax : (emitOp .done st).maxVarRef = 256 := hrep.maxVarRef.trans hslot
  have hrefs : (emitOp .done st).gstate.totalVarRefs = 225 := hrefs.trans (by rw [hcount])
  have hfits := (hrep.layoutCorrect_iff.mp hcorrect).2 cell hcell .varRef
    (by rw [hitem]; rfl)
  have hwidth : (numBytesOf (emitOp .done st)).varName = 1 := by
    rw [numBytesOf, hmax, hrefs]
    rfl
  rw [hitem, hslot, operandSize, hwidth, itemValue] at hfits
  exact absurd hfits (by decide)

end LambdaMoo.Listing
