import LambdaMoo.Scattering

/-! The code of a scattering assignment does what it is to do, for as many targets as there
can be in a byte next to that of their rest target. -/
namespace LambdaMoo

variable {W : Type} {bc : Bytecodes} {code : ScatterCode} {targets next : Scatter} {blocks : List DefaultCode}
  {eval : Expr → (Nat → Var) × W → Var → (Nat → Var) × W → Prop} {a : Activation} {w : W} {value : Var}
  {l list rts : List Var} {shares : List Share} {avail excess pc stop : Nat} {rest nrest i : Int} {id : Nat}
  {default : Default} {s : ScatterState}

/-! Reading. -/

theorem read_byte {pc : Nat} {b : UInt8} (h : bc.vector[pc]? = some b) : bc.read 1 pc = .ok (b.toNat, pc + 1) := by
  obtain ⟨hlt, rfl⟩ := List.getElem?_eq_some_iff.mp h
  rw [Bytecodes.read, List.drop_eq_getElem_cons hlt, readBytes]

theorem read_next {nb pc n p : Nat} (h : bc.read nb pc = .ok (n, p)) : p = pc + nb := by
  unfold Bytecodes.read at h
  split at h
  · cases h
    rfl
  · cases h

theorem OperandsAt.stop_eq (h : OperandsAt bc targets pc stop blocks) :
    stop = pc + targets.count * (bc.numbytes.varName + bc.numbytes.label) := by
  induction h with
  | nil pc => rw [Scatter.count, Nat.zero_mul, Nat.add_zero]
  | default hid hlabel _ _ ih | optional hid hlabel _ ih | plain _ hid hlabel _ ih =>
      obtain rfl := read_next hid
      obtain rfl := read_next hlabel
      rw [ih, Scatter.count, Nat.succ_mul]
      omega

/-! The place of the rest target. -/

def RestAt (rest : Int) : Int → Scatter → Prop
  | _, .nil => True
  | i, .cons kind _ _ next => (i = rest ↔ kind = .rest) ∧ RestAt rest (i + 1) next

theorem countKind_self (kind : ScatterKind) :
    (Scatter.cons kind id default next).countKind kind = 1 + next.countKind kind := by
  rw [Scatter.countKind, if_pos rfl]

theorem countKind_other {kind kind' : ScatterKind} (h : kind ≠ kind') :
    (Scatter.cons kind id default next).countKind kind' = next.countKind kind' := by
  rw [Scatter.countKind, if_neg h, Nat.zero_add]

theorem restAt_none {targets : Scatter} (h : targets.countKind .rest = 0) {i rest : Int}
    (hout : rest < i ∨ i + targets.count ≤ rest) : RestAt rest i targets := by
  induction targets using Scatter.count.induct generalizing i with
  | case1 => trivial
  | case2 kind id default next ih =>
      rw [Scatter.countKind] at h
      rw [Scatter.count] at hout
      have hkind : kind ≠ .rest := by
        rintro rfl
        simp at h
      exact ⟨iff_of_false (by omega) hkind, ih (by omega) (by omega)⟩

theorem go_none {targets : Scatter} (h : targets.countKind .rest = 0) (n : Nat) (r : Option Nat) :
    CodeGen.Scatter.rest.go targets n r = r := by
  induction targets using Scatter.count.induct generalizing n with
  | case1 => rfl
  | case2 kind id default next ih =>
      rw [Scatter.countKind] at h
      have hkind : kind ≠ .rest := by
        rintro rfl
        simp at h
      rw [CodeGen.Scatter.rest.go, if_neg hkind, ih (by omega)]

theorem go_some {targets : Scatter} (h : targets.countKind .rest = 1) (n : Nat) (r : Option Nat) :
    ∃ rest : Nat, CodeGen.Scatter.rest.go targets n r = some rest ∧ n < rest ∧ rest ≤ n + targets.count ∧
      RestAt rest (n + 1) targets := by
  induction targets using Scatter.count.induct generalizing n r with
  | case1 => cases h
  | case2 kind id default next ih =>
      rw [Scatter.countKind] at h
      rw [Scatter.count, CodeGen.Scatter.rest.go]
      by_cases hkind : kind = .rest
      · rw [if_pos hkind] at h ⊢
        have hnext : next.countKind .rest = 0 := by omega
        refine ⟨n + 1, go_none hnext _ _, by omega, by omega, ?_, restAt_none hnext (by omega)⟩
        exact iff_of_true (by push_cast; rfl) hkind
      · rw [if_neg hkind] at h ⊢
        obtain ⟨rest, hgo, hlow, hhigh, hat⟩ := ih (by omega) (n + 1) r
        refine ⟨rest, hgo, by omega, by omega, iff_of_false (by omega) hkind, ?_⟩
        push_cast at hat
        exact hat

/-- The byte for the rest target is its number, or none of the numbers of the targets. -/
theorem restAt_byte (h : vetScatter targets = true) :
    RestAt (UInt8.ofNat (CodeGen.Scatter.rest targets)).toNat 1 targets := by
  unfold vetScatter at h
  simp only [Bool.and_eq_true, decide_eq_true_eq] at h
  rw [UInt8.toNat_ofNat', CodeGen.Scatter.rest]
  by_cases hnone : targets.countKind .rest = 0
  · rw [go_none hnone, Option.getD_none]
    exact restAt_none hnone (by omega)
  · obtain ⟨rest, hgo, hlow, hhigh, hat⟩ := @go_some targets (by omega) 0 none
    rw [hgo, Option.getD_some, Nat.mod_eq_of_lt (by omega)]
    simpa using hat

/-! The distribution. -/

def need : Scatter → Nat → Nat → Nat
  | .nil, _, _ => 0
  | .cons .required _ _ next, avail, excess => need next avail excess + 1
  | .cons .optional _ _ next, 0, excess => need next 0 excess
  | .cons .optional _ _ next, avail + 1, excess => need next avail excess + 1
  | .cons .rest _ _ next, avail, excess => need next avail excess + excess

theorem need_eq (targets : Scatter) (avail excess : Nat) : need targets avail excess =
    targets.countKind .required + min avail (targets.countKind .optional) + targets.countKind .rest * excess := by
  induction targets, avail, excess using need.induct with
  | case1 => simp [need, Scatter.countKind]
  | case2 _ _ next avail excess ih => simp [need, Scatter.countKind, ih]; omega
  | case3 _ _ next excess ih => simp [need, Scatter.countKind, ih]
  | case4 _ _ next avail excess ih => simp [need, Scatter.countKind, ih]; omega
  | case5 _ _ next avail excess ih => simp [need, Scatter.countKind, ih, Nat.add_mul]; omega

/-- With elements for all of them, each target gets its own, from the left to the right. -/
theorem distribute_spec (h : need targets avail excess ≤ l.length) :
    ∃ shares, distribute targets avail excess l = some shares ∧
      shares.flatMap Share.elements = l.take (need targets avail excess) := by
  induction targets, avail, excess using need.induct generalizing l with
  | case1 => exact ⟨[], rfl, rfl⟩
  | case2 id _ next avail excess ih =>
      rw [need] at h ⊢
      obtain ⟨v, l, rfl⟩ := List.exists_cons_of_length_pos (Nat.lt_of_lt_of_le (Nat.succ_pos _) h)
      obtain ⟨shares, hshares, helements⟩ := ih (Nat.le_of_succ_le_succ h)
      refine ⟨.element id v :: shares, by rw [distribute, hshares]; rfl, ?_⟩
      rw [List.flatMap_cons, helements, List.take_succ_cons]
      rfl
  | case3 id default next excess ih =>
      rw [need] at h ⊢
      obtain ⟨shares, hshares, helements⟩ := ih h
      refine ⟨.missing id default :: shares, ?_, helements⟩
      cases l <;> rw [distribute, hshares] <;> rfl
  | case4 id _ next avail excess ih =>
      rw [need] at h ⊢
      obtain ⟨v, l, rfl⟩ := List.exists_cons_of_length_pos (Nat.lt_of_lt_of_le (Nat.succ_pos _) h)
      obtain ⟨shares, hshares, helements⟩ := ih (Nat.le_of_succ_le_succ h)
      refine ⟨.element id v :: shares, by rw [distribute, hshares]; rfl, ?_⟩
      rw [List.flatMap_cons, helements, List.take_succ_cons]
      rfl
  | case5 id _ next avail excess ih =>
      rw [need] at h ⊢
      have hexcess : excess ≤ l.length := by omega
      have hnext : need next avail excess ≤ (l.drop excess).length := by
        rw [List.length_drop]
        omega
      obtain ⟨shares, hshares, helements⟩ := ih hnext
      refine ⟨.rest id (l.take excess) :: shares, ?_, ?_⟩
      · cases l <;> rw [distribute, if_pos hexcess, hshares] <;> rfl
      · rw [List.flatMap_cons, helements, Nat.add_comm, List.take_add]
        rfl

theorem count_eq (targets : Scatter) : targets.count =
    targets.countKind .required + targets.countKind .optional + targets.countKind .rest := by
  induction targets using Scatter.count.induct with
  | case1 => rfl
  | case2 kind id default next ih =>
      rw [Scatter.count, Scatter.countKind, Scatter.countKind, Scatter.countKind, ih]
      cases kind <;> simp <;> omega

@[simp] theorem distribute_required : distribute (.cons .required id default next) avail excess (value :: l) =
    (distribute next avail excess l).map (.element id value :: ·) := rfl

@[simp] theorem distribute_missing : distribute (.cons .optional id default next) 0 excess l =
    (distribute next 0 excess l).map (.missing id default :: ·) := by
  cases l <;> rfl

@[simp] theorem distribute_filled : distribute (.cons .optional id default next) (avail + 1) excess (value :: l) =
    (distribute next avail excess l).map (.element id value :: ·) := rfl

@[simp] theorem distribute_rest : distribute (.cons .rest id default next) avail excess l =
    if excess ≤ l.length then (distribute next avail excess (l.drop excess)).map (.rest id (l.take excess) :: ·)
    else none := by
  cases l <;> rfl

/-! The loop over the targets. -/

def waiting : Scatter → Nat → List DefaultCode → List DefaultCode
  | .cons .optional _ (.some _) next, 0, b :: blocks => b :: waiting next 0 blocks
  | .cons .optional _ (.some _) next, avail + 1, _ :: blocks => waiting next avail blocks
  | .cons .optional _ .none next, avail, blocks => waiting next (avail - 1) blocks
  | .cons .required _ _ next, avail, blocks => waiting next avail blocks
  | .cons .rest _ _ next, avail, blocks => waiting next avail blocks
  | _, _, _ => []

def entry (blocks : List DefaultCode) : Nat :=
  match blocks with
  | [] => 0
  | b :: _ => b.place

theorem element_drop {k : Nat} {v : Var} (h : list.drop k = v :: l) : element list (k + 1) = .ok v := by
  have hk : k < list.length := by
    by_contra hge
    rw [List.drop_of_length_le (Nat.not_lt.mp hge)] at h
    cases h
  rw [List.drop_eq_getElem_cons hk] at h
  rw [element_eq hk, (List.cons.inj h).1]

theorem drop_tail {k : Nat} {v : Var} (h : list.drop k = v :: l) : list.drop (k + 1) = l := by
  rw [← List.tail_drop, h]
  rfl

section

variable {p q label : Nat} {v : Var}

theorem target_takes (hid : bc.read bc.numbytes.varName s.pc = .ok (id, p))
    (hlabel : bc.read bc.numbytes.label p = .ok (label, q)) (hi : i ≠ rest) (htakes : label = 0 ∨ 0 < s.noptAvail)
    (hv : element list (i + s.offset) = .ok v) :
    ∃ s₁, scatterTarget bc list rest nrest i s = .ok s₁ ∧ s₁.pc = q ∧ s₁.env = Function.update s.env id v ∧
      s₁.noptAvail = (if label = 0 then s.noptAvail else s.noptAvail - 1) ∧ s₁.offset = s.offset ∧
      s₁.where' = s.where' := by
  rw [scatterTarget, hid, ok_bind_crash]
  dsimp only
  rw [hlabel, ok_bind_crash]
  dsimp only
  rw [if_neg hi, hv]
  by_cases hzero : label = 0
  · rw [if_pos hzero, if_pos hzero]
    exact ⟨_, rfl, rfl, rfl, rfl, rfl, rfl⟩
  · rw [if_neg hzero, if_neg hzero, if_pos (htakes.resolve_left hzero)]
    exact ⟨_, rfl, rfl, rfl, rfl, rfl, rfl⟩

theorem target_misses (hid : bc.read bc.numbytes.varName s.pc = .ok (id, p))
    (hlabel : bc.read bc.numbytes.label p = .ok (label, q)) (hi : i ≠ rest) (hzero : label ≠ 0) (havail : s.noptAvail = 0) :
    ∃ s₁, scatterTarget bc list rest nrest i s = .ok s₁ ∧ s₁.pc = q ∧ s₁.env = s.env ∧ s₁.noptAvail = s.noptAvail ∧
      s₁.offset = s.offset - 1 ∧ s₁.where' = if s.where' = 0 ∧ label ≠ 1 then label else s.where' := by
  rw [scatterTarget, hid, ok_bind_crash]
  dsimp only
  rw [hlabel, ok_bind_crash]
  dsimp only
  rw [if_neg hi, if_neg hzero, if_neg (by omega)]
  exact ⟨_, rfl, rfl, rfl, rfl, rfl, rfl⟩

theorem target_rest (hid : bc.read bc.numbytes.varName s.pc = .ok (id, p))
    (hlabel : bc.read bc.numbytes.label p = .ok (label, q)) (hi : i = rest)
    (hv : sublist list i (i + nrest - 1) = .ok v) :
    ∃ s₁, scatterTarget bc list rest nrest i s = .ok s₁ ∧ s₁.pc = q ∧ s₁.env = Function.update s.env id v ∧
      s₁.noptAvail = s.noptAvail ∧ s₁.offset = s.offset + (nrest - 1) ∧ s₁.where' = s.where' := by
  rw [scatterTarget, hid, ok_bind_crash]
  dsimp only
  rw [hlabel, ok_bind_crash]
  dsimp only
  rw [if_pos hi, hv]
  exact ⟨_, rfl, rfl, rfl, rfl, rfl, rfl⟩

end

/-- What the loop has done when it is through with these targets. -/
structure Scattered (shares : List Share) (blocks : List DefaultCode) (stop : Nat) (s s' : ScatterState) : Prop where
  pc : s'.pc = stop
  env : s'.env = assign shares s.env
  defaults : unfilled shares = blocks.map fun b => (b.id, b.expr)
  where' : s'.where' = if s.where' = 0 then entry blocks else s.where'

/-- Where the loop stands before the target number `i`: the elements before `k` have been
distributed. The excess is for a rest target that is still to come, and until then nothing is
left out. -/
structure Standing (list : List Var) (targets : Scatter) (avail excess k : Nat) (nrest i : Int) (s : ScatterState) :
    Prop where
  left : s.noptAvail = avail
  index : i + s.offset = k + 1
  nrest : targets.countKind .rest ≠ 0 → nrest = excess
  whole : targets.countKind .rest ≠ 0 → 0 < excess → s.offset = 0 ∧ targets.countKind .optional ≤ avail

section

variable {k : Nat} {s₁ s' : ScatterState}

theorem Standing.requires (h : Standing list (.cons .required id default next) avail excess k nrest i s)
    (hleft : s₁.noptAvail = s.noptAvail) (hoffset : s₁.offset = s.offset) :
    Standing list next avail excess (k + 1) nrest (i + 1) s₁ := by
  obtain ⟨havail, hindex, hnrest, hwhole⟩ := h
  rw [countKind_other (by decide)] at hnrest hwhole
  rw [countKind_other (by decide)] at hwhole
  refine ⟨hleft.trans havail, by push_cast; omega, hnrest, fun hrest hexcess => ?_⟩
  obtain ⟨hzero, hle⟩ := hwhole hrest hexcess
  exact ⟨hoffset.trans hzero, hle⟩

theorem Standing.fills (h : Standing list (.cons .optional id default next) (avail + 1) excess k nrest i s)
    (hleft : s₁.noptAvail = s.noptAvail - 1) (hoffset : s₁.offset = s.offset) :
    Standing list next avail excess (k + 1) nrest (i + 1) s₁ := by
  obtain ⟨havail, hindex, hnrest, hwhole⟩ := h
  rw [countKind_other (by decide)] at hnrest hwhole
  rw [countKind_self] at hwhole
  refine ⟨by omega, by push_cast; omega, hnrest, fun hrest hexcess => ?_⟩
  obtain ⟨hzero, hle⟩ := hwhole hrest hexcess
  exact ⟨hoffset.trans hzero, by omega⟩

theorem Standing.misses (h : Standing list (.cons .optional id default next) 0 excess k nrest i s)
    (hleft : s₁.noptAvail = s.noptAvail) (hoffset : s₁.offset = s.offset - 1) :
    Standing list next 0 excess k nrest (i + 1) s₁ := by
  obtain ⟨havail, hindex, hnrest, hwhole⟩ := h
  rw [countKind_other (by decide)] at hnrest hwhole
  rw [countKind_self] at hwhole
  refine ⟨hleft.trans havail, by omega, hnrest, fun hrest hexcess => ?_⟩
  obtain ⟨-, hle⟩ := hwhole hrest hexcess
  omega

theorem Standing.rests (h : Standing list (.cons .rest id default next) avail excess k nrest i s)
    (hnone : next.countKind .rest = 0) (hleft : s₁.noptAvail = s.noptAvail)
    (hoffset : s₁.offset = s.offset + (nrest - 1)) :
    Standing list next avail excess (k + excess) nrest (i + 1) s₁ := by
  have hindex := h.index
  have hnrest := h.nrest (by rw [countKind_self]; omega)
  exact ⟨hleft.trans h.left, by push_cast; omega, fun hrest => absurd hnone hrest, fun hrest => absurd hnone hrest⟩

theorem Standing.sublist_eq (h : Standing list (.cons .rest id default next) avail excess k nrest i s)
    (hlist : (list.length : Int) < intMax) (hroom : excess ≤ list.length - k) :
    sublist list i (i + nrest - 1) = .ok (.list ((list.drop k).take excess)) := by
  have hrest : (Scatter.cons .rest id default next).countKind .rest ≠ 0 := by
    rw [countKind_self]
    omega
  have hindex := h.index
  have hnrest := h.nrest hrest
  by_cases hzero : excess = 0
  · rw [sublist, if_pos (by omega), hzero, List.take_zero]
    rfl
  · obtain ⟨hoffset, -⟩ := h.whole hrest (by omega)
    have hfirst : (i - 1).toNat = k := by omega
    have hcount : (i + nrest - 1 - i + 1).toNat = excess := by omega
    rw [LambdaMoo.sublist_eq hlist (by omega) (by omega) (by omega), slice, hfirst, hcount]

theorem Scattered.ofElement {v : Var} (h : Scattered shares blocks stop s₁ s')
    (henv : s₁.env = Function.update s.env id v) (hwhere : s₁.where' = s.where') :
    Scattered (.element id v :: shares) blocks stop s s' := by
  refine ⟨h.pc, ?_, h.defaults, ?_⟩
  · rw [h.env, henv, assign]
  · rw [h.where', hwhere]

theorem Scattered.ofRest {m : List Var} (h : Scattered shares blocks stop s₁ s')
    (henv : s₁.env = Function.update s.env id (.list m)) (hwhere : s₁.where' = s.where') :
    Scattered (.rest id m :: shares) blocks stop s s' := by
  refine ⟨h.pc, ?_, h.defaults, ?_⟩
  · rw [h.env, henv, assign]
  · rw [h.where', hwhere]

theorem Scattered.ofOptional (h : Scattered shares blocks stop s₁ s') (henv : s₁.env = s.env)
    (hwhere : s₁.where' = s.where') : Scattered (.missing id .none :: shares) blocks stop s s' := by
  refine ⟨h.pc, ?_, h.defaults, ?_⟩
  · rw [h.env, henv, assign]
  · rw [h.where', hwhere]

theorem Scattered.ofDefault {e : Expr} {place put : Nat} (h : Scattered shares blocks stop s₁ s') (hplace : 1 < place)
    (henv : s₁.env = s.env) (hwhere : s₁.where' = if s.where' = 0 ∧ place ≠ 1 then place else s.where') :
    Scattered (.missing id (.some e) :: shares) (⟨id, e, place, put⟩ :: blocks) stop s s' := by
  refine ⟨h.pc, ?_, ?_, ?_⟩
  · rw [h.env, henv, assign]
  · rw [unfilled, h.defaults]
    rfl
  · rw [h.where']
    by_cases hzero : s.where' = 0
    · rw [if_pos ⟨hzero, by omega⟩] at hwhere
      rw [if_pos hzero, hwhere, if_neg (by omega)]
      rfl
    · rw [if_neg fun h => hzero h.1] at hwhere
      rw [if_neg hzero, hwhere, if_neg hzero]

end

theorem cons_of_distribute {kind : ScatterKind} {n : Nat} (hkind : kind = .required ∨ kind = .optional ∧ n ≠ 0)
    (h : distribute (.cons kind id default next) n excess l = some shares) : ∃ v l', l = v :: l' := by
  cases l with
  | cons v l' => exact ⟨v, l', rfl⟩
  | nil =>
      obtain rfl | ⟨rfl, hn⟩ := hkind
      · cases h
      · obtain ⟨n, rfl⟩ := Nat.exists_eq_succ_of_ne_zero hn
        cases h

theorem scatterLoop_spec (h : OperandsAt bc targets pc stop blocks) (hone : targets.countKind .rest ≤ 1)
    (hlist : (list.length : Int) < intMax) :
    ∀ {i : Int} {avail k : Nat} {shares : List Share} {s : ScatterState}, RestAt rest i targets →
      distribute targets avail excess (list.drop k) = some shares → s.pc = pc →
      Standing list targets avail excess k nrest i s →
      ∃ s', scatterLoop bc list rest nrest targets.count i s = .ok s' ∧
        Scattered shares (waiting targets avail blocks) stop s s' := by
  induction h with
  | nil pc =>
      intro i avail k shares s _ hdist hpc _
      cases hdist
      exact ⟨s, rfl, hpc, rfl, rfl, by simp [entry, waiting]⟩
  | @default id e next pc p q stop place put blocks hid hlabel hplace _ ih =>
      rintro i avail k shares s ⟨hi, hrest⟩ hdist rfl hs
      have hi : i ≠ rest := fun heq => ScatterKind.noConfusion (hi.mp heq)
      rw [countKind_other (by decide)] at hone
      cases avail with
      | zero =>
          rw [distribute_missing, Option.map_eq_some_iff] at hdist
          obtain ⟨shares, hdist, rfl⟩ := hdist
          obtain ⟨s₁, hstep, hpc, henv, hleft, hoffset, hwhere⟩ := target_misses hid hlabel hi (by omega) hs.left
          obtain ⟨s', hloop, hs'⟩ := ih hone hrest hdist hpc (hs.misses hleft hoffset)
          refine ⟨s', ?_, hs'.ofDefault hplace henv hwhere⟩
          rw [Scatter.count, scatterLoop, hstep, ok_bind_crash, hloop]
      | succ avail =>
          obtain ⟨v, l, hl⟩ := cons_of_distribute (.inr ⟨rfl, by omega⟩) hdist
          rw [hl, distribute_filled, Option.map_eq_some_iff, ← drop_tail hl] at hdist
          obtain ⟨shares, hdist, rfl⟩ := hdist
          have hv : element list (i + s.offset) = .ok v := by rw [hs.index, element_drop hl]
          have havail : 0 < s.noptAvail := by
            rw [hs.left]
            omega
          obtain ⟨s₁, hstep, hpc, henv, hleft, hoffset, hwhere⟩ := target_takes hid hlabel hi (.inr havail) hv
          rw [if_neg (by omega)] at hleft
          obtain ⟨s', hloop, hs'⟩ := ih hone hrest hdist hpc (hs.fills hleft hoffset)
          refine ⟨s', ?_, hs'.ofElement henv hwhere⟩
          rw [Scatter.count, scatterLoop, hstep, ok_bind_crash, hloop]
  | @optional id next pc p q stop blocks hid hlabel _ ih =>
      rintro i avail k shares s ⟨hi, hrest⟩ hdist rfl hs
      have hi : i ≠ rest := fun heq => ScatterKind.noConfusion (hi.mp heq)
      rw [countKind_other (by decide)] at hone
      cases avail with
      | zero =>
          rw [distribute_missing, Option.map_eq_some_iff] at hdist
          obtain ⟨shares, hdist, rfl⟩ := hdist
          obtain ⟨s₁, hstep, hpc, henv, hleft, hoffset, hwhere⟩ :=
            target_misses hid hlabel hi Nat.one_ne_zero hs.left
          rw [if_neg (fun h => h.2 rfl)] at hwhere
          obtain ⟨s', hloop, hs'⟩ := ih hone hrest hdist hpc (hs.misses hleft hoffset)
          refine ⟨s', ?_, hs'.ofOptional henv hwhere⟩
          rw [Scatter.count, scatterLoop, hstep, ok_bind_crash, hloop]
      | succ avail =>
          obtain ⟨v, l, hl⟩ := cons_of_distribute (.inr ⟨rfl, by omega⟩) hdist
          rw [hl, distribute_filled, Option.map_eq_some_iff, ← drop_tail hl] at hdist
          obtain ⟨shares, hdist, rfl⟩ := hdist
          have hv : element list (i + s.offset) = .ok v := by rw [hs.index, element_drop hl]
          have havail : 0 < s.noptAvail := by
            rw [hs.left]
            omega
          obtain ⟨s₁, hstep, hpc, henv, hleft, hoffset, hwhere⟩ := target_takes hid hlabel hi (.inr havail) hv
          rw [if_neg Nat.one_ne_zero] at hleft
          obtain ⟨s', hloop, hs'⟩ := ih hone hrest hdist hpc (hs.fills hleft hoffset)
          refine ⟨s', ?_, hs'.ofElement henv hwhere⟩
          rw [Scatter.count, scatterLoop, hstep, ok_bind_crash, hloop]
  | @plain kind id default next pc p q stop blocks hkind hid hlabel _ ih =>
      rintro i avail k shares s ⟨hi, hrest⟩ hdist rfl hs
      cases kind with
      | optional => exact absurd rfl hkind
      | required =>
          have hi : i ≠ rest := fun heq => ScatterKind.noConfusion (hi.mp heq)
          rw [countKind_other (by decide)] at hone
          obtain ⟨v, l, hl⟩ := cons_of_distribute (.inl rfl) hdist
          rw [hl, distribute_required, Option.map_eq_some_iff, ← drop_tail hl] at hdist
          obtain ⟨shares, hdist, rfl⟩ := hdist
          have hv : element list (i + s.offset) = .ok v := by rw [hs.index, element_drop hl]
          obtain ⟨s₁, hstep, hpc, henv, hleft, hoffset, hwhere⟩ := target_takes hid hlabel hi (.inl rfl) hv
          rw [if_pos rfl] at hleft
          obtain ⟨s', hloop, hs'⟩ := ih hone hrest hdist hpc (hs.requires hleft hoffset)
          refine ⟨s', ?_, hs'.ofElement henv hwhere⟩
          rw [Scatter.count, scatterLoop, hstep, ok_bind_crash, hloop]
      | rest =>
          rw [countKind_self] at hone
          have hnone : next.countKind .rest = 0 := by omega
          rw [distribute_rest] at hdist
          split at hdist
          · next hroom =>
              rw [Option.map_eq_some_iff, List.drop_drop] at hdist
              obtain ⟨shares, hdist, rfl⟩ := hdist
              rw [List.length_drop] at hroom
              obtain ⟨s₁, hstep, hpc, henv, hleft, hoffset, hwhere⟩ :=
                target_rest hid hlabel (hi.mpr rfl) (hs.sublist_eq hlist hroom)
              obtain ⟨s', hloop, hs'⟩ := ih (by omega) hrest hdist hpc (hs.rests hnone hleft hoffset)
              refine ⟨s', ?_, hs'.ofRest henv hwhere⟩
              rw [Scatter.count, scatterLoop, hstep, ok_bind_crash, hloop]
          · cases hdist

/-! The opcode. -/

theorem vetScatter_iff : vetScatter targets = true ↔ targets.countKind .rest ≤ 1 ∧ targets.count ≤ 255 := by
  simp [vetScatter]

theorem byte_of_le {n : Nat} (h : n ≤ 255) : (UInt8.ofNat n).toNat = n := by
  rw [UInt8.toNat_ofNat', Nat.mod_eq_of_lt (by omega)]

theorem perform_scatter (hcode : code.StandsIn bc) (hpc : a.pc = code.pc) :
    perform bc a = some (eopScatter bc { a with pc := code.pc + 2 }) := by
  rw [perform, hpc, hcode.extended]
  dsimp only
  rw [Opcode.ofByte_byte]
  dsimp only
  rw [hcode.scatter, Option.bind_some, ExtendedOpcode.ofByte_byte]

def takesRest (targets : Scatter) : Bool :=
  !decide (targets.count < (UInt8.ofNat (CodeGen.Scatter.rest targets)).toNat)

/-- A rest target is taken for granted where there is one, and where the byte for it has no
room for the number behind the last target. -/
theorem takesRest_iff (h : vetScatter targets = true) :
    takesRest targets = true ↔ targets.countKind .rest = 1 ∨ targets.count = 255 := by
  obtain ⟨hone, hcount⟩ := vetScatter_iff.mp h
  rw [takesRest, Bool.not_eq_true', decide_eq_false_iff_not, CodeGen.Scatter.rest]
  by_cases hnone : targets.countKind .rest = 0
  · rw [go_none hnone, Option.getD_none, UInt8.toNat_ofNat']
    omega
  · obtain ⟨rest, hgo, hlow, hhigh, -⟩ := @go_some targets (by omega) 0 none
    rw [hgo, Option.getD_some, byte_of_le (by omega)]
    omega

def restCount (targets : Scatter) (l : List Var) : Int :=
  if takesRest targets ∧ (targets.count : Int) ≤ l.length then (l.length : Int) - targets.count + 1 else 0

def scatterStart (pc : Nat) (env : Nat → Var) (targets : Scatter) (l : List Var) : ScatterState :=
  ⟨pc, env, (l.length : Int) - targets.countKind .required, 0, 0⟩

theorem counts_fit (h : vetScatter targets = true) : targets.count ≤ 255 ∧ targets.countKind .required ≤ 255 := by
  obtain ⟨-, hcount⟩ := vetScatter_iff.mp h
  have := count_eq targets
  omega

theorem scatter_refuses (hcode : code.StandsIn bc) (hvet : vetScatter code.targets = true) (hpc : a.pc = code.pc)
    (hrts : a.rts = value :: rts) {e : Error}
    (he : scatterError code.targets.count (code.targets.countKind .required) (takesRest code.targets) value = some e) :
    Refuses bc code a e rts := by
  obtain ⟨hcount, hreq⟩ := counts_fit hvet
  obtain ⟨stop, p, hoperands, hdone⟩ := hcode.operands
  obtain rfl := hoperands.stop_eq
  obtain ⟨pc, _, env, debug⟩ := a
  obtain rfl := hrts
  rw [Refuses, perform_scatter hcode hpc]
  unfold eopScatter
  rw [read_byte hcode.nargs, ok_bind_crash]
  dsimp only
  rw [read_byte hcode.nreq, ok_bind_crash]
  dsimp only
  rw [read_byte hcode.rest, ok_bind_crash]
  dsimp only
  rw [byte_of_le hcount, byte_of_le hreq, ← takesRest, he]
  cases debug with
  | true => rfl
  | false =>
      dsimp only
      rw [if_neg Bool.false_ne_true, if_neg Bool.false_ne_true, hdone]
      rfl

theorem scatter_takes (hcode : code.StandsIn bc) (hvet : vetScatter code.targets = true) (hpc : a.pc = code.pc)
    (hrts : a.rts = .list l :: rts)
    (he : scatterError code.targets.count (code.targets.countKind .required) (takesRest code.targets) (.list l) = none)
    {shares : List Share} {waits : List DefaultCode}
    (hloop : ∀ stop, OperandsAt bc code.targets (code.pc + 5) stop code.blocks →
      ∃ s', scatterLoop bc l (UInt8.ofNat (CodeGen.Scatter.rest code.targets)).toNat (restCount code.targets l)
        code.targets.count 1 (scatterStart (code.pc + 5) a.env code.targets l) = .ok s' ∧
        Scattered shares waits stop (scatterStart (code.pc + 5) a.env code.targets l) s') :
    Goes bc a { a with pc := if entry waits = 0 then code.done else entry waits, env := assign shares a.env } := by
  obtain ⟨hcount, hreq⟩ := counts_fit hvet
  obtain ⟨stop, p, hoperands, hdone⟩ := hcode.operands
  obtain ⟨s', hloop, hs'⟩ := hloop stop hoperands
  obtain ⟨pc, _, env, debug⟩ := a
  obtain rfl := hrts
  rw [Goes, perform_scatter hcode hpc]
  unfold eopScatter
  rw [read_byte hcode.nargs, ok_bind_crash]
  dsimp only
  rw [read_byte hcode.nreq, ok_bind_crash]
  dsimp only
  rw [read_byte hcode.rest, ok_bind_crash]
  dsimp only
  rw [byte_of_le hcount, byte_of_le hreq, ← takesRest, he]
  dsimp only
  rw [← restCount, ← scatterStart, hloop, ok_bind_crash, hs'.pc, hdone, ok_bind_crash, hs'.where', hs'.env]
  rfl

/-- A list with an element for each required target, and, unless there is a place for the
rest, with not too many elements. -/
def accepted (targets : Scatter) (l : List Var) : Prop :=
  targets.countKind .required ≤ l.length ∧ (takesRest targets = true ∨ l.length ≤ targets.count)

theorem scatterError_list : scatterError targets.count (targets.countKind .required) (takesRest targets) (.list l) =
    none ↔ accepted targets l := by
  unfold scatterError accepted
  dsimp only
  cases takesRest targets <;> simp

theorem standing_start (hvet : vetScatter targets = true) (hreq : targets.countKind .required ≤ l.length) (pc : Nat)
    (env : Nat → Var) :
    Standing l targets (l.length - targets.countKind .required)
      (l.length - targets.countKind .required - targets.countKind .optional) 0 (restCount targets l) 1
      (scatterStart pc env targets l) := by
  obtain ⟨hone, -⟩ := vetScatter_iff.mp hvet
  have hkinds := count_eq targets
  have hleft : (scatterStart pc env targets l).noptAvail = (l.length : Int) - targets.countKind .required := rfl
  refine ⟨by omega, rfl, fun hrest => ?_, fun _ hexcess => ⟨rfl, by omega⟩⟩
  have htakes : takesRest targets = true := (takesRest_iff hvet).mpr (.inl (by omega))
  unfold restCount
  by_cases hle : (targets.count : Int) ≤ l.length
  · rw [if_pos ⟨htakes, hle⟩]
    omega
  · rw [if_neg fun h => hle h.2]
    omega

theorem need_le (hvet : vetScatter targets = true) (h : targets.countKind .required ≤ l.length) :
    need targets (l.length - targets.countKind .required)
      (l.length - targets.countKind .required - targets.countKind .optional) ≤ l.length := by
  obtain ⟨hone, -⟩ := vetScatter_iff.mp hvet
  rw [need_eq]
  obtain hrest | hrest : targets.countKind .rest = 0 ∨ targets.countKind .rest = 1 := by omega
  · rw [hrest, Nat.zero_mul]
    omega
  · rw [hrest, Nat.one_mul]
    omega

/-- An accepted list is distributed, and the run goes on at the first default that is waiting. -/
theorem scatter_step (hcode : code.StandsIn bc) (hvet : vetScatter code.targets = true) (hpc : a.pc = code.pc)
    (hrts : a.rts = .list l :: rts) (hl : (l.length : Int) < intMax) (haccepted : accepted code.targets l) :
    let avail := l.length - code.targets.countKind .required
    let excess := avail - code.targets.countKind .optional
    let waits := waiting code.targets avail code.blocks
    ∃ shares, distributed code.targets l = some shares ∧
      shares.flatMap Share.elements = l.take (need code.targets avail excess) ∧
      unfilled shares = waits.map (fun b => (b.id, b.expr)) ∧
      Goes bc a { a with pc := if entry waits = 0 then code.done else entry waits, env := assign shares a.env } := by
  intro avail excess waits
  obtain ⟨hone, -⟩ := vetScatter_iff.mp hvet
  obtain ⟨shares, hdist, helements⟩ := distribute_spec (need_le hvet haccepted.1)
  have hloop : ∀ stop, OperandsAt bc code.targets (code.pc + 5) stop code.blocks →
      ∃ s', scatterLoop bc l (UInt8.ofNat (CodeGen.Scatter.rest code.targets)).toNat (restCount code.targets l)
        code.targets.count 1 (scatterStart (code.pc + 5) a.env code.targets l) = .ok s' ∧
        Scattered shares waits stop (scatterStart (code.pc + 5) a.env code.targets l) s' :=
    fun stop hoperands => scatterLoop_spec hoperands hone hl (restAt_byte hvet) hdist rfl
      (standing_start hvet haccepted.1 _ _)
  obtain ⟨stop, p, hoperands, -⟩ := hcode.operands
  obtain ⟨s', -, hs'⟩ := hloop stop hoperands
  exact ⟨shares, hdist, helements, hs'.defaults,
    scatter_takes hcode hvet hpc hrts (scatterError_list.mpr haccepted) hloop⟩

/-! The defaults. -/

theorem PutsAt.lt {pc next : Nat} (h : PutsAt bc id pc next) : pc < next := by
  cases h with
  | short slot _ _ _ hnext => omega
  | general p _ hread _ hnext =>
      have := read_next hread
      omega

theorem blocksAt_append {place done : Nat} {pre : List DefaultCode} :
    BlocksAt bc place (pre ++ blocks) done ↔ ∃ mid, BlocksAt bc place pre mid ∧ BlocksAt bc mid blocks done := by
  induction pre generalizing place with
  | nil => exact ⟨fun h => ⟨place, rfl, h⟩, fun ⟨_, heq, h⟩ => heq ▸ h⟩
  | cons b pre ih =>
      simp only [List.cons_append, BlocksAt, ih]
      constructor
      · rintro ⟨hplace, hlt, next, hputs, mid, hpre, h⟩
        exact ⟨mid, ⟨hplace, hlt, next, hputs, hpre⟩, h⟩
      · rintro ⟨mid, ⟨hplace, hlt, next, hputs, hpre⟩, h⟩
        exact ⟨hplace, hlt, next, hputs, mid, hpre, h⟩

theorem BlocksAt.bounds {place done : Nat} (h : BlocksAt bc place blocks done) :
    place ≤ done ∧ ∀ b ∈ blocks, place ≤ b.place ∧ b.place < done := by
  induction blocks generalizing place with
  | nil => exact ⟨Nat.le_of_eq h, fun b hb => absurd hb List.not_mem_nil⟩
  | cons b blocks ih =>
      obtain ⟨hplace, hlt, next, hputs, hblocks⟩ := h
      obtain ⟨hle, hin⟩ := ih hblocks
      have hput := hputs.lt
      refine ⟨by omega, List.forall_mem_cons.mpr ⟨⟨by omega, by omega⟩, fun c hc => ?_⟩⟩
      obtain ⟨hlow, hhigh⟩ := hin c hc
      omega

def Clear (code : ScatterCode) (pc : Nat) : Prop := pc ≠ code.done ∧ ∀ b ∈ code.blocks, pc ≠ b.place

theorem clear_inside (hdefaults : BlocksAt bc code.start code.blocks code.done) {pre : List DefaultCode} {b : DefaultCode}
    {next q : Nat} (hsplit : code.blocks = pre ++ b :: blocks) (hnext : BlocksAt bc next blocks code.done)
    (hlow : b.place < q) (hhigh : q < next) : Clear code q := by
  rw [hsplit] at hdefaults
  obtain ⟨mid, hpre, hmid, -⟩ := blocksAt_append.mp hdefaults
  obtain ⟨hle, hin⟩ := hnext.bounds
  refine ⟨by omega, fun c hc => ?_⟩
  rw [hsplit, List.mem_append, List.mem_cons] at hc
  obtain hc | rfl | hc := hc
  · have := (hpre.bounds.2 c hc).2
    omega
  · omega
  · have := (hin c hc).1
    omega

theorem place_unique (hdefaults : BlocksAt bc code.start code.blocks code.done) {pre : List DefaultCode}
    {b c : DefaultCode} (hsplit : code.blocks = pre ++ b :: blocks)
    (hc : c ∈ code.blocks) (hplace : c.place = b.place) : c = b := by
  rw [hsplit] at hdefaults
  obtain ⟨mid, hpre, hmid, hlt, next', hputs, hnext'⟩ := blocksAt_append.mp hdefaults
  have hput := hputs.lt
  rw [hsplit, List.mem_append, List.mem_cons] at hc
  obtain hc | rfl | hc := hc
  · have := (hpre.bounds.2 c hc).2
    omega
  · rfl
  · have := (hnext'.bounds.2 c hc).1
    omega

variable {es : List Expr} {r : Activation × W}

theorem run_goes {a' : Activation} (hclear : Clear code a.pc) (hgoes : Goes bc a a') :
    Run bc code eval (a, w) es r ↔ Run bc code eval (a', w) es r := by
  constructor
  · intro h
    cases h with
    | done hdone => exact absurd hdone hclear.1
    | default hb hplace => exact absurd hplace (hclear.2 _ hb)
    | opcode _ _ hgoes' hrun =>
        rw [goes_unique hgoes hgoes'] at hrun
        exact hrun
  · exact fun h => .opcode hclear.1 hclear.2 hgoes h

/-- The value of a default is put into its variable and popped, in one opcode or in two. -/
theorem run_puts {v : Var} {next : Nat} {env : Nat → Var} {debug : Bool} {pc : Nat} (hputs : PutsAt bc id pc next)
    (hclear : ∀ q, pc ≤ q → q < next → Clear code q) :
    Run bc code eval (⟨pc, v :: rts, env, debug⟩, w) es r ↔
      Run bc code eval (⟨next, rts, Function.update env id v, debug⟩, w) es r := by
  have hlt := hputs.lt
  cases hputs with
  | short slot hslot hput hpop hnext =>
      refine run_goes (hclear pc (Nat.le_refl _) hlt) ?_
      rw [Goes, perform]
      dsimp only
      rw [hput]
      dsimp only
      rw [Opcode.ofByte_byte]
      dsimp only
      rw [opPut]
      dsimp only
      rw [hpop]
      dsimp only
      rw [if_pos rfl, hnext, hslot]
      rfl
  | general p hput hread hpop hnext =>
      have hp := read_next hread
      refine (@run_goes _ _ _ _ _ _ _ _ ⟨p, v :: rts, Function.update env id v, debug⟩
        (hclear pc (Nat.le_refl _) hlt) ?_).trans (run_goes (hclear p (by omega) (by omega)) ?_)
      · rw [Goes, perform]
        dsimp only
        rw [hput]
        dsimp only
        rw [Opcode.ofByte_byte]
        dsimp only
        rw [opGPut]
        dsimp only
        rw [hread]
        rfl
      · rw [Goes, perform]
        dsimp only
        rw [hpop]
        dsimp only
        rw [Opcode.ofByte_byte, hnext]
        rfl

theorem run_blocks (hdefaults : BlocksAt bc code.start code.blocks code.done) {pre : List DefaultCode}
    (hsplit : code.blocks = pre ++ blocks) (hat : BlocksAt bc a.pc blocks code.done) :
    Run bc code eval (a, w) es r ↔ es = blocks.map DefaultCode.expr ∧ ∃ env w',
      Defaulted eval (blocks.map fun b => (b.id, b.expr)) (a.env, w) (env, w') ∧
        r = ({ a with pc := code.done, env := env }, w') := by
  induction blocks generalizing pre a w es with
  | nil =>
      have hpc : a.pc = code.done := hat
      constructor
      · intro h
        cases h with
        | done => exact ⟨rfl, a.env, w, .nil _, by rw [← hpc]⟩
        | default hb hplace =>
            have := (hdefaults.bounds.2 _ hb).2
            omega
        | opcode hne => exact absurd hpc hne
      · rintro ⟨rfl, env, w', hdefaulted, rfl⟩
        cases hdefaulted
        rw [← hpc]
        exact .done hpc
  | cons b blocks ih =>
      obtain ⟨hplace, hlt, next, hputs, hnext⟩ := hat
      have hmem : b ∈ code.blocks := by rw [hsplit]; simp
      have hclear : ∀ q, b.put ≤ q → q < next → Clear code q := fun q hlow hhigh =>
        clear_inside hdefaults hsplit hnext (by omega) hhigh
      have hrest {v : Var} {env : Nat → Var} {w' : W} {es : List Expr} :
          Run bc code eval (⟨b.put, v :: a.rts, env, a.debug⟩, w') es r ↔
            es = blocks.map DefaultCode.expr ∧ ∃ env' w'',
              Defaulted eval (blocks.map fun b => (b.id, b.expr)) (Function.update env b.id v, w') (env', w'') ∧
                r = ({ a with pc := code.done, env := env' }, w'') :=
        (run_puts hputs hclear).trans (ih (hsplit.trans (List.append_cons ..)) hnext)
      constructor
      · intro h
        cases h with
        | done hdone =>
            have := (hdefaults.bounds.2 b hmem).2
            omega
        | default hc hcplace heval hrun =>
            obtain rfl := place_unique hdefaults hsplit hc (hcplace.symm.trans hplace)
            obtain ⟨rfl, env, w', hdefaulted, hr⟩ := hrest.mp hrun
            exact ⟨rfl, env, w', .cons heval hdefaulted, hr⟩
        | opcode _ hne => exact absurd hplace (hne b hmem)
      · rintro ⟨rfl, env, w', hdefaulted, hr⟩
        cases hdefaulted with
        | cons heval hdefaulted => exact .default hmem hplace heval (hrest.mpr ⟨rfl, env, w', hdefaulted, hr⟩)

theorem waiting_zero (h : OperandsAt bc targets pc stop blocks) : waiting targets 0 blocks = blocks := by
  induction h with
  | nil => rfl
  | default _ _ _ _ ih => rw [waiting, ih]
  | optional _ _ _ ih => rw [waiting, ih]
  | @plain kind _ default _ _ _ _ _ _ hkind _ _ _ ih =>
      cases kind with
      | optional => exact absurd rfl hkind
      | required => rw [waiting, ih]
      | rest => rw [waiting, ih]

theorem waiting_suffix (h : OperandsAt bc targets pc stop blocks) (avail : Nat) :
    waiting targets avail blocks <:+ blocks := by
  induction h generalizing avail with
  | nil => exact List.nil_suffix
  | default _ _ _ h ih =>
      cases avail with
      | zero =>
          rewrite [waiting, waiting_zero h]
          exact List.suffix_rfl
      | succ avail => exact (ih avail).trans (List.suffix_cons ..)
  | optional _ _ _ ih => exact ih (avail - 1)
  | @plain kind _ default _ _ _ _ _ _ hkind _ _ _ ih =>
      cases kind with
      | optional => exact absurd rfl hkind
      | required => exact ih avail
      | rest => exact ih avail

theorem OperandsAt.places (h : OperandsAt bc targets pc stop blocks) : ∀ b ∈ blocks, 1 < b.place := by
  induction h with
  | nil => exact fun b hb => absurd hb List.not_mem_nil
  | default _ _ hplace _ ih => exact List.forall_mem_cons.mpr ⟨hplace, ih⟩
  | optional _ _ _ ih => exact ih
  | plain _ _ _ _ ih => exact ih

/-- Where the run goes on is the place of the first waiting default, or the end. -/
theorem blocksAt_entry {place : Nat} (hplaces : ∀ b ∈ blocks, 1 < b.place) (h : BlocksAt bc place blocks code.done) :
    BlocksAt bc (if entry blocks = 0 then code.done else entry blocks) blocks code.done := by
  cases blocks with
  | nil => exact rfl
  | cons b blocks =>
      have hone := hplaces b List.mem_cons_self
      rw [entry, if_neg (by omega)]
      exact ⟨rfl, h.2⟩

theorem run_waiting (hcode : code.StandsIn bc) (avail : Nat) {waits : List DefaultCode}
    (hwaits : waits = waiting code.targets avail code.blocks)
    (hpc : a.pc = if entry waits = 0 then code.done else entry waits) :
    Run bc code eval (a, w) es r ↔ es = waits.map DefaultCode.expr ∧ ∃ env w',
      Defaulted eval (waits.map fun b => (b.id, b.expr)) (a.env, w) (env, w') ∧
        r = ({ a with pc := code.done, env := env }, w') := by
  obtain ⟨stop, p, hoperands, -⟩ := hcode.operands
  obtain ⟨pre, hsplit⟩ := waiting_suffix hoperands avail
  rw [← hwaits] at hsplit
  have hblocks := hcode.defaults
  rw [← hsplit] at hblocks
  obtain ⟨mid, -, hmid⟩ := blocksAt_append.mp hblocks
  refine run_blocks hcode.defaults hsplit.symm ?_
  rw [hpc]
  refine blocksAt_entry (fun b hb => hoperands.places b ?_) hmid
  rw [← hsplit]
  exact List.mem_append_right _ hb

/-! All of the assignment. -/

/-- The one list that is scattered and should not be: it is longer than the largest number of
targets, none of which is for the rest. -/
def slipsThrough (targets : Scatter) : Var → Prop
  | .list l => targets.count = 255 ∧ targets.countKind .rest = 0 ∧ 255 < l.length
  | _ => False

theorem accepted_iff (hvet : vetScatter targets = true) (hslips : ¬ slipsThrough targets (.list l)) :
    accepted targets l ↔
      ¬ (l.length < targets.countKind .required ∨ (targets.countKind .rest = 0 ∧ targets.count < l.length)) := by
  obtain ⟨hone, hcount⟩ := vetScatter_iff.mp hvet
  rw [slipsThrough] at hslips
  rw [accepted, takesRest_iff hvet]
  omega

theorem need_all (hvet : vetScatter targets = true)
    (h : ¬ (l.length < targets.countKind .required ∨ (targets.countKind .rest = 0 ∧ targets.count < l.length))) :
    need targets (l.length - targets.countKind .required)
      (l.length - targets.countKind .required - targets.countKind .optional) = l.length := by
  obtain ⟨hone, hcount⟩ := vetScatter_iff.mp hvet
  have hkinds := count_eq targets
  rw [need_eq]
  obtain hrest | hrest : targets.countKind .rest = 0 ∨ targets.countKind .rest = 1 := by omega
  · rw [hrest, Nat.zero_mul]
    omega
  · rw [hrest, Nat.one_mul]
    omega

theorem scatters_list (hcode : code.StandsIn bc) (hvet : vetScatter code.targets = true) (hpc : a.pc = code.pc)
    (hrts : a.rts = .list l :: rts) (hl : (l.length : Int) < intMax) (hslips : ¬ slipsThrough code.targets (.list l)) :
    Scatters bc code eval a w (.list l) rts := by
  unfold Scatters
  dsimp only
  split
  · next h =>
      refine scatter_refuses hcode hvet hpc hrts ?_
      have hrefused := mt (accepted_iff hvet hslips).mp (not_not.mpr h)
      cases he : scatterError code.targets.count (code.targets.countKind .required) (takesRest code.targets) (.list l) with
      | none => exact absurd (scatterError_list.mp he) hrefused
      | some e =>
          unfold scatterError at he
          dsimp only at he
          split at he
          · exact he.symm
          · cases he
  · next h =>
      obtain ⟨shares, hdist, helements, hunfilled, hgoes⟩ :=
        scatter_step hcode hvet hpc hrts hl ((accepted_iff hvet hslips).mpr h)
      rw [need_all hvet h, List.take_length] at helements
      refine ⟨shares, _, hdist, helements, hgoes, rfl, rfl, fun es r => ?_⟩
      rw [run_waiting hcode _ rfl rfl, hunfilled, List.map_map]
      rfl

theorem not_scatters (hcode : code.StandsIn bc) (hvet : vetScatter code.targets = true) (hpc : a.pc = code.pc)
    (hrts : a.rts = .list l :: rts) (hl : (l.length : Int) < intMax) (hslips : slipsThrough code.targets (.list l)) :
    ¬ Scatters bc code eval a w (.list l) rts := by
  obtain ⟨hcount, hnone, hlong⟩ := hslips
  have hreq := (counts_fit hvet).2
  have haccepted : accepted code.targets l := ⟨by omega, .inl ((takesRest_iff hvet).mpr (.inr hcount))⟩
  obtain ⟨shares, -, -, -, hgoes⟩ := scatter_step hcode hvet hpc hrts hl haccepted
  unfold Scatters
  dsimp only
  rw [if_pos (.inr ⟨hnone, by omega⟩), Refuses]
  intro h
  have heq := Except.ok.inj (Option.some.inj (h.symm.trans hgoes))
  split at heq
  · cases heq
  · have hstack : .err .eArgs :: rts = a.rts := congrArg Activation.rts (Except.ok.inj heq)
    rw [hrts] at hstack
    cases hstack

/-- A scattering assignment does what it is to do, unless it has 255 targets, none of which
is for the rest, and the list is longer. -/
theorem scatters_iff (hcode : code.StandsIn bc) (hvet : vetScatter code.targets = true) (hpc : a.pc = code.pc)
    (hrts : a.rts = value :: rts) (hvalue : value.storable = true)
    (eval : Expr → (Nat → Var) × W → Var → (Nat → Var) × W → Prop) (w : W) :
    Scatters bc code eval a w value rts ↔ ¬ slipsThrough code.targets value := by
  cases value with
  | list l =>
      have hl := storable_list hvalue
      by_cases hslips : slipsThrough code.targets (.list l)
      · exact iff_of_false (not_scatters hcode hvet hpc hrts hl hslips) (not_not.mpr hslips)
      · exact iff_of_true (scatters_list hcode hvet hpc hrts hl hslips) hslips
  | _ => exact iff_of_true (scatter_refuses hcode hvet hpc hrts rfl) id

def mixedTargets : Scatter :=
  .cons .required 18 .none <| .cons .optional 19 (.some (.var (.int 2))) <| .cons .optional 20 .none <|
    .cons .rest 21 .none <| .cons .required 22 .none .nil

def mixedVector : Bytecodes :=
  { numbytes := ⟨1, 1, 1, 1, 1⟩
    vector := [112, 13, 5, 2, 4, 18, 0, 19, 16, 20, 1, 21, 0, 22, 0, 19, 125, 53, 111, 111, 110]
    size := 21, maxStack := 1 }

def mixedScatter : ScatterCode := ⟨0, mixedTargets, [⟨19, .var (.int 2), 16, 17⟩], 16, 19⟩

theorem mixedScatter_standsIn : mixedScatter.StandsIn mixedVector := by
  refine ⟨rfl, rfl, rfl, rfl, rfl, ⟨15, 16, ?_, rfl⟩, ⟨rfl, by decide, 19, .short 19 rfl rfl rfl rfl, rfl⟩⟩
  exact .plain (by decide) rfl rfl <| .default rfl rfl (by decide) <| .optional rfl rfl <|
    .plain (by decide) rfl rfl <| .plain (by decide) rfl rfl (.nil _)

def literalValue (e : Expr) (s : (Nat → Var) × Unit) (v : Var) (s' : (Nat → Var) × Unit) : Prop :=
  e = .var v ∧ s' = s

theorem mixedScatter_scatters :
    Scatters mixedVector mixedScatter literalValue ⟨0, [.list [.int 1, .int 7]], fun _ => .none, true⟩ ()
      (.list [.int 1, .int 7]) [] ∧
    Scatters mixedVector mixedScatter literalValue ⟨0, [.list [.int 1]], fun _ => .none, true⟩ ()
      (.list [.int 1]) [] :=
  ⟨(scatters_iff mixedScatter_standsIn rfl rfl rfl rfl _ ()).mpr fun h => absurd h.1 (by decide),
    (scatters_iff mixedScatter_standsIn rfl rfl rfl rfl _ ()).mpr fun h => absurd h.1 (by decide)⟩

/-- As many targets as that, all of them required and all of them the same variable. -/
def requiredTargets : Nat → Scatter
  | 0 => .nil
  | n + 1 => .cons .required 15 .none (requiredTargets n)

def manyTargets : Bytecodes :=
  { numbytes := ⟨2, 1, 1, 1, 1⟩
    vector := [112, 13, 255, 255, 0] ++ (List.replicate 255 [15, 0, 0]).flatten ++ [3, 4, 111, 110]
    size := 774, maxStack := 1 }

theorem manyTargets_drop {j : Nat} (h : j < 255) :
    ∃ tail, manyTargets.vector.drop (5 + 3 * j) = 15 :: 0 :: 0 :: tail := by
  have hsplit : List.replicate 255 ([15, 0, 0] : List UInt8) =
      List.replicate j [15, 0, 0] ++ [15, 0, 0] :: List.replicate (254 - j) [15, 0, 0] := by
    rw [← List.replicate_succ, List.replicate_append_replicate, show j + (254 - j + 1) = 255 by omega]
  have hbefore : ([112, 13, 255, 255, 0] ++ (List.replicate j ([15, 0, 0] : List UInt8)).flatten).length = 5 + 3 * j := by
    simp
    omega
  refine ⟨(List.replicate (254 - j) [15, 0, 0]).flatten ++ [3, 4, 111, 110], ?_⟩
  rw [manyTargets, hsplit, List.flatten_append, List.flatten_cons, ← List.append_assoc, List.append_assoc _ ([15, 0, 0] ++ _),
    List.drop_left' hbefore]
  rfl

theorem manyTargets_read {j : Nat} (h : j < 255) : manyTargets.read 1 (5 + 3 * j) = .ok (15, 5 + 3 * j + 1) ∧
    manyTargets.read 2 (5 + 3 * j + 1) = .ok (0, 5 + 3 * (j + 1)) := by
  obtain ⟨tail, htail⟩ := manyTargets_drop h
  have hnext : manyTargets.vector.drop (5 + 3 * j + 1) = 0 :: 0 :: tail := by
    rw [← List.drop_drop, htail]
    rfl
  constructor
  · rw [Bytecodes.read, htail]
    rfl
  · rw [Bytecodes.read, hnext]
    rfl

theorem manyTargets_operands {n : Nat} (h : n ≤ 255) :
    OperandsAt manyTargets (requiredTargets n) (770 - 3 * n) 770 [] := by
  induction n with
  | zero => exact .nil _
  | succ n ih =>
      obtain ⟨hid, hlabel⟩ := @manyTargets_read (254 - n) (by omega)
      rw [show 770 - 3 * (n + 1) = 5 + 3 * (254 - n) by omega]
      rw [show 5 + 3 * (254 - n + 1) = 770 - 3 * n by omega] at hlabel
      exact .plain (by decide) hid hlabel (ih (by omega))

theorem manyTargets_standsIn : ScatterCode.StandsIn ⟨0, requiredTargets 255, [], 772, 772⟩ manyTargets := by
  have hcount : (requiredTargets 255).count = 255 := by decide +kernel
  have hreq : (requiredTargets 255).countKind .required = 255 := by decide +kernel
  have hrest : CodeGen.Scatter.rest (requiredTargets 255) = 256 := by decide +kernel
  refine ⟨rfl, rfl, ?_, ?_, ?_, ⟨770, 772, manyTargets_operands (Nat.le_refl _), by decide +kernel⟩, rfl⟩
  · rw [hcount]
    rfl
  · rw [hreq]
    rfl
  · rw [hrest]
    rfl

/-- 256 elements are scattered over 255 required targets. -/
theorem manyTargets_not_scatters :
    ¬ Scatters manyTargets ⟨0, requiredTargets 255, [], 772, 772⟩ (fun _ _ _ (_ : (Nat → Var) × Unit) => False)
      ⟨0, [.list (List.replicate 256 zero)], fun _ => .none, true⟩ () (.list (List.replicate 256 zero)) [] := by
  have hvet : vetScatter (requiredTargets 255) = true := by decide +kernel
  have hlength : (List.replicate 256 zero).length = 256 := List.length_replicate
  refine not_scatters manyTargets_standsIn hvet rfl rfl ?_ ⟨by decide +kernel, by decide +kernel, ?_⟩
  · rw [hlength]
    decide
  · rw [hlength]
    decide

end LambdaMoo
