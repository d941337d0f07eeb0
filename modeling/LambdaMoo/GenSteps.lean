import LambdaMoo.GenState
import LambdaMoo.VarRefs
import Mathlib.Data.List.Forall2

/-! What each emission of the generator does to the listing. A `Progress` says
where the generation of a vector stands in the generation of the program. -/
namespace LambdaMoo.Listing
open CodeGen

def LabelsInside (cells : List Cell) : Prop :=
  ∀ cell ∈ cells, ∀ target, cell.item = .label target → target < cells.length

def ForkRep (literals : List Var) (bc : Bytecodes) (body : ForkBody) : Prop :=
  ∃ (st : State) (c : Ctx), Rep ∅ st (vectorCode body.body body.forks) c ∧ bc = layout st ∧
    LabelsInside (vectorCode body.body body.forks) ∧ st.gstate.literals <+: literals ∧
    st.gstate.totalVarRefs = body.refs + stmtsRefs body.body ∧
    st.gstate.forkVectors.length = body.forks + stmtsForks body.body

theorem ForkRep.mono {literals literals' : List Var} {bc : Bytecodes} {body : ForkBody}
    (h : ForkRep literals bc body) (hl : literals <+: literals') : ForkRep literals' bc body := by
  obtain ⟨st, c, hr, hb, hlabels, hlits, hrefs, hforks⟩ := h
  exact ⟨st, c, hr, hb, hlabels, hlits.trans hl, hrefs, hforks⟩

/-- A chain of labels whose place has not been reached. -/
structure Open where
  label : Option Nat
  target : Nat

/-- `start` is the program's state when the vector was begun, `refs` the variable
operands added since, `bodies` the fork vectors finished since. The exits of the
loops around the present place are open as well as `opens`. -/
structure Progress where
  start : GState
  refs : Nat := 0
  bodies : List ForkBody := []
  loops : List (Loop × LoopCtx) := []
  opens : List Open := []

namespace Progress

def addRefs (b : Progress) (n : Nat) : Progress := { b with refs := b.refs + n }

def opening (b : Progress) (opens : List Open) : Progress := { b with opens := opens ++ b.opens }

def chains (b : Progress) : List Open :=
  b.opens ++ b.loops.map fun x => ⟨x.1.bottomLabel, x.2.bottom⟩

def pending (b : Progress) (fixups : List Fixup) : Set Nat :=
  {j | ∃ o ∈ b.chains, Reaches fixups o.label j}

@[simp] theorem addRefs_addRefs (b : Progress) (m n : Nat) :
    (b.addRefs m).addRefs n = b.addRefs (m + n) := by
  simp [addRefs, Nat.add_assoc]

@[simp] theorem addRefs_zero (b : Progress) : b.addRefs 0 = b := rfl

@[simp] theorem opening_addRefs (b : Progress) (opens : List Open) (n : Nat) :
    (b.opening opens).addRefs n = (b.addRefs n).opening opens := rfl

@[simp] theorem opening_nil (b : Progress) : b.opening [] = b := rfl

@[simp] theorem opening_opening (b : Progress) (opens opens' : List Open) :
    (b.opening opens).opening opens' = b.opening (opens' ++ opens) := by
  simp [opening]

@[simp] theorem chains_addRefs (b : Progress) (n : Nat) : (b.addRefs n).chains = b.chains := rfl

theorem mem_chains_opening {b : Progress} {opens : List Open} {o : Open} :
    o ∈ (b.opening opens).chains ↔ o ∈ opens ∨ o ∈ b.chains := by
  simp [chains, opening]

end Progress

/-- An open chain: its fixups exist, and all their items name the same place. -/
structure IsOpen (st : State) (cells : List Cell) (o : Open) : Prop where
  lt : ∀ k ∈ o.label, k < st.fixups.length
  items : ∀ {j : Nat}, Reaches st.fixups o.label j →
    ∃ pc, (fixes 0 cells)[j]? = some (pc, .label o.target)

theorem IsOpen.mono {st st' : State} {cells cells' : List Cell} {o : Open} (hl : Linked st.fixups)
    (h : IsOpen st cells o) (hf : st.fixups <+: st'.fixups) (hc : cells <+: cells') :
    IsOpen st' cells' o := by
  obtain ⟨rest, hrest⟩ := hf
  obtain ⟨code, rfl⟩ := hc
  refine ⟨fun k hk => ?_, fun {j} hj => ?_⟩
  · have := h.lt k hk
    rw [← hrest, List.length_append]
    omega
  · rw [← hrest, Reaches.append_iff hl h.lt] at hj
    obtain ⟨pc, hpc⟩ := h.items hj
    exact ⟨pc, by
      rw [fixes_append, List.getElem?_append_left (List.getElem?_eq_some_iff.mp hpc).1, hpc]⟩

structure Gen (b : Progress) (st : State) (cells : List Cell) (c : Ctx) : Prop
    extends Rep (b.pending st.fixups) st cells c where
  literals : b.start.literals <+: st.gstate.literals
  refs : st.gstate.totalVarRefs = b.start.totalVarRefs + b.refs
  vectors : ∃ new, st.gstate.forkVectors = b.start.forkVectors ++ new ∧
    List.Forall₂ (ForkRep st.gstate.literals) new b.bodies
  loops : st.loops = b.loops.map (·.1)
  chains : ∀ o ∈ b.chains, IsOpen st cells o

theorem sameLiteral_self {v : Var} (h : v.isWritable) : sameLiteral v v := by
  cases v with
  | float x =>
      simp only [Var.isWritable, Bool.not_eq_true'] at h
      simp [sameLiteral, Var.sameType, equality, Float64.eq, h]
  | list | clear | none | catchMarker | finallyMarker => cases h
  | _ => simp [sameLiteral, Var.sameType, equality]

theorem internLiteral_spec (v : Var) (literals : List Var) (h : v.isWritable) :
    literals <+: (internLiteral v literals).2 ∧
      (internLiteral v literals).2.findIdx (sameLiteral v) = (internLiteral v literals).1 ∧
      (internLiteral v literals).1 < (internLiteral v literals).2.length := by
  simp only [internLiteral]
  split
  · next hi =>
      refine ⟨List.prefix_append _ _, ?_, by simp [hi]⟩
      rw [List.findIdx_append, if_neg (by omega), hi, List.findIdx_cons]
      simp [sameLiteral_self h]
  · next hi =>
      exact ⟨List.prefix_refl _, rfl, Nat.lt_of_le_of_ne List.findIdx_le_length hi⟩

namespace Gen

variable {b : Progress} {st : State} {cells : List Cell} {c : Ctx}

theorem cast {b' : Progress} {cells' : List Cell} {c' : Ctx} (h : Gen b st cells c)
    (hb : b = b') (hcells : cells = cells') (hc : c = c') : Gen b' st cells' c' := by
  subst hb hcells hc
  exact h

theorem pending_append (h : Gen b st cells c) {st' : State} (hf : st.fixups <+: st'.fixups) :
    b.pending st'.fixups = b.pending st.fixups := by
  obtain ⟨rest, hrest⟩ := hf
  ext j
  refine exists_congr fun o => and_congr_right fun ho => ?_
  rw [← hrest, Reaches.append_iff h.links (h.chains o ho).lt]

theorem step {st' : State} {cells' : List Cell} {c' : Ctx} (h : Gen b st cells c)
    (hr : Rep (b.pending st.fixups) st' cells' c') (hg : st'.gstate = st.gstate)
    (hl : st'.loops = st.loops) (hf : st.fixups <+: st'.fixups) (hc : cells <+: cells') :
    Gen b st' cells' c' where
  toRep := by rw [h.pending_append hf]; exact hr
  literals := by rw [hg]; exact h.literals
  refs := by rw [hg]; exact h.refs
  vectors := by rw [hg]; exact h.vectors
  loops := hl.trans h.loops
  chains := fun o ho => (h.chains o ho).mono h.links hf hc

theorem byte (h : Gen b st cells c) (cell : Cell) (hk : cell.item.kind? = none)
    (hcur : cell.cur = st.curStack) :
    Gen b (emitByte cell.item.placeholder st) (cells ++ [cell]) (c.go 1 c.shape) :=
  h.step (h.toRep.byte cell hk hcur) rfl rfl (List.prefix_refl _) (List.prefix_append _ _)

theorem op (h : Gen b st cells c) (o : Opcode) :
    Gen b (emitOp o st) (cells ++ [c.op o]) (c.go 1 c.shape) :=
  h.byte (c.op o) rfl h.curStack.symm

theorem opAt (h : Gen b st cells c) (shape : Shape) (o : Opcode) :
    Gen b (emitOp o st) (cells ++ [⟨.op o, shape, c.shape.length, c.back⟩]) (c.go 1 c.shape) :=
  h.byte ⟨.op o, shape, c.shape.length, c.back⟩ rfl h.curStack.symm

theorem eop (h : Gen b st cells c) (eop : ExtendedOpcode) :
    Gen b (emitExtendedByte eop st) (cells ++ c.eop eop) (c.go 2 c.shape) := by
  have := (h.op .extended).byte (c.item (.eop eop)) rfl h.curStack.symm
  rw [List.append_assoc] at this
  exact this

theorem countByte (h : Gen b st cells c) (n : Nat) :
    Gen b (emitByte (UInt8.ofNat n) st) (cells ++ [c.item (.byte n)]) (c.go 1 c.shape) :=
  h.byte (c.item (.byte n)) rfl h.curStack.symm

theorem push (h : Gen b st cells c) {n : Nat} {s : Shape}
    (hs : s.length = c.shape.length + n) :
    Gen b (pushStack n st) cells { c with shape := s } :=
  h.step (h.toRep.pushStack n hs) rfl rfl (List.prefix_refl _) (List.prefix_refl _)

theorem pop (h : Gen b st cells c) {n : Nat} {s : Shape}
    (hs : s.length = c.shape.length - n) (hmax : c.shape.length ≤ maxCur cells) :
    Gen b (popStack n st) cells { c with shape := s } :=
  h.step (h.toRep.popStack n hs hmax) rfl rfl (List.prefix_refl _) (List.prefix_refl _)

theorem save (h : Gen b st cells c) :
    Gen b (saveStackTop st).2 cells { c with saved := some (c.shape.length - 1) } :=
  h.step (by rw [← h.curStack]; exact h.toRep.setSaved _) rfl rfl (List.prefix_refl _)
    (List.prefix_refl _)

theorem restore (h : Gen b st cells c) (old : Option Nat) :
    Gen b (restoreStackTop old st) cells { c with saved := old } :=
  h.step (h.toRep.setSaved old) rfl rfl (List.prefix_refl _) (List.prefix_refl _)

theorem literal (h : Gen b st cells c) {v : Var} (hv : v.isWritable) (hcells : cells ≠ []) :
    Gen b (addLiteral v st) (cells ++ [c.item (.literal v)]) (c.go 1 c.shape) := by
  obtain ⟨hpre, hname, hlt⟩ := internLiteral_spec v st.gstate.literals hv
  have hf : st.fixups <+: (addLiteral v st).fixups := List.prefix_append _ _
  have hrep : Rep (b.pending st.fixups) (addLiteral v st) (cells ++ [c.item (.literal v)])
      (c.go 1 c.shape) := by
    refine h.toRep.operand
      (f := ⟨.literal, st.bytes.length, (internLiteral v st.gstate.literals).1, st.num, none⟩)
      hcells h.curStack.symm rfl rfl nofun subset_rfl (fun _ => ⟨hname, hlt⟩) rfl rfl rfl rfl rfl
      rfl rfl (by simp [Ctx.item, Item.slot]; rfl) hpre ?_ h.maxFork le_rfl nofun
    · have := h.maxLiteral
      have hlen := hpre.length_le
      change max st.maxLiteral (internLiteral v st.gstate.literals).1 = 0 ∨
        max st.maxLiteral (internLiteral v st.gstate.literals).1 <
          (internLiteral v st.gstate.literals).2.length
      omega
  rw [← h.pending_append hf] at hrep
  refine { hrep with
    literals := h.literals.trans hpre
    refs := h.refs
    vectors := ?_
    loops := h.loops
    chains := fun o ho => (h.chains o ho).mono h.links hf (List.prefix_append _ _) }
  obtain ⟨new, hnew, hall⟩ := h.vectors
  exact ⟨new, hnew, hall.imp fun _ _ hf => hf.mono hpre⟩

theorem varRef (h : Gen b st cells c) (slot : Nat) (hcells : cells ≠ []) :
    Gen (b.addRefs 1) (addVarRef slot st) (cells ++ [c.item (.varRef slot)])
      (c.go 1 c.shape) := by
  have hf : st.fixups <+: (addVarRef slot st).fixups := List.prefix_append _ _
  have hrep : Rep (b.pending st.fixups) (addVarRef slot st) (cells ++ [c.item (.varRef slot)])
      (c.go 1 c.shape) :=
    h.toRep.operand (f := ⟨.varRef, st.bytes.length, slot, st.num, none⟩)
      hcells h.curStack.symm rfl rfl nofun subset_rfl (fun _ => rfl) rfl rfl rfl rfl rfl rfl rfl
      rfl (List.prefix_refl _) h.maxLiteral h.maxFork le_rfl nofun
  rw [← h.pending_append hf] at hrep
  exact { hrep with
    literals := h.literals
    refs := congrArg (· + 1) h.refs
    vectors := h.vectors
    loops := h.loops
    chains := fun o ho => (h.chains o ho).mono h.links hf (List.prefix_append _ _) }

theorem stackRef (h : Gen b st cells c) (index : Nat) (hcells : cells ≠ []) :
    Gen b (addStackRef index st) (cells ++ [c.item (.stack index)]) (c.go 1 c.shape) :=
  h.step (h.toRep.operand (f := ⟨.stack, st.bytes.length, index, st.num, none⟩)
      hcells h.curStack.symm rfl rfl nofun subset_rfl (fun _ => rfl) rfl rfl rfl rfl rfl rfl rfl
      (by simp [Ctx.item, Item.slot]; rfl) (List.prefix_refl _) h.maxLiteral h.maxFork
      le_rfl nofun)
    rfl rfl (List.prefix_append _ _) (List.prefix_append _ _)

theorem knownLabel (h : Gen b st cells c) {f : Fixup} {target : Nat}
    (hcells : cells ≠ []) (hkind : f.kind = .label) (hnext : f.next = none)
    (hle : target ≤ cells.length) (hvalue : f.value = target)
    (hprev : f.prev = counts (cells.take target)) :
    Gen b (addKnownLabel f st) (cells ++ [c.item (.label target)]) (c.go 1 c.shape) :=
  h.step (h.toRep.operand (f := { f with pc := st.bytes.length })
      hcells h.curStack.symm (by simp [hkind]; rfl) rfl (by simp [hnext]) subset_rfl
      (fun _ => ⟨by simp; omega, hvalue, by rw [List.take_append_of_le_length hle]; exact hprev⟩)
      rfl rfl rfl rfl rfl rfl rfl
      (by simp [Ctx.item, Item.slot]; rfl) (List.prefix_refl _) h.maxLiteral h.maxFork
      le_rfl nofun)
    rfl rfl (List.prefix_append _ _) (List.prefix_append _ _)

/-- The two places that stand for no default and no place at all come before any
operand. -/
theorem pseudoLabel (h : Gen b st cells c) {t : Nat} (ht : t ≤ 1)
    (hcells : cells ≠ []) :
    Gen b (addPseudoLabel t st) (cells ++ [c.item (.label t)]) (c.go 1 c.shape) := by
  refine h.knownLabel (f := ⟨.label, 0, t, {}, none⟩) hcells rfl rfl ?_ rfl ?_
  · exact ht.trans (List.length_pos_iff.mpr hcells)
  · cases cells with
    | nil => exact absurd rfl hcells
    | cons cell cells =>
        have hk := h.first cell rfl
        obtain rfl | rfl : t = 0 ∨ t = 1 := by omega
        · rfl
        · revert hk
          simp only [List.take_succ_cons, List.take_zero, counts, List.foldl_cons, List.foldl_nil]
          cases cell.item <;> simp [Item.kind?, countItem]

/-- A new label at the head of an open chain, or on its own. The fixups the other
chains lead to are the same as before. -/
theorem linkedLabel {d : Progress} {n : Option Nat} {t : Nat} (h : Gen b st cells c)
    (hcells : cells ≠ []) (hnext : IsOpen st cells ⟨n, t⟩)
    (hsub : ∀ o ∈ b.chains, o ∈ d.chains ∨ o = ⟨n, t⟩)
    (hmem : ⟨some st.fixups.length, t⟩ ∈ d.chains)
    (hsup : ∀ o ∈ d.chains, o ∈ b.chains ∨ o = ⟨some st.fixups.length, t⟩)
    (hb : d.start = b.start ∧ d.refs = b.refs ∧ d.bodies = b.bodies)
    {loops : List Loop} (hloops : loops = d.loops.map (·.1)) :
    Gen d { (addLinkedLabel n st).2 with loops := loops }
      (cells ++ [c.item (.label t)]) (c.go 1 c.shape) := by
  let st' : State := { (addLinkedLabel n st).2 with loops := loops }
  let f : Fixup := ⟨.label, st.bytes.length, 0, st.num, n⟩
  have hfixups : st'.fixups = st.fixups ++ [f] := rfl
  have hf : st.fixups <+: st'.fixups := List.prefix_append _ _
  have hget : st'.fixups[st.fixups.length]? = some f := by simp [hfixups]
  have hself {j : Nat} : Reaches st'.fixups (some st.fixups.length) j ↔
      j = st.fixups.length ∨ Reaches st.fixups n j := by
    rw [Reaches.some_iff, hget, Option.bind_some, hfixups, Reaches.append_iff h.links hnext.lt]
  have hrep : Rep (d.pending st'.fixups) st' (cells ++ [c.item (.label t)])
      (c.go 1 c.shape) := by
    refine h.toRep.operand (f := f) hcells h.curStack.symm rfl rfl hnext.lt ?_ ?_
      rfl rfl rfl rfl rfl rfl rfl (by simp [Ctx.item, Item.slot]; rfl) (List.prefix_refl _)
      h.maxLiteral h.maxFork le_rfl nofun
    · rintro j ⟨o, ho, hj⟩
      obtain ho' | rfl := hsub o ho
      · exact ⟨o, ho', by rwa [hfixups, Reaches.append_iff h.links (h.chains o ho).lt]⟩
      · exact ⟨_, hmem, hself.mpr (.inr hj)⟩
    · exact fun hn => absurd ⟨_, hmem, hself.mpr (.inl rfl)⟩ hn
  refine { hrep with
    literals := by rw [hb.1]; exact h.literals
    refs := by rw [hb.1, hb.2.1]; exact h.refs
    vectors := by rw [hb.1, hb.2.2]; exact h.vectors
    loops := hloops
    chains := fun o ho => ?_ }
  obtain ho' | rfl := hsup o ho
  · exact (h.chains o ho').mono h.links hf (List.prefix_append _ _)
  · refine ⟨by simp [addLinkedLabel, addLinkedFixup, addKnownFixup, countLabel, emitByte], ?_⟩
    intro j hj
    obtain rfl | hj' := hself.mp hj
    · exact ⟨cells.length, by
        rw [fixes_append, h.toRep.fixups_length, List.getElem?_append_right le_rfl]
        simp [fixes, Ctx.item, Item.kind?]⟩
    · obtain ⟨pc, hpc⟩ := hnext.items hj'
      exact ⟨pc, by
        rw [fixes_append, List.getElem?_append_left (List.getElem?_eq_some_iff.mp hpc).1, hpc]⟩

theorem label (h : Gen b st cells c) (target : Nat) (hcells : cells ≠ []) :
    Gen (b.opening [⟨some st.fixups.length, target⟩]) (addLabel st).2
      (cells ++ [c.item (.label target)]) (c.go 1 c.shape) := by
  have := h.linkedLabel (d := b.opening [⟨some st.fixups.length, target⟩]) (n := none)
    (t := target) hcells ⟨nofun, fun hj => absurd hj Reaches.not_none⟩
    (fun o ho => .inl (Progress.mem_chains_opening.mpr (.inr ho)))
    (Progress.mem_chains_opening.mpr (.inl (by simp)))
    (fun o ho => (Progress.mem_chains_opening.mp ho).symm.imp_right (by simp))
    ⟨rfl, rfl, rfl⟩ h.loops
  exact this

theorem chainLabel {next : Option Nat} {target : Nat}
    (h : Gen (b.opening [⟨next, target⟩]) st cells c) (hcells : cells ≠ []) :
    Gen (b.opening [⟨some st.fixups.length, target⟩]) (addLinkedLabel next st).2
      (cells ++ [c.item (.label target)]) (c.go 1 c.shape) := by
  have := h.linkedLabel (d := b.opening [⟨some st.fixups.length, target⟩]) (n := next)
    (t := target) hcells (h.chains _ (Progress.mem_chains_opening.mpr (.inl (by simp))))
    (fun o ho => (Progress.mem_chains_opening.mp ho).symm.imp
      (fun ho' => Progress.mem_chains_opening.mpr (.inr ho')) (by simp))
    (Progress.mem_chains_opening.mpr (.inl (by simp)))
    (fun o ho => (Progress.mem_chains_opening.mp ho).symm.imp
      (fun ho' => Progress.mem_chains_opening.mpr (.inr ho')) (by simp))
    ⟨rfl, rfl, rfl⟩ h.loops
  exact this

theorem perm {d : Progress} (h : Gen b st cells c) (hb : d = { b with opens := d.opens })
    (hp : b.opens.Perm d.opens) : Gen d st cells c := by
  have hmem (o : Open) : o ∈ d.chains ↔ o ∈ b.chains := by
    rw [hb]
    simp only [Progress.chains, List.mem_append, hp.mem_iff]
  have hpend : d.pending st.fixups = b.pending st.fixups := by
    ext j
    exact exists_congr fun o => by rw [hmem]
  exact { h with
    toRep := by rw [hpend]; exact h.toRep
    literals := by rw [hb]; exact h.literals
    refs := by rw [hb]; exact h.refs
    vectors := by rw [hb]; exact h.vectors
    loops := by rw [hb]; exact h.loops
    chains := fun o ho => h.chains o ((hmem o).mp ho) }

theorem swap {o p : List Open} (h : Gen ((b.opening o).opening p) st cells c) :
    Gen ((b.opening p).opening o) st cells c :=
  h.perm rfl (List.perm_append_comm_assoc p o b.opens)

theorem define {label : Option Nat} {target : Nat} {opens : List Open} (h : Gen b st cells c)
    (hb : b.opens = ⟨label, target⟩ :: opens) (ht : target = c.pos) :
    Gen { b with opens := opens } (defineLabel label st) cells c := by
  have hchains (o : Open) :
      o ∈ b.chains ↔ o = ⟨label, target⟩ ∨ o ∈ { b with opens := opens }.chains := by
    simp [Progress.chains, hb]
  have ho := h.chains ⟨label, target⟩ ((hchains _).mpr (.inl rfl))
  have hnext (k : Nat) : ((defineLabel label st).fixups[k]?).map (·.next) =
      (st.fixups[k]?).map (·.next) := by
    have hget := defineChain_getElem? st.bytes.length st.num st.fixups.length label st.fixups
      h.links ho.lt k
    by_cases hr : Reaches st.fixups label k
    · rw [defineLabel, hget.1 hr, Option.map_map]
      rfl
    · rw [defineLabel, hget.2 hr]
  have hreach {l : Option Nat} {j : Nat} :
      Reaches (defineLabel label st).fixups l j ↔ Reaches st.fixups l j :=
    ⟨.congr fun k => (hnext k).symm, .congr hnext⟩
  have hlen : (defineLabel label st).fixups.length = st.fixups.length := by
    refine Nat.le_antisymm ?_ ?_
    · by_contra hlt
      simpa [List.getElem?_eq_getElem (Nat.lt_of_not_le hlt)] using hnext st.fixups.length
    · by_contra hlt
      simpa [List.getElem?_eq_getElem (Nat.lt_of_not_le hlt)] using
        hnext (defineLabel label st).fixups.length
  have hrep : Rep ({ b with opens := opens }.pending (defineLabel label st).fixups)
      (defineLabel label st) cells c := by
    refine h.toRep.defineLabel ho.lt (fun j hj => (ht.trans h.pos) ▸ ho.items hj) fun j hj hj' => ?_
    obtain ⟨o, hmem, hj⟩ := hj
    obtain rfl | hmem := (hchains o).mp hmem
    · exact hj
    · exact absurd ⟨o, hmem, hreach.mpr hj⟩ hj'
  refine { hrep with
    literals := h.literals
    refs := h.refs
    vectors := h.vectors
    loops := h.loops
    chains := fun o hmem => ?_ }
  have hold := h.chains o ((hchains o).mpr (.inr hmem))
  exact ⟨fun k hk => hlen ▸ hold.lt k hk, fun hj => hold.items (hreach.mp hj)⟩

theorem varOp (h : Gen b st cells c) (op : VarOp) (slot : Nat) :
    Gen (b.addRefs (varOpRefs slot)) (emitVarOp op slot st) (cells ++ c.varOp op slot)
      (c.go (varOpSize slot) c.shape) := by
  unfold emitVarOp Ctx.varOp varOpSize varOpRefs
  split
  · exact h.op _
  · rw [List.append_cons]
    exact (h.op _).varRef slot (by simp)

theorem binary (h : Gen b st cells c) (kind : BinaryKind) :
    Gen b (emitBinary kind st) (cells ++ c.binary kind) (c.go (binarySize kind) c.shape) := by
  cases kind <;> first | exact h.op _ | exact h.eop _

theorem literalExpr (h : Gen b st cells c) {v : Var} (hv : v.isWritable) :
    ∃ st', generateExpr (.var v) st = some st' ∧
      Gen b st' (cells ++ c.literal v) (c.go (literalSize v) (.value :: c.shape)) := by
  have himm : Gen b (pushStack 1 (addLiteral v (emitOp .imm st)))
      (cells ++ [c.op .imm, c.item (.literal v)]) (c.go 2 (.value :: c.shape)) := by
    have := ((h.op .imm).literal hv (by simp)).push (n := 1) (s := .value :: c.shape) rfl
    rwa [← List.append_cons] at this
  unfold Ctx.literal literalSize
  cases v with
  | int num =>
      simp only [generateExpr, optimNum?]
      split
      · exact ⟨_, rfl, (h.op _).push (n := 1) rfl⟩
      · exact ⟨_, rfl, himm⟩
  | _ => exact ⟨_, rfl, himm⟩

end Gen

end LambdaMoo.Listing
