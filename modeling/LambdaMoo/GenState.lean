import LambdaMoo.ListingSize
import Mathlib.Data.Set.Insert

/-! What a generator state says about the listing it has emitted so far. Fixups
whose label has not been reached yet are pending; all others hold their final
value. -/
namespace LambdaMoo.Listing
open CodeGen

def Item.placeholder : Item → UInt8
  | .op o => o.byte
  | .eop e => e.byte
  | .byte n => UInt8.ofNat n
  | _ => 0

def Item.kind? : Item → Option FixupKind
  | .literal _ => some .literal
  | .fork _ => some .fork
  | .varRef _ => some .varRef
  | .label _ => some .label
  | .stack _ => some .stack
  | _ => none

def countItem (n : Counts) : Item → Counts
  | .literal _ => { n with literals := n.literals + 1 }
  | .fork _ => { n with forks := n.forks + 1 }
  | .varRef _ => { n with varRefs := n.varRefs + 1 }
  | .label _ => { n with labels := n.labels + 1 }
  | _ => n

def counts (cells : List Cell) : Counts := cells.foldl (fun n cell => countItem n cell.item) {}

@[simp] theorem counts_nil : counts [] = {} := rfl

@[simp] theorem counts_snoc (cells : List Cell) (cell : Cell) :
    counts (cells ++ [cell]) = countItem (counts cells) cell.item := by
  simp [counts]

def fixes : Nat → List Cell → List (Nat × Item)
  | _, [] => []
  | i, cell :: cells =>
      if cell.item.kind?.isSome then (i, cell.item) :: fixes (i + 1) cells
      else fixes (i + 1) cells

theorem fixes_append (i : Nat) (cells cells' : List Cell) :
    fixes i (cells ++ cells') = fixes i cells ++ fixes (i + cells.length) cells' := by
  induction cells generalizing i with
  | nil => simp [fixes]
  | cons cell cells ih =>
      simp only [List.cons_append, fixes, ih, List.length_cons, Nat.add_assoc, Nat.add_comm 1]
      split <;> simp

theorem mem_fixes {cells : List Cell} {i : Nat} {cell : Cell} (h : cells[i]? = some cell)
    (hk : cell.item.kind?.isSome) (n : Nat) : (n + i, cell.item) ∈ fixes n cells := by
  induction cells generalizing i n with
  | nil => simp at h
  | cons cell' cells ih =>
      rw [fixes]
      cases i with
      | zero =>
          obtain rfl : cell' = cell := by simpa using h
          simp [hk]
      | succ i =>
          have := ih (by simpa using h) (n + 1)
          rw [Nat.add_right_comm, Nat.add_assoc] at this
          split
          · exact List.mem_cons_of_mem _ this
          · exact this

def maxCur : List Cell → Nat
  | [] => 0
  | cell :: cells => max cell.cur (maxCur cells)

attribute [simp] maxCur

@[simp] theorem maxCur_append (cells cells' : List Cell) :
    maxCur (cells ++ cells') = max (maxCur cells) (maxCur cells') := by
  induction cells with
  | nil => simp
  | cons cell cells ih => simp [ih, Nat.max_assoc]

def Item.slot : Item → Nat
  | .varRef s => s
  | _ => 0

def maxSlot : List Cell → Nat
  | [] => 0
  | cell :: cells => max cell.item.slot (maxSlot cells)

attribute [simp] maxSlot

@[simp] theorem maxSlot_append (cells cells' : List Cell) :
    maxSlot (cells ++ cells') = max (maxSlot cells) (maxSlot cells') := by
  induction cells with
  | nil => simp
  | cons cell cells ih => simp [ih, Nat.max_assoc]

@[simp] theorem item_cur (c : Ctx) (item : Item) : (c.item item).cur = c.shape.length := rfl

@[simp] theorem op_cur (c : Ctx) (o : Opcode) : (c.op o).cur = c.shape.length := rfl

def Names (literals : List Var) (cells : List Cell) (f : Fixup) : Item → Prop
  | .literal v => literals.findIdx (sameLiteral v) = f.value ∧ f.value < literals.length
  | .fork index => f.value = index
  | .varRef slot => f.value = slot
  | .stack index => f.value = index
  | .label target =>
      target ≤ cells.length ∧ f.value = target ∧ f.prev = counts (cells.take target)
  | _ => False

theorem Names.mono {literals literals' : List Var} {cells cells' : List Cell} {f : Fixup}
    {item : Item} (h : Names literals cells f item) (hl : literals <+: literals')
    (hc : cells <+: cells') : Names literals' cells' f item := by
  obtain ⟨rest, rfl⟩ := hl
  obtain ⟨code, rfl⟩ := hc
  cases item with
  | literal v =>
      obtain ⟨hi, hlt⟩ := h
      refine ⟨?_, by rw [List.length_append]; omega⟩
      rw [List.findIdx_append, if_pos (hi ▸ hlt), hi]
  | label target =>
      obtain ⟨hle, hv, hp⟩ := h
      refine ⟨by simp; omega, hv, ?_⟩
      rw [List.take_append_of_le_length hle, hp]
  | _ => exact h

/-- A chain of labels leads to a fixup. -/
inductive Reaches (fixups : List Fixup) : Option Nat → Nat → Prop
  | here (k : Nat) : Reaches fixups (some k) k
  | next {k j : Nat} {f : Fixup} : fixups[k]? = some f → Reaches fixups f.next j →
      Reaches fixups (some k) j

def Linked (fixups : List Fixup) : Prop :=
  ∀ {j : Nat} {f : Fixup} {k : Nat}, fixups[j]? = some f → f.next = some k → k < j

namespace Reaches

theorem not_none {fixups : List Fixup} {j : Nat} : ¬ Reaches fixups none j := nofun

theorem some_iff {fixups : List Fixup} {k j : Nat} : Reaches fixups (some k) j ↔
    j = k ∨ Reaches fixups ((fixups[k]?).bind (·.next)) j := by
  constructor
  · rintro (_ | ⟨hk, hj⟩)
    · exact .inl rfl
    · exact .inr (by simpa [hk] using hj)
  · rintro (rfl | hj)
    · exact .here _
    · cases hk : fixups[k]? with
      | none => simp [hk, not_none] at hj
      | some f => exact .next hk (by simpa [hk] using hj)

theorem congr {fixups fixups' : List Fixup}
    (h : ∀ k : Nat, (fixups'[k]?).map (·.next) = (fixups[k]?).map (·.next)) {label : Option Nat}
    {j : Nat} (hj : Reaches fixups label j) : Reaches fixups' label j := by
  induction hj with
  | here k => exact .here k
  | @next k j f hk _ ih =>
      obtain ⟨f', hf', hnext⟩ : ∃ f', fixups'[k]? = some f' ∧ f'.next = f.next := by
        simpa [hk] using h k
      exact .next hf' (hnext ▸ ih)

theorem le {fixups : List Fixup} (hl : Linked fixups) {label : Option Nat} {j : Nat}
    (hj : Reaches fixups label j) : ∀ k ∈ label, j ≤ k := by
  induction hj with
  | here k => simp
  | @next k j f hk _ ih =>
      rintro _ ⟨⟩
      cases hn : f.next with
      | none => simp_all [not_none]
      | some k' => exact (ih k' hn).trans (hl hk hn).le

theorem append_iff {fixups rest : List Fixup} (hl : Linked fixups) {label : Option Nat} {j : Nat}
    (hlt : ∀ k ∈ label, k < fixups.length) :
    Reaches (fixups ++ rest) label j ↔ Reaches fixups label j := by
  constructor
  · intro hj
    induction hj with
    | here k => exact .here k
    | @next k j f hk _ ih =>
        have hk' : fixups[k]? = some f := by
          rwa [List.getElem?_append_left (hlt k rfl)] at hk
        refine .next hk' (ih fun k' hn => ?_)
        exact (hl hk' hn).trans (hlt k rfl)
  · intro hj
    induction hj with
    | here k => exact .here k
    | @next k j f hk _ ih =>
        have hlen := (List.getElem?_eq_some_iff.mp hk).1
        refine .next (by rw [List.getElem?_append_left hlen, hk]) (ih fun k' hn => ?_)
        exact (hl hk hn).trans hlen

end Reaches

def place (value : Nat) (num : Counts) (f : Fixup) : Fixup := { f with value := value, prev := num }

theorem defineChain_getElem? (value : Nat) (num : Counts) (fuel : Nat) (label : Option Nat)
    (fixups : List Fixup) (hl : Linked fixups) (hlt : ∀ k ∈ label, k < fuel) (j : Nat) :
    (Reaches fixups label j →
      (defineChain value num fuel label fixups)[j]? = (fixups[j]?).map (place value num)) ∧
    (¬ Reaches fixups label j →
      (defineChain value num fuel label fixups)[j]? = fixups[j]?) := by
  induction fuel generalizing label fixups with
  | zero =>
      cases label with
      | none => simp [defineChain, Reaches.not_none]
      | some k => exact absurd (hlt k rfl) (Nat.not_lt_zero k)
  | succ fuel ih =>
      cases label with
      | none => simp [defineChain, Reaches.not_none]
      | some k =>
          let fixups' := fixups.modify k (place value num)
          have hget (i : Nat) :
              fixups'[i]? = (fixups[i]?).map (if k = i then place value num else id) := by
            rw [List.getElem?_modify]
            split <;> simp
          have hnext (i : Nat) : (fixups'[i]?).map (·.next) = (fixups[i]?).map (·.next) := by
            rw [hget]
            split <;> cases fixups[i]? <;> rfl
          have hl' : Linked fixups' := by
            intro i f k' hi hk'
            obtain ⟨f', hf', hf⟩ : ∃ f', fixups[i]? = some f' ∧ f'.next = f.next := by
              have h := (hnext i).symm
              rw [hi] at h
              simpa using h
            exact hl hf' (hf.trans hk')
          have hlt' : ∀ k' ∈ (fixups[k]?).bind (·.next), k' < fuel := by
            intro k' hk'
            obtain ⟨f, hf, hfk⟩ := Option.bind_eq_some_iff.mp hk'
            have := hl hf hfk
            have := hlt k rfl
            omega
          obtain ⟨hin, hout⟩ := ih _ fixups' hl' hlt'
          have hiff : Reaches fixups' ((fixups[k]?).bind (·.next)) j ↔
              Reaches fixups ((fixups[k]?).bind (·.next)) j :=
            ⟨.congr fun i => (hnext i).symm, .congr hnext⟩
          rw [hiff] at hin hout
          rw [Reaches.some_iff, defineChain]
          constructor
          · intro hj
            by_cases hr : Reaches fixups ((fixups[k]?).bind (·.next)) j
            · refine (hin hr).trans ?_
              rw [hget]
              split <;> cases fixups[j]? <;> rfl
            · obtain rfl : j = k := hj.resolve_right hr
              exact (hout hr).trans (by rw [hget]; simp)
          · intro hj
            rw [not_or] at hj
            refine (hout hj.2).trans ?_
            rw [hget, if_neg (Ne.symm hj.1), Option.map_id, id]

/-- A generator state and the listing it has emitted, at a context of the
listing. `pending` are the numbers of the fixups whose label is still open. -/
structure Rep (pending : Set Nat) (st : State) (cells : List Cell) (c : Ctx) : Prop where
  bytes : st.bytes = cells.map (·.item.placeholder)
  curStacks : st.curStacks = cells.map (·.cur)
  num : st.num = counts cells
  fixups : ∀ j : Nat, (st.fixups[j]?).map (fun f => (f.pc, some f.kind)) =
    ((fixes 0 cells)[j]?).map (fun x => (x.1, x.2.kind?))
  names : ∀ {j : Nat} {f : Fixup} {x : Nat × Item}, st.fixups[j]? = some f →
    (fixes 0 cells)[j]? = some x → j ∉ pending →
      Names st.gstate.literals cells f x.2
  links : Linked st.fixups
  pos : c.pos = cells.length
  curStack : st.curStack = c.shape.length
  saved : st.savedStack = c.saved
  maxStack : st.maxStack = max (maxCur cells) st.curStack
  maxVarRef : st.maxVarRef = maxSlot cells
  maxLiteral : st.maxLiteral = 0 ∨ st.maxLiteral < st.gstate.literals.length
  maxFork : st.maxFork = 0 ∨ st.maxFork < st.gstate.forkVectors.length
  first : ∀ cell ∈ cells.head?, cell.item.kind? = none
  forks : ∀ cell ∈ cells, ∀ index, cell.item = .fork index →
    index < st.gstate.forkVectors.length

namespace Rep

variable {pending : Set Nat} {st : State} {cells : List Cell} {c : Ctx}

theorem fixups_length (h : Rep pending st cells c) :
    st.fixups.length = (fixes 0 cells).length := by
  have hj := h.fixups
  refine Nat.le_antisymm ?_ ?_
  · by_contra hlt
    simpa [List.getElem?_eq_getElem (Nat.lt_of_not_le hlt)] using hj (fixes 0 cells).length
  · by_contra hlt
    simpa [List.getElem?_eq_getElem (Nat.lt_of_not_le hlt)] using hj st.fixups.length

theorem exists_fixup (h : Rep pending st cells c) {i : Nat} {cell : Cell}
    (hi : cells[i]? = some cell) (hk : cell.item.kind?.isSome) :
    ∃ (j : Nat) (f : Fixup), st.fixups[j]? = some f ∧
      (fixes 0 cells)[j]? = some (i, cell.item) ∧ f.pc = i ∧ cell.item.kind? = some f.kind := by
  have hmem := mem_fixes hi hk 0
  rw [Nat.zero_add] at hmem
  obtain ⟨j, hj⟩ := List.mem_iff_getElem?.mp hmem
  have hf := h.fixups j
  rw [hj, Option.map_some] at hf
  obtain ⟨f, hf, hpc⟩ := Option.map_eq_some_iff.mp hf
  obtain ⟨hpc, hkind⟩ := Prod.mk.inj hpc
  exact ⟨j, f, hf, hj, hpc, hkind.symm⟩

theorem label_le (h : Rep ∅ st cells c) {cell : Cell} (hcell : cell ∈ cells) {target : Nat}
    (ht : cell.item = .label target) : target ≤ cells.length := by
  obtain ⟨i, hi⟩ := List.mem_iff_getElem?.mp hcell
  obtain ⟨j, f, hf, hx, -⟩ := h.exists_fixup hi (by simp [ht, Item.kind?])
  have := h.names hf hx (Set.notMem_empty j)
  rw [ht] at this
  exact this.1

theorem byte (h : Rep pending st cells c) (cell : Cell) (hk : cell.item.kind? = none)
    (hcur : cell.cur = st.curStack) :
    Rep pending (emitByte cell.item.placeholder st) (cells ++ [cell]) (c.go 1 c.shape) := by
  have hfix : fixes 0 (cells ++ [cell]) = fixes 0 cells := by simp [fixes_append, fixes, hk]
  have hcount : countItem (counts cells) cell.item = counts cells := by
    revert hk; cases cell.item <;> simp [Item.kind?, countItem]
  have hslot : cell.item.slot = 0 := by
    revert hk; cases cell.item <;> simp [Item.kind?, Item.slot]
  refine ⟨?_, ?_, ?_, ?_, ?_, h.links, ?_, h.curStack, h.saved, ?_, ?_, h.maxLiteral, h.maxFork,
    ?_, ?_⟩
  · simp [emitByte, h.bytes]
  · simp [emitByte, h.curStacks, hcur]
  · rw [counts_snoc, hcount]; exact h.num
  · rw [hfix]; exact h.fixups
  · rw [hfix]
    intro j f x hf hx hj
    exact (h.names hf hx hj).mono (List.prefix_refl _) (List.prefix_append _ _)
  · simp [h.pos]
  · simp [emitByte, hcur, h.maxStack]
  · simp [emitByte, hslot, h.maxVarRef]
  · cases cells with
    | nil => simpa using hk
    | cons => simpa using h.first
  · intro cell' hcell' index hi
    obtain hcell' | hcell' := List.mem_append.mp hcell'
    · exact h.forks cell' hcell' index hi
    · obtain rfl := List.mem_singleton.mp hcell'
      simp [hi, Item.kind?] at hk

theorem operand (h : Rep pending st cells c) {cell : Cell} {pending' : Set Nat} {st' : State}
    {f : Fixup} (hcells : cells ≠ []) (hcur : cell.cur = st.curStack)
    (hk : cell.item.kind? = some f.kind) (hpc : f.pc = st.bytes.length)
    (hlink : ∀ k ∈ f.next, k < st.fixups.length) (hsub : pending ⊆ pending')
    (hname : st.fixups.length ∉ pending' →
      Names st'.gstate.literals (cells ++ [cell]) f cell.item)
    (hbytes : st'.bytes = st.bytes ++ [0]) (hcurs : st'.curStacks = st.curStacks ++ [st.curStack])
    (hnum : st'.num = countItem st.num cell.item) (hfixups : st'.fixups = st.fixups ++ [f])
    (hcurStack : st'.curStack = st.curStack) (hsaved : st'.savedStack = st.savedStack)
    (hmaxStack : st'.maxStack = st.maxStack)
    (hmaxVarRef : st'.maxVarRef = max st.maxVarRef cell.item.slot)
    (hlits : st.gstate.literals <+: st'.gstate.literals)
    (hmaxLiteral : st'.maxLiteral = 0 ∨ st'.maxLiteral < st'.gstate.literals.length)
    (hmaxFork : st'.maxFork = 0 ∨ st'.maxFork < st'.gstate.forkVectors.length)
    (hforks : st.gstate.forkVectors.length ≤ st'.gstate.forkVectors.length)
    (hindex : ∀ index, cell.item = .fork index → index < st'.gstate.forkVectors.length) :
    Rep pending' st' (cells ++ [cell]) (c.go 1 c.shape) := by
  have hfix : fixes 0 (cells ++ [cell]) = fixes 0 cells ++ [(cells.length, cell.item)] := by
    simp [fixes_append, fixes, hk]
  have hlen : st.bytes.length = cells.length := by rw [h.bytes, List.length_map]
  have hplace : cell.item.placeholder = 0 := by
    revert hk; cases cell.item <;> simp [Item.kind?, Item.placeholder]
  refine ⟨?_, ?_, ?_, ?_, ?_, ?_, ?_, ?_, ?_, ?_, ?_, hmaxLiteral, hmaxFork, ?_, ?_⟩
  · simp [hbytes, h.bytes, hplace]
  · simp [hcurs, h.curStacks, hcur]
  · rw [hnum, counts_snoc, h.num]
  · intro j
    have hj := h.fixups j
    rw [hfix, hfixups, List.getElem?_append, List.getElem?_append, ← h.fixups_length]
    split
    · exact hj
    · cases hj' : j - st.fixups.length with
      | zero => simp [hpc, hlen, hk]
      | succ => simp
  · intro j g x hg hx hj
    rw [hfixups, List.getElem?_append] at hg
    rw [hfix, List.getElem?_append, ← h.fixups_length] at hx
    split at hg
    · next hlt =>
        rw [if_pos hlt] at hx
        exact (h.names hg hx fun hp => hj (hsub hp)).mono hlits (List.prefix_append _ _)
    · next hge =>
        rw [if_neg hge] at hx
        obtain ⟨hj', rfl⟩ : j - st.fixups.length = 0 ∧ f = g := by
          cases hj' : j - st.fixups.length <;> simp_all
        obtain rfl : (cells.length, cell.item) = x := by simpa [hj'] using hx
        obtain rfl : j = st.fixups.length := by omega
        exact hname hj
  · intro j g k hg hk'
    rw [hfixups, List.getElem?_append] at hg
    split at hg
    · exact h.links hg hk'
    · next hge =>
        obtain ⟨hj', rfl⟩ : j - st.fixups.length = 0 ∧ f = g := by
          cases hj' : j - st.fixups.length <;> simp_all
        exact (hlink k hk').trans_le (by omega)
  · simp [h.pos]
  · rw [hcurStack, h.curStack]
    rfl
  · exact hsaved.trans h.saved
  · simp [hmaxStack, h.maxStack, hcurStack, hcur]
  · simp [hmaxVarRef, h.maxVarRef]
  · cases cells with
    | nil => exact absurd rfl hcells
    | cons => simpa using h.first
  · intro cell' hcell' index hi
    obtain hcell' | hcell' := List.mem_append.mp hcell'
    · exact (h.forks cell' hcell' index hi).trans_le hforks
    · obtain rfl := List.mem_singleton.mp hcell'
      exact hindex index hi

theorem pushStack (h : Rep pending st cells c) (n : Nat) {shape : Shape}
    (hs : shape.length = c.shape.length + n) :
    Rep pending (CodeGen.pushStack n st) cells { c with shape := shape } :=
  { h with
    curStack := by simp [CodeGen.pushStack, h.curStack, hs]
    maxStack := by simp only [CodeGen.pushStack, h.maxStack]; omega }

theorem popStack (h : Rep pending st cells c) (n : Nat) {shape : Shape}
    (hs : shape.length = c.shape.length - n) (hmax : c.shape.length ≤ maxCur cells) :
    Rep pending (CodeGen.popStack n st) cells { c with shape := shape } :=
  { h with
    curStack := by simp [CodeGen.popStack, h.curStack, hs]
    maxStack := by
      have := h.maxStack
      have := h.curStack
      simp only [CodeGen.popStack]
      omega }

theorem setSaved (h : Rep pending st cells c) (saved : Option Nat) :
    Rep pending { st with savedStack := saved } cells { c with saved := saved } :=
  { h with saved := rfl }

theorem setLoops (h : Rep pending st cells c) (loops : List Loop) :
    Rep pending { st with loops := loops } cells c :=
  { h with }

theorem defineLabel (h : Rep pending st cells c) {label : Option Nat} {pending' : Set Nat}
    (hlt : ∀ k ∈ label, k < st.fixups.length)
    (hitem : ∀ j, Reaches st.fixups label j →
      ∃ pc, (fixes 0 cells)[j]? = some (pc, .label cells.length))
    (hsub : ∀ j ∈ pending, j ∉ pending' → Reaches st.fixups label j) :
    Rep pending' (CodeGen.defineLabel label st) cells c := by
  have hget (j : Nat) := defineChain_getElem? st.bytes.length st.num st.fixups.length label
    st.fixups h.links hlt j
  have hlen : st.bytes.length = cells.length := by rw [h.bytes, List.length_map]
  have hcase (j : Nat) {g : Fixup} (hg : (CodeGen.defineLabel label st).fixups[j]? = some g) :
      ∃ f, st.fixups[j]? = some f ∧ g.pc = f.pc ∧ g.kind = f.kind ∧ g.next = f.next ∧
        (Reaches st.fixups label j ∧ g = place st.bytes.length st.num f ∨
          ¬ Reaches st.fixups label j ∧ g = f) := by
    by_cases hr : Reaches st.fixups label j
    · rw [CodeGen.defineLabel, (hget j).1 hr, Option.map_eq_some_iff] at hg
      obtain ⟨f, hf, rfl⟩ := hg
      exact ⟨f, hf, rfl, rfl, rfl, .inl ⟨hr, rfl⟩⟩
    · rw [CodeGen.defineLabel, (hget j).2 hr] at hg
      exact ⟨g, hg, rfl, rfl, rfl, .inr ⟨hr, rfl⟩⟩
  refine { h with fixups := fun j => ?_, names := ?_, links := ?_ }
  · rw [← h.fixups j]
    by_cases hr : Reaches st.fixups label j
    · rw [CodeGen.defineLabel, (hget j).1 hr, Option.map_map]
      rfl
    · rw [CodeGen.defineLabel, (hget j).2 hr]
  · intro j g x hg hx hj
    obtain ⟨f, hf, -, -, -, ⟨hr, rfl⟩ | ⟨hr, rfl⟩⟩ := hcase j hg
    · obtain ⟨pc, hpc⟩ := hitem j hr
      obtain rfl : (pc, Item.label cells.length) = x := by simpa [hpc] using hx
      exact ⟨le_rfl, hlen, by rw [List.take_length]; exact h.num⟩
    · exact h.names hf hx fun hp => hr (hsub j hp hj)
  · intro j g k hg hk
    obtain ⟨f, hf, -, -, hn, -⟩ := hcase j hg
    exact h.links hf (hn ▸ hk)

end Rep

end LambdaMoo.Listing
