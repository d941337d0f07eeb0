import LambdaMoo.ScatterRuns
import LambdaMoo.StmtToCode

/-! Loops over ranges and scattering assignments in the vectors of the code generator: where
the layout is right, their code stands there as `run` reads it. -/
namespace LambdaMoo.Listing
open CodeGen

variable {st : State} {cells pre post : List Cell} {c : Ctx} {cell : Cell} {i : Nat}

def ItemAt (cells : List Cell) (i : Nat) (item : Item) : Prop := ∃ cell, cells[i]? = some cell ∧ cell.item = item

theorem ItemAt.lt {item : Item} (h : ItemAt cells i item) : i < cells.length := by
  obtain ⟨cell, hcell, -⟩ := h
  exact (List.getElem?_eq_some_iff.mp hcell).1

theorem itemAt {piece : List Cell} (hcells : cells = pre ++ (piece ++ post)) (hpre : pre.length = i) {k : Nat}
    {item : Item} (hitem : piece[k]?.map (·.item) = some item) : ItemAt cells (i + k) item := by
  obtain ⟨cell, hcell, hitem⟩ := Option.map_eq_some_iff.mp hitem
  obtain ⟨hk, -⟩ := List.getElem?_eq_some_iff.mp hcell
  refine ⟨cell, ?_, hitem⟩
  rw [hcells, ← hpre, List.getElem?_append_right (Nat.le_add_right _ _), Nat.add_sub_cancel_left,
    List.getElem?_append_left hk, hcell]

namespace Rep

theorem drop_cell (h : Rep ∅ st cells c) (hcell : cells[i]? = some cell) :
    (layout st).vector.drop (finalOffset st i) = encodeItem (numBytesOf st) st.gstate.literals cells cell.item ++
      (layout st).vector.drop (finalOffset st (i + 1)) := by
  obtain ⟨hlt, rfl⟩ := List.getElem?_eq_some_iff.mp hcell
  rw [h.vector_eq, h.finalOffset_eq, h.finalOffset_eq, encodeCells, Segments.drop_start, Segments.drop_start,
    List.drop_eq_getElem_cons hlt, List.flatMap_cons]

theorem offset_succ (h : Rep ∅ st cells c) (hcell : cells[i]? = some cell) :
    finalOffset st (i + 1) = finalOffset st i + itemSize (numBytesOf st) cell.item := by
  rw [h.finalOffset_eq, h.finalOffset_eq, Segments.start_succ _ hcell, encodeItem_length (numBytesOf_isWidth st)]

theorem byte_at (h : Rep ∅ st cells c) {item : Item} (hitem : ItemAt cells i item) (hk : item.kind? = none) :
    (layout st).vector[finalOffset st i]? = some item.placeholder ∧ finalOffset st (i + 1) = finalOffset st i + 1 := by
  obtain ⟨cell, hcell, rfl⟩ := hitem
  have hdrop := h.drop_cell hcell
  have hsucc := h.offset_succ hcell
  rw [encodeItem, hk] at hdrop
  rw [itemSize, hk] at hsucc
  refine ⟨?_, hsucc⟩
  rw [← Nat.add_zero (finalOffset st i), ← List.getElem?_drop, hdrop]
  rfl

theorem read_at (h : Rep ∅ st cells c) (hl : LayoutCorrect st) {item : Item} (hitem : ItemAt cells i item)
    {k : FixupKind} (hk : item.kind? = some k) :
    (layout st).read (operandSize (layout st).numbytes k) (finalOffset st i) =
      .ok (itemValue (numBytesOf st) st.gstate.literals cells item, finalOffset st (i + 1)) := by
  obtain ⟨cell, hcell, rfl⟩ := hitem
  obtain ⟨-, hfit⟩ := h.layoutCorrect_iff.mp hl
  have hvalue := hfit cell (List.mem_of_getElem? hcell) k hk
  have hsucc := h.offset_succ hcell
  rw [itemSize, hk] at hsucc
  have hwidth : operandSize (layout st).numbytes k = operandSize (numBytesOf st) k := rfl
  rw [Bytecodes.read, h.drop_cell hcell, encodeItem, hk, hwidth]
  dsimp only
  rw [readBytes_writeOperand (numBytesOf_isWidth st k), Nat.mod_eq_of_lt hvalue, hsucc]
  rfl

theorem readVar_at (h : Rep ∅ st cells c) (hl : LayoutCorrect st) {slot : Nat} (hitem : ItemAt cells i (.varRef slot)) :
    (layout st).read (layout st).numbytes.varName (finalOffset st i) = .ok (slot, finalOffset st (i + 1)) :=
  h.read_at hl hitem rfl

theorem readLabel_at (h : Rep ∅ st cells c) (hl : LayoutCorrect st) {target : Nat}
    (hitem : ItemAt cells i (.label target)) :
    (layout st).read (layout st).numbytes.label (finalOffset st i) =
      .ok (finalOffset st target, finalOffset st (i + 1)) := by
  obtain ⟨cell, hcell, hlabel⟩ := id hitem
  have htarget := h.label_le (List.mem_of_getElem? hcell) hlabel
  have hoffset := h.finalOffset_spread (h.layoutCorrect_iff.mp hl).1 htarget
  have hread := h.read_at hl hitem rfl
  rw [itemValue, ← hoffset] at hread
  exact hread

theorem offset_zero (h : Rep ∅ st cells c) : finalOffset st 0 = 0 := by
  rw [h.finalOffset_eq, Segments.start_zero]

theorem offset_one (h : Rep ∅ st cells c) (hne : 0 < cells.length) : finalOffset st 1 = 1 := by
  have hcell : cells[0]? = some cells[0] := List.getElem?_eq_getElem hne
  have hfirst := h.first cells[0] (by rw [List.head?_eq_getElem?, hcell]; rfl)
  rw [(h.byte_at ⟨_, hcell, rfl⟩ hfirst).2, h.offset_zero]

theorem offset_lt (h : Rep ∅ st cells c) {j : Nat} (hij : i < j) (hi : i < cells.length) :
    finalOffset st i < finalOffset st j := by
  rw [h.finalOffset_eq, h.finalOffset_eq]
  refine Segments.start_lt _ (fun cell => ?_) hij hi
  rw [encodeItem_length (numBytesOf_isWidth st), itemSize]
  cases cell.item.kind? with
  | none => exact Nat.one_pos
  | some k => obtain h | h | h := numBytesOf_isWidth st k <;> simp [h]

end Rep

theorem varOpSize_pos (slot : Nat) : 0 < varOpSize slot := by
  unfold varOpSize
  split <;> decide

theorem storeSize_pos (lhs : Expr) : 0 < storeSize lhs := by
  cases lhs <;> simp [storeSize, varOpSize_pos]

theorem argListSize_pos (args : ArgList) : 0 < argListSize args := by
  cases args <;> simp [argListSize]

theorem exprSize_pos {e : Expr} (h : e.isScatter = false) : 0 < exprSize e := by
  cases e with
  | var v =>
      rw [exprSize, literalSize]
      split <;> decide
  | id slot => exact varOpSize_pos slot
  | binary kind lhs rhs =>
      rw [exprSize]
      cases kind <;> exact Nat.succ_pos _
  | list args => exact argListSize_pos args
  | asgn lhs rhs =>
      cases hs : lhs.isScatter with
      | true =>
          cases lhs <;> cases hs
          rw [exprSize]
          omega
      | false =>
          have := storeSize_pos lhs
          rw [exprSize_asgn rhs hs]
          split <;> omega
  | scatter targets => cases h
  | _ =>
      rw [exprSize]
      omega

theorem range_standsIn {id : Nat} {lower upper : Expr} {body : Stmts} {s : StmtCtx} (h : Rep ∅ st cells c)
    (hl : LayoutCorrect st) (hcells : cells = pre ++ (stmtCode (.range id lower upper body) s ++ post))
    (hpos : s.pos = pre.length) (hlower : lower.isScatter = false)
    (hbody : body.admitted (some id :: s.loops.map (·.id))) :
    let top := s.pos + exprSize lower + exprSize upper
    let back := top + 3 + stmtsSize body
    RangeLoop.StandsIn ⟨finalOffset st top, id, finalOffset st (top + 3), finalOffset st back,
      finalOffset st (back + 2)⟩ (layout st) := by
  intro top back
  have hsize := exprSize_pos hlower
  rw [stmtCode] at hcells
  simp only [List.append_assoc] at hcells
  have hhead : ∀ k item, [Item.op .forRange, .varRef id, .label (back + 2)][k]? = some item →
      ItemAt cells (top + k) item := by
    intro k item hitem
    rw [← List.append_assoc, ← List.append_assoc] at hcells
    refine itemAt hcells (by simp [top, hpos]; omega) ?_
    rw [← List.getElem?_map, ← hitem]
    simp [Ctx.op, Ctx.item, back, top, StmtCtx.go, StmtCtx.expr]
  have htail : ∀ k item, [Item.op .jump, .label top][k]? = some item → ItemAt cells (back + k) item := by
    intro k item hitem
    rw [← List.append_assoc, ← List.append_assoc, ← List.append_assoc, ← List.append_assoc] at hcells
    refine itemAt hcells ?_ ?_
    · simp [top, back, hpos, stmtsCode_length, hbody]
      omega
    · rw [← List.getElem?_map, ← hitem]
      simp [Ctx.op, Ctx.item, top, StmtCtx.go, StmtCtx.expr]
  obtain ⟨hop, hnext⟩ : (layout st).vector[finalOffset st top]? = some Opcode.forRange.byte ∧
      finalOffset st (top + 1) = finalOffset st top + 1 := h.byte_at (hhead 0 _ rfl) rfl
  obtain ⟨hjump, hback⟩ : (layout st).vector[finalOffset st back]? = some Opcode.jump.byte ∧
      finalOffset st (back + 1) = finalOffset st back + 1 := h.byte_at (htail 0 _ rfl) rfl
  have hid := h.readVar_at hl (hhead 1 _ rfl)
  have hagain := h.readLabel_at hl (htail 1 _ rfl)
  rw [hnext] at hid
  rw [hback] at hagain
  have hlt := (htail 0 _ rfl).lt
  have hfirst : finalOffset st 0 < finalOffset st top := h.offset_lt (by omega) (by omega)
  exact ⟨hop, ⟨_, hid, h.readLabel_at hl (hhead 2 _ rfl)⟩, hjump, ⟨_, hagain⟩,
    Nat.ne_of_gt (Nat.lt_of_le_of_lt (Nat.zero_le _) hfirst), h.offset_lt (by omega) (by omega)⟩

/-! Scattering assignments. -/

def defaultBlocks (st : State) : Scatter → Nat → List DefaultCode
  | .nil, _ => []
  | .cons .optional id (.some e) next, start =>
      ⟨id, e, finalOffset st start, finalOffset st (start + exprSize e)⟩ ::
        defaultBlocks st next (start + (exprSize e + varOpSize id + 1))
  | .cons _ _ _ next, start => defaultBlocks st next start

theorem operand_pair {x y : Cell} {rest : List Cell} (h : Rep ∅ st cells c) (hl : LayoutCorrect st)
    (hcells : cells = pre ++ (x :: y :: rest ++ post)) (hpre : pre.length = i) {id target : Nat}
    (hx : x.item = .varRef id) (hy : y.item = .label target) :
    (layout st).read (layout st).numbytes.varName (finalOffset st i) = .ok (id, finalOffset st (i + 1)) ∧
      (layout st).read (layout st).numbytes.label (finalOffset st (i + 1)) =
        .ok (finalOffset st target, finalOffset st (i + 2)) ∧
      cells = (pre ++ [x, y]) ++ (rest ++ post) ∧ (pre ++ [x, y]).length = i + 2 := by
  refine ⟨h.readVar_at hl (itemAt hcells hpre (k := 0) (congrArg some hx)),
    h.readLabel_at hl (itemAt hcells hpre (k := 1) (congrArg some hy)), ?_, ?_⟩
  · rw [hcells, List.append_assoc]
    rfl
  · rw [List.length_append, hpre]
    rfl

theorem operandsAt (h : Rep ∅ st cells c) (hl : LayoutCorrect st) {targets : Scatter} {start : Nat} {s : Ctx}
    (hcells : cells = pre ++ (scatterCode targets start s ++ post)) (hpre : pre.length = i) (hstart : 1 < start) :
    OperandsAt (layout st) targets (finalOffset st i) (finalOffset st (i + 2 * targets.count))
      (defaultBlocks st targets start) := by
  have hstep : ∀ next : Scatter, i + 2 * (next.count + 1) = i + 2 + 2 * next.count := fun next => by omega
  induction targets, start, s using scatterCode.induct generalizing pre i with
  | case1 => exact .nil _
  | case2 id expr next start s ih =>
      obtain ⟨hid, hlabel, hrest, hlength⟩ := operand_pair h hl hcells hpre rfl rfl
      have hlt : 1 < cells.length := by
        rw [hcells, scatterCode]
        simp
        omega
      have hplace : finalOffset st 1 < finalOffset st start := h.offset_lt hstart hlt
      rw [h.offset_one (Nat.zero_lt_of_lt hlt)] at hplace
      have hoperands := ih hrest hlength (by omega) (fun next => by omega)
      rw [Scatter.count, hstep]
      exact .default hid hlabel hplace hoperands
  | case3 id next start s ih =>
      obtain ⟨hid, hlabel, hrest, hlength⟩ := operand_pair h hl hcells hpre rfl rfl
      have hlt : 0 < cells.length := by
        rw [hcells, scatterCode]
        simp
      rw [h.offset_one hlt] at hlabel
      have hoperands := ih hrest hlength hstart (fun next => by omega)
      rw [Scatter.count, hstep]
      exact .optional hid hlabel hoperands
  | case4 kind id default next start s hsome hnone ih =>
      have hkind : kind ≠ .optional := by
        rintro rfl
        cases default with
        | none => exact hnone rfl rfl
        | some e => exact hsome e rfl rfl
      have hcode : scatterCode (.cons kind id default next) start s =
          s.item (.varRef id) :: s.item (.label 0) :: scatterCode next start s := by
        rw [scatterCode]
        · exact hsome
        · exact hnone
      have hblocks : defaultBlocks st (.cons kind id default next) start = defaultBlocks st next start := by
        rw [defaultBlocks]
        exact hsome
      rw [hcode] at hcells
      obtain ⟨hid, hlabel, hrest, hlength⟩ := operand_pair h hl hcells hpre rfl rfl
      rw [h.offset_zero] at hlabel
      have hoperands := ih hrest hlength hstart (fun next => by omega)
      rw [Scatter.count, hstep, hblocks]
      exact .plain hkind hid hlabel hoperands

theorem putsAt (h : Rep ∅ st cells c) (hl : LayoutCorrect st) {id : Nat} {s s' : Ctx}
    (hcells : cells = pre ++ (s.varOp .put id ++ [s'.op .pop] ++ post)) (hpre : pre.length = i) :
    PutsAt (layout st) id (finalOffset st i) (finalOffset st (i + (varOpSize id + 1))) := by
  unfold Ctx.varOp at hcells
  unfold varOpSize
  by_cases hid : id < 32
  · rw [dif_pos hid] at hcells
    rw [if_pos hid]
    obtain ⟨hput, hnext⟩ : (layout st).vector[finalOffset st i]? = some (Opcode.put ⟨id, hid⟩).byte ∧
        finalOffset st (i + 1) = finalOffset st i + 1 :=
      h.byte_at (itemAt hcells hpre (k := 0) rfl) rfl
    obtain ⟨hpop, hdone⟩ : (layout st).vector[finalOffset st (i + 1)]? = some Opcode.pop.byte ∧
        finalOffset st (i + 2) = finalOffset st (i + 1) + 1 :=
      h.byte_at (itemAt hcells hpre (k := 1) rfl) rfl
    rw [hnext] at hpop hdone
    exact .short ⟨id, hid⟩ rfl hput hpop hdone
  · rw [dif_neg hid] at hcells
    rw [if_neg hid]
    obtain ⟨hput, hnext⟩ : (layout st).vector[finalOffset st i]? = some Opcode.gPut.byte ∧
        finalOffset st (i + 1) = finalOffset st i + 1 :=
      h.byte_at (itemAt hcells hpre (k := 0) rfl) rfl
    have hread := h.readVar_at hl (itemAt hcells hpre (k := 1) rfl)
    obtain ⟨hpop, hdone⟩ : (layout st).vector[finalOffset st (i + 2)]? = some Opcode.pop.byte ∧
        finalOffset st (i + 3) = finalOffset st (i + 2) + 1 :=
      h.byte_at (itemAt hcells hpre (k := 2) rfl) rfl
    rw [hnext] at hread
    exact .general _ hput hread hpop hdone

theorem default_plain {kind : ScatterKind} {id : Nat} {e : Expr} {next : Scatter} {dollars : Bool}
    (h : (Scatter.cons kind id (.some e) next).admitted dollars = true) :
    e.isScatter = false ∧ next.admitted dollars = true := by
  simp only [Scatter.admitted, Default.admitted, Bool.and_eq_true] at h
  refine ⟨?_, h.2⟩
  cases e with
  | scatter targets => exact absurd h.1.2 Bool.false_ne_true
  | _ => rfl

theorem blocksAt (h : Rep ∅ st cells c) (hl : LayoutCorrect st) {targets : Scatter} {dollars : Bool} {s : Ctx}
    (hadmitted : targets.admitted dollars = true) (hcells : cells = pre ++ (defaultsCode targets s ++ post))
    (hpre : pre.length = i) :
    BlocksAt (layout st) (finalOffset st i) (defaultBlocks st targets i) (finalOffset st (i + defaultsSize targets)) := by
  induction targets, i using defaultBlocks.induct generalizing pre s with
  | case1 => rfl
  | case2 id e next start ih =>
      obtain ⟨hplain, hnext⟩ := default_plain hadmitted
      have hsize := exprSize_pos hplain
      rw [defaultsCode] at hcells
      simp only [List.append_assoc] at hcells
      have hput : cells = (pre ++ exprCode e s) ++ ((s.go (exprSize e) (.value :: s.shape)).varOp .put id ++
          [(s.go (exprSize e) (.value :: s.shape)).op .pop] ++
            (defaultsCode next (s.go (exprSize e + varOpSize id + 1) s.shape) ++ post)) := by
        rw [hcells]
        simp
      have hrest : cells = (pre ++ (exprCode e s ++ ((s.go (exprSize e) (.value :: s.shape)).varOp .put id ++
          [(s.go (exprSize e) (.value :: s.shape)).op .pop]))) ++
            (defaultsCode next (s.go (exprSize e + varOpSize id + 1) s.shape) ++ post) := by
        rw [hcells]
        simp
      have hlt : start < cells.length := by
        rw [hcells]
        simp
        omega
      have hputs := putsAt h hl hput (i := start + exprSize e) (by simp [hpre])
      have hblocks := ih hnext hrest (by simp [hpre]; omega)
      rw [defaultBlocks, defaultsSize]
      refine ⟨rfl, h.offset_lt (by omega) hlt, _, hputs, ?_⟩
      convert hblocks using 2
      · omega
      · omega
  | case3 kind id default next start hne ih =>
      have hcode : defaultsCode (.cons kind id default next) s = defaultsCode next s := by
        rw [defaultsCode]
        exact hne
      have hsize : defaultsSize (.cons kind id default next) = defaultsSize next := by
        rw [defaultsSize]
        exact hne
      have hblocks : defaultBlocks st (.cons kind id default next) start = defaultBlocks st next start := by
        rw [defaultBlocks]
        exact hne
      rw [hcode] at hcells
      rw [hsize, hblocks]
      rw [Scatter.admitted, Bool.and_eq_true] at hadmitted
      exact ih hadmitted.2 hcells hpre

theorem scatter_standsIn {targets : Scatter} {rhs : Expr} {dollars : Bool} {s : Ctx} (h : Rep ∅ st cells c)
    (hl : LayoutCorrect st) (hcells : cells = pre ++ (exprCode (.asgn (.scatter targets) rhs) s ++ post))
    (hpos : s.pos = pre.length) (hadmitted : targets.admitted dollars = true) :
    let place := s.pos + exprSize rhs
    let start := place + 5 + 2 * targets.count + 1
    ScatterCode.StandsIn ⟨finalOffset st place, targets, defaultBlocks st targets start, finalOffset st start,
      finalOffset st (start + defaultsSize targets)⟩ (layout st) := by
  intro place start
  rw [exprCode] at hcells
  simp only [List.append_assoc] at hcells
  let c₁ := s.go (exprSize rhs) (.value :: s.shape)
  let head := c₁.eop .scatter ++ [c₁.item (.byte targets.count), c₁.item (.byte (targets.countKind .required)),
    c₁.item (.byte (CodeGen.Scatter.rest targets))]
  let label := c₁.item (.label (start + defaultsSize targets))
  let defaults := defaultsCode targets { c₁ with pos := start }
  have hhead : cells = (pre ++ exprCode rhs s) ++ (head ++ (scatterCode targets start c₁ ++ (label :: (defaults ++ post)))) := by
    rw [hcells]
    simp only [List.append_assoc, head]
    rfl
  have hoperands : cells = (pre ++ (exprCode rhs s ++ head)) ++
      (scatterCode targets start c₁ ++ (label :: (defaults ++ post))) := by
    rw [hhead]
    simp only [List.append_assoc]
  have hlabel : cells = (pre ++ (exprCode rhs s ++ (head ++ scatterCode targets start c₁))) ++
      ([label] ++ (defaults ++ post)) := by
    rw [hhead]
    simp only [List.append_assoc]
    rfl
  have hdefaults : cells = (pre ++ (exprCode rhs s ++ (head ++ (scatterCode targets start c₁ ++ [label])))) ++
      (defaults ++ post) := by
    rw [hlabel]
    simp only [List.append_assoc]
  have hitems : ∀ k item, head[k]?.map (·.item) = some item → ItemAt cells (place + k) item :=
    fun k item hitem => itemAt hhead (by simp [place, hpos]) hitem
  obtain ⟨hextended, hone⟩ : (layout st).vector[finalOffset st place]? = some Opcode.extended.byte ∧
      finalOffset st (place + 1) = finalOffset st place + 1 := h.byte_at (hitems 0 _ rfl) rfl
  obtain ⟨hscatter, htwo⟩ : (layout st).vector[finalOffset st (place + 1)]? = some ExtendedOpcode.scatter.byte ∧
      finalOffset st (place + 2) = finalOffset st (place + 1) + 1 := h.byte_at (hitems 1 _ rfl) rfl
  obtain ⟨hnargs, hthree⟩ : (layout st).vector[finalOffset st (place + 2)]? = some (UInt8.ofNat targets.count) ∧
      finalOffset st (place + 3) = finalOffset st (place + 2) + 1 := h.byte_at (hitems 2 _ rfl) rfl
  obtain ⟨hnreq, hfour⟩ : (layout st).vector[finalOffset st (place + 3)]? =
      some (UInt8.ofNat (targets.countKind .required)) ∧
      finalOffset st (place + 4) = finalOffset st (place + 3) + 1 := h.byte_at (hitems 3 _ rfl) rfl
  obtain ⟨hrest, hfive⟩ : (layout st).vector[finalOffset st (place + 4)]? =
      some (UInt8.ofNat (CodeGen.Scatter.rest targets)) ∧
      finalOffset st (place + 5) = finalOffset st (place + 4) + 1 := h.byte_at (hitems 4 _ rfl) rfl
  rw [htwo, hone] at hthree
  rw [hthree] at hfour
  rw [hfour] at hfive
  have hread := h.readLabel_at hl (itemAt hlabel (i := place + 5 + 2 * targets.count) (k := 0)
    (by simp [head, Ctx.eop, place, hpos]; omega) rfl)
  have hoperands := operandsAt h hl hoperands (i := place + 5) (by simp [head, Ctx.eop, place, hpos]; omega)
    (show 1 < place + 5 + 2 * targets.count + 1 by omega)
  have hblocks := blocksAt h hl hadmitted hdefaults (i := start)
    (by simp [head, Ctx.eop, start, place, hpos]; omega)
  rw [hfive] at hoperands
  rw [hone] at hscatter
  rw [htwo, hone] at hnargs
  rw [hthree] at hnreq
  rw [hfour] at hrest
  exact ⟨hextended, hscatter, hnargs, hnreq, hrest, ⟨_, _, hoperands, hread⟩, hblocks⟩

end LambdaMoo.Listing
