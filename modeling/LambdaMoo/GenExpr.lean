import LambdaMoo.GenSteps

/-! Generating an expression emits its listing. -/
namespace LambdaMoo.Listing
open CodeGen Gen

theorem some_bind {α β : Type} {x : Option α} {f : α → Option β} {a : α} {r : Option β}
    (hx : x = some a) (hf : f a = r) : (x >>= f) = r := by
  rw [hx]
  exact hf

def defaultPlaces : Scatter → Nat → List Nat
  | .nil, _ => []
  | .cons .optional id (.some expr) next, start =>
      start :: defaultPlaces next (start + (exprSize expr + varOpSize id + 1))
  | .cons _ _ _ next, start => defaultPlaces next start

def openDefaults (labels : List Nat) (targets : Scatter) (start : Nat) : List Open :=
  List.zipWith (fun k target => ⟨some k, target⟩) labels (defaultPlaces targets start)

theorem lvalueDepth_true {e : Expr} (h : e.isIndexable) :
    lvalueDepth e true = lvalueDepth e false + 1 := by
  cases e <;> first | rfl | cases h

theorem isLvalue_of_isIndexable {lhs : Expr} (h : lhs.isIndexable) : lhs.isLvalue := by
  cases lhs <;> first | exact h | cases h

theorem generateExpr_asgn {lhs : Expr} (rhs : Expr) (st : State) (h : lhs.isScatter = false) :
    generateExpr (.asgn lhs rhs) st = do
      let st ← pushLvalue lhs false st
      let st ← generateExpr rhs st
      let st := if Expr.isIndexed lhs then emitOp .putTemp st else st
      let st ← storeLvalue lhs st
      return if Expr.isIndexed lhs then emitOp .pushTemp (emitOp .pop st) else st := by
  cases lhs <;> first | rfl | cases h

theorem exprRefs_asgn {lhs : Expr} (rhs : Expr) (h : lhs.isScatter = false) :
    exprRefs (.asgn lhs rhs) = lvalueRefs lhs false + exprRefs rhs + storeRefs lhs := by
  cases lhs <;> first | rfl | cases h

theorem admitted_asgn {lhs : Expr} {rhs : Expr} {dollars : Bool} (h : lhs.isScatter = false) :
    (Expr.asgn lhs rhs).admitted dollars =
      (lhs.isLvalue && lhs.admitted dollars && rhs.admitted dollars) := by
  cases lhs <;> first | rfl | cases h

theorem storeLvalue_gen : ∀ (lhs : Expr) {b : Progress} {st : State} {cells : List Cell} {c : Ctx}
    {s : Shape}, lhs.isLvalue → Gen b st cells c →
    c.shape = .value :: (List.replicate (lvalueDepth lhs false) .value ++ s) →
    ∃ st', storeLvalue lhs st = some st' ∧
      Gen (b.addRefs (storeRefs lhs)) st' (cells ++ storeCode lhs c)
        (c.go (storeSize lhs) (.value :: s))
  | .range base lower upper, b, st, cells, c, shape, hl, g, hs => by
      have hd : c.shape = .value :: .value :: .value :: .value ::
          (List.replicate (lvalueDepth base false) .value ++ shape) := by
        rw [hs, lvalueDepth, lvalueDepth_true hl]; rfl
      obtain ⟨st', e, g'⟩ := storeLvalue_gen base (s := shape)
        (isLvalue_of_isIndexable hl) ((g.eop .rangeset).pop (n := 3) (s := .value :: c.shape.drop 4) (by simp [hd])
          (by simp))
        (by simp [hd])
      refine ⟨st', by rw [storeLvalue]; exact e, g'.cast rfl (by simp [storeCode]) ?_⟩
      simp [storeSize, Nat.add_assoc]
  | .index lhs rhs, b, st, cells, c, shape, hl, g, hs => by
      have hd : c.shape = .value :: .value :: .value ::
          (List.replicate (lvalueDepth lhs false) .value ++ shape) := by
        rw [hs, lvalueDepth, lvalueDepth_true (e := lhs) hl]; rfl
      obtain ⟨st', e, g'⟩ := storeLvalue_gen lhs (s := shape)
        (isLvalue_of_isIndexable hl) ((g.op .indexset).pop (n := 2) (s := .value :: c.shape.drop 3) (by simp [hd])
          (by simp))
        (by simp [hd])
      refine ⟨st', by rw [storeLvalue]; exact e, g'.cast rfl (by simp [storeCode]) ?_⟩
      simp [storeSize, Nat.add_assoc]
  | .id slot, b, st, cells, c, shape, hl, g, hs => by
      refine ⟨_, rfl, (g.varOp .put slot).cast rfl rfl ?_⟩
      simp [storeSize, hs, lvalueDepth]
  | .prop lhs rhs, b, st, cells, c, shape, hl, g, hs => by
      have hd : c.shape = .value :: .value :: .value :: shape := hs
      refine ⟨_, rfl, (g.op .putProp).pop (s := .value :: shape) (by simp [hd]) (by simp)⟩

attribute [local simp] Ctx.op Ctx.item Ctx.opAt Nat.add_assoc

theorem scatterCode_pos : ∀ (targets : Scatter) (start pos : Nat) (c : Ctx),
    scatterCode targets start { c with pos := pos } = scatterCode targets start c
  | .nil, _, _, _ => rfl
  | .cons .optional id (.some expr) next, start, pos, c => by
      simp [scatterCode, scatterCode_pos next]
  | .cons .optional id .none next, start, pos, c => by simp [scatterCode, scatterCode_pos next]
  | .cons .required id expr next, start, pos, c => by simp [scatterCode, scatterCode_pos next]
  | .cons .rest id expr next, start, pos, c => by simp [scatterCode, scatterCode_pos next]

theorem scatterOperands_gen : ∀ (targets : Scatter) (start : Nat) {b : Progress} {st : State}
    {cells : List Cell} {c : Ctx}, Gen b st cells c → cells ≠ [] →
    Gen ((b.addRefs targets.count).opening
          (openDefaults (scatterOperands targets st).1 targets start))
        (scatterOperands targets st).2 (cells ++ scatterCode targets start c)
        (c.go (2 * targets.count) c.shape) ∧
      (scatterOperands targets st).1.length = (defaultPlaces targets start).length
  | .nil, start, b, st, cells, c, g, hcells =>
      ⟨g.cast rfl (by simp [scatterCode]) rfl, rfl⟩
  | .cons .optional id (.some expr) next, start, b, st, cells, c, g, hcells => by
      obtain ⟨g₁, hlen⟩ := scatterOperands_gen next (start + (exprSize expr + varOpSize id + 1))
        ((g.varRef id hcells).label start (by simp)) (by simp)
      refine ⟨(g₁.perm ?_ ?_).cast rfl ?_ ?_, congrArg (· + 1) hlen⟩
      · simp [Progress.opening, Progress.addRefs, Scatter.count, Nat.add_comm]
      · simp only [Progress.opening, Progress.addRefs, openDefaults, scatterOperands,
          defaultPlaces, List.zipWith_cons_cons, ← List.append_assoc]
        exact List.Perm.append_right _ List.perm_append_comm
      · simp [scatterCode, scatterCode_pos]
      · simp [Scatter.count]; omega
  | .cons .optional id .none next, start, b, st, cells, c, g, hcells => by
      obtain ⟨g₁, hlen⟩ := scatterOperands_gen next start
        ((g.varRef id hcells).pseudoLabel (t := 1) (by simp) (by simp)) (by simp)
      refine ⟨g₁.cast ?_ ?_ ?_, hlen⟩
      · simp [Scatter.count, Nat.add_comm, openDefaults, defaultPlaces, scatterOperands]
      · simp [scatterCode, scatterCode_pos]
      · simp [Scatter.count]; omega
  | .cons .required id expr next, start, b, st, cells, c, g, hcells => by
      obtain ⟨g₁, hlen⟩ := scatterOperands_gen next start
        ((g.varRef id hcells).pseudoLabel (t := 0) (by simp) (by simp)) (by simp)
      refine ⟨g₁.cast ?_ ?_ ?_, hlen⟩
      · simp [Scatter.count, Nat.add_comm, openDefaults, defaultPlaces, scatterOperands]
      · simp [scatterCode, scatterCode_pos]
      · simp [Scatter.count]; omega
  | .cons .rest id expr next, start, b, st, cells, c, g, hcells => by
      obtain ⟨g₁, hlen⟩ := scatterOperands_gen next start
        ((g.varRef id hcells).pseudoLabel (t := 0) (by simp) (by simp)) (by simp)
      refine ⟨g₁.cast ?_ ?_ ?_, hlen⟩
      · simp [Scatter.count, Nat.add_comm, openDefaults, defaultPlaces, scatterOperands]
      · simp [scatterCode, scatterCode_pos]
      · simp [Scatter.count]; omega

-- The equations are made here, and not anew by every lemma that needs them.
attribute [local simp] generateExpr generateExcept generateDefaults generateArgList generateArgs
  pushLvalue exprRefs exceptRefs defaultsRefs argsRefs lvalueRefs Expr.admitted Default.admitted
  Scatter.admitted ArgList.admitted exprSize exceptSize defaultsSize argListSize argsSize lvalueSize
  exprCode exceptCode defaultsCode argListCode argsCode lvalueCode

def ExprGen (e : Expr) : Prop :=
  ∀ ⦃b : Progress⦄ ⦃st : State⦄ ⦃cells : List Cell⦄ ⦃c : Ctx⦄,
    Gen b st cells c → e.admitted c.saved.isSome →
    ∃ st', generateExpr e st = some st' ∧
      Gen (b.addRefs (exprRefs e)) st' (cells ++ exprCode e c)
        (c.go (exprSize e) (.value :: c.shape))

def ExceptGen (e : Default) : Prop :=
  ∀ ⦃b : Progress⦄ ⦃st : State⦄ ⦃cells : List Cell⦄ ⦃c : Ctx⦄ ⦃shape : Shape⦄,
    Gen b st cells c → e.admitted c.saved.isSome → c.shape = .value :: shape →
    ∃ st', generateExcept e st = some st' ∧
      Gen (b.addRefs (exceptRefs e)) st' (cells ++ exceptCode e c shape)
        (c.go (exceptSize e) (.value :: shape))

def DefaultsGen (targets : Scatter) : Prop :=
  ∀ ⦃l : List Nat⦄ ⦃b : Progress⦄ ⦃st : State⦄ ⦃cells : List Cell⦄ ⦃c : Ctx⦄,
    Gen (b.opening (openDefaults l targets c.pos)) st cells c →
    l.length = (defaultPlaces targets c.pos).length → targets.admitted c.saved.isSome →
    ∃ st', generateDefaults targets l st = some st' ∧
      Gen (b.addRefs (defaultsRefs targets)) st' (cells ++ defaultsCode targets c)
        (c.go (defaultsSize targets) c.shape)

def ArgListGen (args : ArgList) : Prop :=
  ∀ ⦃b : Progress⦄ ⦃st : State⦄ ⦃cells : List Cell⦄ ⦃c : Ctx⦄,
    Gen b st cells c → args.admitted c.saved.isSome →
    ∃ st', generateArgList args st = some st' ∧
      Gen (b.addRefs (argsRefs args)) st' (cells ++ argListCode args c)
        (c.go (argListSize args) (.value :: c.shape))

def ArgsGen (args : ArgList) : Prop :=
  ∀ ⦃b : Progress⦄ ⦃st : State⦄ ⦃cells : List Cell⦄ ⦃c : Ctx⦄ ⦃s : Shape⦄,
    Gen b st cells c → args.admitted c.saved.isSome → c.shape = .value :: s →
    ∃ st', generateArgs args st = some st' ∧
      Gen (b.addRefs (argsRefs args)) st' (cells ++ argsCode args c) (c.go (argsSize args) c.shape)

def LvalueGen (lhs : Expr) : Prop :=
  ∀ (above : Bool) ⦃b : Progress⦄ ⦃st : State⦄ ⦃cells : List Cell⦄ ⦃c : Ctx⦄,
    lhs.isLvalue → Gen b st cells c → lhs.admitted c.saved.isSome →
    ∃ st', pushLvalue lhs above st = some st' ∧
      Gen (b.addRefs (lvalueRefs lhs above)) st' (cells ++ lvalueCode lhs above c)
        (c.go (lvalueSize lhs above) (List.replicate (lvalueDepth lhs above) .value ++ c.shape))

theorem codes_gen {codes : ArgList} {b : Progress} {st : State} {cells : List Cell} {c : Ctx}
    (g : Gen b st cells c)
    (hargs : ∃ st', generateArgList codes st = some st' ∧
      Gen (b.addRefs (argsRefs codes)) st' (cells ++ argListCode codes c)
        (c.go (argListSize codes) (.value :: c.shape))) :
    ∃ st', generateCodes codes st = some st' ∧
      Gen (b.addRefs (argsRefs codes)) st' (cells ++ codesCode codes c)
        (c.go (codesSize codes) (.value :: c.shape)) := by
  cases codes with
  | nil => exact ⟨_, rfl, (g.op (optimNumToOpcode 0)).push (n := 1) rfl⟩
  | cons => exact hargs

theorem logic_gen {kind : LogicKind} {lhs rhs : Expr} (hl : ExprGen lhs) (hr : ExprGen rhs) :
    ExprGen (.logic kind lhs rhs) := by
  intro b st cells c g h
  simp only [Expr.admitted, Bool.and_eq_true] at h
  let stop := c.pos + exprSize lhs + 2 + exprSize rhs
  obtain ⟨st₁, e₁, g₁⟩ := hl g h.1
  obtain ⟨st₂, e₂, g₂⟩ := hr
    (((g₁.op (LogicKind.opcode kind)).label stop (by simp)).pop (n := 1) (s := c.shape)
      (by simp) (by simp)) h.2
  refine ⟨_, by rw [generateExpr]; exact some_bind e₁ (some_bind e₂ rfl),
    (g₂.define rfl (by simp [stop])).cast ?_ ?_ ?_⟩
  · simp [exprRefs, Progress.addRefs, Progress.opening]
  · simp [exprCode, stop]
  · simp [exprSize]

theorem unary_gen {kind : UnaryKind} {expr : Expr} (he : ExprGen expr) :
    ExprGen (.unary kind expr) := by
  intro b st cells c g h
  simp only [Expr.admitted, Bool.and_eq_true] at h
  obtain ⟨st₁, e₁, g₁⟩ := he g h.2
  refine ⟨_, by rw [generateExpr]; exact some_bind e₁ rfl, (g₁.op _).cast rfl ?_ ?_⟩
  · simp [exprCode]
  · simp [exprSize]

theorem binary_gen {kind : BinaryKind} {lhs rhs : Expr} (hl : ExprGen lhs) (hr : ExprGen rhs) :
    ExprGen (.binary kind lhs rhs) := by
  intro b st cells c g h
  simp only [Expr.admitted, Bool.and_eq_true] at h
  obtain ⟨st₁, e₁, g₁⟩ := hl g h.1
  obtain ⟨st₂, e₂, g₂⟩ := hr g₁ h.2
  have hmax (c : Ctx) : c.shape.length ≤ maxCur (c.binary kind) := by
    cases kind <;> simp [Ctx.binary]
  refine ⟨_, by rw [generateExpr]; exact some_bind e₁ (some_bind e₂ rfl),
    ((g₂.binary kind).pop (n := 1) (s := .value :: c.shape) (by simp) ?_).cast ?_ ?_ ?_⟩
  · rw [maxCur_append]
    exact (hmax _).trans (Nat.le_max_right _ _)
  · simp [exprRefs]
  · simp [exprCode]
  · simp [exprSize]

theorem prop_gen {lhs rhs : Expr} (hl : ExprGen lhs) (hr : ExprGen rhs) :
    ExprGen (.prop lhs rhs) := by
  intro b st cells c g h
  simp only [Expr.admitted, Bool.and_eq_true] at h
  obtain ⟨st₁, e₁, g₁⟩ := hl g h.1
  obtain ⟨st₂, e₂, g₂⟩ := hr g₁ h.2
  refine ⟨_, by rw [generateExpr]; exact some_bind e₁ (some_bind e₂ rfl),
    ((g₂.op .getProp).pop (n := 1) (s := .value :: c.shape) (by simp) (by simp)).cast
      ?_ ?_ ?_⟩
  · simp [exprRefs]
  · simp [exprCode]
  · simp [exprSize]

theorem index_gen {lhs rhs : Expr} (hl : ExprGen lhs) (hr : ExprGen rhs) :
    ExprGen (.index lhs rhs) := by
  intro b st cells c g h
  simp only [Expr.admitted, Bool.and_eq_true] at h
  obtain ⟨st₁, e₁, g₁⟩ := hl g h.1
  obtain ⟨st₂, e₂, g₂⟩ := hr g₁.save h.2
  refine ⟨_, by rw [generateExpr]; exact some_bind e₁ (some_bind e₂ rfl),
    (((g₂.restore st₁.savedStack).op .ref).pop (n := 1) (s := .value :: c.shape)
      (by simp) (by simp)).cast ?_ ?_ ?_⟩
  · simp [exprRefs]
  · simp [exprCode]
  · simp [exprSize, g₁.saved]

theorem range_gen {base lower upper : Expr} (hb : ExprGen base) (hl : ExprGen lower)
    (hu : ExprGen upper) :
    ExprGen (.range base lower upper) := by
  intro b st cells c g h
  simp only [Expr.admitted, Bool.and_eq_true] at h
  obtain ⟨st₁, e₁, g₁⟩ := hb g h.1.1
  obtain ⟨st₂, e₂, g₂⟩ := hl g₁.save h.1.2
  obtain ⟨st₃, e₃, g₃⟩ := hu g₂ h.2
  refine ⟨_, by rw [generateExpr]; exact some_bind e₁ (some_bind e₂ (some_bind e₃ rfl)),
    (((g₃.restore st₁.savedStack).op .rangeRef).pop (n := 2) (s := .value :: c.shape)
      (by simp) (by simp)).cast ?_ ?_ ?_⟩
  · simp [exprRefs]
  · simp [exprCode]
  · simp [exprSize, g₁.saved]

theorem length_gen : ExprGen .length := by
  intro b st cells c g h
  obtain ⟨saved, hs⟩ := Option.isSome_iff_exists.mp h
  have e : generateExpr .length st =
      some (pushStack 1 (addStackRef saved (emitExtendedByte .length st))) := by
    rw [generateExpr, g.saved, hs]
  refine ⟨_, e, (((g.eop .length).stackRef saved (by simp)).push (n := 1)
    (s := .value :: c.shape) (by simp)).cast rfl ?_ ?_⟩
  · simp [exprCode, hs]
  · simp [exprSize]

theorem list_gen {args : ArgList} (ha : ArgListGen args) : ExprGen (.list args) := by
  intro b st cells c g h
  obtain ⟨st₁, e₁, g₁⟩ := ha g (by simpa only [Expr.admitted] using h)
  exact ⟨st₁, by rw [generateExpr, e₁], g₁⟩

theorem call_gen {func : Nat} {args : ArgList} (ha : ArgListGen args) :
    ExprGen (.call func args) := by
  intro b st cells c g h
  simp only [Expr.admitted, Bool.and_eq_true] at h
  obtain ⟨st₁, e₁, g₁⟩ := ha g h.2
  refine ⟨_, by rw [generateExpr]; exact some_bind e₁ rfl,
    ((g₁.op .biFuncCall).countByte func).cast rfl ?_ ?_⟩
  · simp [exprCode]
  · simp [exprSize]

theorem verb_gen {obj verb : Expr} {args : ArgList} (ho : ExprGen obj) (hv : ExprGen verb)
    (ha : ArgListGen args) :
    ExprGen (.verb obj verb args) := by
  intro b st cells c g h
  simp only [Expr.admitted, Bool.and_eq_true] at h
  obtain ⟨st₁, e₁, g₁⟩ := ho g h.1.1
  obtain ⟨st₂, e₂, g₂⟩ := hv g₁ h.1.2
  obtain ⟨st₃, e₃, g₃⟩ := ha g₂ h.2
  refine ⟨_, by rw [generateExpr]; exact some_bind e₁ (some_bind e₂ (some_bind e₃ rfl)),
    ((g₃.op .callVerb).pop (n := 2) (s := .value :: c.shape) (by simp) (by simp)).cast
      ?_ ?_ ?_⟩
  · simp [exprRefs]
  · simp [exprCode]
  · simp [exprSize]

theorem cond_gen {condition consequent alternate : Expr} (hc : ExprGen condition)
    (ht : ExprGen consequent) (ha : ExprGen alternate) :
    ExprGen (.cond condition consequent alternate) := by
  intro b st cells c g h
  simp only [Expr.admitted, Bool.and_eq_true] at h
  let els := c.pos + exprSize condition + 2 + exprSize consequent + 2
  let stop := els + exprSize alternate
  obtain ⟨st₁, e₁, g₁⟩ := hc g h.1.1
  obtain ⟨st₂, e₂, g₂⟩ := ht
    (((g₁.op .ifQues).label els (by simp)).pop (n := 1) (s := c.shape)
      (by simp) (by simp)) h.1.2
  have g₃ := ((g₂.op .jump).label stop (by simp)).pop (n := 1) (s := c.shape)
    (by simp) (by simp)
  have g₄ := (Gen.swap (b := (b.addRefs (exprRefs condition)).addRefs (exprRefs consequent))
    (o := [⟨some (emitOp .ifQues st₁).fixups.length, els⟩]) g₃).define rfl
    (by simp [els])
  obtain ⟨st₅, e₅, g₅⟩ := ha g₄ h.2
  refine ⟨_, by rw [generateExpr]; exact some_bind e₁ (some_bind e₂ (some_bind e₅ rfl)),
    (g₅.define rfl (by simp [stop, els])).cast ?_ ?_ ?_⟩
  · simp [exprRefs, Progress.addRefs, Progress.opening]
  · simp [exprCode, stop, els]
  · simp [exprSize]

theorem asgn_gen {lhs rhs : Expr} (hs : lhs.isScatter = false) (hl : LvalueGen lhs)
    (hr : ExprGen rhs) :
    ExprGen (.asgn lhs rhs) := by
  intro b st cells c g h
  rw [admitted_asgn hs] at h
  simp only [Bool.and_eq_true] at h
  obtain ⟨st₁, e₁, g₁⟩ := hl false h.1.1 g h.1.2
  obtain ⟨st₂, e₂, g₂⟩ := hr g₁ h.2
  cases hi : Expr.isIndexed lhs with
  | false =>
      obtain ⟨st₃, e₃, g₃⟩ := storeLvalue_gen lhs (s := c.shape) h.1.1 g₂ rfl
      refine ⟨st₃, ?_, g₃.cast ?_ ?_ ?_⟩
      · rw [generateExpr_asgn rhs st hs, hi]
        exact some_bind e₁ (some_bind e₂ (some_bind e₃ rfl))
      · simp [exprRefs_asgn rhs hs]
      · simp [exprCode_asgn rhs c hs, hi]
      · simp [exprSize_asgn rhs hs, hi]
  | true =>
      obtain ⟨st₃, e₃, g₃⟩ := storeLvalue_gen lhs (s := c.shape) h.1.1
        (g₂.op .putTemp) rfl
      refine ⟨_, ?_, ((g₃.op .pop).opAt c.shape .pushTemp).cast ?_ ?_ ?_⟩
      · rw [generateExpr_asgn rhs st hs, hi]
        exact some_bind e₁ (some_bind e₂ (some_bind e₃ rfl))
      · simp [exprRefs_asgn rhs hs]
      · simp [exprCode_asgn rhs c hs, hi]
      · simp [exprSize_asgn rhs hs, hi]

theorem scatter_gen {targets : Scatter} {rhs : Expr} (hd : DefaultsGen targets) (hr : ExprGen rhs) :
    ExprGen (.asgn (.scatter targets) rhs) := by
  intro b st cells c g h
  simp only [Expr.admitted, Bool.and_eq_true] at h
  let start := c.pos + exprSize rhs + 5 + 2 * targets.count + 1
  let stop := start + defaultsSize targets
  obtain ⟨st₁, e₁, g₁⟩ := hr g h.2
  have g₂ := (((g₁.eop .scatter).countByte targets.count).countByte
    (targets.countKind .required)).countByte (Scatter.rest targets)
  obtain ⟨g₃, hlen⟩ := scatterOperands_gen targets start g₂ (by simp)
  obtain ⟨st₄, e₄, g₄⟩ := hd
    (b := ((b.addRefs (exprRefs rhs)).addRefs targets.count).opening
      [⟨some (scatterOperands targets _).2.fixups.length, stop⟩])
    (c := { c with pos := start, shape := .value :: c.shape })
    ((g₃.label stop (by simp)).swap.cast rfl rfl (by simp [start])) hlen h.1.2
  refine ⟨_, by rw [generateExpr]; exact some_bind e₁ (some_bind e₄ rfl),
    (g₄.define rfl (by simp [start, stop])).cast ?_ ?_ ?_⟩
  · simp [exprRefs, Progress.addRefs, Progress.opening]
  · have hsc := scatterCode_pos targets start (c.pos + exprSize rhs + 5)
      (c.go (exprSize rhs) (.value :: c.shape))
    simp [exprCode, start, stop] at hsc ⊢
    exact hsc
  · simp [exprSize, start]

theorem catch_gen {body : Expr} {codes : ArgList} {except : Default} (hb : ExprGen body)
    (hc : ArgListGen codes) (he : ExceptGen except) :
    ExprGen (.catch_ body codes except) := by
  intro b st cells c g h
  simp only [Expr.admitted, Bool.and_eq_true] at h
  let handler := c.pos + codesSize codes + 5 + exprSize body + 3
  let stop := handler + exceptSize except
  obtain ⟨st₁, e₁, g₁⟩ := codes_gen g (hc g h.1.2)
  have g₂ := ((((g₁.eop .pushLabel).label handler (by simp)).push (n := 1)
    (s := .label handler :: .value :: c.shape) (by simp)).eop .catch_).push (n := 1)
    (s := .catch_ 1 :: .label handler :: .value :: c.shape) (by simp)
  obtain ⟨st₃, e₃, g₃⟩ := hb g₂ h.1.1
  have g₄ := ((g₃.eop .endCatch).label stop (by simp)).pop (n := 3)
    (s := .value :: c.shape) (by simp) (by simp)
  have g₅ := (Gen.swap (b := (b.addRefs (argsRefs codes)).addRefs (exprRefs body))
    (o := [⟨some (emitExtendedByte .pushLabel st₁).fixups.length, handler⟩]) g₄).define rfl
    (by simp [handler])
  obtain ⟨st₆, e₆, g₆⟩ := he g₅ h.2 rfl
  refine ⟨_, by rw [generateExpr]; exact some_bind e₁ (some_bind e₃ (some_bind e₆ rfl)),
    (g₆.define rfl (by simp [stop, handler])).cast ?_ ?_ ?_⟩
  · simp [exprRefs, Progress.addRefs, Progress.opening]
  · simp [exprCode, codesCode, codesSize, stop, handler]
  · simp [exprSize, codesSize]

theorem except_gen {expr : Expr} (he : ExprGen expr) : ExceptGen (.some expr) := by
  intro b st cells c shape g h hs
  simp only [Default.admitted] at h
  obtain ⟨st₁, e₁, g₁⟩ := he
    ((g.op .pop).pop (n := 1) (s := shape) (by simp [hs]) (by simp)) h
  refine ⟨_, by rw [generateExcept]; exact e₁, g₁.cast rfl ?_ ?_⟩
  · simp [exceptCode]
  · simp [exceptSize]

theorem noExcept_gen : ExceptGen .none := by
  intro b st cells c shape g h hs
  refine ⟨_, by rw [generateExcept], ((g.op (optimNumToOpcode 1)).opAt (.value :: c.shape) .ref).cast rfl ?_ ?_⟩
  · simp [exceptCode]
  · simp [exceptSize, hs]

theorem emptyDefaults_gen : DefaultsGen .nil := by
  intro labels b st cells c g hlen h
  obtain rfl := List.length_eq_zero_iff.mp hlen
  exact ⟨st, by rw [generateDefaults], g.cast rfl (by simp [defaultsCode]) rfl⟩

theorem default_gen {id : Nat} {expr : Expr} {next : Scatter} (he : ExprGen expr)
    (hn : DefaultsGen next) :
    DefaultsGen (.cons .optional id (.some expr) next) := by
  intro labels b st cells c g hlen h
  obtain _ | ⟨label, labels⟩ := labels
  · simp [defaultPlaces] at hlen
  simp only [Scatter.admitted, Default.admitted, Bool.and_eq_true] at h
  obtain ⟨st₁, e₁, g₁⟩ := he (g.define rfl rfl) h.1.2
  have g₂ := ((g₁.varOp .put id).op .pop).pop (n := 1) (s := c.shape) (by simp) (by simp)
  obtain ⟨st₃, e₃, g₃⟩ := hn
    (b := b.addRefs (exprRefs expr + varOpRefs id)) (l := labels)
    (c := c.go (exprSize expr + varOpSize id + 1) c.shape)
    (g₂.cast (by simp [openDefaults, Progress.opening, Progress.addRefs]) rfl (by simp))
    (by simpa [defaultPlaces] using hlen) h.2
  refine ⟨st₃, by rw [generateDefaults]; exact some_bind e₁ e₃, g₃.cast ?_ ?_ ?_⟩
  · simp [defaultsRefs]
  · simp [defaultsCode]
  · simp [defaultsSize]

theorem noDefault_gen {kind : ScatterKind} {id : Nat} {expr : Default} {next : Scatter}
    (hk : kind = .optional → expr = .none) (hn : DefaultsGen next) :
    DefaultsGen (.cons kind id expr next) := by
  intro labels b st cells c g hlen h
  simp only [Scatter.admitted, Bool.and_eq_true] at h
  cases kind with
  | optional =>
      obtain rfl := hk rfl
      obtain ⟨st', e, g'⟩ := hn g hlen h.2
      exact ⟨st', by simpa [generateDefaults] using e, g'⟩
  | required | rest =>
      obtain ⟨st', e, g'⟩ := hn g hlen h.2
      exact ⟨st', by simpa [generateDefaults] using e, g'⟩

theorem argList_gen {kind : ArgKind} {expr : Expr} {next : ArgList} (he : ExprGen expr)
    (hn : ArgsGen next) :
    ArgListGen (.cons kind expr next) := by
  intro b st cells c g h
  simp only [ArgList.admitted, Bool.and_eq_true] at h
  obtain ⟨st₁, e₁, g₁⟩ := he g h.1
  obtain ⟨st₂, e₂, g₂⟩ := hn (s := c.shape)
    (g₁.op (if kind = .normal then .makeSingletonList else .checkListForSplice)) h.2 rfl
  refine ⟨_, by rw [generateArgList]; exact some_bind e₁ e₂, g₂.cast ?_ ?_ ?_⟩
  · simp [argsRefs]
  · simp [argListCode]
  · simp [argListSize]

theorem args_gen {kind : ArgKind} {expr : Expr} {next : ArgList} (he : ExprGen expr)
    (hn : ArgsGen next) :
    ArgsGen (.cons kind expr next) := by
  intro b st cells c shape g h hs
  simp only [ArgList.admitted, Bool.and_eq_true] at h
  obtain ⟨st₁, e₁, g₁⟩ := he g h.1
  obtain ⟨st₂, e₂, g₂⟩ := hn (s := shape)
    ((g₁.op (if kind = .normal then .listAddTail else .listAppend)).pop (n := 1)
      (s := c.shape) (by simp) (by simp)) h.2 hs
  refine ⟨_, by rw [generateArgs]; exact some_bind e₁ e₂, g₂.cast ?_ ?_ ?_⟩
  · simp [argsRefs]
  · simp [argsCode]
  · simp [argsSize]

theorem rangeLvalue_gen {base lower upper : Expr} (hb : LvalueGen base) (hl' : ExprGen lower)
    (hu : ExprGen upper) :
    LvalueGen (.range base lower upper) := by
  intro above b st cells c hl g h
  simp only [Expr.admitted, Bool.and_eq_true] at h
  obtain ⟨st₁, e₁, g₁⟩ := hb true (isLvalue_of_isIndexable hl) g h.1.1
  obtain ⟨st₂, e₂, g₂⟩ := hl' g₁.save h.1.2
  obtain ⟨st₃, e₃, g₃⟩ := hu g₂ h.2
  refine ⟨_, by rw [pushLvalue]; exact some_bind e₁ (some_bind e₂ (some_bind e₃ rfl)),
    (g₃.restore st₁.savedStack).cast ?_ ?_ ?_⟩
  · simp [lvalueRefs]
  · simp [lvalueCode]
  · simp [lvalueSize, lvalueDepth, g₁.saved, List.replicate_succ]

theorem indexLvalue_gen {lhs rhs : Expr} (hb : LvalueGen lhs) (hr : ExprGen rhs) :
    LvalueGen (.index lhs rhs) := by
  intro above b st cells c hl g h
  simp only [Expr.admitted, Bool.and_eq_true] at h
  obtain ⟨st₁, e₁, g₁⟩ := hb true (isLvalue_of_isIndexable hl) g h.1
  obtain ⟨st₂, e₂, g₂⟩ := hr g₁.save h.2
  have g₃ := g₂.restore st₁.savedStack
  cases above with
  | false =>
      refine ⟨_, by rw [pushLvalue]; exact some_bind e₁ (some_bind e₂ rfl), g₃.cast ?_ ?_ ?_⟩
      · simp [lvalueRefs]
      · simp [lvalueCode]
      · simp [lvalueSize, lvalueDepth, g₁.saved, List.replicate_succ]
  | true =>
      refine ⟨_, by rw [pushLvalue]; exact some_bind e₁ (some_bind e₂ rfl),
        ((g₃.op .pushRef).push (n := 1)
          (s := List.replicate (lvalueDepth lhs true + 2) .value ++ c.shape)
          (by simp; omega)).cast ?_ ?_ ?_⟩
      · simp [lvalueRefs]
      · simp [lvalueCode]
      · simp [lvalueSize, lvalueDepth, g₁.saved]

theorem idLvalue_gen {slot : Nat} : LvalueGen (.id slot) := by
  intro above b st cells c hl g h
  cases above with
  | false => exact ⟨_, rfl, g.cast rfl (by simp [lvalueCode]) rfl⟩
  | true => exact ⟨_, rfl, (g.varOp .push slot).push (n := 1) rfl⟩

theorem propLvalue_gen {lhs rhs : Expr} (hb : ExprGen lhs) (hr : ExprGen rhs) :
    LvalueGen (.prop lhs rhs) := by
  intro above b st cells c hl g h
  simp only [Expr.admitted, Bool.and_eq_true] at h
  obtain ⟨st₁, e₁, g₁⟩ := hb g h.1
  obtain ⟨st₂, e₂, g₂⟩ := hr g₁ h.2
  cases above with
  | false =>
      refine ⟨_, by rw [pushLvalue]; exact some_bind e₁ (some_bind e₂ rfl), g₂.cast ?_ ?_ ?_⟩
      · simp [lvalueRefs]
      · simp [lvalueCode]
      · simp [lvalueSize, lvalueDepth, List.replicate_succ]
  | true =>
      refine ⟨_, by rw [pushLvalue]; exact some_bind e₁ (some_bind e₂ rfl),
        ((g₂.op .pushGetProp).push (n := 1) (s := .value :: .value :: .value :: c.shape)
          rfl).cast ?_ ?_ ?_⟩
      · simp [lvalueRefs]
      · simp [lvalueCode]
      · simp [lvalueSize, lvalueDepth, List.replicate_succ]

mutual
theorem generateExpr_gen : ∀ e : Expr, ExprGen e
  | .var _ => fun _ _ _ _ g h => g.literalExpr h
  | .id slot => fun _ _ _ _ g _ =>
      ⟨_, by rw [generateExpr], (g.varOp .push slot).push (n := 1) rfl⟩
  | .logic _ lhs rhs => logic_gen (generateExpr_gen lhs) (generateExpr_gen rhs)
  | .unary _ expr => unary_gen (generateExpr_gen expr)
  | .binary _ lhs rhs => binary_gen (generateExpr_gen lhs) (generateExpr_gen rhs)
  | .prop lhs rhs => prop_gen (generateExpr_gen lhs) (generateExpr_gen rhs)
  | .index lhs rhs => index_gen (generateExpr_gen lhs) (generateExpr_gen rhs)
  | .range base lower upper =>
      range_gen (generateExpr_gen base) (generateExpr_gen lower) (generateExpr_gen upper)
  | .length => length_gen
  | .list args => list_gen (generateArgList_gen args)
  | .call _ args => call_gen (generateArgList_gen args)
  | .verb obj verb args =>
      verb_gen (generateExpr_gen obj) (generateExpr_gen verb) (generateArgList_gen args)
  | .cond condition consequent alternate =>
      cond_gen (generateExpr_gen condition) (generateExpr_gen consequent)
        (generateExpr_gen alternate)
  | .asgn lhs rhs => by
      cases hs : lhs.isScatter with
      | false => exact asgn_gen hs (pushLvalue_gen lhs) (generateExpr_gen rhs)
      | true =>
          obtain ⟨targets, rfl⟩ : ∃ targets, lhs = .scatter targets := by
            cases lhs <;> first | exact ⟨_, rfl⟩ | cases hs
          exact scatter_gen (generateDefaults_gen targets) (generateExpr_gen rhs)
  | .catch_ body codes except =>
      catch_gen (generateExpr_gen body) (generateArgList_gen codes) (generateExcept_gen except)
  | .scatter _ => fun _ _ _ _ _ h => by simp [Expr.admitted] at h
theorem generateExcept_gen : ∀ e : Default, ExceptGen e
  | .some expr => except_gen (generateExpr_gen expr)
  | .none => noExcept_gen
theorem generateDefaults_gen : ∀ targets : Scatter, DefaultsGen targets
  | .nil => emptyDefaults_gen
  | .cons .optional _ (.some expr) next =>
      default_gen (generateExpr_gen expr) (generateDefaults_gen next)
  | .cons .optional _ .none next => noDefault_gen (fun _ => rfl) (generateDefaults_gen next)
  | .cons .required _ _ next => noDefault_gen nofun (generateDefaults_gen next)
  | .cons .rest _ _ next => noDefault_gen nofun (generateDefaults_gen next)
theorem generateArgList_gen : ∀ args : ArgList, ArgListGen args
  | .nil => fun _ _ _ _ g _ =>
      ⟨_, by rw [generateArgList], (g.op .makeEmptyList).push (n := 1) rfl⟩
  | .cons _ expr next => argList_gen (generateExpr_gen expr) (generateArgs_gen next)
theorem generateArgs_gen : ∀ args : ArgList, ArgsGen args
  | .nil => fun _ _ _ _ _ g _ _ =>
      ⟨_, by rw [generateArgs], g.cast rfl (by simp [argsCode]) rfl⟩
  | .cons _ expr next => args_gen (generateExpr_gen expr) (generateArgs_gen next)
theorem pushLvalue_gen : ∀ lhs : Expr, LvalueGen lhs
  | .range base lower upper =>
      rangeLvalue_gen (pushLvalue_gen base) (generateExpr_gen lower) (generateExpr_gen upper)
  | .index lhs rhs => indexLvalue_gen (pushLvalue_gen lhs) (generateExpr_gen rhs)
  | .id _ => idLvalue_gen
  | .prop lhs rhs => propLvalue_gen (generateExpr_gen lhs) (generateExpr_gen rhs)
  | .var _ | .logic _ _ _ | .unary _ _ | .binary _ _ _ | .length | .list _ | .call _ _
  | .verb _ _ _ | .cond _ _ _ | .asgn _ _ | .catch_ _ _ _ | .scatter _ => fun _ _ _ _ _ hl _ _ =>
      absurd hl Bool.false_ne_true
end

end LambdaMoo.Listing
