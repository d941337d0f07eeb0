import LambdaMoo.ExprRuns

/-! The code of an assignment: the parts of its target are evaluated from the outside to the inside, and
the value is put into them the other way. -/
namespace LambdaMoo.Interpreter
open Listing CodeGen

variable {W : Type}

def Target.operands : Target → List Var
  | .var _ => []
  | .prop obj propname => [propname, obj]
  | .index base container i => i :: container :: base.operands
  | .range base container from' to' => to' :: from' :: container :: base.operands

/-- A target of this expression, with values for its parts. -/
inductive Parts : Expr → Target → Prop
  | id {slot : Nat} : Parts (.id slot) (.var slot)
  | prop {lhs rhs : Expr} {obj propname : Var} : Plain obj → Plain propname →
      Parts (.prop lhs rhs) (.prop obj propname)
  | index {lhs rhs : Expr} {base : Target} {container i : Var} : lhs.isIndexable = true → Parts lhs base →
      Plain container → Plain i → Parts (.index lhs rhs) (.index base container i)
  | range {lhs lower upper : Expr} {base : Target} {container from' to' : Var} : lhs.isIndexable = true →
      Parts lhs base → Plain container → Plain from' → Plain to' →
      Parts (.range lhs lower upper) (.range base container from' to')

theorem Parts.depth {e : Expr} {target : Target} (h : Parts e target) :
    target.operands.length = lvalueDepth e false := by
  induction h with
  | id | prop => rfl
  | index hlhs _ _ _ ih => simp [Target.operands, lvalueDepth, lvalueDepth_true hlhs, ih]
  | range hlhs _ _ _ _ ih => simp [Target.operands, lvalueDepth, lvalueDepth_true hlhs, ih]

theorem Parts.plain {e : Expr} {target : Target} (h : Parts e target) : ∀ v ∈ target.operands, Plain v := by
  induction h with
  | id => exact fun v hv => absurd hv List.not_mem_nil
  | prop hobj hpropname => exact List.forall_mem_cons.mpr ⟨hpropname, List.forall_mem_singleton.mpr hobj⟩
  | index _ _ hcontainer hi ih => exact List.forall_mem_cons.mpr ⟨hi, List.forall_mem_cons.mpr ⟨hcontainer, ih⟩⟩
  | range _ _ hcontainer hfrom hto ih =>
      exact List.forall_mem_cons.mpr ⟨hto, List.forall_mem_cons.mpr ⟨hfrom, List.forall_mem_cons.mpr ⟨hcontainer, ih⟩⟩⟩

theorem Does.dropParts {S : Server W} {literals : List Var} {α : Type} {bc : Bytecodes} {m : Machine W} {good : α → Prop}
    {base : List Var} {e : Expr} {target : Target} {next : α → Memory W → Var → Machine W}
    {r : Except Interrupt α × Memory W} (htarget : Parts e target)
    (h : Does S literals bc m good (target.operands ++ base) next r) : Does S literals bc m good base next r :=
  h.below fun v hv => (htarget.plain v hv).isMarker

/-! What a target holds. -/

def FetchesAt (cells : List Cell) (place : Nat) : Expr → Prop
  | .id slot => ∃ c : Ctx, Sits cells place (c.varOp .push slot)
  | .prop .. => ItemAt cells place (.op .pushGetProp)
  | .index .. => ItemAt cells place (.op .pushRef)
  | _ => False

def fetchSize : Expr → Nat
  | .id slot => varOpSize slot
  | _ => 1

theorem lvalueSize_above {e : Expr} (h : e.isIndexable = true) : lvalueSize e true = lvalueSize e false + fetchSize e := by
  cases e with
  | id | prop | index => simp [lvalueSize, fetchSize]
  | _ => cases h

theorem fetchesAt {cells : List Cell} {e : Expr} {c : Ctx} (h : e.isIndexable = true)
    (hsits : Sits cells c.pos (lvalueCode e true c)) :
    Sits cells c.pos (lvalueCode e false c) ∧ FetchesAt cells (c.pos + lvalueSize e false) e := by
  have hlength := lvalueCode_length e false c
  cases e with
  | id slot =>
      rw [lvalueCode, if_pos rfl, ← List.nil_append (c.varOp .push slot)] at hsits
      rw [lvalueCode, if_neg Bool.false_ne_true]
      exact ⟨hsits.left, c, hsits.right⟩
  | prop lhs rhs =>
      rw [lvalueCode, if_pos rfl] at hsits
      rw [lvalueCode, if_neg Bool.false_ne_true, List.append_nil] at hlength ⊢
      exact ⟨hsits.left, (hsits.next hlength).get (k := 0) rfl⟩
  | index lhs rhs =>
      rw [lvalueCode, if_pos rfl] at hsits
      rw [lvalueCode, if_neg Bool.false_ne_true, List.append_nil] at hlength ⊢
      exact ⟨hsits.left, (hsits.next hlength).get (k := 0) rfl⟩
  | _ => cases h

section

variable {S : Server W} {literals : List Var} {st : State} {cells : List Cell} {rts : List Var} {σ : Memory W} {t v : Var}
  {e : Expr} {target : Target} {i : Nat}

theorem fetch_does (L : Laid st cells literals) (hS : S.Behaves) (hσ : σ.Plain) (he : e.isIndexable = true)
    (htarget : Parts e target) (h : FetchesAt cells i e) :
    Does S literals (layout st) (mach st i (target.operands ++ rts) σ t) Plain (target.operands ++ rts)
      (fun v τ temp => mach st (i + fetchSize e) (v :: (target.operands ++ rts)) τ temp)
      (fetch (S.located st) i target σ) := by
  cases htarget with
  | id =>
      obtain ⟨c, h⟩ := h
      exact push_does L hS hσ h
  | prop => exact (op_does L hS hσ h rfl (opGetProp_plain hS _) rfl).forget
  | index _ _ hcontainer => exact (op_does L hS hσ h rfl (opPushRef_plain hcontainer) rfl).forget
  | range => cases he

/-! What is put into a target. -/

theorem putProp_does (L : Laid st cells literals) (hS : S.Behaves) (hσ : σ.Plain) (hv : Plain v) {obj propname : Var}
    (h : ItemAt cells i (.op .putProp)) :
    Does S literals (layout st) (mach st i (v :: propname :: obj :: rts) σ t) Plain rts
      (fun v τ _ => mach st (i + 1) (v :: rts) τ t) (putProp (S.located st) i obj propname v σ) := by
  have hstep : step S literals (layout st) false (mach st i (v :: propname :: obj :: rts) σ t) =
      opPutProp S (finalOffset st i) (mach st (i + 1) (v :: propname :: obj :: rts) σ t) := L.step_op h
  have hplain : Answers (opPutPropReads (S.around σ.world) obj propname v) := opPutProp_plain _ hv
  unfold opPutProp at hstep
  dsimp only [mach] at hstep
  rw [putProp, around_bind, show (S.located st).around = S.around from rfl]
  cases hr : opPutPropReads (S.around σ.world) obj propname v with
  | error =>
      rw [hr] at hstep
      exact ⟨_, .refl, L.alone h rfl, .inl hstep⟩
  | ok a =>
      rw [hr] at hstep hplain
      cases a with
      | push w =>
          cases obj with
          | obj oid =>
              cases propname with
              | str name => exact ⟨hplain _ rfl, hσ, t, .single (goes_of_step hstep)⟩
              | _ => exact ⟨_, .refl, L.alone h rfl, .inl hstep⟩
          | _ => exact ⟨_, .refl, L.alone h rfl, .inl hstep⟩
      | raise e => exact does_error (t := t) hS hσ hstep
      | _ => exact ⟨_, .refl, L.alone h rfl, .inl hstep⟩

theorem rangeset_does (L : Laid st cells literals) (hS : S.Behaves) (hσ : σ.Plain) {container from' to' : Var}
    (hcontainer : Plain container) (hv : Plain v) (h : ItemAt cells i (.op .extended))
    (heop : ItemAt cells (i + 1) (.eop .rangeset)) :
    Does S literals (layout st) (mach st i (v :: to' :: from' :: container :: rts) σ t) Plain rts
      (fun v τ _ => mach st (i + 2) (v :: rts) τ t) (rangeset (S.located st) i container from' to' v σ) := by
  have hstep : step S literals (layout st) false (mach st i (v :: to' :: from' :: container :: rts) σ t) =
      eopRangesetAt S (finalOffset st i) (mach st (i + 2) (v :: to' :: from' :: container :: rts) σ t) := L.step_eop h heop
  have hplain : Yields (Yields Plain) (eopRangeset container from' to' v) := eopRangeset_plain hcontainer hv
  unfold eopRangesetAt at hstep
  dsimp only [mach] at hstep
  unfold rangeset
  cases hr : eopRangeset container from' to' v with
  | error =>
      rw [hr] at hstep
      exact ⟨_, .refl, L.alone h rfl, .inl hstep⟩
  | ok r =>
      rw [hr] at hstep hplain
      cases r with
      | ok w => exact ⟨hplain _ rfl _ rfl, hσ, t, .single (goes_of_step hstep)⟩
      | error e => exact does_error (t := t) hS hσ hstep

theorem store_does (L : Laid st cells literals) (hS : S.Behaves) (hσ : σ.Plain) (hv : Plain v)
    (htarget : Parts e target) {c : Ctx} (h : Sits cells i (storeCode e c)) :
    Does S literals (layout st) (mach st i (v :: (target.operands ++ rts)) σ t) Plain rts
      (fun v τ _ => mach st (i + storeSize e) (v :: rts) τ t) (store (S.located st) target i v σ) := by
  induction htarget generalizing i v σ c with
  | @id slot =>
      rw [storeCode] at h
      rw [storeSize]
      exact ⟨hv, hσ.set hv slot, .none, .single (put_goes L h)⟩
  | prop => exact putProp_does L hS hσ hv (h.get (k := 0) rfl)
  | index _ hbase hcontainer _ ih =>
      rw [storeCode] at h
      rw [storeSize, ← Nat.add_assoc]
      refine ((op_does L hS hσ (h.get (k := 0) rfl) rfl (opIndexset_plain hcontainer hv) rfl).dropParts hbase).bind
        fun w τ _ hw hτ => ?_
      exact ih hτ hw (Sits.next (show Sits _ _ ([_] ++ _) from h) rfl)
  | range _ hbase hcontainer _ _ ih =>
      rw [storeCode] at h
      rw [storeSize, ← Nat.add_assoc]
      refine ((rangeset_does L hS hσ hcontainer hv (h.get (k := 0) rfl) (h.get (k := 1) rfl)).dropParts hbase).bind
        fun w τ _ hw hτ => ?_
      exact ih hτ hw (h.next rfl)

end

/-! The parts. -/

section

variable (S : Server W) (literals : List Var) (st : State) (cells : List Cell)

def TargetRuns (e : Expr) : Prop := ∀ {c : Ctx} {dollar : Option Var} {rts : List Var} {σ : Memory W}
  {temp : Var}, e.admitted dollar.isSome = true → e.isLvalue = true → Sits cells c.pos (lvalueCode e false c) →
  Starts c dollar rts σ →
  Does S literals (layout st) (mach st c.pos rts σ temp) (Parts e) rts
    (fun target τ temp => mach st (c.pos + lvalueSize e false) (target.operands ++ rts) τ temp)
    (evalTarget (S.located st) (asCompiled literals) e dollar c.pos σ)

end

section

variable {S : Server W} {literals : List Var} {st : State} {cells : List Cell} (L : Laid st cells literals) (hS : S.Behaves)

/-- Over the container of a target and its parts, `$` is the length of the container. -/
theorem Starts.target {c c' : Ctx} {dollar : Option Var} {rts : List Var} {σ τ : Memory W} {e : Expr} {target : Target}
    {container : Var} (h : Starts c dollar rts σ) (he : e.isIndexable = true) (htarget : Parts e target) (hτ : τ.Plain)
    (vs : List Var) (slots : Shape) (hslots : slots.length = vs.length)
    (hsaved : c'.saved = some ((List.replicate (lvalueDepth e true) Slot.value ++ c.shape).length - 1))
    (hshape : c'.shape = slots ++ (List.replicate (lvalueDepth e true) Slot.value ++ c.shape)) :
    Starts c' (some container) (vs ++ container :: (target.operands ++ rts)) τ := by
  have hdepth := htarget.depth
  have habove := lvalueDepth_true he
  have hheight := h.height
  refine ⟨?_, ?_, hτ⟩
  · rw [hshape]
    simp only [List.length_append, List.length_replicate, List.length_cons]
    omega
  · rw [hsaved]
    refine (Dollar.here ?_).push vs
    simp only [List.length_append, List.length_replicate]
    omega

include L hS

omit L hS in
theorem idTarget_runs (slot : Nat) : TargetRuns S literals st cells (.id slot) := by
  intro c dollar rts σ temp _ _ _ hstart
  rw [evalTarget]
  exact Does.pure .id hstart.plain rfl

omit L hS in
theorem propTarget_runs {lhs rhs : Expr} (hl : ExprRuns S literals st cells lhs) (hr : ExprRuns S literals st cells rhs) :
    TargetRuns S literals st cells (.prop lhs rhs) := by
  intro c dollar rts σ temp h _ hsits hstart
  rw [Expr.admitted, Bool.and_eq_true] at h
  rw [lvalueCode, if_neg Bool.false_ne_true, List.append_nil] at hsits
  have hrhs := hsits.next (exprCode_length lhs c)
  rw [evalTarget, lvalueSize]
  refine (hl h.1 hsits.left hstart).bind fun obj τ temp hobj hτ => ?_
  refine ((hr h.2 hrhs (hstart.value hτ rfl rfl)).drop hobj).bind fun propname τ temp hpropname hτ => ?_
  exact Does.pure (.prop hobj hpropname) hτ (mach_place (Nat.add_assoc c.pos (exprSize lhs) (exprSize rhs)).symm)

theorem indexTarget_runs {lhs rhs : Expr} (hl : TargetRuns S literals st cells lhs)
    (hr : ExprRuns S literals st cells rhs) : TargetRuns S literals st cells (.index lhs rhs) := by
  intro c dollar rts σ temp h hlvalue hsits hstart
  have hlhs : lhs.isIndexable = true := hlvalue
  rw [Expr.admitted, Bool.and_eq_true] at h
  rw [lvalueCode, if_neg Bool.false_ne_true, List.append_nil] at hsits
  have hrhs := hsits.next (lvalueCode_length lhs true c)
  obtain ⟨hbase, hfetch⟩ := fetchesAt hlhs hsits.left
  rw [evalTarget, lvalueSize]
  refine (hl h.1 (isLvalue_of_isIndexable hlhs) hbase hstart).bind fun base τ temp hparts hτ => ?_
  refine ((fetch_does L hS hτ hlhs hparts hfetch).dropParts hparts).bind fun container τ temp hcontainer hτ => ?_
  rw [Nat.add_assoc, ← lvalueSize_above hlhs]
  refine (((@hr _ (some container) _ _ _ h.2 hrhs (hstart.target hlhs hparts hτ [] [] rfl rfl rfl)).drop hcontainer).dropParts hparts).bind
    fun i τ temp hi hτ => ?_
  exact Does.pure (.index hlhs hparts hcontainer hi) hτ
    (mach_place (Nat.add_assoc c.pos (lvalueSize lhs true) (exprSize rhs)).symm)

theorem rangeTarget_runs {lhs lower upper : Expr} (hl : TargetRuns S literals st cells lhs)
    (hlower : ExprRuns S literals st cells lower) (hupper : ExprRuns S literals st cells upper) :
    TargetRuns S literals st cells (.range lhs lower upper) := by
  intro c dollar rts σ temp h hlvalue hsits hstart
  have hlhs : lhs.isIndexable = true := hlvalue
  rw [Expr.admitted, Bool.and_eq_true, Bool.and_eq_true] at h
  rw [lvalueCode, List.append_assoc] at hsits
  have hfrom := hsits.next (lvalueCode_length lhs true c)
  have hto := hfrom.next (exprCode_length lower _)
  obtain ⟨hbase, hfetch⟩ := fetchesAt hlhs hsits.left
  rw [evalTarget, lvalueSize]
  simp only [← Nat.add_assoc]
  refine (hl h.1.1 (isLvalue_of_isIndexable hlhs) hbase hstart).bind fun base τ temp hparts hτ => ?_
  refine ((fetch_does L hS hτ hlhs hparts hfetch).dropParts hparts).bind fun container τ temp hcontainer hτ => ?_
  rw [Nat.add_assoc, ← lvalueSize_above hlhs]
  refine (((@hlower _ (some container) _ _ _ h.1.2 hfrom.left (hstart.target hlhs hparts hτ [] [] rfl rfl rfl)).drop
    hcontainer).dropParts hparts).bind fun from' τ temp hfrom' hτ => ?_
  refine ((((@hupper _ (some container) _ _ _ h.2 hto (hstart.target hlhs hparts hτ [from'] [.value] rfl rfl rfl)).drop hfrom').drop
    hcontainer).dropParts hparts).bind fun to' τ temp hto' hτ => ?_
  exact Does.pure (.range hlhs hparts hcontainer hfrom' hto') hτ rfl

/-! The assignment. -/

theorem asgn_runs {lhs rhs : Expr} (hs : lhs.isScatter = false) (hl : TargetRuns S literals st cells lhs)
    (hr : ExprRuns S literals st cells rhs) : ExprRuns S literals st cells (.asgn lhs rhs) := by
  intro c dollar rts σ temp h hsits hstart
  rw [admitted_asgn hs, Bool.and_eq_true, Bool.and_eq_true] at h
  rw [exprCode_asgn rhs c hs] at hsits
  rw [evalExpr_asgn _ _ rhs _ _ hs, exprSize_asgn rhs hs]
  dsimp only at hsits
  have hrhs : ∀ {target : Target} {τ : Memory W} {c' : Ctx}, Parts lhs target → τ.Plain → c'.saved = c.saved →
      c'.shape = List.replicate (lvalueDepth lhs false) .value ++ c.shape → Starts c' dollar (target.operands ++ rts) τ :=
    fun htarget hτ hsaved hshape => hstart.push hτ _ _ (by rw [List.length_replicate, htarget.depth]) hsaved hshape
  split at hsits
  · next hindexed =>
      rw [if_pos hindexed]
      simp only [List.append_assoc] at hsits
      have hvalue := hsits.next (lvalueCode_length lhs false c)
      have hput := hvalue.next (exprCode_length rhs _)
      have hstore := hput.next (k := 1) rfl
      have hpop := hstore.next (storeCode_length lhs _)
      simp only [← Nat.add_assoc]
      refine (hl h.1.2 h.1.1 hsits.left hstart).bind fun target τ temp htarget hτ => ?_
      refine ((hr h.2 hvalue.left (hrhs htarget hτ rfl rfl)).dropParts htarget).bind fun v τ temp hv hτ => ?_
      rw [if_pos hindexed]
      refine Does.after (.single (goes_of_step (L.step_op (hput.left.get (k := 0) rfl)))) ?_
      refine (store_does (t := v) L hS hτ hv htarget hstore.left).bind fun w τ _ _ hτ => ?_
      refine ⟨hv, hτ, .none, .tail (.single (pop_goes L (hpop.get (k := 0) rfl))) ?_⟩
      exact goes_of_step (L.step_op (hpop.get (k := 1) rfl))
  · next hindexed =>
      rw [if_neg hindexed]
      simp only [List.append_assoc] at hsits
      have hvalue := hsits.next (lvalueCode_length lhs false c)
      have hstore := hvalue.next (exprCode_length rhs _)
      simp only [← Nat.add_assoc]
      refine (hl h.1.2 h.1.1 hsits.left hstart).bind fun target τ temp htarget hτ => ?_
      refine ((hr h.2 hvalue.left (hrhs htarget hτ rfl rfl)).dropParts htarget).bind fun v τ temp hv hτ => ?_
      rw [if_neg hindexed]
      exact (store_does L hS hτ hv htarget hstore).forget

end

/-! Scattering assignments. -/

section

variable (S : Server W) (literals : List Var) (st : State) (cells : List Cell)

@[simp] def entryPlace : Scatter → Nat → Nat → Nat
  | .nil, _, start => start
  | .cons .optional _ (.some _) _, 0, start => start
  | .cons .optional id (.some expr) next, avail + 1, start =>
      entryPlace next avail (start + (exprSize expr + varOpSize id + 1))
  | .cons .optional _ .none next, avail, start => entryPlace next (avail - 1) start
  | .cons _ _ _ next, avail, start => entryPlace next avail start

def DefaultsRuns (targets : Scatter) : Prop := ∀ {c : Ctx} {dollar : Option Var} {rts : List Var}
  {σ : Memory W} {temp : Var} {avail : Nat}, targets.admitted dollar.isSome = true → Sits cells c.pos (defaultsCode targets c) →
  Starts c dollar rts σ →
  Does S literals (layout st) (mach st (entryPlace targets avail c.pos) rts σ temp) (fun _ => True) rts
    (fun _ τ temp => mach st (c.pos + defaultsSize targets) rts τ temp)
    (evalDefaults (S.located st) (asCompiled literals) targets avail dollar c.pos σ)

end

theorem entryPlace_zero (targets : Scatter) (start : Nat) : entryPlace targets 0 start = start := by
  induction targets using Scatter.count.induct with
  | case1 => rfl
  | case2 kind id default next ih =>
      cases kind with
      | optional =>
          cases default with
          | none => exact ih
          | some => rfl
      | _ => exact ih

section

variable {S : Server W} {literals : List Var} {st : State} {cells : List Cell} (L : Laid st cells literals) (hS : S.Behaves)

theorem noDefaults_runs : DefaultsRuns S literals st cells .nil := by
  intro c dollar rts σ temp avail _ _ hstart
  rw [evalDefaults, entryPlace, defaultsSize]
  exact Does.pure trivial hstart.plain rfl

include L in
theorem default_runs {id : Nat} {expr : Expr} {next : Scatter} (he : ExprRuns S literals st cells expr)
    (hn : DefaultsRuns S literals st cells next) : DefaultsRuns S literals st cells (.cons .optional id (.some expr) next) := by
  intro c dollar rts σ temp avail h hsits hstart
  simp only [Scatter.admitted, Default.admitted, Bool.and_eq_true] at h
  rw [defaultsCode] at hsits
  simp only [List.append_assoc] at hsits
  have hput := hsits.next (exprCode_length expr c)
  have hpop := hput.next (Ctx.varOp_length _ .put id)
  have hnext := hpop.next (k := 1) rfl
  have hend : c.pos + exprSize expr + varOpSize id + 1 = c.pos + (exprSize expr + varOpSize id + 1) := by omega
  rw [hend] at hnext
  rw [evalDefaults, defaultsSize, ← Nat.add_assoc]
  cases avail with
  | zero =>
      rw [entryPlace, if_pos rfl]
      refine (he h.1.2 hsits.left hstart).bind fun v τ temp hv hτ => ?_
      have hset := hτ.set hv id
      refine Does.after (.tail (.single (put_goes L hput.left)) (pop_goes L (hpop.left.get (k := 0) rfl))) ?_
      have hrest := @hn (c.go _ c.shape) dollar rts _ temp 0 h.2 hnext (hstart.same hset rfl rfl)
      rw [entryPlace_zero] at hrest
      rw [hend]
      exact hrest
  | succ avail =>
      rw [entryPlace, if_neg (Nat.succ_ne_zero avail)]
      exact hn h.2 hnext (hstart.same hstart.plain rfl rfl)

theorem noDefault_runs {id : Nat} {next : Scatter} (hn : DefaultsRuns S literals st cells next) :
    DefaultsRuns S literals st cells (.cons .optional id .none next) := by
  intro c dollar rts σ temp avail h hsits hstart
  rw [Scatter.admitted, Bool.and_eq_true] at h
  exact hn h.2 hsits hstart

theorem noOptional_runs {kind : ScatterKind} {id : Nat} {default : Default} {next : Scatter} (hkind : kind ≠ .optional)
    (hn : DefaultsRuns S literals st cells next) : DefaultsRuns S literals st cells (.cons kind id default next) := by
  intro c dollar rts σ temp avail h hsits hstart
  rw [Scatter.admitted, Bool.and_eq_true] at h
  cases kind with
  | optional => exact absurd rfl hkind
  | _ => exact hn h.2 hsits hstart

/-! The opcode. -/

theorem assign_plain {shares : List Share} {env : Nat → Var} (henv : ∀ slot, Plain (env slot))
    (h : ∀ v ∈ shares.flatMap Share.elements, Plain v) : ∀ slot, Plain (assign shares env slot) := by
  have hupdate {env : Nat → Var} (henv : ∀ slot, Plain (env slot)) {v : Var} (hv : Plain v) (id : Nat) :
      ∀ slot, Plain (Function.update env id v slot) := by
    intro slot
    rw [Function.update_apply]
    split
    · exact hv
    · exact henv slot
  induction shares generalizing env with
  | nil => exact henv
  | cons share shares ih =>
      rw [List.flatMap_cons, List.forall_mem_append] at h
      cases share with
      | element id v => exact ih (hupdate henv (h.1 v List.mem_cons_self) id) h.2
      | rest id l => exact ih (hupdate henv (plain_list.mpr h.1) id) h.2
      | missing => exact ih henv h.2

include L in
theorem entry_eq (targets : Scatter) (avail : Nat) {start : Nat} (hstart : 0 < start) (hcells : 0 < cells.length) :
    (if entry (waiting targets avail (defaultBlocks st targets start)) = 0 then finalOffset st (start + defaultsSize targets)
      else entry (waiting targets avail (defaultBlocks st targets start))) = finalOffset st (entryPlace targets avail start) := by
  induction targets using Scatter.count.induct generalizing avail start with
  | case1 =>
      have hwaiting : waiting .nil avail (defaultBlocks st .nil start) = [] := by simp [waiting]
      rw [hwaiting, entry, if_pos rfl, defaultsSize, entryPlace, Nat.add_zero]
  | case2 kind id default next ih =>
      cases kind with
      | optional =>
          cases default with
          | none => exact ih (avail - 1) hstart
          | some expr =>
              cases avail with
              | zero => exact if_neg (L.offset_ne_zero hstart hcells)
              | succ avail =>
                  rw [defaultBlocks, waiting, defaultsSize, entryPlace, ← ih avail (Nat.add_pos_left hstart _),
                    Nat.add_assoc start]
      | _ => exact ih avail hstart

theorem scatter_code (L : Laid st cells literals) {targets : Scatter} {rhs : Expr} {dollars : Bool} {c : Ctx}
    (hadmitted : targets.admitted dollars = true) (hsits : Sits cells c.pos (exprCode (.asgn (.scatter targets) rhs) c)) :
    let place := c.pos + exprSize rhs
    let start := place + 5 + 2 * targets.count + 1
    ScatterCode.StandsIn ⟨finalOffset st place, targets, defaultBlocks st targets start, finalOffset st start,
      finalOffset st (start + defaultsSize targets)⟩ (layout st) := by
  obtain ⟨k, hrep⟩ := L.rep
  obtain ⟨pre, post, hcells, hpre⟩ := hsits
  exact scatter_standsIn hrep L.correct hcells hpre.symm hadmitted

theorem Laid.step_scatter {S : Server W} (L : Laid st cells literals) {code : ScatterCode} {i : Nat} {v t : Var} {rts : List Var}
    {σ : Memory W} {x : Executed} (hcode : code.StandsIn (layout st)) (hpc : code.pc = finalOffset st i)
    (h : ItemAt cells i (.op .extended)) (heop : ItemAt cells (i + 1) (.eop .scatter))
    (hx : perform (layout st) (mach st i (v :: rts) σ t).toActivation = some x) :
    step S literals (layout st) false (mach st i (v :: rts) σ t) =
      executed S (finalOffset st i) (mach st (i + 2) rts σ t) x := by
  obtain ⟨k, hrep⟩ := L.rep
  have hone := (hrep.byte_at h rfl).2
  have htwo := (hrep.byte_at heop rfl).2
  have hperform := perform_scatter hcode (a := (mach st i (v :: rts) σ t).toActivation) hpc.symm
  rw [hperform] at hx
  have hpc' : code.pc + 2 = finalOffset st (i + 2) := by
    rw [hpc, show i + 2 = i + 1 + 1 from rfl, htwo, hone]
  rw [← Option.some.inj hx, L.step_eop h heop, hpc']
  rfl

include L hS in
theorem scatter_does {targets : Scatter} {place : Nat} {rts : List Var} {σ : Memory W} {v t : Var} {stop : Nat}
    {defaults : Nat → Eval W Unit} (hσ : σ.Plain) (hv : Plain v) (hvet : vetScatter targets = true)
    (hcode : ScatterCode.StandsIn ⟨finalOffset st place, targets, defaultBlocks st targets (place + 5 + 2 * targets.count + 1),
      finalOffset st (place + 5 + 2 * targets.count + 1), finalOffset st stop⟩ (layout st))
    (hstop : stop = place + 5 + 2 * targets.count + 1 + defaultsSize targets)
    (h : ItemAt cells place (.op .extended)) (heop : ItemAt cells (place + 1) (.eop .scatter))
    (hdefaults : ∀ {τ : Memory W} {temp : Var} {avail : Nat}, τ.Plain → Does S literals (layout st)
      (mach st (entryPlace targets avail (place + 5 + 2 * targets.count + 1)) (v :: rts) τ temp) (fun _ => True) (v :: rts)
      (fun _ τ temp => mach st stop (v :: rts) τ temp) (defaults avail τ)) :
    Does S literals (layout st) (mach st place (v :: rts) σ t) Plain rts (fun v τ temp => mach st stop (v :: rts) τ temp)
      (scatter (S.located st) place targets v defaults σ) := by
  unfold scatter
  cases he : scatterError targets.count (targets.countKind .required) (takesRest targets) v with
  | some e =>
      have hrefuses := scatter_refuses (a := (mach st place (v :: rts) σ t).toActivation) hcode hvet rfl rfl he
      have hstep := L.step_scatter (S := S) hcode rfl h heop hrefuses
      change Does S literals (layout st) _ _ _ _ (fail (S.located st) place e σ)
      unfold fail
      by_cases hdebug : σ.debug = true
      · rw [show (mach st place (v :: rts) σ t).toActivation.debug = σ.debug from rfl, if_pos hdebug] at hstep
        rw [if_pos hdebug]
        exact does_raise hS hσ rfl rfl (hstep.trans (if_pos hdebug))
      · rw [show (mach st place (v :: rts) σ t).toActivation.debug = σ.debug from rfl, if_neg hdebug] at hstep
        rw [if_neg hdebug]
        exact ⟨rfl, hσ, t, .single (goes_of_step hstep)⟩
  | none =>
      cases v with
      | list l =>
          by_cases hl : intMax ≤ l.length
          · have hlong : Breaks S literals (layout st) false (mach st place (.list l :: rts) σ t) :=
              ⟨_, .refl, L.alone h rfl, .inr ⟨.list l, rfl, l, rfl, hl⟩⟩
            simp only [if_pos hl]
            cases distributed targets l <;> exact hlong
          · obtain ⟨shares, hshares, helements, -, hgoes⟩ := scatter_step
              (a := (mach st place (.list l :: rts) σ t).toActivation) hcode hvet rfl rfl (not_le.mp hl)
              (scatterError_list.mp he)
            have hset : Memory.Plain { σ with env := assign shares σ.env } :=
              assign_plain hσ fun w hw => plain_list.mp hv w (List.mem_of_mem_take (helements ▸ hw))
            have hstep := L.step_scatter (S := S) hcode rfl h heop hgoes
            obtain ⟨cell, hcell, -⟩ := h
            have hcells : 0 < cells.length := Nat.lt_of_le_of_lt (Nat.zero_le _) (List.getElem?_eq_some_iff.mp hcell).1
            have hentry := entry_eq L targets (l.length - targets.countKind .required)
              (show 0 < place + 5 + 2 * targets.count + 1 by omega) hcells
            rw [← hstop] at hentry
            dsimp only at hstep
            rw [hentry] at hstep
            simp only [if_neg hl, hshares]
            refine Does.after (.single (goes_of_step hstep)) ?_
            change Does S literals (layout st) _ _ _ _
              ((defaults (l.length - targets.countKind .required) >>= fun _ => pure (Var.list l))
                { σ with env := assign shares σ.env })
            exact ((hdefaults hset).drop hv).bind fun _ τ temp _ hτ => Does.pure hv hτ rfl
      | _ => cases he

include L hS in
theorem scatter_runs {targets : Scatter} {rhs : Expr} (ht : DefaultsRuns S literals st cells targets)
    (hr : ExprRuns S literals st cells rhs) : ExprRuns S literals st cells (.asgn (.scatter targets) rhs) := by
  intro c dollar rts σ temp h hsits hstart
  simp only [Expr.admitted, Bool.and_eq_true] at h
  obtain ⟨⟨⟨-, hvet⟩, htargets⟩, hrhs⟩ := h
  have hcode := scatter_code L htargets hsits
  rw [exprCode] at hsits
  simp only [List.append_assoc] at hsits
  have hop := hsits.next (exprCode_length rhs c)
  have hdefaults : Sits cells (c.pos + exprSize rhs + 5 + 2 * targets.count + 1) _ :=
    (((hop.next (k := 2) rfl).next (k := 3) rfl).next (scatterCode_length targets _ _)).next (k := 1) rfl
  rw [evalExpr, exprSize]
  simp only [← Nat.add_assoc]
  refine (hr hrhs hsits.left hstart).bind fun v τ temp hv hτ => ?_
  exact scatter_does L hS hτ hv hvet hcode rfl (hop.left.get (k := 0) rfl) (hop.left.get (k := 1) rfl)
    fun hτ => ht htargets hdefaults (hstart.value hτ rfl rfl)

end

end LambdaMoo.Interpreter
