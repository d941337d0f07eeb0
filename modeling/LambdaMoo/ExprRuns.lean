import LambdaMoo.OpcodeSteps

/-! The code of an expression does what the expression means. One lemma for each kind of expression,
over what its parts do; the induction over the trees is at the end. -/
namespace LambdaMoo.Interpreter
open Listing CodeGen

variable {W : Type}

def Dollar (saved : Option Nat) (dollar : Option Var) (rts : List Var) : Prop :=
  ∀ v ∈ dollar, ∃ k, saved = some k ∧ rts.reverse[k]? = some v

theorem Dollar.push {saved : Option Nat} {dollar : Option Var} {rts : List Var} (h : Dollar saved dollar rts) (vs : List Var) :
    Dollar saved dollar (vs ++ rts) := by
  intro v hv
  obtain ⟨k, hk, hget⟩ := h v hv
  refine ⟨k, hk, ?_⟩
  rw [List.reverse_append, List.getElem?_append_left (List.getElem?_eq_some_iff.mp hget).1, hget]

theorem Dollar.here {rts : List Var} {v : Var} {k : Nat} (hk : k = rts.length) : Dollar (some k) (some v) (v :: rts) := by
  intro w hw
  cases hw
  refine ⟨k, rfl, ?_⟩
  rw [List.reverse_cons, List.getElem?_append_right (by rw [List.length_reverse, hk]), List.length_reverse, hk,
    Nat.sub_self]
  rfl

section

variable (S : Server W) (literals : List Var) (st : State) (cells : List Cell)

/-- Where the code of an expression starts: with a stack as high as the generator has it. -/
structure Starts (c : Ctx) (dollar : Option Var) (rts : List Var) (σ : Memory W) : Prop where
  height : c.shape.length = rts.length
  dollar : Dollar c.saved dollar rts
  plain : σ.Plain

def ExprRuns (e : Expr) : Prop := ∀ {c : Ctx} {dollar : Option Var} {rts : List Var} {σ : Memory W}
  {temp : Var}, e.admitted dollar.isSome = true → Sits cells c.pos (exprCode e c) → Starts c dollar rts σ →
  Does S literals (layout st) (mach st c.pos rts σ temp) Plain rts
    (fun v τ temp => mach st (c.pos + exprSize e) (v :: rts) τ temp)
    (evalExpr (S.located st) (asCompiled literals) e dollar c.pos σ)

def ArgListRuns (args : ArgList) : Prop := ∀ {c : Ctx} {dollar : Option Var} {rts : List Var}
  {σ : Memory W} {temp : Var}, args.admitted dollar.isSome = true → Sits cells c.pos (argListCode args c) →
  Starts c dollar rts σ →
  Does S literals (layout st) (mach st c.pos rts σ temp) Plain rts
    (fun v τ temp => mach st (c.pos + argListSize args) (v :: rts) τ temp)
    (evalArgList (S.located st) (asCompiled literals) args dollar c.pos σ)

/-- The elements after the first: the list so far is on the stack, and the context has it there. -/
def ArgsRuns (args : ArgList) : Prop := ∀ {c : Ctx} {dollar : Option Var} {rts : List Var} {list : Var}
  {σ : Memory W} {temp : Var}, args.admitted dollar.isSome = true → Sits cells c.pos (argsCode args c) → Plain list →
  c.shape.length = (list :: rts).length → Dollar c.saved dollar rts → σ.Plain →
  Does S literals (layout st) (mach st c.pos (list :: rts) σ temp) Plain rts
    (fun v τ temp => mach st (c.pos + argsSize args) (v :: rts) τ temp)
    (evalArgs (S.located st) (asCompiled literals) args dollar c.pos list σ)

end

variable {S : Server W} {literals : List Var} {st : State} {cells : List Cell}

/-! Places. -/

theorem Starts.push {c c' : Ctx} {dollar : Option Var} {rts : List Var} {σ τ : Memory W} (h : Starts c dollar rts σ)
    (hτ : τ.Plain) (vs : List Var) (slots : Shape) (hslots : slots.length = vs.length) (hsaved : c'.saved = c.saved)
    (hshape : c'.shape = slots ++ c.shape) : Starts c' dollar (vs ++ rts) τ := by
  refine ⟨?_, hsaved ▸ h.dollar.push vs, hτ⟩
  rw [hshape, List.length_append, List.length_append, h.height, hslots]

theorem Starts.value {c c' : Ctx} {dollar : Option Var} {rts : List Var} {σ τ : Memory W} (h : Starts c dollar rts σ)
    (hτ : τ.Plain) {v : Var} (hsaved : c'.saved = c.saved) (hshape : c'.shape = .value :: c.shape) :
    Starts c' dollar (v :: rts) τ :=
  h.push hτ [v] [.value] rfl hsaved hshape

theorem Starts.same {c c' : Ctx} {dollar : Option Var} {rts : List Var} {σ τ : Memory W} (h : Starts c dollar rts σ)
    (hτ : τ.Plain) (hsaved : c'.saved = c.saved) (hshape : c'.shape = c.shape) : Starts c' dollar rts τ :=
  h.push hτ [] [] rfl hsaved hshape

theorem Starts.container {c c' : Ctx} {dollar : Option Var} {rts : List Var} {σ τ : Memory W} (h : Starts c dollar rts σ)
    (hτ : τ.Plain) {v : Var} (vs : List Var) (slots : Shape) (hslots : slots.length = vs.length)
    (hsaved : c'.saved = some c.shape.length) (hshape : c'.shape = slots ++ .value :: c.shape) :
    Starts c' (some v) (vs ++ v :: rts) τ := by
  refine ⟨?_, hsaved ▸ (Dollar.here h.height).push vs, hτ⟩
  rw [hshape, List.length_append, List.length_append, List.length_cons, List.length_cons, h.height, hslots]

theorem Does.drop {α : Type} {bc : Bytecodes} {m : Machine W} {good : α → Prop} {base : List Var} {v : Var}
    {next : α → Memory W → Var → Machine W} {r : Except Interrupt α × Memory W} (hv : Plain v)
    (h : Does S literals bc m good (v :: base) next r) : Does S literals bc m good base next r :=
  Does.below (l := [v]) (fun _ hw => List.mem_singleton.mp hw ▸ hv.isMarker) h

/-! Expressions. -/

section

variable (L : Laid st cells literals) (hS : S.Behaves)
include L hS

theorem id_runs (slot : Nat) : ExprRuns S literals st cells (.id slot) := by
  intro c dollar rts σ temp h hsits hstart
  rw [exprCode] at hsits
  rw [evalExpr, exprSize]
  exact push_does L hS hstart.plain hsits

omit L hS in
theorem plain_literal_of (literals : List Var) {u : Var} (hu : u.isWritable = true) : Plain (literal literals u) := by
  unfold literal
  cases hfind : literals.find? (sameLiteral u) with
  | none =>
      cases u with
      | list => cases hu
      | catchMarker => cases hu
      | finallyMarker => cases hu
      | _ => rfl
  | some w =>
      have hsame := List.find?_some hfind
      rw [sameLiteral, Bool.and_eq_true] at hsame
      cases u with
      | int | obj | str | err | float =>
          cases w with
          | list | catchMarker | finallyMarker => cases hsame.1
          | _ => rfl
      | _ => cases hu

omit L hS in
theorem literal_eq_self (literals : List Var) {u : Var} (hu : u.isWritable = true) (hzero : isZeroFloat u = false) :
    literal literals u = u := by
  unfold literal
  cases hfind : literals.find? (sameLiteral u) with
  | none => rfl
  | some w =>
      have hsame := List.find?_some hfind
      rw [sameLiteral, Bool.and_eq_true] at hsame
      obtain ⟨htype, hequal⟩ := hsame
      rw [beq_iff_eq] at hequal
      rw [Option.getD_some]
      cases u with
      | float d =>
          cases w with
          | float d' =>
              rw [equality, Option.some.injEq, Float64.eq, show Float64.isZero d = false from hzero] at hequal
              simp only [Bool.false_and, Bool.or_false, Bool.and_eq_true, beq_iff_eq] at hequal
              rw [hequal.2]
          | _ => cases htype
      | int | obj | err | str =>
          cases w with
          | int | obj | err | str =>
              first
              | exact absurd htype Bool.false_ne_true
              | (simp only [equality, if_true, Option.some.injEq, beq_iff_eq] at hequal
                 rw [hequal])
          | _ => cases htype
      | _ => cases hu

omit hS in
theorem literalCode_goes {u : Var} {i : Nat} {c : Ctx} {rts : List Var} {σ : Memory W} {t : Var} (h : u.isWritable = true)
    (hsits : Sits cells i (c.literal u)) : Goes S literals (layout st) false (mach st i rts σ t)
      (mach st (i + literalSize u) (literal literals u :: rts) σ t) := by
  rw [Ctx.literal] at hsits
  rw [literalSize]
  cases ho : optimNum? u with
  | none =>
      rw [ho] at hsits
      exact literal_goes L (hsits.get (k := 0) rfl) (hsits.get (k := 1) rfl)
  | some o =>
      rw [ho] at hsits
      cases u with
      | int n =>
          rw [optimNum?] at ho
          split at ho
          · next hrange =>
              cases ho
              rw [literal_eq_self literals h rfl]
              exact number_goes L hrange (hsits.get (k := 0) rfl)
          · cases ho
      | _ => cases ho

omit hS in
theorem var_runs (u : Var) : ExprRuns S literals st cells (.var u) := by
  intro c dollar rts σ temp h hsits hstart
  rw [Expr.admitted] at h
  rw [exprCode] at hsits
  rw [evalExpr, exprSize]
  exact ⟨plain_literal_of literals h, hstart.plain, temp, .single (literalCode_goes L h hsits)⟩

omit hS in
theorem logic_runs {kind : LogicKind} {lhs rhs : Expr} (hl : ExprRuns S literals st cells lhs)
    (hr : ExprRuns S literals st cells rhs) : ExprRuns S literals st cells (.logic kind lhs rhs) := by
  intro c dollar rts σ temp h hsits hstart
  rw [Expr.admitted, Bool.and_eq_true] at h
  rw [exprCode, List.append_assoc] at hsits
  have hop := hsits.next (exprCode_length lhs c)
  have hrhs := (hop.next rfl : Sits cells (c.pos + exprSize lhs + 2) _)
  rw [evalExpr, exprSize]
  simp only [← Nat.add_assoc]
  refine (hl h.1 hsits.left hstart).bind fun v τ temp hv hτ => ?_
  have hgoes : Goes S literals (layout st) false (mach st _ (v :: rts) τ temp) _ :=
    logic_goes L (hop.left.get (k := 0) rfl) (hop.left.get (k := 1) rfl)
  by_cases hshort : v.isTrue = shortCircuit kind
  · rw [if_pos hshort] at hgoes ⊢
    exact ⟨hv, hτ, temp, .single hgoes⟩
  · rw [if_neg hshort] at hgoes ⊢
    exact (hr h.2 hrhs (hstart.same hτ rfl rfl)).after (.single hgoes)

theorem unary_runs {kind : UnaryKind} {expr : Expr} (he : ExprRuns S literals st cells expr) :
    ExprRuns S literals st cells (.unary kind expr) := by
  intro c dollar rts σ temp h hsits hstart
  rw [Expr.admitted, Bool.and_eq_true] at h
  rw [exprCode] at hsits
  have hop := hsits.next (exprCode_length expr c)
  rw [evalExpr, exprSize]
  simp only [← Nat.add_assoc]
  refine (he h.2 hsits.left hstart).bind fun v τ temp hv hτ => ?_
  refine (op_does L hS hτ (hop.get (k := 0) rfl) (by cases kind <;> rfl) (unary_plain _ kind) ?_).forget (t := temp)
  cases kind <;> rfl

theorem binary_runs {kind : BinaryKind} {lhs rhs : Expr} (hl : ExprRuns S literals st cells lhs)
    (hr : ExprRuns S literals st cells rhs) : ExprRuns S literals st cells (.binary kind lhs rhs) := by
  intro c dollar rts σ temp h hsits hstart
  rw [Expr.admitted, Bool.and_eq_true] at h
  rw [exprCode, List.append_assoc] at hsits
  have hrhs := hsits.next (exprCode_length lhs c)
  have hop := hrhs.next (exprCode_length rhs _)
  rw [evalExpr, exprSize]
  simp only [← Nat.add_assoc]
  refine (hl h.1 hsits.left hstart).bind fun v τ temp hv hτ => ?_
  refine ((hr h.2 hrhs.left (hstart.value hτ rfl rfl)).drop hv).bind fun v' τ temp hv' hτ => ?_
  cases kind with
  | exp => exact (eop_does L hS hτ (hop.get (k := 0) rfl) (hop.get (k := 1) rfl) (binary_plain _ .exp) rfl).forget
  | _ => exact (op_does L hS hτ (hop.get (k := 0) rfl) rfl (binary_plain _ _) rfl).forget

theorem prop_runs {lhs rhs : Expr} (hl : ExprRuns S literals st cells lhs) (hr : ExprRuns S literals st cells rhs) :
    ExprRuns S literals st cells (.prop lhs rhs) := by
  intro c dollar rts σ temp h hsits hstart
  rw [Expr.admitted, Bool.and_eq_true] at h
  rw [exprCode, List.append_assoc] at hsits
  have hrhs := hsits.next (exprCode_length lhs c)
  have hop := hrhs.next (exprCode_length rhs _)
  rw [evalExpr, exprSize]
  simp only [← Nat.add_assoc]
  refine (hl h.1 hsits.left hstart).bind fun obj τ temp hobj hτ => ?_
  refine ((hr h.2 hrhs.left (hstart.value hτ rfl rfl)).drop hobj).bind fun propname τ temp _ hτ => ?_
  exact (op_does L hS hτ (hop.get (k := 0) rfl) rfl (opGetProp_plain hS _) rfl).forget

theorem index_runs {lhs rhs : Expr} (hl : ExprRuns S literals st cells lhs) (hr : ExprRuns S literals st cells rhs) :
    ExprRuns S literals st cells (.index lhs rhs) := by
  intro c dollar rts σ temp h hsits hstart
  rw [Expr.admitted, Bool.and_eq_true] at h
  rw [exprCode, List.append_assoc] at hsits
  have hrhs := hsits.next (exprCode_length lhs c)
  have hop := hrhs.next (exprCode_length rhs _)
  rw [evalExpr, exprSize]
  simp only [← Nat.add_assoc]
  refine (hl h.1 hsits.left hstart).bind fun list τ temp hlist hτ => ?_
  refine ((@hr _ (some list) _ _ _ h.2 hrhs.left (hstart.container hτ [] [] rfl rfl rfl)).drop hlist).bind fun index τ temp _ hτ => ?_
  exact (op_does L hS hτ (hop.get (k := 0) rfl) rfl (opRef_plain hlist) rfl).forget

theorem range_runs {base lower upper : Expr} (hb : ExprRuns S literals st cells base)
    (hl : ExprRuns S literals st cells lower) (hu : ExprRuns S literals st cells upper) :
    ExprRuns S literals st cells (.range base lower upper) := by
  intro c dollar rts σ temp h hsits hstart
  rw [Expr.admitted, Bool.and_eq_true, Bool.and_eq_true] at h
  rw [exprCode, List.append_assoc, List.append_assoc] at hsits
  have hlower := hsits.next (exprCode_length base c)
  have hupper := hlower.next (exprCode_length lower _)
  have hop := hupper.next (exprCode_length upper _)
  rw [evalExpr, exprSize]
  simp only [← Nat.add_assoc]
  refine (hb h.1.1 hsits.left hstart).bind fun list τ temp hlist hτ => ?_
  refine ((@hl _ (some list) _ _ _ h.1.2 hlower.left (hstart.container hτ [] [] rfl rfl rfl)).drop hlist).bind fun from' τ temp hfrom hτ => ?_
  refine (((@hu _ (some list) _ _ _ h.2 hupper.left (hstart.container hτ [from'] [.value] rfl rfl rfl)).drop hfrom).drop hlist).bind
    fun to' τ temp _ hτ => ?_
  exact (op_does L hS hτ (hop.get (k := 0) rfl) rfl (opRangeRef_plain hlist) rfl).forget

theorem length_runs : ExprRuns S literals st cells .length := by
  intro c dollar rts σ temp h hsits hstart
  rw [exprCode] at hsits
  rw [exprSize]
  cases dollar with
  | none => cases h
  | some v =>
      obtain ⟨k, hk, hget⟩ := hstart.dollar v rfl
      rw [hk] at hsits
      unfold evalExpr
      refine (eop_does L hS hstart.plain (hsits.get (k := 0) rfl) (hsits.get (k := 1) rfl) eopLength_plain ?_).forget
      change eopLengthAt S (layout st) (finalOffset st c.pos) (mach st (c.pos + 2) rts σ temp) = _
      unfold eopLengthAt
      rw [show (mach st (c.pos + 2) rts σ temp).pc = finalOffset st (c.pos + 2) from rfl,
        L.stackRef (hsits.get (k := 2) rfl)]
      dsimp only
      rw [show (mach st (c.pos + 2) rts σ temp).rts.reverse[(some k).getD 0]? = _ from hget]
      rfl

omit L hS in
theorem list_runs {args : ArgList} (ha : ArgListRuns S literals st cells args) : ExprRuns S literals st cells (.list args) := by
  intro c dollar rts σ temp h hsits hstart
  rw [Expr.admitted] at h
  rw [exprCode] at hsits
  rw [evalExpr, exprSize]
  exact ha h hsits hstart

theorem call_runs {func : Nat} {args : ArgList} (ha : ArgListRuns S literals st cells args) :
    ExprRuns S literals st cells (.call func args) := by
  intro c dollar rts σ temp h hsits hstart
  rw [Expr.admitted, Bool.and_eq_true, decide_eq_true_eq] at h
  rw [exprCode] at hsits
  have hop := hsits.next (argListCode_length args c)
  rw [evalExpr, exprSize]
  simp only [← Nat.add_assoc]
  refine (ha h.2 hsits.left hstart).bind fun v τ temp hv hτ => ?_
  exact functionCall_does L hS hτ h.1 (hop.get (k := 0) rfl) (hop.get (k := 1) rfl)

theorem verb_runs {obj verb : Expr} {args : ArgList} (ho : ExprRuns S literals st cells obj)
    (hn : ExprRuns S literals st cells verb) (ha : ArgListRuns S literals st cells args) :
    ExprRuns S literals st cells (.verb obj verb args) := by
  intro c dollar rts σ temp h hsits hstart
  rw [Expr.admitted, Bool.and_eq_true, Bool.and_eq_true] at h
  rw [exprCode, List.append_assoc, List.append_assoc] at hsits
  have hverb := hsits.next (exprCode_length obj c)
  have hargs := hverb.next (exprCode_length verb _)
  have hop := hargs.next (argListCode_length args _)
  rw [evalExpr, exprSize]
  simp only [← Nat.add_assoc]
  refine (ho h.1.1 hsits.left hstart).bind fun o τ temp hobj hτ => ?_
  refine ((hn h.1.2 hverb.left (hstart.value hτ rfl rfl)).drop hobj).bind fun vname τ temp hname hτ => ?_
  refine (((ha h.2 hargs.left (hstart.push hτ [vname, o] [.value, .value] rfl rfl rfl)).drop hname).drop hobj).bind
    fun v τ temp hv hτ => ?_
  exact verbCall_does L hS hτ (hop.get (k := 0) rfl)

omit hS in
theorem cond_runs {condition consequent alternate : Expr} (hc : ExprRuns S literals st cells condition)
    (ht : ExprRuns S literals st cells consequent) (hf : ExprRuns S literals st cells alternate) :
    ExprRuns S literals st cells (.cond condition consequent alternate) := by
  intro c dollar rts σ temp h hsits hstart
  rw [Expr.admitted, Bool.and_eq_true, Bool.and_eq_true] at h
  rw [exprCode] at hsits
  simp only [List.append_assoc] at hsits
  have htest := hsits.next (exprCode_length condition c)
  have hconsequent : Sits cells (c.pos + exprSize condition + 2) _ := htest.next rfl
  have hjump := hconsequent.next (exprCode_length consequent _)
  have halternate := hjump.next (k := 2) rfl
  rw [Nat.add_assoc (c.pos + exprSize condition) 2] at halternate
  rw [evalExpr]
  refine (hc h.1.1 hsits.left hstart).bind fun v τ temp _ hτ => ?_
  have hgoes : Goes S literals (layout st) false (mach st _ (v :: rts) τ temp) _ :=
    test_goes L (.inr (.inl rfl)) (htest.left.get (k := 0) rfl) (htest.left.get (k := 1) rfl) (by omega)
  have hend : c.pos + exprSize (.cond condition consequent alternate) =
      c.pos + exprSize condition + (2 + exprSize consequent) + 2 + exprSize alternate := by
    rw [exprSize]
    omega
  rw [hend]
  cases hv : v.isTrue with
  | true =>
      rw [hv, if_pos rfl] at hgoes
      refine Does.after (.single hgoes) ((ht h.1.2 hconsequent.left (hstart.same hτ rfl rfl)).onward fun v τ temp => ?_)
      exact .single (jump_goes L (hjump.left.get (k := 0) rfl) (hjump.left.get (k := 1) rfl) (by omega))
  | false =>
      rw [hv, if_neg Bool.false_ne_true] at hgoes
      exact (hf h.2 halternate (hstart.same hτ rfl rfl)).after (.single hgoes)

/-! Lists. -/

omit hS in
theorem noArgs_runs : ArgListRuns S literals st cells .nil := by
  intro c dollar rts σ temp _ hsits hstart
  rw [argListCode] at hsits
  rw [evalArgList, argListSize]
  exact ⟨plain_list.mpr fun v hv => absurd hv List.not_mem_nil, hstart.plain, temp,
    .single (goes_of_step (L.step_op (hsits.get (k := 0) rfl)))⟩

omit L hS in
theorem noMoreArgs_runs : ArgsRuns S literals st cells .nil := by
  intro c dollar rts list σ temp _ _ hlist _ _ hσ
  rw [evalArgs, argsSize]
  exact Does.pure hlist hσ rfl

theorem args_runs {kind : ArgKind} {expr : Expr} {next : ArgList} (he : ExprRuns S literals st cells expr)
    (hn : ArgsRuns S literals st cells next) : ArgsRuns S literals st cells (.cons kind expr next) := by
  intro c dollar rts list σ temp h hsits hlist hheight hdollar hσ
  rw [ArgList.admitted, Bool.and_eq_true] at h
  rw [argsCode, List.append_assoc] at hsits
  have hop := hsits.next (exprCode_length expr c)
  have hnext := hop.next (k := 1) rfl
  rw [evalArgs, argsSize]
  simp only [← Nat.add_assoc]
  refine ((he h.1 hsits.left ⟨hheight, hdollar.push [list], hσ⟩).drop hlist).bind fun v τ temp hv hτ => ?_
  refine (nextArg_does L hS hτ hlist hv (hop.left.get (k := 0) rfl)).bind fun args τ temp hargs hτ => ?_
  exact hn h.2 hnext hargs hheight hdollar hτ

theorem argList_runs {kind : ArgKind} {expr : Expr} {next : ArgList} (he : ExprRuns S literals st cells expr)
    (hn : ArgsRuns S literals st cells next) : ArgListRuns S literals st cells (.cons kind expr next) := by
  intro c dollar rts σ temp h hsits hstart
  rw [ArgList.admitted, Bool.and_eq_true] at h
  rw [argListCode, List.append_assoc] at hsits
  have hop := hsits.next (exprCode_length expr c)
  have hnext := hop.next (k := 1) rfl
  rw [evalArgList, argListSize]
  simp only [← Nat.add_assoc]
  refine (he h.1 hsits.left hstart).bind fun v τ temp hv hτ => ?_
  refine (firstArg_does L hS hτ hv (hop.left.get (k := 0) rfl)).bind fun args τ temp hargs hτ => ?_
  exact hn h.2 hnext hargs (congrArg Nat.succ hstart.height) hstart.dollar hτ

end

end LambdaMoo.Interpreter
