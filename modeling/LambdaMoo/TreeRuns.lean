import LambdaMoo.AsgnRuns

/-! Handlers of errors, and then all expressions: the code of an expression does what it means. -/
namespace LambdaMoo.Interpreter
open Listing CodeGen

variable {W α : Type}

/-! The handlers on the stack. -/

abbrev handlers (arms : List HandlerArm) : List Var := (StackItem.except arms).flat

section

variable {why : Reason} {code value : Var} {arms : List HandlerArm} {arm : HandlerArm} {base : List Var}

theorem length_arms_reverse (arms : List HandlerArm) : (armsFlat arms).reverse.length = 2 * arms.length := by
  rw [List.length_reverse, length_armsFlat]

theorem hasHandler_handlers (code : Var) (arms : List HandlerArm) (rts : List Var) :
    hasHandler code 0 (handlers arms ++ rts) = (arms.any (fun arm => armTakes code arm.codes) || hasHandler code 0 rts) := by
  rw [handlers, StackItem.flat, List.cons_append, hasHandler, armsBelow_flat, ← length_arms_reverse, hasHandler_skip,
    List.any_map]
  rfl

theorem unwindRts_marker (why : Reason) (code value : Var) {goal : Nat} {rts : List Var} (hgoal : goal ≤ rts.length) :
    unwindRts why code value goal 0 (handlers arms ++ rts) =
      if why = .raise then
        match arms.find? fun arm => armTakes code arm.codes with
        | some arm => some (.handler arm.pc (value :: rts))
        | none => unwindRts why code value goal 0 rts
      else unwindRts why code value goal 0 rts := by
  have hlength := length_arms_reverse arms
  have hplains : Passes why code (armsFlat arms).reverse := .plains why code isMarker_armsFlat
  have hplain := hplains value goal rts hgoal
  rw [handlers, StackItem.flat, List.cons_append, unwindRts.eq_def]
  dsimp only
  rw [if_neg (by rw [List.length_append]; omega)]
  by_cases hwhy : why = .raise
  · rw [if_pos hwhy, if_pos hwhy, if_neg (by rw [List.length_append]; omega), armsBelow_flat, List.find?_map]
    have hfind : (arms.find? ((fun arm : Var × Var => armTakes code arm.1) ∘ fun arm => (arm.codes, Var.int arm.pc))) =
        arms.find? fun arm => armTakes code arm.codes := rfl
    rw [hfind]
    cases arms.find? fun arm => armTakes code arm.codes with
    | none =>
        rw [Option.map_none, ← hlength]
        exact unwindRts_skip goal _ rts
    | some arm =>
        rw [Option.map_some, ← hlength, List.drop_left]
        rfl
  · rw [if_neg hwhy, if_neg hwhy, hplain]

theorem Slips.handlers (h : arms.find? (fun arm => armTakes code arm.codes) = none) : Slips code (handlers arms) := by
  refine ⟨fun rts => ?_, fun value goal rts hgoal => ?_, fun value goal rts hgoal => ?_⟩
  · rw [hasHandler_handlers, List.any_eq_false.mpr (List.find?_eq_none.mp h), Bool.false_or]
  · rw [unwindRts_marker _ _ _ hgoal, if_pos rfl, h]
  · rw [unwindRts_marker _ _ _ hgoal, if_neg (by decide)]

end

section

variable {S : Server W} {literals : List Var} {bc : Bytecodes} {m : Machine W} {code : Var} {info base : List Var}
  {arms : List HandlerArm} {arm : HandlerArm} {σ : Memory W}

theorem Raises.taken (h : Raises S literals bc m code info (handlers arms ++ base) σ)
    (harm : arms.find? (fun arm => armTakes code arm.codes) = some arm) :
    ∃ temp, Steps S literals bc false m ⟨⟨arm.pc, .list (code :: info) :: base, σ.env, σ.debug⟩, temp, σ.world⟩ := by
  obtain ⟨n, m', junk, hs, hstep, hrts, hslips, henv, hdebug, hworld⟩ := h
  have hhas : hasHandler code 0 m'.rts = true := by
    have htakes : armTakes code arm.codes = true := List.find?_some (p := fun arm : HandlerArm => armTakes code arm.codes) harm
    rw [hrts, hslips.handler, hasHandler_handlers, List.any_eq_true.mpr ⟨arm, List.mem_of_find?_eq_some harm, htakes⟩,
      Bool.true_or]
  refine ⟨m'.temp, hs.tail ?_⟩
  rw [Goes, advance, hstep, propagate, Server.thrown, hhas, Bool.true_or, if_pos rfl, Next.settle, codeOf, if_pos rfl]
  dsimp only [exitOf]
  rw [hrts, hslips.raise _ _ _ (Nat.zero_le _), unwindRts_marker _ _ _ (Nat.zero_le _), if_pos rfl, harm, ← henv, ← hdebug,
    ← hworld]

theorem Raises.escapes (h : Raises S literals bc m code info (handlers arms ++ base) σ)
    (harm : arms.find? (fun arm => armTakes code arm.codes) = none) : Raises S literals bc m code info base σ :=
  h.below (.handlers harm)

end

/-- The rule for handlers: the machine goes on behind them, or in the one that takes the error. -/
theorem Does.catching {S : Server W} {literals : List Var} {bc : Bytecodes} {m : Machine W} {good : α → Prop}
    {base : List Var} {next next' : α → Memory W → Var → Machine W} {x : Eval W α} {handler : List Var → Eval W α}
    {arm : HandlerArm} {σ : Memory W} (hx : Does S literals bc m good (handlers [arm] ++ base) next (x σ))
    (hnext : ∀ a τ temp, Steps S literals bc false (next a τ temp) (next' a τ temp))
    (hhandler : ∀ tuple τ temp, Plain (.list tuple) → τ.Plain →
      Does S literals bc ⟨⟨arm.pc, .list tuple :: base, τ.env, τ.debug⟩, temp, τ.world⟩ good base next' (handler tuple τ)) :
    Does S literals bc m good base next' (catching x (armTakes · arm.codes) handler σ) := by
  unfold Interpreter.catching
  cases hr : x σ with
  | mk r τ =>
      rw [hr] at hx
      cases r with
      | ok a => exact hx.onward hnext
      | error i =>
          cases i with
          | raise code info =>
              obtain ⟨htuple, hτ, hraises⟩ := hx
              dsimp only
              split
              · next htakes =>
                  obtain ⟨temp, hs⟩ := hraises.taken (by rw [List.find?_cons, htakes])
                  exact (hhandler _ τ temp htuple hτ).after hs
              · next htakes =>
                  exact ⟨htuple, hτ, hraises.escapes (by rw [List.find?_cons, eq_false_of_ne_true htakes, List.find?_nil])⟩
          | _ => exact hx

/-! Catch expressions. -/

theorem endHandlers_goes {literals : List Var} {st : State} {cells : List Cell} (L : Laid st cells literals)
    {i target : Nat} {σ : Memory W} {t : Var} (rts : List Var) (arms : List HandlerArm) (v : Option Var)
    (hlabel : ItemAt cells i (.label target)) (htarget : 0 < target) :
    endHandlers (layout st) v (mach st i (handlers arms ++ rts) σ t) = .goes (mach st target (v.toList ++ rts) σ t) := by
  have hlength := length_arms_reverse arms
  unfold endHandlers
  rw [show (mach st i (handlers arms ++ rts) σ t).pc = finalOffset st i from rfl, L.label hlabel,
    show (mach st i (handlers arms ++ rts) σ t).rts = .catchMarker arms.length :: ((armsFlat arms).reverse ++ rts) from rfl]
  dsimp only
  rw [if_neg (by rw [List.length_append]; omega), if_pos (L.offset_ne_zero htarget hlabel.lt), ← hlength, List.drop_left]
  rfl

theorem endCatch_goes {S : Server W} {literals : List Var} {st : State} {cells : List Cell} (L : Laid st cells literals)
    {i target : Nat} {rts : List Var} {σ : Memory W} {t v : Var} {arm : HandlerArm} (h : ItemAt cells i (.op .extended))
    (heop : ItemAt cells (i + 1) (.eop .endCatch)) (hlabel : ItemAt cells (i + 2) (.label target)) (htarget : 0 < target) :
    Goes S literals (layout st) false (mach st i (v :: (handlers [arm] ++ rts)) σ t) (mach st target (v :: rts) σ t) :=
  goes_of_step ((L.step_eop h heop).trans (endHandlers_goes L rts [arm] (some v) hlabel htarget))

section

variable (S : Server W) (literals : List Var) (st : State) (cells : List Cell)

def ExceptRuns (except : Default) : Prop := ∀ {c : Ctx} {dollar : Option Var} {rts tuple : List Var}
  {σ : Memory W} {temp : Var}, except.admitted dollar.isSome = true → Sits cells c.pos (exceptCode except c c.shape.tail) →
  Plain (.list tuple) → c.shape.length = rts.length + 1 → Dollar c.saved dollar rts → σ.Plain →
  Does S literals (layout st) (mach st c.pos (.list tuple :: rts) σ temp) Plain rts
    (fun v τ temp => mach st (c.pos + exceptSize except) (v :: rts) τ temp)
    (evalExcept (S.located st) (asCompiled literals) except dollar c.pos tuple σ)

end

section

variable {S : Server W} {literals : List Var} {st : State} {cells : List Cell} (L : Laid st cells literals) (hS : S.Behaves)
include L

theorem codes_does {codes : ArgList} (ha : ArgListRuns S literals st cells codes) {c : Ctx}
    {dollar : Option Var} {rts : List Var} {σ : Memory W} {t : Var} (h : codes.admitted dollar.isSome = true)
    (hsits : Sits cells c.pos (codesCode codes c)) (hstart : Starts c dollar rts σ) :
    Does S literals (layout st) (mach st c.pos rts σ t) Plain rts
      (fun v τ temp => mach st (c.pos + codesSize codes) (v :: rts) τ temp)
      ((if codes.isNil then pure zero else evalArgList (S.located st) (asCompiled literals) codes dollar c.pos : Eval W Var) σ) := by
  unfold codesCode at hsits
  unfold codesSize
  split
  · next hnil =>
      rw [if_pos hnil] at hsits
      exact ⟨rfl, hstart.plain, t, .single (number_goes L (by decide) (hsits.get (k := 0) rfl))⟩
  · next hnil =>
      rw [if_neg hnil] at hsits
      exact ha h hsits hstart

include hS

theorem noExcept_runs : ExceptRuns S literals st cells .none := by
  intro c dollar rts tuple σ temp _ hsits htuple _ _ hσ
  rw [exceptCode] at hsits
  rw [evalExcept, exceptSize]
  refine Does.after (.single (number_goes L (by decide) (hsits.get (k := 0) rfl))) ?_
  exact (op_does L hS hσ (hsits.get (k := 1) rfl) rfl (opRef_plain htuple) rfl).forget

omit hS in
theorem except_runs {expr : Expr} (he : ExprRuns S literals st cells expr) : ExceptRuns S literals st cells (.some expr) := by
  intro c dollar rts tuple σ temp h hsits _ hheight hdollar hσ
  rw [Default.admitted] at h
  rw [exceptCode] at hsits
  rw [evalExcept, exceptSize, ← Nat.add_assoc]
  refine Does.after (.single (pop_goes L (hsits.get (k := 0) rfl))) ?_
  have hexpr : Sits cells (c.pos + 1) _ := (List.singleton_append ▸ hsits : Sits cells c.pos ([c.op .pop] ++ _)).next rfl
  refine he h hexpr ⟨?_, hdollar, hσ⟩
  change c.shape.tail.length = rts.length
  rw [List.length_tail, hheight, Nat.add_sub_cancel]

omit L hS in
theorem evalExpr_catch (R : Reading) (body : Expr) (codes : ArgList) (except : Default) (dollar : Option Var) (place : Nat) :
    evalExpr S R (.catch_ body codes except) dollar place =
      ((if codes.isNil then pure zero else evalArgList S R codes dollar place) >>= fun cs =>
        catching (evalExpr S R body dollar (place + codesSize codes + 3 + 2)) (armTakes · cs) fun tuple =>
          evalExcept S R except dollar (place + codesSize codes + 3 + 2 + exprSize body + 3) tuple) := by
  rw [evalExpr]
  dsimp only [codesSize]
  split <;> rfl

omit hS in
theorem catch_runs {body : Expr} {codes : ArgList} {except : Default} (hb : ExprRuns S literals st cells body)
    (hc : ArgListRuns S literals st cells codes) (he : ExceptRuns S literals st cells except) :
    ExprRuns S literals st cells (.catch_ body codes except) := by
  intro c dollar rts σ temp h hsits hstart
  rw [Expr.admitted, Bool.and_eq_true, Bool.and_eq_true] at h
  rw [exprCode] at hsits
  simp only [List.append_assoc] at hsits
  have hlabel := hsits.next (codesCode_length codes c)
  have hcatch := (hlabel.next (k := 2) rfl).next (k := 1) rfl
  have hbody := hcatch.next (k := 2) rfl
  have hend := hbody.next (exprCode_length body _)
  have hexcept := (hend.next (k := 2) rfl).next (k := 1) rfl
  rw [evalExpr_catch]
  refine (codes_does L hc h.1.2 hsits.left hstart).bind fun cs τ temp hcs hτ => ?_
  let arm : HandlerArm := ⟨cs, finalOffset st (c.pos + codesSize codes + 5 + exprSize body + 3), hcs.isMarker⟩
  have hpush : Goes S literals (layout st) false (mach st (c.pos + codesSize codes) (cs :: rts) τ temp)
      (mach st (c.pos + codesSize codes + 3) (.int arm.pc :: cs :: rts) τ temp) :=
    label_goes L rfl (hlabel.left.get (k := 0) rfl) (hlabel.left.get (k := 1) rfl) ((hlabel.next (k := 2) rfl).left.get (k := 0) rfl)
  have hmark : Goes S literals (layout st) false (mach st (c.pos + codesSize codes + 3) (.int arm.pc :: cs :: rts) τ temp)
      (mach st (c.pos + codesSize codes + 3 + 2) (handlers [arm] ++ rts) τ temp) :=
    goes_of_step (L.step_eop (hcatch.left.get (k := 0) rfl) (hcatch.left.get (k := 1) rfl))
  have hsize : c.pos + exprSize (.catch_ body codes except) =
      c.pos + codesSize codes + 3 + 2 + exprSize body + 3 + exceptSize except := by
    rw [exprSize, ← codesSize]
    omega
  rw [hsize]
  refine Does.after (.tail (.single hpush) hmark) (Does.catching (hb h.1.1 hbody.left ?_) ?_ ?_)
  · exact hstart.push hτ (handlers [arm]) [.catch_ 1, .label _, .value] rfl rfl rfl
  · intro v τ temp
    exact .single (endCatch_goes L (hend.left.get (k := 0) rfl) (hend.left.get (k := 1) rfl)
      ((hend.next (k := 2) rfl).left.get (k := 0) rfl) (by omega))
  · intro tuple τ temp htuple hτ
    exact he h.2 hexcept htuple (congrArg Nat.succ hstart.height) hstart.dollar hτ

end

/-! All trees. -/

section

variable {S : Server W} {literals : List Var} {st : State} {cells : List Cell} (L : Laid st cells literals) (hS : S.Behaves)
include L hS

set_option linter.unusedSectionVars false in
mutual
theorem exprCode_runs : ∀ e : Expr, ExprRuns S literals st cells e
  | .var u => var_runs L u
  | .id slot => id_runs L hS slot
  | .logic _ lhs rhs => logic_runs L (exprCode_runs lhs) (exprCode_runs rhs)
  | .unary _ expr => unary_runs L hS (exprCode_runs expr)
  | .binary _ lhs rhs => binary_runs L hS (exprCode_runs lhs) (exprCode_runs rhs)
  | .prop lhs rhs => prop_runs L hS (exprCode_runs lhs) (exprCode_runs rhs)
  | .index lhs rhs => index_runs L hS (exprCode_runs lhs) (exprCode_runs rhs)
  | .range base lower upper => range_runs L hS (exprCode_runs base) (exprCode_runs lower) (exprCode_runs upper)
  | .length => length_runs L hS
  | .list args => list_runs (argListCode_runs args)
  | .call _ args => call_runs L hS (argListCode_runs args)
  | .verb obj verb args => verb_runs L hS (exprCode_runs obj) (exprCode_runs verb) (argListCode_runs args)
  | .cond condition consequent alternate =>
      cond_runs L (exprCode_runs condition) (exprCode_runs consequent) (exprCode_runs alternate)
  | .asgn lhs rhs => by
      cases hs : lhs.isScatter with
      | false => exact asgn_runs L hS hs (lvalueCode_runs lhs) (exprCode_runs rhs)
      | true =>
          obtain ⟨targets, rfl⟩ : ∃ targets, lhs = .scatter targets := by
            cases lhs <;> first | exact ⟨_, rfl⟩ | cases hs
          exact scatter_runs L hS (defaultsCode_runs targets) (exprCode_runs rhs)
  | .catch_ body codes except =>
      catch_runs L (exprCode_runs body) (argListCode_runs codes) (exceptCode_runs except)
  | .scatter _ => fun h => absurd h Bool.false_ne_true
theorem exceptCode_runs : ∀ e : Default, ExceptRuns S literals st cells e
  | .some expr => except_runs L (exprCode_runs expr)
  | .none => noExcept_runs L hS
theorem defaultsCode_runs : ∀ targets : Scatter, DefaultsRuns S literals st cells targets
  | .nil => noDefaults_runs
  | .cons .optional _ (.some expr) next => default_runs L (exprCode_runs expr) (defaultsCode_runs next)
  | .cons .optional _ .none next => noDefault_runs (defaultsCode_runs next)
  | .cons .required _ _ next => noOptional_runs ScatterKind.noConfusion (defaultsCode_runs next)
  | .cons .rest _ _ next => noOptional_runs ScatterKind.noConfusion (defaultsCode_runs next)
theorem argListCode_runs : ∀ args : ArgList, ArgListRuns S literals st cells args
  | .nil => noArgs_runs L
  | .cons _ expr next => argList_runs L hS (exprCode_runs expr) (argsCode_runs next)
theorem argsCode_runs : ∀ args : ArgList, ArgsRuns S literals st cells args
  | .nil => noMoreArgs_runs
  | .cons _ expr next => args_runs L hS (exprCode_runs expr) (argsCode_runs next)
theorem lvalueCode_runs : ∀ lhs : Expr, TargetRuns S literals st cells lhs
  | .id slot => idTarget_runs slot
  | .prop lhs rhs => propTarget_runs (exprCode_runs lhs) (exprCode_runs rhs)
  | .index lhs rhs => indexTarget_runs L hS (lvalueCode_runs lhs) (exprCode_runs rhs)
  | .range lhs lower upper => rangeTarget_runs L hS (lvalueCode_runs lhs) (exprCode_runs lower) (exprCode_runs upper)
  | .var _ | .logic _ _ _ | .unary _ _ | .binary _ _ _ | .length | .list _ | .call _ _
  | .verb _ _ _ | .cond _ _ _ | .asgn _ _ | .catch_ _ _ _ | .scatter _ => fun _ hl => absurd hl Bool.false_ne_true
end

end

end LambdaMoo.Interpreter
