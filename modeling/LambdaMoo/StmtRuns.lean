import LambdaMoo.StmtMeaning
import LambdaMoo.TreeRuns

/-! Runs over the code of statements, up to the loops. -/
namespace LambdaMoo.Interpreter
open Listing CodeGen

variable {W α : Type}

section

variable (S : Server W) (literals : List Var) (bc : Bytecodes)

/-- `run` looks at the ticks for the opcode. -/
def Ticks (bc : Bytecodes) (m : Machine W) : Prop := ∃ b ∈ bc.vector[m.pc]?, countTick (Opcode.ofByte b) = true

/-- Such an opcode, or any at all if `all` says so, as long as it stands alone. -/
def Counts (all : Bool) (bc : Bytecodes) (m : Machine W) : Prop := Alone bc m ∧ (all = true ∨ Ticks bc m)

/-- The activation goes on for so many of the opcodes that count. -/
inductive Stays (fast all : Bool) : Nat → Machine W → Prop
  | none (m : Machine W) : Stays fast all 0 m
  | free {k : Nat} {m n : Machine W} : Goes S literals bc fast m n → Stays fast all k n → Stays fast all k m
  | counted {k : Nat} {m n : Machine W} :
      Counts all bc m → Goes S literals bc fast m n → Stays fast all k n → Stays fast all (k + 1) m

/-- The stack is unwound for this reason, over a part of it that stops nothing. -/
def Unwinds (m : Machine W) (why : Reason) (v : Var) (base : List Var) (σ : Memory W) : Prop :=
  ∃ n m' junk, Steps S literals bc false m n ∧ step S literals bc false n = .unwinds why v m' ∧
    m'.rts = junk ++ base ∧ Passes why zero junk ∧ m'.env = σ.env ∧ m'.debug = σ.debug ∧ m'.world = σ.world

/-- The operand of the unwinding that leaves a loop, or goes on with it. -/
def exitValue (st : State) (leave : Bool) (loop : LoopCtx) : Var :=
  if leave then .list [.int loop.bottomStack, .int (finalOffset st loop.bottom)]
  else .list [.int loop.topStack, .int (finalOffset st loop.top)]

/-- The machine comes to what a statement comes to, or goes on for as many opcodes as there are rounds. -/
def Runs (st : State) (all : Bool) (fuel : Nat) (m : Machine W) (base : List Var) (loops : List LoopCtx)
    (falls : Memory W → Var → Machine W) : Except Interrupt Flow × Memory W → Prop
  | (.ok .falls, σ) => σ.Plain ∧ ∃ temp, Steps S literals bc false m (falls σ temp)
  | (.ok (.exits leave exit), σ) => σ.Plain ∧ ∃ loop, exitLoopCtx exit loops = some loop ∧
      Unwinds S literals bc m .exit (exitValue st leave loop) base σ
  | (.ok (.returns v), σ) => Plain v ∧ σ.Plain ∧ Unwinds S literals bc m .return_ v base σ
  | (.error (.raise code info), σ) =>
      Plain (.list (code :: info)) ∧ σ.Plain ∧ Raises S literals bc m code info base σ
  | (.error .stops, _) => ∃ n, Steps S literals bc false m n ∧ step S literals bc false n = .stops
  | (.error .undefined, _) => Breaks S literals bc false m
  | (.error .tires, _) => Stays S literals bc false all fuel m

end

variable {S : Server W} {literals : List Var} {bc : Bytecodes} {st : State} {m n : Machine W} {base : List Var}
  {loops : List LoopCtx} {falls falls' : Memory W → Var → Machine W} {σ : Memory W} {all : Bool} {fuel k : Nat}

theorem Stays.after {fast : Bool} (hs : Steps S literals bc fast m n) (h : Stays S literals bc fast all k n) :
    Stays S literals bc fast all k m := by
  induction hs using Relation.ReflTransGen.head_induction_on with
  | refl => exact h
  | head hgoes _ ih => exact .free hgoes ih

theorem Stays.less {fast : Bool} {k' : Nat} (hle : k ≤ k') (h : Stays S literals bc fast all k' m) :
    Stays S literals bc fast all k m := by
  induction h generalizing k with
  | none m => exact Nat.le_zero.mp hle ▸ .none m
  | free hgoes _ ih => exact .free hgoes (ih hle)
  | counted hcounts hgoes _ ih =>
      cases k with
      | zero => exact .none _
      | succ k => exact .counted hcounts hgoes (ih (Nat.le_of_succ_le_succ hle))

theorem Unwinds.after {why : Reason} {v : Var} (hs : Steps S literals bc false m n) (h : Unwinds S literals bc n why v base σ) :
    Unwinds S literals bc m why v base σ := by
  obtain ⟨k, m', junk, hk, rest⟩ := h
  exact ⟨k, m', junk, hs.trans hk, rest⟩

theorem Unwinds.below {why : Reason} {v : Var} {more : List Var} (hmore : Passes why zero more)
    (h : Unwinds S literals bc m why v (more ++ base) σ) : Unwinds S literals bc m why v base σ := by
  obtain ⟨k, m', junk, hk, hstep, hrts, hpasses, rest⟩ := h
  refine ⟨k, m', junk ++ more, hk, hstep, ?_, hpasses.append hmore, rest⟩
  rw [hrts, List.append_assoc]

namespace Runs

variable {r : Except Interrupt Flow × Memory W}

theorem after (hs : Steps S literals bc false m n) (h : Runs S literals bc st all fuel n base loops falls r) :
    Runs S literals bc st all fuel m base loops falls r := by
  obtain ⟨r, τ⟩ := r
  cases r with
  | ok flow =>
      cases flow with
      | falls =>
          obtain ⟨hτ, temp, h⟩ := h
          exact ⟨hτ, temp, hs.trans h⟩
      | exits leave exit =>
          obtain ⟨hτ, loop, hloop, h⟩ := h
          exact ⟨hτ, loop, hloop, h.after hs⟩
      | returns v =>
          obtain ⟨hv, hτ, h⟩ := h
          exact ⟨hv, hτ, h.after hs⟩
  | error i =>
      cases i with
      | raise code info =>
          obtain ⟨htuple, hτ, h⟩ := h
          exact ⟨htuple, hτ, h.after hs⟩
      | stops =>
          obtain ⟨k, hk, hstop⟩ := h
          exact ⟨k, hs.trans hk, hstop⟩
      | undefined => exact Breaks.after hs h
      | tires => exact Stays.after hs h

theorem onward (h : Runs S literals bc st all fuel m base loops falls r)
    (hfalls : ∀ τ temp, Steps S literals bc false (falls τ temp) (falls' τ temp)) :
    Runs S literals bc st all fuel m base loops falls' r := by
  obtain ⟨r, τ⟩ := r
  cases r with
  | ok flow =>
      cases flow with
      | falls =>
          obtain ⟨hτ, temp, h⟩ := h
          exact ⟨hτ, temp, h.trans (hfalls τ temp)⟩
      | _ => exact h
  | error i => cases i <;> exact h

theorem ofDoes {good : α → Prop} {next : α → Memory W → Var → Machine W} {x : Eval W α} {f : α → Eval W Flow}
    (hx : Does S literals bc m good base next (x σ))
    (hf : ∀ a τ temp, good a → τ.Plain → Runs S literals bc st all fuel (next a τ temp) base loops falls (f a τ)) :
    Runs S literals bc st all fuel m base loops falls ((x >>= f) σ) := by
  cases hr : x σ with
  | mk r τ =>
      rw [hr] at hx
      cases r with
      | ok a =>
          obtain ⟨ha, hτ, temp, hs⟩ := hx
          rw [bind_ok hr]
          exact (hf a τ temp ha hτ).after hs
      | error i =>
          rw [bind_error hr]
          cases i with
          | tires => exact hx.elim
          | _ => exact hx

theorem followed {x y : Eval W Flow} (hx : Runs S literals bc st all fuel m base loops falls (x σ))
    (hy : ∀ τ temp, τ.Plain → Runs S literals bc st all fuel (falls τ temp) base loops falls' (y τ)) :
    Runs S literals bc st all fuel m base loops falls' (Interpreter.followed x y σ) := by
  unfold Interpreter.followed
  cases hr : x σ with
  | mk r τ =>
      rw [hr] at hx
      cases r with
      | ok flow =>
          rw [bind_ok hr]
          cases flow with
          | falls =>
              obtain ⟨hτ, temp, hs⟩ := hx
              exact (hy τ temp hτ).after hs
          | _ => exact hx
      | error i =>
          rw [bind_error hr]
          cases i <;> exact hx

theorem below {l : List Var} (hl : ∀ v ∈ l, v.isMarker = false)
    (h : Runs S literals bc st all fuel m (l ++ base) loops falls r) : Runs S literals bc st all fuel m base loops falls r := by
  obtain ⟨r, τ⟩ := r
  cases r with
  | ok flow =>
      cases flow with
      | falls => exact h
      | exits leave exit =>
          obtain ⟨hτ, loop, hloop, h⟩ := h
          exact ⟨hτ, loop, hloop, h.below (.plains _ _ hl)⟩
      | returns v =>
          obtain ⟨hv, hτ, h⟩ := h
          exact ⟨hv, hτ, h.below (.plains _ _ hl)⟩
  | error i =>
      cases i with
      | raise code info =>
          obtain ⟨htuple, hτ, h⟩ := h
          exact ⟨htuple, hτ, h.below (.plains code hl)⟩
      | _ => exact h

end Runs

/-! Statements. -/

mutual
/-- No `try` has 256 handlers: there is one byte for their number. If not all opcodes count, no `while` has a name:
the opcode of those that have one does not. -/
def fits (all : Bool) : Stmt → Bool
  | .cond arms otherwise => fitsArms all arms && fitsAll all otherwise
  | .list _ _ body | .range _ _ _ body | .fork _ _ body => fitsAll all body
  | .while_ id _ body => (all || id.isNone) && fitsAll all body
  | .tryExcept body excepts => decide (excepts.count < 256) && fitsAll all body && fitsExcepts all excepts
  | .tryFinally body handler => fitsAll all body && fitsAll all handler
  | .expr _ | .return_ _ | .break_ _ | .continue_ _ => true
def fitsAll (all : Bool) : Stmts → Bool
  | .nil => true
  | .cons stmt next => fits all stmt && fitsAll all next
def fitsArms (all : Bool) : CondArm → Bool
  | .nil => true
  | .cons _ stmt next => fitsAll all stmt && fitsArms all next
def fitsExcepts (all : Bool) : ExceptArm → Bool
  | .nil => true
  | .cons _ _ stmt next => fitsAll all stmt && fitsExcepts all next
end

/-- Where the code of a statement starts: with a stack as high as the generator has it, over those that the loops
around are left to. -/
structure Enters (c : StmtCtx) (rts : List Var) (σ : Memory W) : Prop where
  height : c.shape.length = rts.length
  loops : ∀ loop ∈ c.loops, loop.bottomStack ≤ rts.length ∧ loop.topStack ≤ rts.length
  plain : σ.Plain

section

variable (S : Server W) (literals : List Var) (st : State) (cells : List Cell) (all : Bool) (fuel : Nat)

def StmtRuns (s : Stmt) : Prop := ∀ {c : StmtCtx} {rts : List Var} {σ : Memory W} {temp : Var},
  s.admitted (c.loops.map (·.id)) = true → fits all s = true → Sits cells c.pos (stmtCode s c) → Enters c rts σ →
  Runs S literals (layout st) st all fuel (mach st c.pos rts σ temp) rts c.loops
    (fun τ temp => mach st (c.pos + stmtSize s) rts τ temp) (exec (S.located st) (asCompiled literals) fuel s c.pos c.forks σ)

def StmtsRun (s : Stmts) : Prop := ∀ {c : StmtCtx} {rts : List Var} {σ : Memory W} {temp : Var},
  s.admitted (c.loops.map (·.id)) = true → fitsAll all s = true → Sits cells c.pos (stmtsCode s c) → Enters c rts σ →
  Runs S literals (layout st) st all fuel (mach st c.pos rts σ temp) rts c.loops
    (fun τ temp => mach st (c.pos + stmtsSize s) rts τ temp) (execAll (S.located st) (asCompiled literals) fuel s c.pos c.forks σ)

/-- The arms of a conditional, with what comes of it where none of them is taken. -/
def ArmsRun (arms : CondArm) : Prop := ∀ {c : StmtCtx} {rts : List Var} {σ : Memory W} {temp : Var} {ifOp : Opcode}
  {stop : Nat} {otherwise : Eval W Flow}, IsTest ifOp → arms.admitted (c.loops.map (·.id)) = true →
  fitsArms all arms = true → Sits cells c.pos (armsCode arms ifOp stop c) → Enters c rts σ → 0 < stop →
  (∀ τ temp, τ.Plain → Runs S literals (layout st) st all fuel (mach st (c.pos + armsSize arms) rts τ temp) rts c.loops
    (fun τ temp => mach st stop rts τ temp) (otherwise τ)) →
  Runs S literals (layout st) st all fuel (mach st c.pos rts σ temp) rts c.loops
    (fun τ temp => mach st stop rts τ temp) (execArms (S.located st) (asCompiled literals) fuel arms c.pos c.forks otherwise σ)

end

theorem ExprRuns.outside {cells : List Cell} {e : Expr} (he : ExprRuns S literals st cells e) {c : Ctx} {rts : List Var}
    {temp : Var} (h : e.admitted false = true) (hsits : Sits cells c.pos (exprCode e c)) (hstart : Starts c none rts σ) :
    Does S literals (layout st) (mach st c.pos rts σ temp) Plain rts
      (fun v τ temp => mach st (c.pos + exprSize e) (v :: rts) τ temp) (evalExpr (S.located st) (asCompiled literals) e none c.pos σ) :=
  he h hsits hstart

theorem Enters.starts {c : StmtCtx} {c' : Ctx} {rts : List Var} {τ : Memory W} (h : Enters c rts σ) (hτ : τ.Plain)
    (hshape : c'.shape = c.shape) : Starts c' none rts τ :=
  ⟨hshape ▸ h.height, fun _ hv => absurd hv (Option.not_mem_none _), hτ⟩

section

variable {cells : List Cell} (L : Laid st cells literals) (hS : S.Behaves)

theorem eopExit_eq {i goal target : Nat} (rts : List Var) (σ : Memory W) (t : Var) (L : Laid st cells literals)
    (hgoal : ItemAt cells i (.stack goal)) (htarget : ItemAt cells (i + 1) (.label target)) {pc : Nat}
    (hpc : pc = finalOffset st i) : eopExit (layout st) { mach st i rts σ t with pc := pc } =
      .unwinds .exit (.list [.int goal, .int (finalOffset st target)]) { mach st i rts σ t with pc := pc } := by
  unfold eopExit
  dsimp only
  rw [hpc, L.stackRef hgoal]
  dsimp only
  rw [L.label htarget]

theorem exit_step {i goal target : Nat} {exit : Option Nat} {c : Ctx} {rts : List Var} (σ : Memory W) (t : Var)
    (L : Laid st cells literals) (h : Sits cells i (c.exit exit ++ [c.item (.stack goal), c.item (.label target)])) :
    ∃ m' : Machine W, step S literals (layout st) false (mach st i rts σ t) =
        .unwinds .exit (.list [.int goal, .int (finalOffset st target)]) m' ∧
      m'.rts = rts ∧ m'.env = σ.env ∧ m'.debug = σ.debug ∧ m'.world = σ.world := by
  cases exit with
  | none =>
      have hstep : step S literals (layout st) false (mach st i rts σ t) = eopExit (layout st) (mach st (i + 2) rts σ t) :=
        L.step_eop (h.left.get (k := 0) rfl) (h.left.get (k := 1) rfl)
      have hexit := eopExit_eq rts σ t L ((h.next (k := 2) rfl).get (k := 0) rfl)
        ((h.next (k := 2) rfl).get (k := 1) rfl) rfl
      exact ⟨_, hstep.trans hexit, rfl, rfl, rfl, rfl⟩
  | some id =>
      have hstep : step S literals (layout st) false (mach st i rts σ t) = eopExitId (layout st) (mach st (i + 2) rts σ t) :=
        L.step_eop (h.left.get (k := 0) rfl) (h.left.get (k := 1) rfl)
      have hexit := eopExit_eq rts σ t L ((h.next (k := 3) rfl).get (k := 0) rfl)
        ((h.next (k := 3) rfl).get (k := 1) rfl) rfl
      unfold eopExitId at hstep
      rw [show (mach st (i + 2) rts σ t).pc = finalOffset st (i + 2) from rfl, L.varRef (h.left.get (k := 2) rfl)] at hstep
      exact ⟨_, hstep.trans hexit, rfl, rfl, rfl, rfl⟩

include L

theorem expr_stmt_runs {expr : Expr} (he : ExprRuns S literals st cells expr) :
    StmtRuns S literals st cells all fuel (.expr expr) := by
  intro c rts σ temp h _ hsits hstart
  rw [Stmt.admitted] at h
  rw [stmtCode] at hsits
  rw [exec, stmtSize, ← Nat.add_assoc]
  have hpop := hsits.next (exprCode_length expr _)
  refine .ofDoes (he.outside h hsits.left (hstart.starts hstart.plain rfl)) fun v τ temp _ hτ => ?_
  exact ⟨hτ, temp, .single (pop_goes L (hpop.get (k := 0) rfl))⟩

theorem return_runs {expr : Expr} (he : ExprRuns S literals st cells expr) :
    StmtRuns S literals st cells all fuel (.return_ (.some expr)) := by
  intro c rts σ temp h _ hsits hstart
  rw [Stmt.admitted, Default.admitted] at h
  rw [stmtCode] at hsits
  rw [exec]
  have hop := hsits.next (exprCode_length expr _)
  refine .ofDoes (he.outside h hsits.left (hstart.starts hstart.plain rfl)) fun v τ temp hv hτ => ?_
  exact ⟨hv, hτ, _, _, [], .refl, L.step_op (hop.get (k := 0) rfl), rfl, .nil _ _, rfl, rfl, rfl⟩

theorem return0_runs : StmtRuns S literals st cells all fuel (.return_ .none) := by
  intro c rts σ temp _ _ hsits hstart
  rw [stmtCode] at hsits
  rw [exec]
  exact ⟨rfl, hstart.plain, _, _, [], .refl, L.step_op (hsits.get (k := 0) rfl), rfl, .nil _ _, rfl, rfl, rfl⟩

theorem exits_run {i goal target : Nat} {leave : Bool} {exit : Option Nat} {c : Ctx} {rts : List Var} {t : Var} {loop : LoopCtx}
    (hσ : σ.Plain) (hloop : exitLoopCtx exit loops = some loop)
    (hvalue : exitValue st leave loop = .list [.int goal, .int (finalOffset st target)])
    (h : Sits cells i (c.exit exit ++ [c.item (.stack goal), c.item (.label target)])) :
    Runs S literals (layout st) st all fuel (mach st i rts σ t) rts loops falls (.ok (.exits leave exit), σ) := by
  obtain ⟨m', hstep, hrts, henv, hdebug, hworld⟩ := exit_step (S := S) σ t L h
  exact ⟨hσ, loop, hloop, _, m', [], .refl, hvalue ▸ hstep, hrts, .nil _ _, henv, hdebug, hworld⟩

theorem break_runs (exit : Option Nat) : StmtRuns S literals st cells all fuel (.break_ exit) := by
  intro c rts σ temp h _ hsits hstart
  rw [Stmt.admitted] at h
  obtain ⟨loop, hloop⟩ := Option.isSome_iff_exists.mp (exitLoopCtx_isSome h)
  rw [stmtCode, hloop] at hsits
  rw [exec]
  exact exits_run L hstart.plain hloop rfl hsits

theorem continue_runs (exit : Option Nat) : StmtRuns S literals st cells all fuel (.continue_ exit) := by
  intro c rts σ temp h _ hsits hstart
  rw [Stmt.admitted] at h
  obtain ⟨loop, hloop⟩ := Option.isSome_iff_exists.mp (exitLoopCtx_isSome h)
  rw [stmtCode, hloop] at hsits
  rw [exec]
  exact exits_run L hstart.plain hloop rfl hsits

/-! Sequences and conditionals. -/

omit L in
theorem noStmts_run : StmtsRun S literals st cells all fuel .nil := by
  intro c rts σ temp _ _ _ hstart
  exact ⟨hstart.plain, temp, .refl⟩

omit L in
theorem stmts_run {s : Stmt} {next : Stmts} (hs : StmtRuns S literals st cells all fuel s)
    (hn : StmtsRun S literals st cells all fuel next) : StmtsRun S literals st cells all fuel (.cons s next) := by
  intro c rts σ temp h hfit hsits hstart
  rw [Stmts.admitted, Bool.and_eq_true] at h
  rw [fitsAll, Bool.and_eq_true] at hfit
  rw [stmtsCode] at hsits
  rw [execAll, stmtsSize, ← Nat.add_assoc]
  have hnext := hsits.next (stmtCode_length s c h.1)
  exact (hs h.1 hfit.1 hsits.left hstart).followed fun τ temp hτ =>
    hn (c := { c.go (stmtSize s) c.shape with forks := c.forks + stmtForks s }) h.2 hfit.2 hnext
      ⟨hstart.height, hstart.loops, hτ⟩

omit L in
theorem noArms_run : ArmsRun S literals st cells all fuel .nil := by
  intro c rts σ temp ifOp stop otherwise _ _ _ _ hstart _ hotherwise
  exact hotherwise σ temp hstart.plain

theorem arms_run {condition : Expr} {stmt : Stmts} {next : CondArm} (hc : ExprRuns S literals st cells condition)
    (hs : StmtsRun S literals st cells all fuel stmt) (hn : ArmsRun S literals st cells all fuel next) :
    ArmsRun S literals st cells all fuel (.cons condition stmt next) := by
  intro c rts σ temp ifOp stop otherwise hop h hfit hsits hstart hstop hotherwise
  simp only [CondArm.admitted, Bool.and_eq_true] at h
  rw [fitsArms, Bool.and_eq_true] at hfit
  rw [armsCode] at hsits
  simp only [List.append_assoc] at hsits
  have htest := hsits.next (exprCode_length condition _)
  have hstmt := htest.next (k := 2) rfl
  have hjump := hstmt.next (stmtsCode_length stmt _ h.1.2)
  have hnext := hjump.next (k := 2) rfl
  rw [armsSize] at hotherwise
  simp only [← Nat.add_assoc] at hotherwise
  rw [execArms]
  refine .ofDoes (hc.outside h.1.1 hsits.left (hstart.starts hstart.plain rfl)) fun v τ temp _ hτ => ?_
  have hgoes : Goes S literals (layout st) false (mach st _ (v :: rts) τ temp) _ :=
    test_goes L hop (htest.left.get (k := 0) rfl) (htest.left.get (k := 1) rfl) (Nat.succ_pos _)
  cases hv : v.isTrue with
  | true =>
      rw [hv, if_pos rfl] at hgoes
      rw [if_pos rfl]
      refine Runs.after (.single hgoes) ((hs (c := (c.go (exprSize condition) (.value :: c.shape)).go 2 c.shape) h.1.2 hfit.1
        hstmt.left ⟨hstart.height, hstart.loops, hτ⟩).onward fun τ temp => ?_)
      exact .single (jump_goes L (hjump.left.get (k := 0) rfl) (hjump.left.get (k := 1) rfl) hstop)
  | false =>
      rw [hv, if_neg Bool.false_ne_true] at hgoes
      rw [if_neg Bool.false_ne_true]
      exact Runs.after (.single hgoes) (hn (c := { ((c.go (exprSize condition) (.value :: c.shape)).go 2 c.shape).go
        (stmtsSize stmt) c.shape |>.go 2 c.shape with forks := c.forks + stmtsForks stmt }) (.inr (.inr (.inr rfl))) h.2 hfit.2
        hnext ⟨hstart.height, hstart.loops, hτ⟩ hstop hotherwise)

omit L in
theorem cond_stmt_runs {arms : CondArm} {otherwise : Stmts} (ha : ArmsRun S literals st cells all fuel arms)
    (ho : StmtsRun S literals st cells all fuel otherwise) : StmtRuns S literals st cells all fuel (.cond arms otherwise) := by
  intro c rts σ temp h hfit hsits hstart
  simp only [Stmt.admitted, Bool.and_eq_true] at h
  rw [fits, Bool.and_eq_true] at hfit
  rw [stmtCode] at hsits
  have hotherwise := hsits.next (armsCode_length arms _ _ c h.1.2)
  have hstop : 0 < c.pos + armsSize arms + stmtsSize otherwise := by
    cases arms with
    | nil => simp [CondArm.isNil] at h
    | cons => simp only [armsSize]; omega
  rw [exec, stmtSize, ← Nat.add_assoc]
  refine ha (.inl rfl) h.1.2 hfit.1 hsits.left hstart hstop fun τ temp hτ => ?_
  exact ho (c := { c.go (armsSize arms) c.shape with forks := c.forks + armsForks arms }) h.2 hfit.2 hotherwise
    ⟨hstart.height, hstart.loops, hτ⟩

/-! Forks. -/

include hS

omit L in
theorem does_failing {i j : Nat} {good : α → Prop} {next : α → Memory W → Var → Machine W} {l : List Var} {t : Var} {e : Error}
    {x : Eval W α} (hσ : σ.Plain) (hl : ∀ v ∈ l, v.isMarker = false)
    (h : step S literals (layout st) false n = raiseOr S (finalOffset st i) e (mach st j (l ++ base) σ t) m)
    (hx : Does S literals (layout st) m good base next (x σ)) :
    Does S literals (layout st) n good base next (failing (S.located st) i e x σ) := by
  unfold failing
  unfold raiseOr at h
  by_cases hdebug : σ.debug = true
  · rw [show (mach st j (l ++ base) σ t).debug = σ.debug from rfl, if_pos hdebug] at h
    have hfail : fail (S.located st) i e σ =
        (.error (.raise (.err e) [.str (S.unparseError e), zero, (S.located st).makeStackList i σ.world]), σ) := if_pos hdebug
    rw [bind_error hfail]
    exact (does_raise hS hσ (plain_err e) plain_zero h).below hl
  · rw [show (mach st j (l ++ base) σ t).debug = σ.debug from rfl, if_neg hdebug] at h
    have hfail : fail (S.located st) i e σ = (.ok (.err e), σ) := if_neg hdebug
    rw [bind_ok hfail]
    exact hx.after (.single (goes_of_step h))

theorem fork_does {i index : Nat} {id : Option Nat} {c : Ctx} {rts : List Var} {t v : Var} (hσ : σ.Plain)
    (h : Sits cells i (c.op (if id.isSome then .forkWithId else .fork) :: c.item (.fork index) ::
      id.toList.map fun id => c.item (.varRef id))) :
    Does S literals (layout st) (mach st i (v :: rts) σ t) (fun _ => True) rts
      (fun _ τ temp => mach st (i + 2 + if id.isSome then 1 else 0) rts τ temp) (fork (S.located st) i id index v σ) := by
  have hstep : step S literals (layout st) false (mach st i (v :: rts) σ t) =
      opForkAt S (layout st) (finalOffset st i) id.isSome (mach st (i + 1) (v :: rts) σ t) := by
    refine (L.step_op (h.get (k := 0) rfl)).trans ?_
    cases id <;> rfl
  have hforked : step S literals (layout st) false (mach st i (v :: rts) σ t) =
      forked S (finalOffset st i) index id v (mach st (i + 2 + if id.isSome then 1 else 0) rts σ t) := by
    refine hstep.trans ?_
    unfold opForkAt
    rw [show (mach st (i + 1) (v :: rts) σ t).pc = finalOffset st (i + 1) from rfl, L.forkRef (h.get (k := 1) rfl)]
    cases id with
    | none => rfl
    | some id =>
        dsimp only [mach, Option.isSome]
        rw [if_pos rfl, L.varRef (h.get (k := 2) rfl)]
        rfl
  have halone : Alone (layout st) (mach st i (v :: rts) σ t) := L.alone (h.get (k := 0) rfl) (by cases id <;> rfl)
  unfold forked at hforked
  unfold fork
  rw [show (mach st (i + 2 + if id.isSome then 1 else 0) rts σ t).world = σ.world from rfl] at hforked
  rw [around_bind, show (S.located st).around = S.around from rfl]
  cases hr : opFork (S.around σ.world) v with
  | error =>
      rw [hr] at hforked
      exact ⟨_, .refl, halone, .inl hforked⟩
  | ok a =>
      rw [hr] at hforked
      cases a with
      | raise e => exact does_failing hS hσ (l := []) (fun _ hv => absurd hv List.not_mem_nil) hforked (Does.pure trivial hσ rfl)
      | keep =>
          cases v with
          | int k =>
              have hgoes := goes_of_step hforked
              cases id with
              | none => exact ⟨trivial, hσ, t, .single hgoes⟩
              | some id => exact ⟨trivial, hσ.set (plain_int _) id, t, .single hgoes⟩
          | _ => exact ⟨_, .refl, halone, .inl hforked⟩
      | _ => exact ⟨_, .refl, halone, .inl hforked⟩

theorem fork_runs {id : Option Nat} {time : Expr} {body : Stmts} (ht : ExprRuns S literals st cells time) :
    StmtRuns S literals st cells all fuel (.fork id time body) := by
  intro c rts σ temp h _ hsits hstart
  rw [Stmt.admitted, Bool.and_eq_true] at h
  rw [stmtCode, List.append_assoc] at hsits
  have hop := hsits.next (exprCode_length time _)
  rw [exec, stmtSize, ← Nat.add_assoc, ← Nat.add_assoc]
  refine .ofDoes (ht.outside h.1 hsits.left (hstart.starts hstart.plain rfl)) fun v τ temp hv hτ => ?_
  refine .ofDoes (fork_does L hS hτ hop) fun _ τ temp _ hτ => ?_
  exact ⟨hτ, temp, .refl⟩

end

/-! Loops. -/

theorem Laid.counts {cells : List Cell} (L : Laid st cells literals) {i : Nat} {rts : List Var} {t : Var} {o : Opcode}
    (h : ItemAt cells i (.op o)) (ho : countTick o = true) (halone : standsAlone o = true) :
    Counts all (layout st) (mach st i rts σ t) := by
  obtain ⟨c, hrep⟩ := L.rep
  exact ⟨L.alone h halone, .inr ⟨o.byte, (hrep.byte_at h rfl).1, by rw [Opcode.ofByte_byte, ho]⟩⟩

/-- The head of a loop: it does what it means, and the opcode that goes on with the loop counts. -/
structure Heads (S : Server W) (literals : List Var) (bc : Bytecodes) (all : Bool) (m : Machine W) (good : α → Prop)
    (base : List Var) (next : α → Memory W → Var → Machine W) (r : Except Interrupt α × Memory W) : Prop where
  does : Does S literals bc m good base next r
  counts : ∀ a τ, r = (.ok a, τ) →
    ∃ n temp, Steps S literals bc false m n ∧ Counts all bc n ∧ Goes S literals bc false n (next a τ temp)

theorem Runs.again {m' : Machine W} {r : Except Interrupt Flow × Memory W} (hs : Steps S literals bc false m n)
    (hcounts : Counts all bc n) (hgoes : Goes S literals bc false n m') (h : Runs S literals bc st all k m' base loops falls r) :
    Runs S literals bc st all (k + 1) m base loops falls r := by
  have hs' : Steps S literals bc false m m' := hs.tail hgoes
  obtain ⟨r, τ⟩ := r
  cases r with
  | ok flow => cases flow <;> exact Runs.after hs' h
  | error i =>
      cases i with
      | tires => exact Stays.after hs (.counted hcounts hgoes h)
      | _ => exact Runs.after hs' h

theorem Unwinds.exit {more rts : List Var} {goal pc : Nat} (hmore : ∀ v ∈ more, v.isMarker = false) (hgoal : goal = rts.length)
    (h : Unwinds S literals bc m .exit (.list [.int goal, .int pc]) (more ++ rts) σ) :
    ∃ n temp, Steps S literals bc false m n ∧ Goes S literals bc false n ⟨⟨pc, rts, σ.env, σ.debug⟩, temp, σ.world⟩ := by
  obtain ⟨n, m', junk, hs, hstep, hrts, hpasses, henv, hdebug, hworld⟩ := h
  refine ⟨n, m'.temp, hs, ?_⟩
  have hends : unwindRts .exit zero (.list [.int goal, .int pc]) goal 0 m'.rts = some (.goal rts) := by
    rw [hrts, ← List.append_assoc, (hpasses.append (.plains _ _ hmore)) _ _ _ (Nat.le_of_eq hgoal), hgoal]
    cases rts with
    | nil => rfl
    | cons v rts =>
        rw [unwindRts.eq_def]
        exact if_pos (Nat.le_refl _)
  rw [Goes, advance, hstep, Next.settle, codeOf, if_neg (by decide)]
  dsimp only [exitOf, Int.toNat_natCast]
  rw [hends]
  dsimp only
  rw [if_pos rfl, henv, hdebug, hworld]

theorem exitLoopCtx_cons (exit : Option Nat) (loop : LoopCtx) (loops : List LoopCtx) :
    exitLoopCtx exit (loop :: loops) = if hits exit loop.id then some loop else exitLoopCtx exit loops := by
  cases exit with
  | none => rfl
  | some id =>
      rw [exitLoopCtx, findLoopCtx, hits, exitLoopCtx]
      by_cases hid : loop.id = some id
      · rw [if_pos hid, hid, if_pos (by simp)]
      · rw [if_neg hid, if_neg (by simpa using fun h => hid h.symm)]

/-- A loop whose operands are on the stack. The induction is on the rounds that are left. -/
theorem rounds_run (loop : LoopCtx) (again : Bool) (start back : Nat) (ops : α → List Var) (good : α → Prop)
    {head : α → Eval W (Option α)} {body : Eval W Flow} {rts : List Var} (hplain : ∀ a, good a → ∀ v ∈ ops a, v.isMarker = false)
    (htop : ∀ a, loop.topStack = (ops a ++ rts).length) (hbottom : loop.bottomStack = rts.length)
    (hhead : ∀ {a : α} {σ : Memory W} {temp : Var}, good a → σ.Plain →
      Heads S literals (layout st) all (mach st loop.top (ops a ++ rts) σ temp) (fun r => ∀ a ∈ r, good a) rts
        (fun r τ temp => r.elim (mach st loop.bottom rts τ temp) fun a => mach st start (ops a ++ rts) τ temp) (head a σ))
    (hbody : ∀ {a : α} {σ : Memory W} {temp : Var}, good a → σ.Plain →
      Runs S literals (layout st) st all fuel (mach st start (ops a ++ rts) σ temp) (ops a ++ rts) (loop :: loops)
        (fun τ temp => mach st back (ops a ++ rts) τ temp) (body σ))
    (hjump : ∀ (a : α) (σ : Memory W) (temp : Var), Goes S literals (layout st) false (mach st back (ops a ++ rts) σ temp)
      (if again then mach st loop.top (ops a ++ rts) σ temp else mach st loop.bottom rts σ temp))
    {a : α} {temp : Var} (ha : good a) (hσ : σ.Plain) (hk : k ≤ fuel) :
    Runs S literals (layout st) st all k (mach st loop.top (ops a ++ rts) σ temp) rts loops
      (fun τ temp => mach st loop.bottom rts τ temp) (rounds loop.id again head body k a σ) := by
  induction k generalizing a σ temp with
  | zero => exact Stays.none _
  | succ k ih =>
      rw [rounds]
      obtain ⟨hdoes, hcounts⟩ := hhead ha hσ
      cases hheadr : head a σ with
      | mk r τ =>
      rw [hheadr] at hdoes hcounts
      cases r with
      | error i =>
          rw [bind_error hheadr]
          cases i with
          | tires => exact hdoes.elim
          | _ => exact hdoes
      | ok r =>
      rw [bind_ok hheadr]
      obtain ⟨hr, hτ, -⟩ := hdoes
      obtain ⟨n, temp, hs, hcounted, hgoes⟩ := hcounts r τ rfl
      cases r with
      | none => exact ⟨hτ, temp, hs.tail hgoes⟩
      | some a =>
          have hgood := hr a rfl
          have hplain := hplain a hgood
          refine .again hs hcounted hgoes ?_
          dsimp only [Option.elim]
          have hruns : Runs S literals (layout st) st all fuel (mach st start (ops a ++ rts) τ temp) _ _ _ _ := hbody hgood hτ
          cases hbodyr : body τ with
          | mk r τ =>
              rw [hbodyr] at hruns
              cases r with
              | ok flow =>
                  rw [bind_ok hbodyr]
                  cases flow with
                  | falls =>
                      obtain ⟨hτ, temp, hs⟩ := hruns
                      have hjump := hjump a τ temp
                      dsimp only
                      by_cases hagain : again = true
                      · rw [if_pos hagain] at hjump ⊢
                        exact .after (hs.tail hjump) (ih hgood hτ (Nat.le_of_succ_le hk))
                      · rw [if_neg hagain] at hjump ⊢
                        exact ⟨hτ, temp, hs.tail hjump⟩
                  | exits leave exit =>
                      obtain ⟨hτ, lp, hlp, hunwinds⟩ := hruns
                      rw [exitLoopCtx_cons] at hlp
                      dsimp only
                      by_cases hhits : hits exit loop.id = true
                      · rw [if_pos hhits] at hlp ⊢
                        cases hlp
                        cases leave with
                        | true =>
                            obtain ⟨n, temp, hs, hgoes⟩ := hunwinds.exit hplain hbottom
                            exact ⟨hτ, temp, hs.tail hgoes⟩
                        | false =>
                            obtain ⟨n, temp, hs, hgoes⟩ := hunwinds.exit (fun _ hv => absurd hv List.not_mem_nil) (htop a)
                            exact .after (hs.tail hgoes) (ih hgood hτ (Nat.le_of_succ_le hk))
                      · rw [if_neg hhits] at hlp ⊢
                        exact ⟨hτ, lp, hlp, hunwinds.below (.plains _ _ hplain)⟩
                  | returns v =>
                      obtain ⟨hv, hτ, hunwinds⟩ := hruns
                      exact ⟨hv, hτ, hunwinds.below (.plains _ _ hplain)⟩
              | error i =>
                  rw [bind_error hbodyr]
                  cases i with
                  | raise code info =>
                      obtain ⟨htuple, hτ, hraises⟩ := hruns
                      exact ⟨htuple, hτ, hraises.below (.plains code hplain)⟩
                  | tires => exact Stays.less (Nat.le_of_succ_le hk) hruns
                  | _ => exact hruns

section

variable {cells : List Cell} (hS : S.Behaves) (L : Laid st cells literals)

omit hS L in
theorem failing_ok {i : Nat} {e : Error} {x : Eval W α} {a : α} {τ : Memory W} (h : failing S i e x σ = (.ok a, τ)) :
    σ.debug = false ∧ x σ = (.ok a, τ) := by
  unfold failing at h
  cases hdebug : σ.debug with
  | false =>
      have hfail : fail S i e σ = (.ok (.err e), σ) := if_neg (by rw [hdebug]; decide)
      rw [bind_ok hfail] at h
      exact ⟨rfl, h⟩
  | true =>
      have hfail : fail S i e σ = (.error (.raise (.err e) [.str (S.unparseError e), zero, S.makeStackList i σ.world]), σ) :=
        if_pos hdebug
      rw [bind_error hfail] at h
      cases h

def headed (S : Server W) (errorPc : Nat) (r : Reads Answer) (raises leaves : Machine W) (assigns : Var → Var → Machine W) :
    Next W :=
  match r with
  | .ok (.assign v next) => .goes (assigns v next)
  | .ok .leave => .goes leaves
  | .ok (.raise e) => raiseOr S errorPc e raises leaves
  | _ => .breaks

include hS in
theorem nextElement_heads (ops : Var → List Var) {i j id start stop : Nat} {r : Reads Answer} {rts : List Var} {a t : Var}
    (hσ : σ.Plain) (hr : Answers r) (hops : ∀ v ∈ ops a, v.isMarker = false) (hcounts : Counts all (layout st) n)
    (hstep : step S literals (layout st) false n =
      headed S (finalOffset st i) r (mach st j (ops a ++ rts) σ t) (mach st stop rts σ t) fun v w =>
        mach st start (ops w ++ rts) { σ with env := Function.update σ.env id v } t) :
    Heads S literals (layout st) all n (fun r => ∀ a ∈ r, Plain a) rts
      (fun r τ temp => r.elim (mach st stop rts τ temp) fun a => mach st start (ops a ++ rts) τ temp)
      (nextElement (S.located st) i id r (fun a => a) σ) := by
  cases r with
  | error => exact ⟨⟨n, .refl, hcounts.1, .inl hstep⟩, fun _ _ h => by cases h⟩
  | ok answer =>
      cases answer with
      | assign v w =>
          obtain ⟨hv, hw⟩ := hr _ rfl
          refine ⟨⟨fun _ h => Option.some.inj h ▸ hw, hσ.set hv id, t, .single (goes_of_step hstep)⟩, fun a τ h => ?_⟩
          cases h
          exact ⟨n, t, .refl, hcounts, goes_of_step hstep⟩
      | leave =>
          refine ⟨⟨fun _ h => absurd h (Option.not_mem_none _), hσ, t, .single (goes_of_step hstep)⟩, fun a τ h => ?_⟩
          cases h
          exact ⟨n, t, .refl, hcounts, goes_of_step hstep⟩
      | raise e =>
          refine ⟨does_failing hS hσ hops hstep (Does.pure (fun _ h => absurd h (Option.not_mem_none _)) hσ rfl),
            fun a τ h => ?_⟩
          obtain ⟨hdebug, h⟩ := failing_ok h
          cases h
          refine ⟨n, t, .refl, hcounts, goes_of_step (hstep.trans (if_neg ?_))⟩
          rw [show (mach st j (ops _ ++ rts) σ t).debug = σ.debug from rfl, hdebug]
          decide
      | _ => exact ⟨⟨n, .refl, hcounts.1, .inl hstep⟩, fun _ _ h => by cases h⟩

include L hS

theorem listHead_heads {i id stop : Nat} {c : Ctx} {rts : List Var} {list count t : Var} (hσ : σ.Plain) (hlist : Plain list)
    (hcount : Plain count) (h : Sits cells i [c.op .forList, c.item (.varRef id), c.item (.label stop)]) :
    Heads S literals (layout st) all (mach st i (count :: list :: rts) σ t) (fun r => ∀ a ∈ r, Plain a) rts
      (fun r τ temp => r.elim (mach st stop rts τ temp) fun a => mach st (i + 3) (a :: list :: rts) τ temp)
      (listHead (S.located st) i id list count σ) := by
  have hstep : step S literals (layout st) false (mach st i (count :: list :: rts) σ t) =
      opForListAt S (layout st) (finalOffset st i) (mach st (i + 1) (count :: list :: rts) σ t) := L.step_op (h.get (k := 0) rfl)
  unfold opForListAt at hstep
  rw [show (mach st (i + 1) (count :: list :: rts) σ t).pc = finalOffset st (i + 1) from rfl,
    L.varRef (h.get (k := 1) rfl)] at hstep
  dsimp only [mach] at hstep
  rw [L.label (h.get (k := 2) rfl)] at hstep
  dsimp only at hstep
  have hops : ∀ v ∈ [count, list], v.isMarker = false :=
    List.forall_mem_cons.mpr ⟨hcount.isMarker, List.forall_mem_singleton.mpr hlist.isMarker⟩
  refine nextElement_heads hS (fun a => [a, list]) (j := i + 1) (t := t) hσ (opForList_plain hlist) hops
    (L.counts (h.get (k := 0) rfl) (by decide) rfl) (hstep.trans ?_)
  cases opForList list count with
  | error => rfl
  | ok answer => cases answer <;> rfl

omit L hS in
theorem opForRangeReads_eq (from' to' : Var) : opForRangeReads from' to' = .ok ((bounds from' to').elim (.raise .eType)
    fun b => if b.2.2 < b.2.1 then .leave else .assign (b.1 b.2.1) (b.1 (wrap32 (b.2.1 + 1)))) := by
  cases hbounds : bounds from' to' with
  | none => cases to' <;> cases from' <;> first | rfl | cases hbounds
  | some b =>
      obtain ⟨kind, l, u⟩ := b
      obtain ⟨hkind, rfl, rfl⟩ := bounds_some hbounds
      by_cases hlt : u < l <;> cases hkind <;> simp [opForRangeReads, isPast, hlt, Var.type, Var.readNum, Var.readObj] <;>
        rfl

omit L hS in
theorem opForRange_eq {bc : Bytecodes} {a : Activation} {id pc stop start : Nat} {to' from' : Var} {rts : List Var}
    (hid : bc.read bc.numbytes.varName a.pc = .ok (id, pc)) (hlabel : bc.read bc.numbytes.label pc = .ok (stop, start))
    (hrts : a.rts = to' :: from' :: rts) : opForRange bc a = .ok ((bounds from' to').elim
      (if a.debug then .error .eType else .ok { a with pc := stop, rts := rts })
      fun b => if b.2.2 < b.2.1 then .ok { a with pc := stop, rts := rts }
        else .ok { a.setVar id (b.1 b.2.1) with pc := start, rts := b.1 b.2.2 :: b.1 (wrap32 (b.2.1 + 1)) :: rts }) := by
  unfold opForRange
  rw [hid, ok_bind_crash]
  dsimp only
  rw [hlabel, ok_bind_crash, hrts]
  cases hbounds : bounds from' to' with
  | none =>
      rw [Option.elim_none]
      split
      · next h =>
          cases h
          cases hbounds
      · next h =>
          cases h
          cases hbounds
      · next h =>
          cases h
          cases a.debug <;> rfl
      · next h => exact (h _ _ _ rfl).elim
  | some b =>
      obtain ⟨kind, l, u⟩ := b
      obtain ⟨hkind, rfl, rfl⟩ := bounds_some hbounds
      by_cases hlt : u < l <;> cases hkind <;> simp [hlt] <;> rfl

theorem rangeHead_heads {i id stop : Nat} {c : Ctx} {rts : List Var} {to' from' t : Var} (hσ : σ.Plain) (hto : Plain to')
    (hfrom : Plain from') (h : Sits cells i [c.op .forRange, c.item (.varRef id), c.item (.label stop)]) :
    Heads S literals (layout st) all (mach st i (to' :: from' :: rts) σ t) (fun r => ∀ a ∈ r, Plain a) rts
      (fun r τ temp => r.elim (mach st stop rts τ temp) fun a => mach st (i + 3) (to' :: a :: rts) τ temp)
      (rangeHead (S.located st) i id to' from' σ) := by
  have hstep : step S literals (layout st) false (mach st i (to' :: from' :: rts) σ t) =
      executed S (finalOffset st i) (mach st (i + 1) (to' :: from' :: rts) σ t)
        (opForRange (layout st) (mach st (i + 1) (to' :: from' :: rts) σ t).toActivation) := L.step_op (h.get (k := 0) rfl)
  rw [opForRange_eq (L.varRef (h.get (k := 1) rfl)) (L.label (h.get (k := 2) rfl)) rfl] at hstep
  have hops : ∀ v ∈ [to', from'], v.isMarker = false :=
    List.forall_mem_cons.mpr ⟨hto.isMarker, List.forall_mem_singleton.mpr hfrom.isMarker⟩
  unfold rangeHead
  refine nextElement_heads hS (fun a => [to', a]) (j := i + 1) (t := t) hσ (opForRange_plain hfrom) hops
    (L.counts (h.get (k := 0) rfl) (by decide) rfl) (hstep.trans ?_)
  rw [opForRangeReads_eq]
  cases hbounds : bounds from' to' with
  | none =>
      change executed S _ _ (.ok (if σ.debug = true then _ else _)) = if σ.debug = true then _ else _
      split <;> rename_i hdebug
      · exact if_pos hdebug
      · rfl
  | some b =>
      obtain ⟨kind, l, u⟩ := b
      obtain ⟨-, rfl, rfl⟩ := bounds_some hbounds
      simp only [Option.elim_some]
      split <;> rfl

omit L hS in
theorem Enters.loop {c c' : StmtCtx} {loop : LoopCtx} {rts ops : List Var} {τ : Memory W} (h : Enters c rts σ) (hτ : τ.Plain)
    (hloops : c'.loops = loop :: c.loops) (hshape : c'.shape.length = c.shape.length + ops.length)
    (htop : loop.topStack = (ops ++ rts).length) (hbottom : loop.bottomStack = rts.length) : Enters c' (ops ++ rts) τ := by
  have hheight := h.height
  refine ⟨by rw [hshape, List.length_append]; omega, ?_, hτ⟩
  rw [hloops, List.length_append]
  intro l hl
  obtain rfl | hl := List.mem_cons.mp hl
  · rw [htop, hbottom, List.length_append]
    omega
  · have := h.loops l hl
    omega

theorem forList_runs {id : Nat} {expr : Expr} {body : Stmts} (he : ExprRuns S literals st cells expr)
    (hb : StmtsRun S literals st cells all fuel body) : StmtRuns S literals st cells all fuel (.list id expr body) := by
  intro c rts σ temp h hfit hsits hstart
  rw [Stmt.admitted, Bool.and_eq_true] at h
  rw [fits] at hfit
  rw [stmtCode] at hsits
  simp only [List.append_assoc] at hsits
  have hone := hsits.next (exprCode_length expr _)
  have hhead := hone.next (k := 1) rfl
  have hbody := hhead.next (k := 3) rfl
  have hjump := hbody.next (stmtsCode_length body _ h.2)
  rw [exec, stmtSize]
  simp only [← Nat.add_assoc]
  refine .ofDoes (he.outside h.1 hsits.left (hstart.starts hstart.plain rfl)) fun list τ temp hlist hτ => ?_
  refine Runs.after (.single (number_goes L (by decide) (hone.left.get (k := 0) rfl))) ?_
  let loop : LoopCtx := ⟨some id, c.pos + exprSize expr + 1, c.shape.length + 2,
    c.pos + exprSize expr + 1 + 3 + stmtsSize body + 2, c.shape.length⟩
  have htop : ∀ a, loop.topStack = ([a, list] ++ rts).length := fun _ => congrArg (· + 2) hstart.height
  let c₃ : StmtCtx := ⟨c.pos + exprSize expr + 1 + 3, .index :: .value :: c.shape, loop :: c.loops, c.forks⟩
  refine rounds_run loop true c₃.pos (c₃.pos + stmtsSize body) (fun a => [a, list]) _ ?_ htop hstart.height
    (fun ha hτ => listHead_heads hS L hτ hlist ha hhead.left) (fun ha hτ => ?_) ?_ (plain_int 1) hτ (Nat.le_refl fuel)
  · exact fun a ha => List.forall_mem_cons.mpr ⟨ha.isMarker, List.forall_mem_singleton.mpr hlist.isMarker⟩
  · exact hb (c := c₃) h.2 hfit hbody.left (hstart.loop hτ rfl rfl (htop list) hstart.height)
  · exact fun _ _ _ => jump_goes L (hjump.get (k := 0) rfl) (hjump.get (k := 1) rfl) (Nat.succ_pos _)

omit L hS in
theorem isScatter_of_admitted {e : Expr} {dollars : Bool} (h : e.admitted dollars = true) : e.isScatter = false := by
  cases e with
  | scatter => cases h
  | _ => rfl

theorem forRange_runs {id : Nat} {lower upper : Expr} {body : Stmts} (hl : ExprRuns S literals st cells lower)
    (hu : ExprRuns S literals st cells upper) (hb : StmtsRun S literals st cells all fuel body) :
    StmtRuns S literals st cells all fuel (.range id lower upper body) := by
  intro c rts σ temp h hfit hsits hstart
  simp only [Stmt.admitted, Bool.and_eq_true] at h
  rw [fits] at hfit
  rw [stmtCode] at hsits
  simp only [List.append_assoc] at hsits
  have hupper := hsits.next (exprCode_length lower _)
  have hhead := hupper.next (exprCode_length upper _)
  have hbody := hhead.next (k := 3) rfl
  have hjump := hbody.next (stmtsCode_length body _ h.2)
  rw [exec, stmtSize]
  simp only [← Nat.add_assoc]
  refine .ofDoes (hl.outside h.1.1 hsits.left (hstart.starts hstart.plain rfl)) fun from' τ temp hfrom hτ => ?_
  refine .ofDoes ((hu.outside h.1.2 hupper.left (Starts.value (c := c.expr) (hstart.starts hτ rfl) hτ rfl rfl)).drop hfrom) fun to' τ temp hto hτ => ?_
  let loop : LoopCtx := ⟨some id, c.pos + exprSize lower + exprSize upper, c.shape.length + 2,
    c.pos + exprSize lower + exprSize upper + 3 + stmtsSize body + 2, c.shape.length⟩
  have htop : ∀ a, loop.topStack = ([to', a] ++ rts).length := fun _ => congrArg (· + 2) hstart.height
  let c₃ : StmtCtx := ⟨c.pos + exprSize lower + exprSize upper + 3, .value :: .value :: c.shape, loop :: c.loops, c.forks⟩
  refine rounds_run loop true c₃.pos (c₃.pos + stmtsSize body) (fun a => [to', a]) _ ?_ htop hstart.height
    (fun ha hτ => rangeHead_heads hS L hτ hto ha hhead.left) (fun ha hτ => ?_) ?_ hfrom hτ (Nat.le_refl fuel)
  · exact fun a ha => List.forall_mem_cons.mpr ⟨hto.isMarker, List.forall_mem_singleton.mpr ha.isMarker⟩
  · exact hb (c := c₃) h.2 hfit hbody.left (hstart.loop hτ rfl rfl (htop to') hstart.height)
  · exact fun _ _ _ => jump_goes L (hjump.get (k := 0) rfl) (hjump.get (k := 1) rfl)
      (Nat.add_pos_right _ (exprSize_pos (isScatter_of_admitted h.1.2)))

/-! `while`. -/

omit hS in
theorem whileTest_goes {i stop : Nat} {id : Option Nat} {c : Ctx} (rts : List Var) (σ : Memory W) {v t : Var}
    (h : Sits cells i (c.whileOp id ++ [c.item (.label stop)])) (hstop : 0 < stop) :
    Goes S literals (layout st) false (mach st i (v :: rts) σ t)
      (mach st (if v.isTrue then i + (if id.isSome then 4 else 2) else stop) rts (setId id v σ).2 t) := by
  cases id with
  | none => exact test_goes L (.inr (.inr (.inl rfl))) (h.get (k := 0) rfl) (h.get (k := 1) rfl) hstop
  | some id =>
      refine goes_of_step ((L.step_eop (h.get (k := 0) rfl) (h.get (k := 1) rfl)).trans ?_)
      change eopWhileId (layout st) (mach st (i + 2) (v :: rts) σ t) = _
      unfold eopWhileId
      rw [show (mach st (i + 2) (v :: rts) σ t).pc = finalOffset st (i + 2) from rfl, L.varRef (h.get (k := 2) rfl)]
      have htest : doTest (layout st) (mach st (i + 3) (v :: rts) { σ with env := Function.update σ.env id v } t) = _ :=
        doTest_eq L (h.get (k := 3) rfl) hstop
      exact htest

omit L hS in
theorem setId_plain {id : Option Nat} {v : Var} (hσ : σ.Plain) (hv : Plain v) : (setId id v σ).2.Plain := by
  cases id with
  | none => exact hσ
  | some id => exact hσ.set hv id

omit L hS in
theorem setId_bind {id : Option Nat} {v : Var} (f : Unit → Eval W α) : (setId id v >>= f) σ = f () (setId id v σ).2 := by
  cases id <;> rfl

omit hS in
theorem whileHead_heads {id : Option Nat} {condition : Expr} {c c' : Ctx} {stop : Nat} {rts : List Var} {t : Var}
    (he : ExprRuns S literals st cells condition) (h : condition.admitted false = true)
    (hsits : Sits cells c.pos (exprCode condition c ++ (c'.whileOp id ++ [c'.item (.label stop)])))
    (hstart : Starts c none rts σ) (hstop : 0 < stop) (hid : all = true ∨ id = none) :
    Heads S literals (layout st) all (mach st c.pos rts σ t) (fun r => ∀ _ ∈ r, True) rts
      (fun r τ temp => r.elim (mach st stop rts τ temp) fun _ =>
        mach st (c.pos + (exprSize condition + if id.isSome then 4 else 2)) rts τ temp)
      (whileHead (S.located st) (asCompiled literals) c.pos id condition () σ) := by
  have hdoes : Does S literals (layout st) (mach st c.pos rts σ t) Plain rts
      (fun v τ temp => mach st (c.pos + exprSize condition) (v :: rts) τ temp)
      (evalExpr (S.located st) (asCompiled literals) condition none c.pos σ) := he.outside h hsits.left hstart
  have htest := hsits.next (exprCode_length condition c)
  have hgoes : ∀ (v : Var) (τ : Memory W) temp,
      Goes S literals (layout st) false (mach st (c.pos + exprSize condition) (v :: rts) τ temp)
        ((if v.isTrue then some () else none).elim (mach st stop rts (setId id v τ).2 temp) fun _ =>
          mach st (c.pos + (exprSize condition + if id.isSome then 4 else 2)) rts (setId id v τ).2 temp) := by
    intro v τ temp
    have hgoes := whileTest_goes (S := S) (v := v) (t := temp) L rts τ htest hstop
    cases hv : v.isTrue with
    | true =>
        rw [hv, if_pos rfl, Nat.add_assoc] at hgoes
        exact hgoes
    | false =>
        rw [hv, if_neg Bool.false_ne_true] at hgoes
        exact hgoes
  unfold whileHead
  refine ⟨hdoes.bind fun v τ temp hv hτ => ?_, fun a τ h => ?_⟩
  · rw [setId_bind]
    exact ⟨fun _ _ => trivial, setId_plain hτ hv, temp, .single (hgoes v τ temp)⟩
  · cases hr : evalExpr (S.located st) (asCompiled literals) condition none c.pos σ with
    | mk r σ' =>
        rw [hr] at hdoes
        cases r with
        | error i =>
            rw [bind_error hr] at h
            cases h
        | ok v =>
            obtain ⟨-, -, temp, hs⟩ := hdoes
            rw [bind_ok hr, setId_bind] at h
            cases h
            refine ⟨_, temp, hs, ?_, hgoes v σ' temp⟩
            obtain rfl | rfl := hid
            · cases id with
              | none => exact ⟨L.alone (htest.get (k := 0) rfl) rfl, .inl rfl⟩
              | some id => exact ⟨L.alone (htest.get (k := 0) rfl) rfl, .inl rfl⟩
            · exact L.counts (htest.get (k := 0) rfl) (by decide) rfl

omit hS in
theorem jump_back {i top : Nat} {rts : List Var} {t : Var} (h : ItemAt cells i (.op .jump))
    (hlabel : ItemAt cells (i + 1) (.label top)) :
    Goes S literals (layout st) false (mach st i rts σ t)
      (if top != 0 then mach st top rts σ t else mach st (i + 2) rts σ t) := by
  by_cases htop : top = 0
  · subst htop
    obtain ⟨c, hrep⟩ := L.rep
    refine goes_of_step ((L.step_op h).trans ?_)
    change executed S (finalOffset st i) (mach st (i + 1) rts σ t)
      (opJump (layout st) (mach st (i + 1) rts σ t).toActivation) = _
    unfold opJump
    rw [show (mach st (i + 1) rts σ t).toActivation.pc = finalOffset st (i + 1) from rfl, L.label hlabel, ok_bind_crash,
      hrep.offset_zero]
    rfl
  · rw [if_pos (bne_iff_ne.mpr htop)]
    exact jump_goes L h hlabel (Nat.pos_of_ne_zero htop)

omit hS in
theorem while_runs {id : Option Nat} {condition : Expr} {body : Stmts} (he : ExprRuns S literals st cells condition)
    (hb : StmtsRun S literals st cells all fuel body) : StmtRuns S literals st cells all fuel (.while_ id condition body) := by
  intro c rts σ temp h hfit hsits hstart
  rw [Stmt.admitted, Bool.and_eq_true] at h
  rw [fits, Bool.and_eq_true, Bool.or_eq_true, Option.isNone_iff_eq_none] at hfit
  rw [stmtCode] at hsits
  rw [List.append_assoc, List.append_assoc, List.append_assoc, ← List.append_assoc (Ctx.whileOp _ _),
    ← List.append_assoc] at hsits
  let n := exprSize condition + if id.isSome then 4 else 2
  have hbody := hsits.next (k := n) (by
    rw [List.length_append, List.length_append, exprCode_length]
    cases id <;> rfl)
  have hjump := hbody.next (stmtsCode_length body _ h.2)
  rw [exec, stmtSize]
  let loop : LoopCtx := ⟨id, c.pos, c.shape.length, c.pos + n + stmtsSize body + 2, c.shape.length⟩
  let c₁ : StmtCtx := ⟨c.pos + n, c.shape, loop :: c.loops, c.forks⟩
  have hstop : c.pos + (n + stmtsSize body + 2) = loop.bottom := by simp only [loop, Nat.add_assoc]
  rw [hstop]
  refine rounds_run loop (c.pos != 0) c₁.pos (c₁.pos + stmtsSize body) (fun _ => []) (fun _ => True)
    (fun _ _ _ hv => absurd hv List.not_mem_nil) (fun _ => hstart.height) hstart.height
    (fun _ hτ => whileHead_heads L he h.1 hsits.left (hstart.starts hτ rfl) (Nat.succ_pos _) hfit.1) (fun _ hτ => ?_) ?_ trivial
    hstart.plain (Nat.le_refl fuel)
  · exact hb (c := c₁) h.2 hfit.2 hbody.left (hstart.loop hτ rfl rfl hstart.height hstart.height)
  · exact fun _ _ _ => jump_back L (hjump.get (k := 0) rfl) (hjump.get (k := 1) rfl)

end

end LambdaMoo.Interpreter
