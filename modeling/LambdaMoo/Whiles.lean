import LambdaMoo.Ticks

/-! Two kinds of `while` that do not run as others do: `run` looks at the ticks in no round of one that has a name, and
one that a vector starts with is not repeated, as `OP_JUMP` takes its label for none. -/
namespace LambdaMoo.Interpreter
open Listing CodeGen

variable {W : Type}

theorem steps_closed {S : Server W} {literals : List Var} {bc : Bytecodes} {fast : Bool} {kind : Machine W → Prop} {m n : Machine W}
    (h : ∀ m, kind m → ∃ m', Goes S literals bc fast m m' ∧ kind m') (hm : kind m) (hs : Steps S literals bc fast m n) : kind n := by
  induction hs with
  | refl => exact hm
  | tail _ hgoes ih =>
      obtain ⟨m', hgoes', hkind⟩ := h _ ih
      cases hgoes.symm.trans hgoes'
      exact hkind

/-! Names. -/

theorem countTick_optimNum : ∀ index : Fin 143, countTick (.optimNum index) = false := by decide

section

variable {S : Server W} {literals : List Var} {st : State} {cells : List Cell} (L : Laid st cells literals)
  {rts : List Var} {σ : Memory W} {temp : Var} {i : Nat}
include L

theorem Laid.not_ticks {o : Opcode} (h : ItemAt cells i (.op o)) (ho : countTick o = false) :
    ¬ Ticks (layout st) (mach st i rts σ temp) := by
  obtain ⟨c, hrep⟩ := L.rep
  have hbyte : (layout st).vector[finalOffset st i]? = some o.byte := (hrep.byte_at h rfl).1
  rintro ⟨b, hb, hticks⟩
  cases hbyte.symm.trans hb
  rw [Opcode.ofByte_byte, ho] at hticks
  cases hticks

theorem literalCode_unticked {u : Var} {c : Ctx} (h : Sits cells i (c.literal u)) :
    ¬ Ticks (layout st) (mach st i rts σ temp) := by
  rw [Ctx.literal] at h
  cases ho : optimNum? u with
  | none =>
      rw [ho] at h
      exact L.not_ticks (h.get (k := 0) rfl) rfl
  | some o =>
      rw [ho] at h
      refine L.not_ticks (h.get (k := 0) rfl) ?_
      cases u with
      | int n =>
          rw [optimNum?] at ho
          split at ho
          · cases ho
            exact countTick_optimNum _
          · cases ho
      | _ => cases ho

/-- In a loop of this kind there are three opcodes, and no tick is looked at. -/
theorem namedWhile_forever {id : Nat} {n : Int} {c : StmtCtx} (rts : List Var) (σ : Memory W) (temp : Var) (hn : wrap32 n = n) (hzero : n ≠ 0) (hpos : 0 < c.pos)
    (hsits : Sits cells c.pos (stmtCode (.while_ (some id) (.var (.int n)) .nil) c)) :
    Forever S literals (layout st) false (mach st c.pos rts σ temp) ∧
      (∀ m, Steps S literals (layout st) false (mach st c.pos rts σ temp) m → ¬ Ticks (layout st) m) ∧
      ∃ m, Steps S literals (layout st) false (mach st c.pos rts σ temp) m ∧ Alone (layout st) m := by
  have hwritable : (Var.int n).isWritable = true := beq_iff_eq.mpr hn
  rw [stmtCode, exprCode] at hsits
  simp only [stmtsCode, List.nil_append, List.append_assoc] at hsits
  have htest := hsits.next (Ctx.literal_length _ _)
  have hjump := (htest.next (k := 3) rfl).next (k := 1) rfl
  let test := c.pos + literalSize (.int n)
  let kind : Machine W → Prop := fun m => ∃ τ t, m = mach st c.pos rts τ t ∨ m = mach st test (.int n :: rts) τ t ∨
    m = mach st (test + 4) rts τ t
  have hkind : ∀ m, kind m → ¬ Ticks (layout st) m ∧ ∃ m', Goes S literals (layout st) false m m' ∧ kind m' := by
    rintro m ⟨τ, t, rfl | rfl | rfl⟩
    · refine ⟨literalCode_unticked L hsits.left, _, literalCode_goes L hwritable hsits.left, τ, t, .inr (.inl ?_)⟩
      rw [literal_eq_self literals hwritable rfl]
    · rw [← List.append_assoc] at htest
      have hgoes := whileTest_goes (S := S) (v := .int n) (t := t) L rts τ htest.left (Nat.succ_pos _)
      refine ⟨L.not_ticks (htest.left.get (k := 0) rfl) rfl, _, hgoes, (setId (some id) (.int n) τ).2, t, .inr (.inr ?_)⟩
      rw [if_pos (by simpa [Var.isTrue] using hzero)]
      rfl
    · exact ⟨L.not_ticks (hjump.get (k := 0) rfl) rfl, _, jump_goes L (hjump.get (k := 0) rfl) (hjump.get (k := 1) rfl) hpos,
        τ, t, .inl rfl⟩
  have hclosed := fun m (hs : Steps S literals (layout st) false (mach st c.pos rts σ temp) m) =>
    steps_closed (fun m hm => (hkind m hm).2) (⟨σ, temp, .inl rfl⟩ : kind _) hs
  have hliteral : Goes S literals (layout st) false (mach st c.pos rts σ temp) _ := literalCode_goes L hwritable hsits.left
  refine ⟨fun m hs => ?_, fun m hs => (hkind m (hclosed m hs)).1, _, .single hliteral, L.alone (htest.get (k := 0) rfl) rfl⟩
  obtain ⟨m', hgoes, -⟩ := (hkind m (hclosed m hs)).2
  exact ⟨m', hgoes⟩

theorem vector_spins {before : Stmt} {next : Stmts} {forks id fuel : Nat} {n : Int} {τ : Memory W}
    (hsits : Sits cells 0 (stmtsCode (.cons before (.cons (.while_ (some id) (.var (.int n)) .nil) next)) { forks := forks }))
    (hS : S.Behaves) (h : (Stmts.cons before (.cons (.while_ (some id) (.var (.int n)) .nil) next)).admitted [] = true)
    (hfit : fitsAll true (.cons before (.cons (.while_ (some id) (.var (.int n)) .nil) next)) = true) (hn : wrap32 n = n)
    (hzero : n ≠ 0) (hsize : 0 < stmtSize before) (hσ : σ.Plain)
    (hfalls : exec (S.located st) (asCompiled literals) fuel before 0 forks σ = (.ok .falls, τ)) (temp : Var) (fast : Bool) :
    ∃ m, Steps S literals (layout st) fast ⟨⟨0, [], σ.env, σ.debug⟩, temp, σ.world⟩ m ∧ Forever S literals (layout st) fast m ∧
      ∀ m', Steps S literals (layout st) fast m m' → ¬ Ticks (layout st) m' := by
  rw [Stmts.admitted, Bool.and_eq_true] at h
  rw [fitsAll, Bool.and_eq_true] at hfit
  rw [stmtsCode] at hsits
  have henters : Enters { forks := forks } [] σ := ⟨rfl, fun _ hloop => absurd hloop List.not_mem_nil, hσ⟩
  have hruns : Runs S literals (layout st) st true fuel (mach st 0 [] σ temp) _ _ _ _ :=
    stmtCode_runs L hS before (c := { forks := forks }) h.1 hfit.1 hsits.left henters
  have hloop := hsits.next (stmtCode_length before { forks := forks } h.1)
  rw [stmtsCode] at hloop
  obtain ⟨c, hrep⟩ := L.rep
  have hstart : mach st 0 [] σ temp = ⟨⟨0, [], σ.env, σ.debug⟩, temp, σ.world⟩ := by rw [mach, hrep.offset_zero]
  rw [hfalls] at hruns
  obtain ⟨-, t, hs⟩ := hruns
  rw [← hstart]
  obtain ⟨hforever, hticks, m, hm, halone⟩ := namedWhile_forever (S := S) L [] τ t hn hzero (Nat.add_pos_right 0 hsize)
    hloop.left
  have hforever : Forever S literals (layout st) false m := fun n hn => hforever n (hm.trans hn)
  have hticks : ∀ n, Steps S literals (layout st) false m n → ¬ Ticks (layout st) n := fun n hn => hticks n (hm.trans hn)
  cases fast with
  | false => exact ⟨m, hs.trans hm, hforever, hticks⟩
  | true =>
      obtain ⟨hfast, hsteps⟩ := forever_fast hforever
      exact ⟨m, steps_fast (hs.trans hm) halone, hfast, fun n hn => hticks n (hsteps n hn)⟩

end

/-! Exits. -/

mutual
/-- The exits in a statement that are for a loop around it: `break`, or `continue`. -/
def exitsOf (leave : Bool) : Stmt → List (Option Nat)
  | .cond arms otherwise => exitsOfArms leave arms ++ exitsOfAll leave otherwise
  | .list id _ body => (exitsOfAll leave body).filter fun exit => !hits exit (some id)
  | .range id _ _ body => (exitsOfAll leave body).filter fun exit => !hits exit (some id)
  | .while_ id _ body => (exitsOfAll leave body).filter fun exit => !hits exit id
  | .tryExcept body excepts => exitsOfAll leave body ++ exitsOfExcepts leave excepts
  | .tryFinally body handler => exitsOfAll leave body ++ exitsOfAll leave handler
  | .break_ exit => if leave then [exit] else []
  | .continue_ exit => if leave then [] else [exit]
  | .fork _ _ _ | .expr _ | .return_ _ => []
def exitsOfAll (leave : Bool) : Stmts → List (Option Nat)
  | .nil => []
  | .cons stmt next => exitsOf leave stmt ++ exitsOfAll leave next
def exitsOfArms (leave : Bool) : CondArm → List (Option Nat)
  | .nil => []
  | .cons _ stmt next => exitsOfAll leave stmt ++ exitsOfArms leave next
def exitsOfExcepts (leave : Bool) : ExceptArm → List (Option Nat)
  | .nil => []
  | .cons _ _ stmt next => exitsOfAll leave stmt ++ exitsOfExcepts leave next
end

variable {α β : Type}

/-- An evaluation ends with one of these exits, if it ends with an exit. -/
def ExitsIn (leave : Bool) (exits : List (Option Nat)) (x : Eval W Flow) : Prop :=
  ∀ σ exit, (x σ).1 = .ok (.exits leave exit) → exit ∈ exits

namespace ExitsIn

variable {leave : Bool} {exits exits' : List (Option Nat)} {x y handler : Eval W Flow}

theorem left (h : ExitsIn leave exits x) : ExitsIn leave (exits ++ exits') x :=
  fun σ exit hx => List.mem_append_left _ (h σ exit hx)

theorem right (h : ExitsIn leave exits' x) : ExitsIn leave (exits ++ exits') x :=
  fun σ exit hx => List.mem_append_right _ (h σ exit hx)

theorem flow {f : Flow} (h : ∀ exit, f = .exits leave exit → exit ∈ exits) : ExitsIn leave exits (pure f : Eval W Flow) :=
  fun _ exit hx => h exit (Except.ok.inj hx)

theorem interrupt (i : Interrupt) : ExitsIn leave exits (interrupt i : Eval W Flow) := fun _ _ h => by cases h

theorem bind {x : Eval W α} {f : α → Eval W Flow} (hf : ∀ σ a τ, x σ = (.ok a, τ) → ExitsIn leave exits (f a)) :
    ExitsIn leave exits (x >>= f) := by
  intro σ exit h
  cases hr : x σ with
  | mk r τ =>
      cases r with
      | ok a =>
          rw [bind_ok hr] at h
          exact hf σ a τ hr τ exit h
      | error i =>
          rw [bind_error hr] at h
          cases h

theorem followed (hx : ExitsIn leave exits x) (hy : ExitsIn leave exits y) : ExitsIn leave exits (followed x y) := by
  refine bind fun σ f τ hr => ?_
  cases f with
  | falls => exact hy
  | exits leave' exit =>
      refine flow fun exit' h => hx σ exit' ?_
      rw [hr, ← h]
  | returns v => exact flow fun exit h => by cases h

theorem finally_ (hx : ExitsIn leave exits x) (hh : ExitsIn leave exits handler) :
    ExitsIn leave exits (finally_ x handler) := by
  intro σ exit h
  unfold Interpreter.finally_ at h
  cases hr : x σ with
  | mk r τ =>
      rw [hr] at h
      cases r with
      | ok f =>
          refine hh.followed (flow fun exit' hf => hx σ exit' ?_) τ exit h
          rw [hr, ← hf]
      | error i =>
          cases i with
          | raise code info => exact hh.followed (interrupt _) τ exit h
          | _ => cases h

theorem catching {takes : Var → Bool} {handler : List Var → Eval W Flow} (hx : ExitsIn leave exits x)
    (hh : ∀ tuple, ExitsIn leave exits (handler tuple)) : ExitsIn leave exits (catching x takes handler) := by
  intro σ exit h
  unfold Interpreter.catching at h
  cases hr : x σ with
  | mk r τ =>
      rw [hr] at h
      cases r with
      | ok f => exact hx σ exit (hr ▸ h)
      | error i =>
          cases i with
          | raise code info =>
              dsimp only at h
              split at h
              · exact hh _ τ exit h
              · cases h
          | _ => cases h

/-- The exits of a loop are those of its body that are for a loop around it. -/
theorem rounds {id : Option Nat} {back : Bool} {head : α → Eval W (Option α)} {body : Eval W Flow}
    (hbody : ExitsIn leave exits body) (k : Nat) (a : α) :
    ExitsIn leave (exits.filter fun exit => !hits exit id) (rounds id back head body k a) := by
  induction k generalizing a with
  | zero => exact interrupt _
  | succ k ih =>
      rw [Interpreter.rounds]
      refine bind fun _ r _ _ => ?_
      cases r with
      | none => exact flow fun exit h => by cases h
      | some a =>
          refine bind fun σ f τ hr => ?_
          cases f with
          | falls =>
              dsimp only
              split
              · exact ih a
              · exact flow fun exit h => by cases h
          | exits leave' exit =>
              dsimp only
              split
              · split
                · exact flow fun exit h => by cases h
                · exact ih a
              · next hhits =>
                  refine flow fun exit' h => ?_
                  cases h
                  exact List.mem_filter.mpr ⟨hbody σ exit (by rw [hr]), by simpa using hhits⟩
          | returns v => exact flow fun exit h => by cases h

end ExitsIn

section

variable {S : Server W} {R : Reading} {fuel : Nat} {leave : Bool}

mutual
theorem exec_exits : ∀ (s : Stmt) (place forks : Nat), ExitsIn leave (exitsOf leave s) (exec S R fuel s place forks)
  | .cond arms otherwise, _, _ => by
      rw [exec, exitsOf]
      exact execArms_exits arms _ _ (execAll_exits otherwise _ _)
  | .list _ _ body, _, _ => by
      rw [exec, exitsOf]
      exact .bind fun _ _ _ _ => .rounds (execAll_exits body _ _) _ _
  | .range _ _ _ body, _, _ => by
      rw [exec, exitsOf]
      exact .bind fun _ _ _ _ => .bind fun _ _ _ _ => .rounds (execAll_exits body _ _) _ _
  | .while_ _ _ body, _, _ => by
      rw [exec, exitsOf]
      exact .rounds (execAll_exits body _ _) _ _
  | .tryExcept body excepts, _, _ => by
      rw [exec, exitsOf]
      exact .bind fun _ _ _ _ => .catching (.left (execAll_exits body _ _)) fun _ => .right (execExcepts_exits excepts _ _ _ _)
  | .tryFinally body handler, _, _ => by
      rw [exec, exitsOf]
      exact .finally_ (.left (execAll_exits body _ _)) (.right (execAll_exits handler _ _))
  | .fork _ _ _, _, _ => by
      rw [exec]
      exact .bind fun _ _ _ _ => .bind fun _ _ _ _ => .flow fun _ h => by cases h
  | .expr _, _, _ | .return_ (.some _), _, _ => by
      rw [exec]
      exact .bind fun _ _ _ _ => .flow fun _ h => by cases h
  | .return_ .none, _, _ => by
      rw [exec]
      exact .flow fun _ h => by cases h
  | .break_ exit, _, _ => by
      rw [exec, exitsOf]
      exact .flow fun _ h => by cases h; exact List.mem_singleton.mpr rfl
  | .continue_ exit, _, _ => by
      rw [exec, exitsOf]
      exact .flow fun _ h => by cases h; exact List.mem_singleton.mpr rfl
theorem execAll_exits : ∀ (s : Stmts) (place forks : Nat),
    ExitsIn leave (exitsOfAll leave s) (execAll S R fuel s place forks)
  | .nil, _, _ => .flow fun _ h => by cases h
  | .cons stmt next, _, _ => .followed (.left (exec_exits stmt _ _)) (.right (execAll_exits next _ _))
theorem execArms_exits : ∀ (arms : CondArm) (place forks : Nat) {otherwise : Eval W Flow} {exits : List (Option Nat)},
    ExitsIn leave exits otherwise →
      ExitsIn leave (exitsOfArms leave arms ++ exits) (execArms S R fuel arms place forks otherwise)
  | .nil, _, _, _, _, h => h
  | .cons _ stmt next, _, _, _, _, h => by
      rw [execArms, exitsOfArms, List.append_assoc]
      refine .bind fun _ v _ _ => ?_
      split
      · exact .left (execAll_exits stmt _ _)
      · exact .right (execArms_exits next _ _ h)
theorem execExcepts_exits : ∀ (excepts : ExceptArm) (cs : List Var) (place forks : Nat) (tuple : List Var),
    ExitsIn leave (exitsOfExcepts leave excepts) (execExcepts S R fuel excepts cs place forks tuple)
  | .nil, _, _, _, _ => .interrupt _
  | .cons _ _ _ _, [], _, _, _ => .interrupt _
  | .cons _ _ stmt next, _ :: cs, _, _, tuple => by
      rw [execExcepts, exitsOfExcepts]
      split
      · exact .left (.bind fun _ _ _ _ => execAll_exits stmt _ _)
      · exact .right (execExcepts_exits next _ _ _ _)
end

/-! The first statement. -/

def once (id : Option Nat) (head : α → Eval W (Option α)) (body : Eval W Flow) (a : α) : Eval W Flow := do
  match ← head a with
  | none => pure .falls
  | some _ =>
      match ← body with
      | .exits leave exit => if hits exit id then pure .falls else pure (.exits leave exit)
      | flow => pure flow

/-- Without a way back, there is one round at most if nothing in the body goes on with the loop. -/
theorem rounds_once {id : Option Nat} {head : α → Eval W (Option α)} {body : Eval W Flow} {exits : List (Option Nat)}
    (hbody : ExitsIn false exits body) (hid : ∀ exit ∈ exits, hits exit id = false) (k : Nat) (a : α) :
    rounds id false head body (k + 1) a = once id head body a := by
  rw [rounds, once]
  congr 1
  funext r
  cases r with
  | none => rfl
  | some a =>
      dsimp only
      funext σ
      cases hr : body σ with
      | mk r τ =>
          cases r with
          | error i => rw [bind_error hr, bind_error hr]
          | ok flow =>
              rw [bind_ok hr, bind_ok hr]
              cases flow with
              | exits leave exit =>
                  cases leave with
                  | true => rfl
                  | false =>
                      have hmiss := hid exit (hbody σ exit (by rw [hr]))
                      dsimp only
                      rw [if_neg (by rw [hmiss]; decide), if_neg (by rw [hmiss]; decide)]
              | _ => rfl

/-- A `while` that is not repeated is an `if`, unless its body goes on with it. -/
theorem exec_while_once {id : Option Nat} {condition : Expr} {body : Stmts} {place : Nat} (hplace : R.repeats place = false)
    (hid : ∀ exit ∈ exitsOfAll false body, hits exit id = false) (forks : Nat) :
    exec S R (fuel + 1) (.while_ id condition body) place forks = once id (whileHead S R place id condition)
      (execAll S R (fuel + 1) body (place + (exprSize condition + if id.isSome then 4 else 2)) forks) () := by
  rw [exec, hplace]
  exact rounds_once (execAll_exits body _ _) hid fuel ()

end

end LambdaMoo.Interpreter
