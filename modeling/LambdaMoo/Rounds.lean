import LambdaMoo.FastPaths

/-! The number of rounds that loops are given does not matter, as long as it is enough: with more of them a program
comes to the same end. So every activation has one end, or none. -/
namespace LambdaMoo.Interpreter
open Listing CodeGen

variable {W α β : Type}

/-- What the first comes to, unless it tires, is what the second comes to. -/
def Less (x y : Eval W α) : Prop := ∀ σ, (x σ).1 ≠ .error .tires → y σ = x σ

namespace Less

variable {x x' y y' : Eval W α}

theorem refl (x : Eval W α) : Less x x := fun _ _ => rfl

theorem bind {f f' : α → Eval W β} (hx : Less x x') (hf : ∀ a, Less (f a) (f' a)) : Less (x >>= f) (x' >>= f') := by
  intro σ h
  cases hr : x σ with
  | mk r τ =>
      cases r with
      | ok a =>
          have hr' : x' σ = (.ok a, τ) := by rw [hx σ (by rw [hr]; simp), hr]
          rw [bind_ok hr] at h
          rw [bind_ok hr, bind_ok hr', hf a τ h]
      | error i =>
          rw [bind_error hr] at h
          have hr' : x' σ = (.error i, τ) := by rw [hx σ (by rw [hr]; exact fun hi => h (by cases hi; rfl)), hr]
          rw [bind_error hr, bind_error hr']

theorem followed {x x' y y' : Eval W Flow} (hx : Less x x') (hy : Less y y') : Less (followed x y) (followed x' y') := by
  unfold Interpreter.followed
  refine hx.bind fun flow => ?_
  cases flow with
  | falls => exact hy
  | _ => exact .refl _

theorem finally_ {x x' handler handler' : Eval W Flow} (hx : Less x x') (hh : Less handler handler') :
    Less (finally_ x handler) (finally_ x' handler') := by
  intro σ h
  unfold Interpreter.finally_ at h ⊢
  cases hr : x σ with
  | mk r τ =>
      rw [hr] at h
      have hr' : x' σ = (r, τ) := by
        rw [hx σ, hr]
        rw [hr]
        exact fun hi => h (by cases hi; rfl)
      rw [hr']
      cases r with
      | ok flow => exact hh.followed (.refl _) τ h
      | error i =>
          cases i with
          | raise code info => exact hh.followed (.refl _) τ h
          | _ => rfl

theorem catching {takes : Var → Bool} {handler handler' : List Var → Eval W α} (hx : Less x x')
    (hh : ∀ tuple, Less (handler tuple) (handler' tuple)) :
    Less (catching x takes handler) (catching x' takes handler') := by
  intro σ h
  unfold Interpreter.catching at h ⊢
  cases hr : x σ with
  | mk r τ =>
      rw [hr] at h
      have hr' : x' σ = (r, τ) := by
        rw [hx σ, hr]
        rw [hr]
        exact fun hi => h (by cases hi; rfl)
      rw [hr']
      cases r with
      | ok a => rfl
      | error i =>
          cases i with
          | raise code info =>
              dsimp only at h ⊢
              split
              · next htakes =>
                  rw [if_pos htakes] at h
                  exact hh _ τ h
              · rfl
          | _ => rfl

theorem rounds {id : Option Nat} {back : Bool} {head : α → Eval W (Option α)} {body body' : Eval W Flow}
    (hbody : Less body body') {k k' : Nat} (hk : k ≤ k') (a : α) :
    Less (rounds id back head body k a) (rounds id back head body' k' a) := by
  induction k generalizing k' a with
  | zero => exact fun _ h => absurd rfl h
  | succ k ih =>
      obtain ⟨k', rfl⟩ := Nat.exists_eq_succ_of_ne_zero (Nat.ne_of_gt (Nat.lt_of_lt_of_le (Nat.succ_pos k) hk))
      have ih := fun a => ih (Nat.le_of_succ_le_succ hk) a
      rw [Interpreter.rounds, Interpreter.rounds]
      refine Less.bind (.refl _) fun r => ?_
      cases r with
      | none => exact .refl _
      | some a =>
          refine hbody.bind fun flow => ?_
          cases flow with
          | falls =>
              dsimp only
              split
              · exact ih a
              · exact .refl _
          | exits leave exit =>
              dsimp only
              split
              · split
                · exact .refl _
                · exact ih a
              · exact .refl _
          | returns v => exact .refl _

end Less

section

variable {S : Server W} {R : Reading} {fuel fuel' : Nat}

mutual
theorem exec_less (hle : fuel ≤ fuel') : ∀ (s : Stmt) (place forks : Nat),
    Less (exec S R fuel s place forks) (exec S R fuel' s place forks)
  | .cond arms otherwise, place, forks => by
      rw [exec, exec]
      exact execArms_less hle arms _ _ (execAll_less hle otherwise _ _)
  | .list _ _ body, place, forks => by
      rw [exec, exec]
      exact .bind (.refl _) fun _ => .rounds (execAll_less hle body _ _) hle _
  | .range _ _ _ body, place, forks => by
      rw [exec, exec]
      exact .bind (.refl _) fun _ => .bind (.refl _) fun _ => .rounds (execAll_less hle body _ _) hle _
  | .while_ _ _ body, place, forks => by
      rw [exec, exec]
      exact .rounds (execAll_less hle body _ _) hle _
  | .tryExcept body excepts, place, forks => by
      rw [exec, exec]
      exact .bind (.refl _) fun _ => .catching (execAll_less hle body _ _) fun _ => execExcepts_less hle excepts _ _ _ _
  | .tryFinally body handler, place, forks => by
      rw [exec, exec]
      exact .finally_ (execAll_less hle body _ _) (execAll_less hle handler _ _)
  | .fork _ _ _, _, _ | .expr _, _, _ | .return_ (.some _), _, _ | .return_ .none, _, _ | .break_ _, _, _
  | .continue_ _, _, _ => by
      rw [exec, exec]
      exact .refl _
theorem execAll_less (hle : fuel ≤ fuel') : ∀ (s : Stmts) (place forks : Nat),
    Less (execAll S R fuel s place forks) (execAll S R fuel' s place forks)
  | .nil, _, _ => .refl _
  | .cons stmt next, _, _ => .followed (exec_less hle stmt _ _) (execAll_less hle next _ _)
theorem execArms_less (hle : fuel ≤ fuel') : ∀ (arms : CondArm) (place forks : Nat) {y y' : Eval W Flow}, Less y y' →
    Less (execArms S R fuel arms place forks y) (execArms S R fuel' arms place forks y')
  | .nil, _, _, _, _, hy => hy
  | .cons _ stmt next, _, _, y, y', hy => by
      rw [execArms, execArms]
      refine .bind (.refl _) fun v => ?_
      split
      · exact execAll_less hle stmt _ _
      · exact execArms_less hle next _ _ hy
theorem execExcepts_less (hle : fuel ≤ fuel') : ∀ (excepts : ExceptArm) (cs : List Var) (place forks : Nat)
    (tuple : List Var), Less (execExcepts S R fuel excepts cs place forks tuple)
      (execExcepts S R fuel' excepts cs place forks tuple)
  | .nil, _, _, _, _ => .refl _
  | .cons _ _ _ _, [], _, _, _ => .refl _
  | .cons _ _ stmt next, _ :: cs, _, _, tuple => by
      rw [execExcepts, execExcepts]
      split
      · exact .bind (.refl _) fun _ => execAll_less hle stmt _ _
      · exact execExcepts_less hle next _ _ _ _
end

/-- The activation runs forever, and no number of rounds is enough; or it comes to the one end that its statements
have with enough rounds. -/
def Settles (S : Server W) (literals : List Var) (bc : Bytecodes) (fast : Bool) (m : Machine W)
    (x : Nat → Except Interrupt Flow × Memory W) : Prop :=
  ((∀ fuel, (x fuel).1 = .error .tires) ∧ Forever S literals bc fast m) ∨
    ∃ r, r.1 ≠ .error .tires ∧ (∃ enough, ∀ fuel, enough ≤ fuel → x fuel = r) ∧
      (∀ fuel, Ends S literals bc fast true fuel m r) ∧ (ListsFit S literals bc fast m → ¬ Forever S literals bc fast m)

theorem vector_settles {st : State} {body : Stmts} {forks : Nat} {σ : Memory W}
    (L : Laid st (vectorCode body forks) literals) (hS : S.Behaves) (h : body.admitted [] = true)
    (hfit : fitsAll true body = true) (hσ : σ.Plain) (temp : Var) (fast : Bool) :
    Settles S literals (layout st) fast ⟨⟨0, [], σ.env, σ.debug⟩, temp, σ.world⟩
      fun fuel => execAll (S.located st) (asCompiled literals) fuel body 0 forks σ := by
  have hends : ∀ fuel, Ends S literals (layout st) fast true fuel _ _ := fun fuel => vector_runs L hS h hfit hσ temp fast
  by_cases htires : ∀ fuel, (execAll (S.located st) (asCompiled literals) fuel body 0 forks σ).1 = .error .tires
  · exact .inl ⟨htires, Stays.forever fun fuel => (hends fuel).stays (htires fuel)⟩
  · obtain ⟨enough, henough⟩ := not_forall.mp htires
    refine .inr ⟨execAll (S.located st) (asCompiled literals) enough body 0 forks σ, henough, ⟨enough, fun fuel hle => ?_⟩,
      fun fuel => ?_, fun hlists => ?_⟩
    · exact execAll_less hle body 0 forks σ henough
    · exact (hends enough).any henough
    · exact (hends enough).not_forever henough hlists

end

end LambdaMoo.Interpreter
