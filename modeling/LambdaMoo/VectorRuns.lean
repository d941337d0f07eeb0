import LambdaMoo.TryRuns

/-! Whole vectors: what the activation that runs a program comes to, and when it comes to an end. -/
namespace LambdaMoo.Interpreter
open Listing CodeGen

variable {W : Type}

section

variable (S : Server W) (literals : List Var) (bc : Bytecodes)

def Leaves (fast : Bool) (m : Machine W) (why : Reason) (v : Var) (σ : Memory W) : Prop :=
  ∃ n m', Steps S literals bc fast m n ∧ advance S literals bc fast n = .leaves why v m' ∧ m'.rts = [] ∧ m'.env = σ.env ∧
    m'.debug = σ.debug ∧ m'.world = σ.world

def Ends (fast all : Bool) (fuel : Nat) (m : Machine W) : Except Interrupt Flow × Memory W → Prop
  | (.ok .falls, σ) => Leaves S literals bc fast m .return_ zero σ
  | (.ok (.returns v), σ) => Leaves S literals bc fast m .return_ v σ
  | (.ok (.exits _ _), _) => False
  | (.error (.raise code info), σ) =>
      Leaves S literals bc fast m (S.thrown [] code info).1 (S.thrown [] code info).2 σ
  | (.error .stops, _) => ∃ n, Steps S literals bc fast m n ∧ advance S literals bc fast n = .stops
  | (.error .undefined, _) => Breaks S literals bc fast m
  | (.error .tires, _) => Stays S literals bc fast all fuel m

end

section

variable {S : Server W} {literals : List Var} {bc : Bytecodes} {st : State} {m n : Machine W} {σ : Memory W}
  {fast all : Bool} {fuel k : Nat}

theorem leaves_of_unwinds {why : Reason} {v : Var} {junk : List Var} {m' : Machine W}
    (hstep : step S literals bc false n = .unwinds why v m') (hrts : m'.rts = junk) (hwhy : why ≠ .exit) {code : Var}
    (hcode : codeOf why v = some code) (hpasses : Passes why code junk) :
    advance S literals bc false n = .leaves why v { m' with rts := [] } := by
  have hexit : exitOf why v = some (0, 0) := by
    cases why with
    | exit => exact absurd rfl hwhy
    | _ => rfl
  have hends : unwindRts why code v 0 0 m'.rts = some (.goal []) := by
    have hpasses := hpasses v 0 [] (Nat.le_refl 0)
    rw [List.append_nil] at hpasses
    rw [hrts, hpasses]
    rfl
  rw [advance, hstep, Next.settle, hcode, hexit]
  dsimp only
  rw [hends]
  exact if_neg hwhy

theorem Unwinds.leaves {v : Var} (h : Unwinds S literals bc m .return_ v [] σ) : Leaves S literals bc false m .return_ v σ := by
  obtain ⟨n, m', junk, hs, hstep, hrts, hpasses, henv, hdebug, hworld⟩ := h
  rw [List.append_nil] at hrts
  exact ⟨n, _, hs, leaves_of_unwinds hstep hrts Reason.noConfusion rfl hpasses, rfl, henv, hdebug, hworld⟩

theorem Raises.leaves {code : Var} {info : List Var} (h : Raises S literals bc m code info [] σ) :
    Leaves S literals bc false m (S.thrown [] code info).1 (S.thrown [] code info).2 σ := by
  obtain ⟨n, m', junk, hs, hstep, hrts, hslips, henv, hdebug, hworld⟩ := h
  have hthrown : S.thrown m'.rts code info = S.thrown [] code info := by
    rw [Server.thrown, hrts, hslips.handler]
    rfl
  rw [List.append_nil] at hrts
  rw [propagate, hthrown] at hstep
  unfold Server.thrown at hstep ⊢
  split at hstep
  · next hhas =>
      rw [if_pos hhas]
      exact ⟨n, _, hs, leaves_of_unwinds hstep hrts Reason.noConfusion rfl hslips.raise, rfl, henv, hdebug, hworld⟩
  · next hhas =>
      rw [if_neg hhas]
      exact ⟨n, _, hs, leaves_of_unwinds hstep hrts Reason.noConfusion rfl hslips.uncaught, rfl, henv, hdebug, hworld⟩

theorem Runs.ends {place : Nat} {r : Except Interrupt Flow × Memory W}
    (h : Runs S literals (layout st) st all fuel m [] [] (fun τ temp => mach st place [] τ temp) r)
    (hdone : ∀ (τ : Memory W) temp, step S literals (layout st) false (mach st place [] τ temp) =
      .unwinds .return_ zero (mach st (place + 1) [] τ temp)) : Ends S literals (layout st) false all fuel m r := by
  obtain ⟨r, τ⟩ := r
  cases r with
  | ok flow =>
      cases flow with
      | falls =>
          obtain ⟨-, temp, hs⟩ := h
          exact Unwinds.leaves ⟨_, mach st (place + 1) [] τ temp, [], hs, hdone τ temp, rfl, .nil _ _, rfl, rfl, rfl⟩
      | exits leave exit =>
          obtain ⟨-, loop, hloop, -⟩ := h
          exact absurd (exitLoopCtx_mem hloop) List.not_mem_nil
      | returns v => exact h.2.2.leaves
  | error i =>
      cases i with
      | raise code info => exact h.2.2.leaves
      | stops =>
          obtain ⟨n, hs, hstop⟩ := h
          exact ⟨n, hs, by rw [advance, hstop, Next.settle]⟩
      | undefined => exact h
      | tires => exact h

theorem vector_ends {body : Stmts} {forks : Nat} (L : Laid st (vectorCode body forks) literals) (hS : S.Behaves)
    (h : body.admitted [] = true) (hfit : fitsAll all body = true) (hσ : σ.Plain) (temp : Var) :
    Ends S literals (layout st) false all fuel ⟨⟨0, [], σ.env, σ.debug⟩, temp, σ.world⟩
      (execAll (S.located st) (asCompiled literals) fuel body 0 forks σ) := by
  have hsits : Sits (vectorCode body forks) 0 (vectorCode body forks) := ⟨[], [], by simp, rfl⟩
  have henters : Enters { forks := forks } [] σ := ⟨rfl, fun _ hloop => absurd hloop List.not_mem_nil, hσ⟩
  have hruns : Runs S literals (layout st) st all fuel (mach st 0 [] σ temp) _ _ _ _ :=
    stmtsCode_run L hS body (c := { forks := forks }) h hfit hsits.left henters
  have hdone := hsits.next (stmtsCode_length body { forks := forks } h)
  obtain ⟨c, hrep⟩ := L.rep
  have hstart : mach st 0 [] σ temp = ⟨⟨0, [], σ.env, σ.debug⟩, temp, σ.world⟩ := by rw [mach, hrep.offset_zero]
  rw [← hstart]
  exact hruns.ends fun τ temp => L.step_op (hdone.get (k := 0) rfl)

/-! How long it runs. -/

def Forever (S : Server W) (literals : List Var) (bc : Bytecodes) (fast : Bool) (m : Machine W) : Prop :=
  ∀ n, Steps S literals bc fast m n → ∃ n', Goes S literals bc fast n n'

theorem Stays.forever (h : ∀ k, Stays S literals bc fast all k m) : Forever S literals bc fast m := by
  intro n hs
  induction hs using Relation.ReflTransGen.head_induction_on with
  | refl =>
      cases h 1 with
      | free hgoes _ => exact ⟨_, hgoes⟩
      | counted _ hgoes _ => exact ⟨_, hgoes⟩
  | head hgoes _ ih =>
      refine ih fun k => ?_
      cases h (k + 1) with
      | free hgoes' hk => cases hgoes.symm.trans hgoes'; exact hk.less (Nat.le_succ k)
      | counted _ hgoes' hk => cases hgoes.symm.trans hgoes'; exact hk

/-- No list that is on top of the stack in the run is longer than those of C. -/
def ListsFit (S : Server W) (literals : List Var) (bc : Bytecodes) (fast : Bool) (m : Machine W) : Prop :=
  ∀ n, Steps S literals bc fast m n → ∀ l ∈ n.rts.head?, ∀ vs, l = .list vs → vs.length < intMax

theorem Ends.not_forever {r : Except Interrupt Flow × Memory W} (h : Ends S literals bc fast all fuel m r)
    (htires : r.1 ≠ .error .tires) (hlists : ListsFit S literals bc fast m) : ¬ Forever S literals bc fast m := by
  intro hforever
  have hleaves : ∀ {why v σ}, ¬ Leaves S literals bc fast m why v σ := by
    intro why v σ ⟨n, m', hs, hleaves, _⟩
    obtain ⟨n', hgoes⟩ := hforever n hs
    cases hleaves.symm.trans hgoes
  obtain ⟨r, σ⟩ := r
  cases r with
  | ok flow =>
      cases flow with
      | falls => exact hleaves h
      | exits leave exit => exact h
      | returns v => exact hleaves h
  | error i =>
      cases i with
      | raise code info => exact hleaves h
      | stops =>
          obtain ⟨n, hs, hstop⟩ := h
          obtain ⟨n', hgoes⟩ := hforever n hs
          cases hstop.symm.trans hgoes
      | undefined =>
          obtain ⟨n, hs, -, hbreaks | ⟨l, hl, vs, hvs, hlong⟩⟩ := h
          · obtain ⟨n', hgoes⟩ := hforever n hs
            rw [Goes, advance, hbreaks] at hgoes
            cases hgoes
          · exact absurd (hlists n hs l hl vs hvs) (not_lt.mpr hlong)
      | tires => exact htires rfl

theorem Ends.stays {r : Except Interrupt Flow × Memory W} (h : Ends S literals bc fast all fuel m r) (htires : r.1 = .error .tires) :
    Stays S literals bc fast all fuel m := by
  obtain ⟨r, σ⟩ := r
  cases (htires : r = .error .tires)
  exact h

theorem Ends.any {r : Except Interrupt Flow × Memory W} (h : Ends S literals bc fast all fuel m r) (htires : r.1 ≠ .error .tires) :
    Ends S literals bc fast all k m r := by
  obtain ⟨r, σ⟩ := r
  cases r with
  | ok flow => cases flow <;> exact h
  | error i =>
      cases i with
      | tires => exact absurd rfl htires
      | _ => exact h

end

end LambdaMoo.Interpreter
