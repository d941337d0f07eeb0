import LambdaMoo.Rounds

/-! The ticks that `run` counts. It looks at them for the opcodes up to `OP_G_PUT` only: an extended opcode may use
one up, but does not end the task. -/
namespace LambdaMoo.Interpreter
open Listing CodeGen

variable {W : Type} (S : Server W) (literals : List Var) (bc : Bytecodes) (fast : Bool)

/-- An opcode is carried out, with the ticks that remain before and after it. Those of the opcodes that are called
are gone, too. -/
structure Clocked (x y : Machine W × Int) : Prop where
  goes : Goes S literals bc fast x.1 y.1
  le : y.2 ≤ x.2
  ticks : Ticks bc x.1 → 1 < x.2 ∧ y.2 < x.2

variable {S : Server W} {literals : List Var} {bc : Bytecodes} {fast : Bool}

section

variable {run : Nat → Machine W × Int} {n : Machine W}

theorem exists_run (hrun : ∀ i, Clocked S literals bc fast (run i) (run (i + 1))) (hs : Steps S literals bc fast (run 0).1 n) :
    ∃ i, n = (run i).1 := by
  induction hs with
  | refl => exact ⟨0, rfl⟩
  | tail _ hgoes ih =>
      obtain ⟨i, rfl⟩ := ih
      cases (hrun i).goes.symm.trans hgoes
      exact ⟨i + 1, rfl⟩

theorem Stays.le_ticks {k : Nat} {m : Machine W} (h : Stays S literals bc fast false k m)
    (hrun : ∀ i, Clocked S literals bc fast (run i) (run (i + 1))) {i : Nat} (hi : m = (run i).1) :
    k = 0 ∨ (k : Int) < (run i).2 := by
  induction h generalizing i with
  | none m => exact .inl rfl
  | free hgoes _ ih =>
      subst hi
      have hle := (hrun i).le
      cases (hrun i).goes.symm.trans hgoes
      have := ih rfl
      omega
  | counted hcounts hgoes _ ih =>
      subst hi
      obtain ⟨hone, hlt⟩ := (hrun i).ticks (hcounts.2.resolve_left Bool.false_ne_true)
      cases (hrun i).goes.symm.trans hgoes
      have := ih rfl
      omega

end

/-- If no `while` of a vector has a name, its activation comes to an end with any number of ticks. -/
theorem vector_halts {st : State} {body : Stmts} {forks : Nat} {σ : Memory W} {temp : Var}
    (L : Laid st (vectorCode body forks) literals) (hS : S.Behaves) (h : body.admitted [] = true)
    (hfit : fitsAll false body = true) (hσ : σ.Plain) {run : Nat → Machine W × Int}
    (hstart : (run 0).1 = ⟨⟨0, [], σ.env, σ.debug⟩, temp, σ.world⟩)
    (hlists : ListsFit S literals (layout st) fast (run 0).1) :
    ¬ ∀ i, Clocked S literals (layout st) fast (run i) (run (i + 1)) := by
  intro hrun
  have hforever : Forever S literals (layout st) fast (run 0).1 := by
    intro n hs
    obtain ⟨i, rfl⟩ := exists_run hrun hs
    exact ⟨_, (hrun i).goes⟩
  have hends : Ends S literals (layout st) fast false ((run 0).2.toNat + 1) _ _ :=
    vector_runs L hS h hfit hσ temp fast
  rw [← hstart] at hends
  by_cases htires : (execAll (S.located st) (asCompiled literals) ((run 0).2.toNat + 1) body 0 forks σ).1 = .error .tires
  · have := (hends.stays htires).le_ticks hrun rfl
    omega
  · exact hends.not_forever htires hlists hforever

end LambdaMoo.Interpreter
