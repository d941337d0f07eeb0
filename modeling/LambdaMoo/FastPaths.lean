import LambdaMoo.VectorRuns

/-! The fast paths of `run`: an `OP_IMM` or an `OP_PUT` that an `OP_POP` comes behind is carried out together with it.
What an activation comes to is the same with them and without them. -/
namespace LambdaMoo.Interpreter
open Listing CodeGen

variable {W : Type} {S : Server W} {literals : List Var} {bc : Bytecodes} {fast all : Bool} {m n : Machine W}

/-! One opcode. -/

theorem opcode_alone {errorPc : Nat} {o : Opcode} (ho : standsAlone o = true) :
    opcode S literals bc errorPc true m o = opcode S literals bc errorPc false m o := by
  cases o with
  | imm => cases ho
  | put => cases ho
  | pop => cases ho
  | _ => rfl

theorem step_alone (h : Alone bc m) : step S literals bc true m = step S literals bc false m := by
  obtain ⟨b, hb, halone⟩ := h
  rw [step, step, hb]
  exact opcode_alone halone

def Pops (bc : Bytecodes) (m : Machine W) : Prop := bc.vector[m.pc]? = some Opcode.pop.byte

theorem Pops.goes (h : Pops bc m) {v : Var} {rts : List Var} (hrts : m.rts = v :: rts) :
    Goes S literals bc fast m { m with pc := m.pc + 1, rts := rts } := by
  have hstep : step S literals bc fast m = .goes { m with pc := m.pc + 1, rts := rts } := by
    rw [step, h]
    change executed S m.pc { m with pc := m.pc + 1 } (opPop { m with pc := m.pc + 1 }.toActivation) = _
    rw [opPop]
    dsimp only
    rw [hrts]
    rfl
  rw [Goes, advance, hstep, Next.settle]

/-- An opcode is carried out together with the `OP_POP` behind it. -/
def Paired (S : Server W) (literals : List Var) (bc : Bytecodes) (m n : Machine W) : Prop :=
  ¬ Alone bc m ∧ Pops bc n ∧ ∃ n', Goes S literals bc false n n' ∧ Goes S literals bc true m n'

theorem not_alone {b : UInt8} (hb : bc.vector[m.pc]? = some b) (ho : standsAlone (Opcode.ofByte b) = false) :
    ¬ Alone bc m := by
  rintro ⟨b', hb', halone⟩
  cases hb.symm.trans hb'
  rw [ho] at halone
  cases halone

theorem step_eq {b : UInt8} {o : Opcode} (hb : bc.vector[m.pc]? = some b) (ho : Opcode.ofByte b = o) :
    step S literals bc fast m = opcode S literals bc m.pc fast { m with pc := m.pc + 1 } o := by
  rw [step, hb, ← ho]

theorem imm_fast {b : UInt8} (hb : bc.vector[m.pc]? = some b) (ho : Opcode.ofByte b = .imm)
    (h : step S literals bc false m = .goes n) : step S literals bc true m = .goes n ∨ Paired S literals bc m n := by
  have hfast : step S literals bc true m = opImm literals bc true { m with pc := m.pc + 1 } := step_eq hb ho
  rw [step_eq hb ho, opcode, opImm, Bool.false_and, if_neg Bool.false_ne_true] at h
  dsimp only at h
  by_cases hpops : bc.vector[m.pc + 1 + bc.numbytes.literal]? = some Opcode.pop.byte
  · refine .inr ?_
    rw [opImm, Bool.true_and, hpops, if_pos (by decide)] at hfast
    cases hr : bc.read bc.numbytes.literal (m.pc + 1) with
    | error => rw [hr] at h; cases h
    | ok r =>
        obtain ⟨slot, pc⟩ := r
        obtain rfl := read_next hr
        rw [hr] at h
        dsimp only at h
        cases hv : literals[slot]? with
        | none => rw [hv] at h; cases h
        | some v =>
            rw [hv] at h
            have hn := Next.goes.inj h
            have hpops : Pops bc n := hn ▸ hpops
            have hrts : n.rts = v :: m.rts := hn ▸ rfl
            refine ⟨not_alone hb (by rw [ho]; rfl), hpops, _, hpops.goes hrts, ?_⟩
            rw [Goes, advance, hfast, ← hn]
            rfl
  · refine .inl ?_
    rw [hfast, opImm, Bool.true_and, if_neg (by simpa using hpops)]
    exact h

theorem put_fast {b : UInt8} {slot : Fin 32} (hb : bc.vector[m.pc]? = some b) (ho : Opcode.ofByte b = .put slot)
    (h : step S literals bc false m = .goes n) :
    step S literals bc true m = .goes n ∨ Paired S literals bc m n ∨ bc.vector[n.pc]? = none := by
  have hfast : step S literals bc true m = opPutReady S bc m.pc true slot { m with pc := m.pc + 1 } := step_eq hb ho
  rw [step_eq hb ho, opcode, opPutReady, if_neg Bool.false_ne_true] at h
  dsimp only at h
  rw [opPutReady, if_pos rfl, opPut] at hfast
  dsimp only at hfast
  cases hrts : m.rts with
  | nil => rw [hrts] at h; cases h
  | cons v rts =>
      rw [hrts] at h hfast
      have hn := Next.goes.inj h
      have hpc : n.pc = m.pc + 1 := hn ▸ rfl
      have hnrts : n.rts = v :: rts := hn ▸ rfl
      cases hnext : bc.vector[m.pc + 1]? with
      | none => exact .inr (.inr (by rw [hpc, hnext]))
      | some next =>
          rw [hnext] at hfast
          dsimp only at hfast
          by_cases hpop : next = Opcode.pop.byte
          · rw [if_pos hpop] at hfast
            have hpops : Pops bc n := by rw [Pops, hpc, hnext, hpop]
            refine .inr (.inl ⟨not_alone hb (by rw [ho]; rfl), hpops, _, hpops.goes hnrts, ?_⟩)
            rw [Goes, advance, hfast, ← hn]
            rfl
          · rw [if_neg hpop] at hfast
            exact .inl (hfast.trans h)

theorem goes_or_breaks {b : UInt8} (hb : bc.vector[m.pc]? = some b) (ho : standsAlone (Opcode.ofByte b) = false) :
    (∃ n, step S literals bc false m = .goes n) ∨ step S literals bc false m = .breaks := by
  rw [step_eq hb rfl]
  cases hop : Opcode.ofByte b with
  | imm =>
      rw [opcode, opImm, Bool.false_and, if_neg Bool.false_ne_true]
      split
      · split
        · exact .inl ⟨_, rfl⟩
        · exact .inr rfl
      · exact .inr rfl
  | put slot =>
      rw [opcode, opPutReady, if_neg Bool.false_ne_true]
      split
      · exact .inl ⟨_, rfl⟩
      · exact .inr rfl
  | pop =>
      rw [opcode, opPop]
      split
      · exact .inl ⟨_, rfl⟩
      · exact .inr rfl
  | _ => rw [hop] at ho; cases ho

theorem alone_of_ends (hgoes : ∀ n, ¬ Goes S literals bc false m n) (hbreaks : advance S literals bc false m ≠ .breaks) :
    Alone bc m := by
  cases hb : bc.vector[m.pc]? with
  | none => exact absurd (by rw [advance, step, hb, Next.settle]) hbreaks
  | some b =>
      cases ho : standsAlone (Opcode.ofByte b) with
      | true => exact ⟨b, hb, ho⟩
      | false =>
          obtain ⟨n, hstep⟩ | hstep := goes_or_breaks (S := S) hb ho
          · exact absurd (by rw [Goes, advance, hstep, Next.settle]) (hgoes n)
          · exact absurd (by rw [advance, hstep, Next.settle]) hbreaks

theorem goes_fast (h : Goes S literals bc false m n) :
    Goes S literals bc true m n ∨ Paired S literals bc m n ∨ bc.vector[n.pc]? = none := by
  cases hb : bc.vector[m.pc]? with
  | none =>
      rw [Goes, advance, step, hb] at h
      cases h
  | some b =>
      cases ho : standsAlone (Opcode.ofByte b) with
      | true =>
          rw [Goes, advance, ← step_alone ⟨b, hb, ho⟩] at h
          exact .inl h
      | false =>
          have hstep : step S literals bc false m = .goes n := by
            obtain ⟨n', hstep⟩ | hstep := goes_or_breaks (S := S) hb ho
            · rw [Goes, advance, hstep, Next.settle] at h
              rw [hstep, Outcome.goes.inj h]
            · rw [Goes, advance, hstep, Next.settle] at h
              cases h
          cases hop : Opcode.ofByte b with
          | imm =>
              obtain hfast | hpaired := imm_fast hb hop hstep
              · exact .inl (by rw [Goes, advance, hfast, Next.settle])
              · exact .inr (.inl hpaired)
          | put slot =>
              obtain hfast | hrest := put_fast hb hop hstep
              · exact .inl (by rw [Goes, advance, hfast, Next.settle])
              · exact .inr hrest
          | pop =>
              rw [step_eq hb hop] at hstep
              have hfast : step S literals bc true m = .goes n := (step_eq hb hop).trans hstep
              exact .inl (by rw [Goes, advance, hfast, Next.settle])
          | _ => rw [hop] at ho; cases ho

/-! Runs. -/

theorem Goes.unique {n n' : Machine W} (h : Goes S literals bc fast m n) (h' : Goes S literals bc fast m n') : n = n' :=
  Outcome.goes.inj (h.symm.trans h')

theorem Alone.not_pops (h : Alone bc m) : ¬ Pops bc m := by
  obtain ⟨b, hb, halone⟩ := h
  intro hpops
  cases hpops.symm.trans hb
  cases halone

theorem Goes.inside {n : Machine W} (h : Goes S literals bc fast m n) : bc.vector[m.pc]? ≠ none := by
  intro hb
  rw [Goes, advance, step, hb] at h
  cases h

theorem steps_fast (hs : Steps S literals bc false m n) (hn : Alone bc n) : Steps S literals bc true m n := by
  suffices h : Steps S literals bc true m n ∧
      (Pops bc m → ∀ m', Goes S literals bc false m m' → Steps S literals bc true m' n) from h.1
  induction hs using Relation.ReflTransGen.head_induction_on with
  | refl => exact ⟨.refl, fun hpops => absurd hpops hn.not_pops⟩
  | @head m n' hgoes hrest ih =>
      refine ⟨?_, fun _ m' hgoes' => hgoes.unique hgoes' ▸ ih.1⟩
      obtain hfast | ⟨-, hpops, m', hpop, hfast⟩ | hend := goes_fast hgoes
      · exact .head hfast ih.1
      · exact .head hfast (ih.2 hpops m' hpop)
      · obtain rfl | ⟨_, hgoes', -⟩ := hrest.cases_head
        · obtain ⟨b, hb, -⟩ := hn
          cases hend.symm.trans hb
        · exact absurd hend hgoes'.inside

theorem leaves_fast {why : Reason} {v : Var} {σ : Memory W} (h : Leaves S literals bc false m why v σ) :
    Leaves S literals bc true m why v σ := by
  obtain ⟨n, m', hs, hleaves, hrest⟩ := h
  have hn : Alone bc n := alone_of_ends (fun n' hgoes => by cases hleaves.symm.trans hgoes) fun hbreaks => by
    cases hleaves.symm.trans hbreaks
  exact ⟨n, m', steps_fast hs hn, by rw [advance, step_alone hn]; exact hleaves, hrest⟩

theorem breaks_fast (h : Breaks S literals bc false m) : Breaks S literals bc true m := by
  obtain ⟨n, hs, hn, hbreaks⟩ := h
  exact ⟨n, steps_fast hs hn, hn, by rwa [step_alone hn]⟩

theorem stays_fast {k : Nat} (h : Stays S literals bc false all k m) : Stays S literals bc true all k m := by
  suffices h : Stays S literals bc true all k m ∧
      (Pops bc m → ∀ m', Goes S literals bc false m m' → Stays S literals bc true all k m') from h.1
  induction h with
  | none m => exact ⟨.none m, fun _ m' _ => .none m'⟩
  | free hgoes hrest ih =>
      refine ⟨?_, fun _ m' hgoes' => hgoes.unique hgoes' ▸ ih.1⟩
      obtain hfast | ⟨-, hpops, m', hpop, hfast⟩ | hend := goes_fast hgoes
      · exact .free hfast ih.1
      · exact .free hfast (ih.2 hpops m' hpop)
      · cases hrest with
        | none => exact .none _
        | free hgoes' _ => exact absurd hend hgoes'.inside
        | counted _ hgoes' _ => exact absurd hend hgoes'.inside
  | counted hcounts hgoes _ ih =>
      refine ⟨?_, fun hpops => absurd hpops hcounts.1.not_pops⟩
      rw [Goes, advance, ← step_alone hcounts.1] at hgoes
      exact .counted hcounts hgoes ih.1

theorem ends_fast {fuel : Nat} {r : Except Interrupt Flow × Memory W} (h : Ends S literals bc false all fuel m r) (fast : Bool) :
    Ends S literals bc fast all fuel m r := by
  cases fast with
  | false => exact h
  | true =>
      obtain ⟨r, σ⟩ := r
      cases r with
      | ok flow =>
          cases flow with
          | falls => exact leaves_fast h
          | exits leave exit => exact h
          | returns v => exact leaves_fast h
      | error i =>
          cases i with
          | raise code info => exact leaves_fast h
          | stops =>
              obtain ⟨n, hs, hstop⟩ := h
              have hn : Alone bc n := alone_of_ends (fun n' hgoes => by cases hstop.symm.trans hgoes) fun hbreaks => by
                cases hstop.symm.trans hbreaks
              exact ⟨n, steps_fast hs hn, by rw [advance, step_alone hn]; exact hstop⟩
          | undefined => exact breaks_fast h
          | tires => exact stays_fast h

/-- What runs forever without the fast paths does so with them, and comes to nothing else. -/
theorem forever_fast (h : Forever S literals bc false m) :
    Forever S literals bc true m ∧ ∀ n, Steps S literals bc true m n → Steps S literals bc false m n := by
  have hgoes : ∀ n, Steps S literals bc false m n → ∃ n', Goes S literals bc true n n' ∧ Steps S literals bc false m n' := by
    intro n hs
    obtain ⟨n', hgoes⟩ := h n hs
    obtain hfast | ⟨-, -, n'', hpop, hfast⟩ | hend := goes_fast hgoes
    · exact ⟨n', hfast, hs.tail hgoes⟩
    · exact ⟨n'', hfast, (hs.tail hgoes).tail hpop⟩
    · obtain ⟨n'', hgoes'⟩ := h n' (hs.tail hgoes)
      exact absurd hend hgoes'.inside
  have hsteps : ∀ n, Steps S literals bc true m n → Steps S literals bc false m n := by
    intro n hs
    induction hs with
    | refl => exact .refl
    | tail _ hlast ih =>
        obtain ⟨n', hfast, hs⟩ := hgoes _ ih
        exact hlast.unique hfast ▸ hs
  refine ⟨fun n hs => ?_, hsteps⟩
  obtain ⟨n', hfast, -⟩ := hgoes n (hsteps n hs)
  exact ⟨n', hfast⟩

/-- The activation of a vector comes to what the statements mean, with the fast paths and without them. -/
theorem vector_runs {st : State} {body : Stmts} {forks fuel : Nat} {σ : Memory W}
    (L : Laid st (vectorCode body forks) literals) (hS : S.Behaves) (h : body.admitted [] = true)
    (hfit : fitsAll all body = true) (hσ : σ.Plain) (temp : Var) (fast : Bool) :
    Ends S literals (layout st) fast all fuel ⟨⟨0, [], σ.env, σ.debug⟩, temp, σ.world⟩
      (execAll (S.located st) (asCompiled literals) fuel body 0 forks σ) :=
  ends_fast (vector_ends L hS h hfit hσ temp) fast

end LambdaMoo.Interpreter
