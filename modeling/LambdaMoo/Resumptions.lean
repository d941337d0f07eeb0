import LambdaMoo.Objects
import LambdaMoo.Unwinding

/-! The programmer that a built-in function goes on with when the verb that it called has ended: it
is the caller's when the verb returns, else that of the verb. -/
namespace LambdaMoo

variable {D W : Type}

namespace Resumption

/-- The built-in goes on where it wanted to, for the programmer of the activation that called it. -/
def Keeps (r : Resumption D) : Prop :=
  ∃ bi, r.ended.biFunc = some bi ∧ r.invocation.id = bi.id ∧ r.invocation.pc = bi.pc ∧
    r.invocation.data = bi.data ∧ r.invocation.progr = r.caller.progr

/-- If it is `move` and the verb was `accept`, which has not returned, nothing is moved for a caller
who is no wizard. -/
def RefusesMove (r : Resumption D) : Prop :=
  ∀ (env : Env) (db : Db) (what where' : Objid), r.why ≠ .return_ → db.isWizard r.caller.progr = false →
    db.moveAccepted env r.invocation.progr what where' r.invocation.value.isTrue = some (.raise .eNacc, db)

def Made (r : Resumption D) : Prop :=
  ∃ bi, r.ended.biFunc = some bi ∧ r.invocation.id = bi.id ∧ r.invocation.pc = bi.pc ∧
    r.invocation.data = bi.data ∧
    (r.why = .return_ ∧ r.invocation.progr = r.caller.progr ∨
      r.why ≠ .return_ ∧ r.invocation.progr = r.ended.progr ∧ r.invocation.value = zero)

theorem Made.keeps_iff {r : Resumption D} (h : r.Made) :
    r.Keeps ↔ r.why = .return_ ∨ r.ended.progr = r.caller.progr := by
  obtain ⟨bi, hbi, hid, hpc, hdata, hprogr⟩ := h
  constructor
  · rintro ⟨-, -, -, -, -, hkept⟩
    obtain ⟨hwhy, -⟩ | ⟨-, hended, -⟩ := hprogr
    · exact .inl hwhy
    · exact .inr (hended.symm.trans hkept)
  · intro h
    refine ⟨bi, hbi, hid, hpc, hdata, ?_⟩
    obtain ⟨-, hcaller⟩ | ⟨hwhy, hended, -⟩ := hprogr
    · exact hcaller
    · exact hended.trans (h.resolve_left hwhy)

theorem Made.refusesMove {r : Resumption D} (h : r.Made) (hkeeps : r.Keeps) : r.RefusesMove := by
  obtain ⟨-, -, -, -, -, hprogr⟩ := h
  obtain ⟨-, -, -, -, -, hkept⟩ := hkeeps
  intro env db what where' hwhy hwizard
  obtain ⟨hreturn, -⟩ | ⟨-, -, hvalue⟩ := hprogr
  · exact absurd hreturn hwhy
  · unfold Db.moveAccepted
    rw [hkept, hvalue, hwizard]
    rfl

end Resumption

variable {callBiFunc : Invocation D → W → BiPackage D × W} {makeStackList : List (StackedActivation D) → Var}

theorem squelch_made {caller : StackedActivation D} {why : Reason} (hwhy : why ≠ .return_) {fuel : Nat}
    {a : StackedActivation D} {bi : BiFunc D} {w : W} :
    ∀ r ∈ (squelch callBiFunc caller why fuel a bi w).1, r.Made := by
  induction fuel generalizing a bi w with
  | zero => exact fun r hr => absurd hr List.not_mem_nil
  | succ fuel ih =>
      have hdone : Resumption.Made (D := D) ⟨{ a with biFunc := some bi }, caller, why, ⟨bi.id, zero, bi.pc, a.progr, bi.data⟩⟩ :=
        ⟨bi, rfl, rfl, rfl, rfl, .inr ⟨hwhy, rfl, rfl⟩⟩
      have hone : ∀ r ∈ [(⟨{ a with biFunc := some bi }, caller, why, ⟨bi.id, zero, bi.pc, a.progr, bi.data⟩⟩ : Resumption D)],
          r.Made := fun r hr => List.mem_singleton.mp hr ▸ hdone
      rw [squelch]
      dsimp only
      split
      · split
        · exact hone
        · intro r hr
          obtain rfl | hr := List.mem_cons.mp hr
          · exact hdone
          · exact ih r hr
      · exact hone

theorem passCaller_made {fuel : Nat} {a caller : StackedActivation D} {rest : List (StackedActivation D)}
    {why : Reason} {value : Var} {w : W} :
    ∀ r ∈ (passCaller callBiFunc makeStackList fuel a caller rest why value w).1, r.Made := by
  intro r hr
  unfold passCaller at hr
  split at hr
  · exact absurd hr List.not_mem_nil
  · next bi hbi =>
      split at hr
      · next hwhy =>
          obtain rfl := List.mem_singleton.mp hr
          exact ⟨bi, hbi, rfl, rfl, rfl, .inl ⟨hwhy, rfl⟩⟩
      · next hwhy => exact squelch_made hwhy r hr

theorem unwindStack_made {fuel : Nat} {stack : List (StackedActivation D)} {why : Reason} {value : Var} {w : W} :
    ∀ r ∈ (unwindStack callBiFunc makeStackList fuel stack why value w).1, r.Made := by
  induction stack generalizing why value w with
  | nil => exact fun r hr => absurd hr List.not_mem_nil
  | cons a stack ih =>
      intro r hr
      rw [unwindStack.eq_def] at hr
      dsimp only at hr
      split at hr
      · exact absurd hr List.not_mem_nil
      · exact absurd hr List.not_mem_nil
      · exact absurd hr List.not_mem_nil
      · next caller rest _ =>
          have hpassed : ∀ r ∈ (passCaller callBiFunc makeStackList fuel a caller rest why value w).1, r.Made :=
            passCaller_made
          split at hr
          · next heq =>
              rw [heq] at hpassed
              exact hpassed r hr
          · next heq =>
              rw [heq] at hpassed
              exact hpassed r hr
          · next heq =>
              rw [heq] at hpassed
              exact hpassed r hr
          · next heq =>
              rw [heq] at hpassed
              obtain hr | hr := List.mem_append.mp hr
              · exact hpassed r hr
              · exact ih r hr

/-- In every unwinding of every stack, a built-in function goes on as it wanted to, and `move` is
refused to those to whom it is to be refused, just if the verb has returned or belongs to the
programmer of the caller. -/
theorem resumption_keeps_iff (callBiFunc : Invocation D → W → BiPackage D × W)
    (makeStackList : List (StackedActivation D) → Var) (fuel : Nat) (stack : List (StackedActivation D))
    (why : Reason) (value : Var) (w : W) (r : Resumption D)
    (hr : r ∈ (unwindStack callBiFunc makeStackList fuel stack why value w).1) :
    (r.Keeps ∧ r.RefusesMove) ↔ r.why = .return_ ∨ r.ended.progr = r.caller.progr := by
  have hmade := unwindStack_made r hr
  constructor
  · exact fun h => hmade.keeps_iff.mp h.1
  · intro h
    have hkeeps := hmade.keeps_iff.mpr h
    exact ⟨hkeeps, hmade.refusesMove hkeeps⟩

/-- A verb that a built-in function has called, above the activation of programmer 3 that called the
built-in. -/
def calledBuiltin (progr : Objid) : List (StackedActivation Unit) :=
  [{ pc := 0, rts := [], env := fun _ => .none, debug := true, progr := progr, biFunc := some ⟨7, 2, ()⟩ },
   { pc := 0, rts := [], env := fun _ => .none, debug := true, progr := 3, biFunc := none }]

/-- What is left of the built-in of `calledBuiltin` after an error that no handler takes. -/
def abandoned (progr : Objid) : Resumption Unit where
  ended := { pc := 0, rts := [], env := fun _ => .none, debug := true, progr := progr, biFunc := some ⟨7, 2, ()⟩ }
  caller := { pc := 0, rts := [], env := fun _ => .none, debug := true, progr := 3, biFunc := none }
  why := .uncaught
  invocation := ⟨7, zero, 2, progr, ()⟩

theorem abandoned_mem (progr : Objid) :
    abandoned progr ∈ (unwindStack (fun _ (w : Unit) => (.ret zero, w)) (fun _ => zero) 1 (calledBuiltin progr)
      .uncaught zero ()).1 :=
  List.mem_cons_self

theorem abandoned_keeps : (abandoned 3).Keeps ∧ (abandoned 3).RefusesMove :=
  (resumption_keeps_iff (fun _ (w : Unit) => (.ret zero, w)) (fun _ => zero) 1 (calledBuiltin 3) .uncaught zero ()
    (abandoned 3) (abandoned_mem 3)).mpr (.inr rfl)

/-- The verb belongs to programmer 2, and it is 2 that the built-in of programmer 3 goes on for. -/
theorem abandoned_not_keeps :
    ¬ ∀ (stack : List (StackedActivation Unit)) (why : Reason) (value : Var),
      ∀ r ∈ (unwindStack (fun _ (w : Unit) => (.ret zero, w)) (fun _ => zero) 1 stack why value ()).1,
        r.Keeps ∧ r.RefusesMove := by
  intro h
  obtain ⟨⟨bi, -, -, -, -, hprogr⟩, -⟩ := h (calledBuiltin 2) .uncaught zero (abandoned 2) (abandoned_mem 2)
  exact absurd hprogr (by decide)

end LambdaMoo
