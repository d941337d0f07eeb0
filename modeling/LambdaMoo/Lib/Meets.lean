import Mathlib.Data.List.Basic

/-! Computations that can fail: what their results meet, and which errors they are kept
free of. -/
namespace Except

universe u

variable {ε : Type*} {α β : Type u} {bad : ε → Prop} {P P' : α → Prop} {Q : β → Prop} {x : Except ε α}

/-- Ends in a value with `P`, or in an error that is not `bad`. -/
def Meets (bad : ε → Prop) (P : α → Prop) : Except ε α → Prop
  | .error e => ¬ bad e
  | .ok a => P a

theorem bind_of_ok (a : α) (f : α → Except ε β) : ((Except.ok a : Except ε α) >>= f) = f a := rfl

@[simp] theorem meets_ok {a : α} : Meets bad P (.ok a) ↔ P a := Iff.rfl

@[simp] theorem meets_pure {a : α} : Meets bad P (pure a) ↔ P a := Iff.rfl

@[simp] theorem meets_error {e : ε} : Meets bad P (.error e : Except ε α) ↔ ¬ bad e := Iff.rfl

@[simp] theorem meets_throw {e : ε} : Meets bad P (throw e : Except ε α) ↔ ¬ bad e := Iff.rfl

theorem Meets.mono (h : Meets bad P x) (hP : ∀ a, P a → P' a) : Meets bad P' x := by
  cases x with
  | error e => exact h
  | ok a => exact hP a h

theorem Meets.bind {f : α → Except ε β} (h : Meets bad P x) (hf : ∀ a, P a → Meets bad Q (f a)) :
    Meets bad Q (x >>= f) := by
  cases x with
  | error e => exact h
  | ok a => exact hf a h

theorem Meets.of_ok {a : α} (h : Meets bad P x) (hx : x = .ok a) : P a := by
  subst hx
  exact h

theorem Meets.self (h : Meets bad P x) : Meets bad (fun a => x = .ok a) x := by
  cases x with
  | error e => exact h
  | ok a => rfl

theorem Meets.ne_error {e : ε} (h : Meets bad P x) (he : bad e) : x ≠ .error e := by
  intro hx
  subst hx
  exact h he

theorem Meets.foldlM {f : α → β → Except ε α} (hf : ∀ a b, P a → Meets bad P (f a b)) (l : List β) :
    ∀ a, P a → Meets bad P (l.foldlM f a) := by
  induction l with
  | nil => exact fun a ha => ha
  | cons b l ih =>
      intro a ha
      rw [List.foldlM_cons]
      exact (hf a b ha).bind ih

end Except
