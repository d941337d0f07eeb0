import Mathlib.Data.List.Basic

/-! Readers of what a writer has put at the front of their input, and how far they can be relied
on: a part is read back exactly under its condition, and comes out wrong without it. -/
namespace Codec

variable {σ α β : Type}

abbrev Reader (σ α : Type) := StateT (List σ) Option α

/-- `r` finds `a` in `w`, whatever follows, if `ok`, and otherwise nothing that is `a`. -/
structure Recovers (r : Reader σ α) (w : List σ) (a : α) (ok : Prop) : Prop where
  exact : ok → ∀ rest, r.run (w ++ rest) = some (a, rest)
  wrong : ¬ ok → ∀ rest x rest', r.run (w ++ rest) = some (x, rest') → x ≠ a

def Ends (r : Reader σ α) (P : α → Prop) : Prop := ∀ s y s', r.run s = some (y, s') → P y

theorem Ends.pure {P : α → Prop} {a : α} (h : P a) : Ends (pure a : Reader σ α) P := by
  intro s y s' hrun
  obtain ⟨rfl, -⟩ := Prod.mk.inj (Option.some.inj hrun)
  exact h

theorem Ends.bind {P : β → Prop} {r : Reader σ α} {k : α → Reader σ β} (h : ∀ x, Ends (k x) P) :
    Ends (r >>= k) P := by
  intro s y s' hrun
  rw [StateT.run_bind] at hrun
  obtain ⟨⟨x, s₁⟩, -, hx⟩ := Option.bind_eq_some_iff.mp hrun
  exact h x s₁ y s' hx

namespace Recovers

variable {r : Reader σ α} {w w' : List σ} {a : α} {b : β} {ok ok' : Prop}

theorem of_exact (h : ∀ rest, r.run (w ++ rest) = some (a, rest)) : Recovers r w a True :=
  ⟨fun _ => h, fun hn => absurd trivial hn⟩

theorem pure (a : α) : Recovers (pure a : Reader σ α) [] a True := of_exact fun _ => rfl

theorem congr (h : Recovers r w a ok) (hok : ok ↔ ok') : Recovers r w a ok' :=
  propext hok ▸ h

/-- The reader is right about `a` and `b` exactly if it is about one and then the other, where a
wrong `a` cannot come to the same end. -/
theorem bind {k : α → Reader σ β} (hr : Recovers r w a ok) (hk : Recovers (k a) w' b ok')
    (hinj : ∀ x, Ends (k x) fun y => y = b → x = a) :
    Recovers (r >>= k) (w ++ w') b (ok ∧ ok') := by
  constructor
  · rintro ⟨hok, hok'⟩ rest
    rw [StateT.run_bind, List.append_assoc, hr.exact hok]
    exact hk.exact hok' rest
  · intro hn rest y rest' hrun
    rw [StateT.run_bind, List.append_assoc] at hrun
    obtain ⟨⟨x, s⟩, hx, hy⟩ := Option.bind_eq_some_iff.mp hrun
    rintro rfl
    by_cases hok : ok
    · rw [hr.exact hok] at hx
      obtain ⟨rfl, rfl⟩ := Prod.mk.inj (Option.some.inj hx)
      exact hk.wrong (fun hok' => hn ⟨hok, hok'⟩) _ _ _ hy rfl
    · exact hr.wrong hok _ _ _ hx (hinj x s y rest' hy rfl)

theorem after {r' : Reader σ β} {s : Reader σ β} (hrun : ∀ rest, s.run (w ++ rest) = r'.run rest)
    (h : Recovers r' w' b ok') : Recovers s (w ++ w') b ok' := by
  constructor
  · intro hok rest
    rw [List.append_assoc, hrun, h.exact hok]
  · intro hn rest y rest' hy
    rw [List.append_assoc, hrun] at hy
    exact h.wrong hn _ _ _ hy

theorem bindExact {k : α → Reader σ β} (hr : Recovers r w a True)
    (hk : Recovers (k a) w' b ok') : Recovers (r >>= k) (w ++ w') b ok' := by
  refine hk.after fun rest => ?_
  rw [StateT.run_bind, hr.exact trivial]
  rfl

theorem bindNil {k : α → Reader σ β} (hr : Recovers r [] a True)
    (hk : Recovers (k a) w' b ok') : Recovers (r >>= k) w' b ok' := hr.bindExact hk

theorem thenNil {k : α → Reader σ β} (hr : Recovers r w a True) (hk : Recovers (k a) [] b ok') :
    Recovers (r >>= k) w b ok' := by
  have h := hr.bindExact hk
  rwa [List.append_nil] at h

theorem last {f : α → β} (hr : Recovers r w a ok) (hf : ∀ x, f x = f a → x = a) :
    Recovers (do let x ← r; return f x) w (f a) ok := by
  have h : Recovers (do let x ← r; return f x) (w ++ []) (f a) (ok ∧ True) :=
    hr.bind (Recovers.pure (f a)) fun x => .pure (hf x)
  rw [List.append_nil] at h
  exact h.congr (and_iff_left trivial)

theorem iff (hr : Recovers r w a ok) : (∀ rest, r.run (w ++ rest) = some (a, rest)) ↔ ok := by
  constructor
  · intro h
    by_contra hn
    exact hr.wrong hn [] a [] (h []) rfl
  · exact hr.exact

end Recovers

def many (r : Reader σ α) : Nat → Reader σ (List α)
  | 0 => return []
  | n + 1 => do
      let a ← r
      let as ← many r n
      return a :: as

theorem Recovers.many {γ : Type} {r : Reader σ α} (write : γ → List σ) (g : γ → α)
    {ok : γ → Prop} {l : List γ} (h : ∀ c ∈ l, Recovers r (write c) (g c) (ok c)) :
    Recovers (many r l.length) (l.flatMap write) (l.map g) (∀ c ∈ l, ok c) := by
  induction l with
  | nil => exact (Recovers.pure []).congr (by simp)
  | cons c cs ih =>
    have hcs := ih fun d hd => h d (List.mem_cons_of_mem c hd)
    have hboth : Recovers (Codec.many r (cs.length + 1)) (write c ++ cs.flatMap write)
        (g c :: cs.map g) (ok c ∧ ∀ d ∈ cs, ok d) := by
      refine (h c List.mem_cons_self).bind (hcs.last fun x hx => (List.cons.inj hx).2) ?_
      exact fun x => .bind fun xs => .pure fun heq => (List.cons.inj heq).1
    exact hboth.congr (by simp)

end Codec
