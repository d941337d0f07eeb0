import LambdaMoo.Readings
import LambdaMoo.Rounds

/-! Tasks with limits. `run` looks at the ticks and the seconds where an opcode counts, and aborts the task if they are
used up. When they are depends on the rest of the task too, and is left open: a clock tells it of the opcodes of the
activation, in the order in which they are carried out. -/
namespace LambdaMoo.Interpreter
open Listing CodeGen

variable {W : Type}

/-- Whether it is too late when so many opcodes have been carried out. -/
abbrev Clock := Nat → Bool

section

variable (S : Server W) (literals : List Var) (bc : Bytecodes) (fast : Bool) (clock : Clock)

def outcomeAt (x : Machine W × Nat) : Outcome W := advanceInTime S literals bc fast (clock x.2) x.1

def Proceeds (x y : Machine W × Nat) : Prop := outcomeAt S literals bc fast clock x = .goes y.1 ∧ y.2 = x.2 + 1

def Reaches : Machine W × Nat → Machine W × Nat → Prop := Relation.ReflTransGen (Proceeds S literals bc fast clock)

/-- So much comes of the activation in the end. -/
def Comes (x : Machine W × Nat) (o : Outcome W) : Prop :=
  ∃ y, Reaches S literals bc fast clock x y ∧ outcomeAt S literals bc fast clock y = o

/-- It goes on for any number of opcodes. -/
def GoesOn (x : Machine W × Nat) : Prop := ∀ k, ∃ y, Reaches S literals bc fast clock x y ∧ x.2 + k ≤ y.2

def LeavesInTime (m : Machine W) (why : Reason) (v : Var) (σ : Memory W) : Prop :=
  ∃ m', Comes S literals bc fast clock (m, 0) (.leaves why v m') ∧ m'.rts = [] ∧ m'.env = σ.env ∧
    m'.debug = σ.debug ∧ m'.world = σ.world

/-- What comes of an activation, by what its statements come to. In C no list is as long as that. -/
def EndsInTime (fuel : Nat) (m : Machine W) : Except Interrupt Flow × Memory W → Prop
  | (.ok .falls, σ) => LeavesInTime S literals bc fast clock m .return_ zero σ
  | (.ok (.returns v), σ) => LeavesInTime S literals bc fast clock m .return_ v σ
  | (.ok (.exits _ _), _) => False
  | (.error (.raise code info), σ) =>
      LeavesInTime S literals bc fast clock m (S.thrown [] code info).1 (S.thrown [] code info).2 σ
  | (.error .stops, _) => Comes S literals bc fast clock (m, 0) .stops
  | (.error .undefined, _) => Comes S literals bc fast clock (m, 0) .breaks ∨
      ∃ y, Reaches S literals bc fast clock (m, 0) y ∧ ∃ l ∈ y.1.rts.head?, ∃ vs, l = .list vs ∧ intMax ≤ vs.length
  | (.error .tires, _) => ∃ y, Reaches S literals bc fast clock (m, 0) y ∧ fuel ≤ y.2

/-- The task is aborted, or its activation comes to what the statements come to. -/
def ComesTo (fuel : Nat) (m : Machine W) (r : Except Interrupt Flow × Memory W) : Prop :=
  Comes S literals bc fast clock (m, 0) .aborts ∨ EndsInTime S literals bc fast clock fuel m r

end

variable {S : Server W} {literals : List Var} {bc : Bytecodes} {fast : Bool} {clock : Clock} {m n : Machine W}
  {x y z : Machine W × Nat}

/-! One opcode. -/

theorem outcomeAt_cases : outcomeAt S literals bc fast clock x = .aborts ∨
    outcomeAt S literals bc fast clock x = advance S literals bc fast x.1 := by
  unfold outcomeAt advanceInTime
  split
  · exact .inl rfl
  · exact .inr rfl

theorem advance_ne_aborts : advance S literals bc fast m ≠ .aborts := by
  intro h
  unfold advance Next.settle at h
  cases hstep : step S literals bc fast m with
  | unwinds why value m' =>
      rw [hstep] at h
      dsimp only at h
      split at h
      · split at h
        · cases h
        · split at h <;> cases h
        · cases h
      · cases h
  | _ =>
      rw [hstep] at h
      cases h

theorem ticks_of_aborts {late : Bool} (h : advanceInTime S literals bc fast late m = .aborts) : Ticks bc m := by
  unfold advanceInTime at h
  split at h
  · next hlate =>
      obtain ⟨b, hb, hcounts⟩ := (Option.any_eq_true ..).mp (Bool.and_eq_true_iff.mp hlate).2
      exact ⟨b, hb, hcounts⟩
  · exact absurd h advance_ne_aborts

theorem outcomeAt_of_ne (h : outcomeAt S literals bc fast clock x ≠ .aborts) :
    outcomeAt S literals bc fast clock x = advance S literals bc fast x.1 :=
  outcomeAt_cases.resolve_left h

theorem Proceeds.goes (h : Proceeds S literals bc fast clock x y) : Goes S literals bc fast x.1 y.1 := by
  have hne : outcomeAt S literals bc fast clock x ≠ .aborts := by
    rw [h.1]
    exact fun hout => by cases hout
  exact (outcomeAt_of_ne hne).symm.trans h.1

theorem Proceeds.unique (h : Proceeds S literals bc fast clock x y) (h' : Proceeds S literals bc fast clock x z) :
    y = z :=
  Prod.ext (Outcome.goes.inj (h.1.symm.trans h'.1)) (h.2.trans h'.2.symm)

/-! Runs. -/

theorem Reaches.steps (h : Reaches S literals bc fast clock x y) : Steps S literals bc fast x.1 y.1 := by
  induction h with
  | refl => exact .refl
  | tail _ hlast ih => exact ih.tail hlast.goes

theorem Reaches.le (h : Reaches S literals bc fast clock x y) : x.2 ≤ y.2 := by
  induction h with
  | refl => exact Nat.le_refl _
  | tail _ hlast ih => rw [hlast.2]; exact Nat.le_succ_of_le ih

theorem Comes.after {o : Outcome W} (hs : Reaches S literals bc fast clock x y) (h : Comes S literals bc fast clock y o) :
    Comes S literals bc fast clock x o := by
  obtain ⟨z, hz, ho⟩ := h
  exact ⟨z, hs.trans hz, ho⟩

/-- At an opcode that is not the last one the task goes on or is aborted. -/
theorem aborts_or_proceeds (h : Goes S literals bc fast m n) (clock : Clock) (k : Nat) :
    Comes S literals bc fast clock (m, k) .aborts ∨ Proceeds S literals bc fast clock (m, k) (n, k + 1) := by
  obtain haborts | hgoes : outcomeAt S literals bc fast clock (m, k) = .aborts ∨ _ := outcomeAt_cases
  · exact .inl ⟨(m, k), .refl, haborts⟩
  · exact .inr ⟨hgoes.trans h, rfl⟩

theorem aborts_or_reaches (hs : Steps S literals bc fast m n) (clock : Clock) (k : Nat) :
    Comes S literals bc fast clock (m, k) .aborts ∨ ∃ j, Reaches S literals bc fast clock (m, k) (n, j) := by
  induction hs using Relation.ReflTransGen.head_induction_on generalizing k with
  | refl => exact .inr ⟨k, .refl⟩
  | head hgoes _ ih =>
      obtain haborts | hnext := aborts_or_proceeds hgoes clock k
      · exact .inl haborts
      · obtain haborts | ⟨j, hj⟩ := ih (k + 1)
        · exact .inl (haborts.after (.single hnext))
        · exact .inr ⟨j, .head hnext hj⟩

theorem aborts_or_comes {o : Outcome W} (hs : Steps S literals bc fast m n) (ho : advance S literals bc fast n = o)
    (clock : Clock) (k : Nat) :
    Comes S literals bc fast clock (m, k) .aborts ∨ Comes S literals bc fast clock (m, k) o := by
  obtain haborts | ⟨j, hj⟩ := aborts_or_reaches hs clock k
  · exact .inl haborts
  · obtain haborts | hout : outcomeAt S literals bc fast clock (n, j) = .aborts ∨ _ := outcomeAt_cases
    · exact .inl ⟨(n, j), hj, haborts⟩
    · exact .inr ⟨(n, j), hj, hout.trans ho⟩

theorem Stays.inTime {all : Bool} {fuel : Nat} (h : Stays S literals bc fast all fuel m) (clock : Clock) (k : Nat) :
    Comes S literals bc fast clock (m, k) .aborts ∨ ∃ y, Reaches S literals bc fast clock (m, k) y ∧ k + fuel ≤ y.2 := by
  induction h generalizing k with
  | none m => exact .inr ⟨(m, k), .refl, Nat.le_refl k⟩
  | free hgoes _ ih =>
      obtain haborts | hnext := aborts_or_proceeds hgoes clock k
      · exact .inl haborts
      · obtain haborts | ⟨y, hy, hle⟩ := ih (k + 1)
        · exact .inl (haborts.after (.single hnext))
        · exact .inr ⟨y, .head hnext hy, by omega⟩
  | counted _ hgoes _ ih =>
      obtain haborts | hnext := aborts_or_proceeds hgoes clock k
      · exact .inl haborts
      · obtain haborts | ⟨y, hy, hle⟩ := ih (k + 1)
        · exact .inl (haborts.after (.single hnext))
        · exact .inr ⟨y, .head hnext hy, by omega⟩

theorem Forever.inTime (h : Forever S literals bc fast m) (k : Nat) :
    Comes S literals bc fast clock (m, k) .aborts ∨ GoesOn S literals bc fast clock (m, k) := by
  by_contra hneither
  obtain ⟨haborts, hends⟩ := not_or.mp hneither
  refine hends fun j => ?_
  induction j with
  | zero => exact ⟨(m, k), .refl, Nat.le_refl k⟩
  | succ j ih =>
      obtain ⟨y, hy, hle⟩ := ih
      obtain ⟨n, hgoes⟩ := h y.1 hy.steps
      obtain hlate | hnext := aborts_or_proceeds hgoes clock y.2
      · exact absurd (hlate.after hy) haborts
      · exact ⟨(n, y.2 + 1), hy.tail hnext, by simp only at hle ⊢; omega⟩

theorem Comes.not_goesOn {o : Outcome W} (h : Comes S literals bc fast clock x o) (ho : ∀ m, o ≠ .goes m) :
    ¬ GoesOn S literals bc fast clock x := by
  intro hgoesOn
  obtain ⟨y, hy, hout⟩ := h
  obtain ⟨z, hz, hle⟩ := hgoesOn (y.2 + 1)
  have hunique : Relator.RightUnique (Proceeds S literals bc fast clock) := fun _ _ _ h h' => h.unique h'
  obtain hyz | hzy := Relation.ReflTransGen.total_of_right_unique hunique hy hz
  · obtain rfl | ⟨w, hw, -⟩ := hyz.cases_head
    · omega
    · exact ho _ (hout.symm.trans hw.1)
  · have := Reaches.le hzy
    omega

/-! Ends. -/

theorem Leaves.inTime {why : Reason} {v : Var} {σ : Memory W} (h : Leaves S literals bc fast m why v σ) :
    Comes S literals bc fast clock (m, 0) .aborts ∨ LeavesInTime S literals bc fast clock m why v σ := by
  obtain ⟨n, m', hs, hleaves, hrest⟩ := h
  exact (aborts_or_comes hs hleaves clock 0).imp_right fun h => ⟨m', h, hrest⟩

theorem Ends.inTime {all : Bool} {fuel : Nat} {r : Except Interrupt Flow × Memory W}
    (h : Ends S literals bc fast all fuel m r) : ComesTo S literals bc fast clock fuel m r := by
  obtain ⟨r, σ⟩ := r
  cases r with
  | ok flow =>
      cases flow with
      | falls => exact Leaves.inTime h
      | exits leave exit => exact False.elim h
      | returns v => exact Leaves.inTime h
  | error i =>
      cases i with
      | raise code info => exact Leaves.inTime h
      | stops =>
          obtain ⟨n, hs, hstop⟩ := h
          exact aborts_or_comes hs hstop clock 0
      | undefined =>
          obtain ⟨n, hs, -, hbreaks | hlong⟩ := h
          · have hout : advance S literals bc fast n = .breaks := by rw [advance, hbreaks, Next.settle]
            exact (aborts_or_comes hs hout clock 0).imp_right .inl
          · obtain haborts | ⟨j, hj⟩ := aborts_or_reaches hs clock 0
            · exact .inl haborts
            · exact .inr (.inr ⟨(n, j), hj, hlong⟩)
      | tires =>
          obtain haborts | ⟨y, hy, hle⟩ := Stays.inTime h clock 0
          · exact .inl haborts
          · exact .inr ⟨y, hy, by rwa [Nat.zero_add] at hle⟩

/-- With lists as short as those of C, an activation that comes to an end does not go on. -/
theorem ComesTo.not_goesOn {fuel : Nat} {r : Except Interrupt Flow × Memory W}
    (h : ComesTo S literals bc fast clock fuel m r) (htires : r.1 ≠ .error .tires) (hlists : ListsFit S literals bc fast m) :
    ¬ GoesOn S literals bc fast clock (m, 0) := by
  obtain haborts | h := h
  · exact haborts.not_goesOn fun _ hout => by cases hout
  have hleaves : ∀ {why v σ}, LeavesInTime S literals bc fast clock m why v σ → ¬ GoesOn S literals bc fast clock (m, 0) := by
    rintro why v σ ⟨m', hcomes, -⟩
    exact hcomes.not_goesOn fun _ hout => by cases hout
  obtain ⟨r, σ⟩ := r
  cases r with
  | ok flow =>
      cases flow with
      | falls => exact hleaves h
      | exits leave exit => exact False.elim h
      | returns v => exact hleaves h
  | error i =>
      cases i with
      | raise code info => exact hleaves h
      | stops => exact Comes.not_goesOn h fun _ hout => by cases hout
      | undefined =>
          obtain hbreaks | ⟨y, hy, l, hl, vs, hvs, hlong⟩ := h
          · exact hbreaks.not_goesOn fun _ hout => by cases hout
          · exact absurd (hlists y.1 hy.steps l hl vs hvs) (not_lt.mpr hlong)
      | tires => exact absurd rfl htires

/-! Vectors. -/

section

variable {st : State} {body : Stmts} {forks fuel : Nat} {σ : Memory W} (L : Laid st (vectorCode body forks) literals)
  (hS : S.Behaves) (h : body.admitted [] = true) (hv : Verbatim literals body) (hσ : σ.Plain) (temp : Var)
include L hS h hv hσ

end

/-- No number of rounds is enough, and the activation goes on or the task is aborted; or it is aborted or comes to the one end
that the statements have with enough rounds. -/
def SettlesInTime (S : Server W) (literals : List Var) (bc : Bytecodes) (fast : Bool) (clock : Clock) (m : Machine W)
    (x : Nat → Except Interrupt Flow × Memory W) : Prop :=
  ((∀ fuel, (x fuel).1 = .error .tires) ∧
      (Comes S literals bc fast clock (m, 0) .aborts ∨ GoesOn S literals bc fast clock (m, 0))) ∨
    ∃ r, r.1 ≠ .error .tires ∧ (∃ enough, ∀ fuel, enough ≤ fuel → x fuel = r) ∧
      (∀ fuel, ComesTo S literals bc fast clock fuel m r) ∧
      (ListsFit S literals bc fast m → ¬ GoesOn S literals bc fast clock (m, 0))

theorem Settles.inTime {f : Nat → Except Interrupt Flow × Memory W} (h : Settles S literals bc fast m f) :
    SettlesInTime S literals bc fast clock m f := by
  obtain ⟨htires, hforever⟩ | ⟨r, htires, henough, hends, -⟩ := h
  · exact .inl ⟨htires, hforever.inTime 0⟩
  · exact .inr ⟨r, htires, henough, fun fuel => (hends fuel).inTime, fun hlists =>
      (hends 0).inTime.not_goesOn htires hlists⟩

end LambdaMoo.Interpreter
