import Mathlib.Algebra.Order.Field.Power
import Mathlib.Data.Rat.Floor
import Mathlib.Data.Int.ModEq
import LambdaMoo.Numbers

/-! Integer arithmetic on the whole range of `int`. -/
namespace LambdaMoo

variable (fl : Doubles)

theorem toInt_ofInt_modEq (n : Int) : (Int32.ofInt n).toInt ≡ n [ZMOD 2 ^ 32] := by
  rw [Int32.toInt_ofInt]
  exact Int.bmod_emod

theorem wrap32_eq (n : Int) : wrap32 n = (Int32.ofInt n).toInt := by
  rw [Int32.toInt_ofInt]
  rfl

theorem exists_toInt {n : Int} (hlow : -2 ^ 31 ≤ n) (hhigh : n < 2 ^ 31) : ∃ i : Int32, i.toInt = n :=
  ⟨Int32.ofInt n, Int32.toInt_ofInt_of_le hlow hhigh⟩

theorem simpleBinary_int (iop : Int → Int → Int) (fop : UInt64 → UInt64 → UInt64) (a b : Int) :
    ∃ s : Int32, simpleBinary iop fop (.int a) (.int b) = some (.int s.toInt) ∧
      s.toInt ≡ iop a b [ZMOD 2 ^ 32] := by
  refine ⟨Int32.ofInt (iop a b), ?_, toInt_ofInt_modEq _⟩
  rw [← wrap32_eq]
  rfl

/-- What division of two integers is to do. -/
structure Divides (a b : Int32) : Prop where
  byZero : b.toInt = 0 → doDivide fl (.int a.toInt) (.int b.toInt) = some (.err .eDiv) ∧
    doModulus fl (.int a.toInt) (.int b.toInt) = some (.err .eDiv)
  exact : b.toInt ≠ 0 → ∃ q r : Int32,
    doDivide fl (.int a.toInt) (.int b.toInt) = some (.int q.toInt) ∧
    doModulus fl (.int a.toInt) (.int b.toInt) = some (.int r.toInt) ∧
    a.toInt ≡ q.toInt * b.toInt + r.toInt [ZMOD 2 ^ 32] ∧
    |r.toInt| < |b.toInt| ∧ (r.toInt = 0 ∨ r.toInt.sign = a.toInt.sign)

/-- What the other operators on two integers are to do. -/
structure Wraps (a b : Int32) : Prop where
  neg : ∃ s : Int32, opUnaryMinus fl (.int a.toInt) = .int s.toInt ∧
    s.toInt ≡ -a.toInt [ZMOD 2 ^ 32]
  add : ∃ s : Int32, doAdd fl (.int a.toInt) (.int b.toInt) = some (.int s.toInt) ∧
    s.toInt ≡ a.toInt + b.toInt [ZMOD 2 ^ 32]
  sub : ∃ s : Int32, doSubtract fl (.int a.toInt) (.int b.toInt) = some (.int s.toInt) ∧
    s.toInt ≡ a.toInt - b.toInt [ZMOD 2 ^ 32]
  mul : ∃ s : Int32, doMultiply fl (.int a.toInt) (.int b.toInt) = some (.int s.toInt) ∧
    s.toInt ≡ a.toInt * b.toInt [ZMOD 2 ^ 32]

theorem wraps (a b : Int32) : Wraps fl a b where
  neg := ⟨Int32.ofInt (-a.toInt), by rw [← wrap32_eq]; rfl, toInt_ofInt_modEq _⟩
  add := simpleBinary_int _ _ _ _
  sub := simpleBinary_int _ _ _ _
  mul := simpleBinary_int _ _ _ _

theorem divisionOp_int {iop : Int → Int → Option Int} (fexpr : UInt64 → UInt64 → UInt64) {a b : Int}
    (hb : b ≠ 0) : divisionOp iop fexpr (.int a) (.int b) = (iop a b).map .int := by
  simp [divisionOp, Var.sameType, hb]

theorem tdiv_fits (a b : Int32) (h : ¬ (a.toInt = intMin ∧ b.toInt = -1)) :
    ∃ q : Int32, q.toInt = a.toInt.tdiv b.toInt := by
  have hlow := a.le_toInt
  have hhigh := a.toInt_lt
  by_cases hb : b.toInt.natAbs ≤ 1
  · obtain hb | hb | hb : b.toInt = 0 ∨ b.toInt = 1 ∨ b.toInt = -1 := by omega
    · exact ⟨0, by rw [hb, Int.tdiv_zero]; rfl⟩
    · exact ⟨a, by rw [hb, Int.tdiv_one]⟩
    · have ha : a.toInt ≠ intMin := fun ha => h ⟨ha, hb⟩
      unfold intMin at ha
      rw [hb, Int.tdiv_neg, Int.tdiv_one]
      exact exists_toInt (by omega) (by omega)
  · have hq : (a.toInt.tdiv b.toInt).natAbs ≤ a.toInt.natAbs / 2 := by
      rw [Int.natAbs_tdiv]
      exact Nat.div_le_div_left (by omega) (by decide)
    exact exists_toInt (by omega) (by omega)

theorem tmod_fits (a b : Int32) (hb : b.toInt ≠ 0) :
    ∃ r : Int32, r.toInt = a.toInt.tmod b.toInt := by
  have hr : (a.toInt.tmod b.toInt).natAbs < b.toInt.natAbs := by
    rw [Int.natAbs_tmod]
    exact Nat.mod_lt _ (by omega)
  have hlow := b.le_toInt
  have hhigh := b.toInt_lt
  exact exists_toInt (by omega) (by omega)

theorem tmod_sign (a b : Int) : a.tmod b = 0 ∨ (a.tmod b).sign = a.sign := by
  rw [← Int.sign_eq_zero_iff_zero (a := a.tmod b), Int.sign_tmod]
  split
  · exact .inl rfl
  · exact .inr rfl

theorem divides_of_ne {a b : Int32} (h : ¬ (a.toInt = intMin ∧ b.toInt = -1)) : Divides fl a b where
  byZero hb := by
    rw [hb]
    exact ⟨rfl, rfl⟩
  exact hb := by
    obtain ⟨q, hq⟩ := tdiv_fits a b h
    obtain ⟨r, hr⟩ := tmod_fits a b hb
    have hdefined : ¬ (b.toInt = 0 ∨ a.toInt = intMin ∧ b.toInt = -1) := fun hbad => hbad.elim hb h
    refine ⟨q, r, ?_, ?_, ?_, ?_, ?_⟩
    · rw [doDivide, divisionOp_int _ hb, intDiv, if_neg hdefined, hq]
      rfl
    · rw [doModulus, divisionOp_int _ hb, intMod, if_neg hdefined, hr]
      rfl
    · rw [hq, hr, mul_comm, Int.mul_tdiv_add_tmod]
    · rw [hr, ← Int.natCast_natAbs, ← Int.natCast_natAbs, Int.natAbs_tmod]
      exact_mod_cast Nat.mod_lt _ (by omega)
    · rw [hr]
      exact tmod_sign a.toInt b.toInt

theorem doDivide_intMin : doDivide fl (.int intMin) (.int (-1)) = none := rfl

/-- Division is right on all integers but the smallest one and minus one, for which the
quotient is too large and the machine may do anything. -/
theorem divides_iff (a b : Int32) :
    (Divides fl a b ∧ Wraps fl a b) ↔ ¬ (a.toInt = -2 ^ 31 ∧ b.toInt = -1) := by
  constructor
  · rintro ⟨hdiv, -⟩ ⟨ha, hb⟩
    obtain ⟨q, -, hq, -⟩ := hdiv.exact (by rw [hb]; decide)
    rw [ha, hb] at hq
    exact Option.some_ne_none _ (hq.symm.trans (doDivide_intMin fl))
  · intro h
    exact ⟨divides_of_ne fl h, wraps fl a b⟩

def noDoubles : Doubles :=
  { add := fun _ _ => 0, sub := fun _ _ => 0, mul := fun _ _ => 0, div := fun _ _ => 0
    fmod := fun _ _ => 0, pow := fun _ _ => (0, false), neg := id, lt := fun _ _ => false
    ofInt := fun _ => 0 }

theorem intMin_not_divides : ¬ Divides noDoubles Int32.minValue (-1) := by
  intro hdiv
  obtain ⟨q, -, hq, -⟩ := hdiv.exact (by decide)
  exact Option.some_ne_none _ (hq.symm.trans (doDivide_intMin noDoubles))

/-! Powers. -/

theorem powerLoop_modEq (a r : Int) (b : Nat) : powerLoop a r b ≡ r * a ^ b [ZMOD 2 ^ 32] := by
  fun_induction powerLoop a r b with
  | case1 a r => simp
  | case2 a r b hb ih =>
      have ha : wrap32 (a * a) ≡ a * a [ZMOD 2 ^ 32] := Int.bmod_emod
      have hhalf : (a * a) ^ (b / 2) = a ^ (2 * (b / 2)) := by rw [← pow_two, pow_mul]
      refine ih.trans (((Int.ModEq.refl _).mul (ha.pow _)).trans ?_)
      rw [hhalf]
      split_ifs with hodd
      · have hr : wrap32 (r * a) ≡ r * a [ZMOD 2 ^ 32] := Int.bmod_emod
        refine (hr.mul_right _).trans ?_
        rw [mul_assoc, ← pow_succ', show 2 * (b / 2) + 1 = b by omega]
      · rw [show 2 * (b / 2) = b by omega]

theorem exists_powerLoop (a : Int) (r : Int32) (b : Nat) :
    ∃ p : Int32, powerLoop a r.toInt b = p.toInt := by
  induction b using Nat.strongRecOn generalizing a r with
  | ind b ih =>
      rw [powerLoop]
      split_ifs with hb hodd
      · exact ⟨r, rfl⟩
      · rw [wrap32_eq (r.toInt * a)]
        exact ih _ (by omega) _ _
      · exact ih _ (by omega) _ _

def truncate (x : ℚ) : Int := if 0 ≤ x then ⌊x⌋ else ⌈x⌉

theorem truncate_eq_zero {x : ℚ} (h : |x| < 1) : truncate x = 0 := by
  obtain ⟨hlow, hhigh⟩ := abs_lt.mp h
  unfold truncate
  split_ifs with hx
  · exact Int.floor_eq_zero_iff.mpr ⟨hx, hhigh⟩
  · exact Int.ceil_eq_zero_iff.mpr ⟨hlow, by linarith⟩

theorem truncate_intCast (n : Int) : truncate n = n := by
  unfold truncate
  split_ifs <;> simp

theorem doPower_neg {a b : Int} (hb : b < 0) (ha : a ≠ 0) :
    doPower fl (.int a) (.int b) = .int (truncate ((a : ℚ) ^ b)) := by
  rw [doPower, if_pos hb, if_neg ha]
  split_ifs with hneg heven hone
  · have heven : Even b := Int.even_iff.mpr heven
    rw [hneg, Int.cast_neg, Int.cast_one, heven.neg_one_zpow]
    exact congrArg Var.int (truncate_intCast 1).symm
  · have hodd : Odd b := Int.not_even_iff_odd.mp fun h => heven (Int.even_iff.mp h)
    rw [hneg, Int.cast_neg, Int.cast_one, hodd.neg_one_zpow]
    exact congrArg Var.int (truncate_intCast (-1)).symm
  · rw [hone, Int.cast_one, one_zpow]
    exact congrArg Var.int (truncate_intCast 1).symm
  · have habs : (1 : ℚ) < |(a : ℚ)| := by
      have : 1 < |a| := by
        rw [Int.abs_eq_natAbs]
        omega
      exact_mod_cast this
    rw [truncate_eq_zero]
    rw [abs_zpow]
    exact zpow_lt_one_of_neg₀ habs hb

/-- Exponentiation of two integers: the power without what does not fit, and for a
negative exponent the fraction without what is behind the point. -/
theorem doPower_int (a b : Int32) :
    if 0 ≤ b.toInt then
      ∃ p : Int32, doPower fl (.int a.toInt) (.int b.toInt) = .int p.toInt ∧
        p.toInt ≡ a.toInt ^ b.toInt.toNat [ZMOD 2 ^ 32]
    else doPower fl (.int a.toInt) (.int b.toInt) =
      if a.toInt = 0 then .err .eDiv else .int (truncate ((a.toInt : ℚ) ^ b.toInt)) := by
  split_ifs with hb ha
  · obtain ⟨p, hp⟩ := exists_powerLoop a.toInt 1 b.toInt.toNat
    have hloop := powerLoop_modEq a.toInt 1 b.toInt.toNat
    refine ⟨p, ?_, ?_⟩
    · rw [← hp, doPower, if_neg (by omega)]
      rfl
    · rw [← hp]
      simpa using hloop
  · rw [doPower, if_pos (by omega), if_neg (by omega), if_pos ha]
  · exact doPower_neg fl (by omega) ha

example : doPower noDoubles (.int 3) (.int 4) = .int 81 := by
  simp [doPower, powerLoop, wrap32, Int.bmod]

end LambdaMoo
