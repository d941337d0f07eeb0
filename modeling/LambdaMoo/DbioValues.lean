import LambdaMoo.DbioLines

/-! Values of the database file: a value is read back as it was exactly if no string in it has a
line break. -/
namespace LambdaMoo

mutual
def Var.every (p : Var → Bool) : Var → Bool
  | .list l => p (.list l) && Var.everyOf p l
  | v => p v
def Var.everyOf (p : Var → Bool) : List Var → Bool
  | [] => true
  | v :: vs => v.every p && Var.everyOf p vs
end

mutual
def Var.depth : Var → Nat
  | .list l => Var.depthOf l + 1
  | _ => 0
def Var.depthOf : List Var → Nat
  | [] => 0
  | v :: vs => max v.depth (Var.depthOf vs)
end

/-- What fits into the `int` that the server keeps it in; floating-point numbers are left out. -/
def Var.fits : Var → Bool
  | .int n | .obj n => -2 ^ 31 ≤ n && n < 2 ^ 31
  | .catchMarker n | .finallyMarker n => n < 2 ^ 31
  | .list l => l.length < 2 ^ 31
  | .float _ => false
  | .str _ | .err _ | .clear | .none => true

def Var.oneLine : Var → Bool
  | .str s => '\n' ∉ s
  | _ => true

namespace Dbio

open Codec

variable {fmt : FloatFormat} {prehistory : Bool} {v : Var} {l : List Var} {p : Var → Bool}

theorem everyOf_iff : Var.everyOf p l = true ↔ ∀ v ∈ l, v.every p = true := by
  induction l with
  | nil => simp [Var.everyOf]
  | cons v vs ih => simp [Var.everyOf, ih]

theorem depth_le_depthOf (hv : v ∈ l) : v.depth ≤ Var.depthOf l := by
  induction l with
  | nil => contradiction
  | cons w ws ih =>
    unfold Var.depthOf
    obtain rfl | hv := List.mem_cons.mp hv
    · omega
    · have := ih hv
      omega

theorem writeVars_eq : writeVars fmt l = l.flatMap (writeVar fmt) := by
  induction l with
  | nil => rfl
  | cons v vs ih => rw [writeVars, List.flatMap_cons, ih]

mutual
theorem depth_le_length (fmt : FloatFormat) : (v : Var) → v.depth ≤ (writeVar fmt v).length
  | .list l => by
      have := depthOf_le_length fmt l
      simp [Var.depth, writeVar, writeNum]
      omega
  | .int _ | .obj _ | .str _ | .err _ | .clear | .none | .catchMarker _ | .finallyMarker _
  | .float _ => Nat.zero_le _
theorem depthOf_le_length (fmt : FloatFormat) : (l : List Var) →
    Var.depthOf l ≤ (writeVars fmt l).length
  | [] => Nat.zero_le _
  | v :: vs => by
      have := depth_le_length fmt v
      have := depthOf_le_length fmt vs
      rw [Var.depthOf, writeVars, List.length_append]
      omega
end

theorem numAs_recovers {f : Nat → Option Var} {n : Nat} (h : f n = some v) :
    Recovers (numAs f n) [] v True := by
  refine .of_exact fun rest => ?_
  change (if (n : Int) < 0 then none else (f (n : Int).toNat).map (·, rest)) = _
  rw [if_neg (by omega), Int.toNat_natCast, h]
  rfl

theorem numbered_recovers {f : Nat → Option Var} {n : Nat} (hn : n < 2 ^ 31) (h : f n = some v) :
    Recovers (readNum >>= numAs f) (writeNum n) v True :=
  (readNum_recovers (by omega) (by omega)).thenNil (numAs_recovers h)

theorem errors_errorNum (e : Error) : ∃ n : Nat, errorNum e = n ∧ n < 16 ∧ errors[n]? = some e := by
  cases e <;> exact ⟨_, rfl, by decide, rfl⟩

theorem readVarWithin_typed {fuel k : Nat} {w : Str} {ok : Prop} (hk : k < 10)
    (h : Recovers (readVarOfType fmt (readVarWithin fmt prehistory fuel) k) w v ok) :
    Recovers (readVarWithin fmt prehistory (fuel + 1)) (writeNum k ++ w) v ok := by
  refine (readNum_recovers (by omega) (by omega)).bindExact ?_
  rwa [if_neg (by omega)]

theorem readVarWithin_bare {fuel k : Nat} (hk : k < 10)
    (h : Recovers (readVarOfType fmt (readVarWithin fmt prehistory fuel) k) [] v True) :
    Recovers (readVarWithin fmt prehistory (fuel + 1)) (writeNum k) v True := by
  have hread := readVarWithin_typed hk h
  rwa [List.append_nil] at hread

theorem readVarWithin_recovers {fuel : Nat} (hv : v.every Var.fits = true) (hd : v.depth < fuel) :
    Recovers (readVarWithin fmt prehistory fuel) (writeVar fmt v) v (v.every Var.oneLine = true) := by
  induction fuel generalizing v with
  | zero => omega
  | succ fuel ih =>
    have hfree : ∀ {w : Str}, v.every Var.oneLine = true →
        Recovers (readVarWithin fmt prehistory (fuel + 1)) w v True →
        Recovers (readVarWithin fmt prehistory (fuel + 1)) w v (v.every Var.oneLine = true) :=
      fun hone hr => hr.congr (iff_of_true trivial hone)
    cases v with
    | clear => exact hfree rfl (readVarWithin_bare (k := 5) (by decide) (.pure _))
    | none => exact hfree rfl (readVarWithin_bare (k := 6) (by decide) (.pure _))
    | str s =>
      refine readVarWithin_typed (k := 2) (by decide) ?_
      exact ((readString_recovers s).last fun x hx => Var.str.inj hx).congr
        (by simp [Var.every, Var.oneLine])
    | obj n =>
      simp only [Var.every, Var.fits, Bool.and_eq_true, decide_eq_true_eq] at hv
      refine hfree rfl (readVarWithin_typed (k := 1) (by decide) ?_)
      exact (readNum_recovers hv.1 hv.2).last fun x hx => Var.obj.inj hx
    | int n =>
      simp only [Var.every, Var.fits, Bool.and_eq_true, decide_eq_true_eq] at hv
      refine hfree rfl (readVarWithin_typed (k := 0) (by decide) ?_)
      exact (readNum_recovers hv.1 hv.2).last fun x hx => Var.int.inj hx
    | err e =>
      obtain ⟨n, hn, hlt, he⟩ := errors_errorNum e
      refine hfree rfl (readVarWithin_typed (k := 3) (by decide) ?_)
      rw [hn]
      exact numbered_recovers (by omega) (by rw [he]; rfl)
    | catchMarker n =>
      simp only [Var.every, Var.fits, decide_eq_true_eq] at hv
      exact hfree rfl (readVarWithin_typed (k := 7) (by decide) (numbered_recovers hv rfl))
    | finallyMarker n =>
      simp only [Var.every, Var.fits, decide_eq_true_eq] at hv
      exact hfree rfl (readVarWithin_typed (k := 8) (by decide) (numbered_recovers hv rfl))
    | float d => simp [Var.every, Var.fits] at hv
    | list l =>
      simp only [Var.every, Var.fits, Bool.and_eq_true, decide_eq_true_eq] at hv
      obtain ⟨hlen, hall⟩ := hv
      have hmany := Recovers.many (writeVar fmt) id fun w hw =>
        ih (everyOf_iff.mp hall w hw) (Nat.lt_of_le_of_lt (depth_le_depthOf hw) (Nat.lt_of_succ_lt_succ hd))
      rw [← writeVars_eq, List.map_id] at hmany
      refine readVarWithin_typed (k := 4) (by decide) ?_
      refine ((readNum_recovers (i := l.length) (by omega) (by omega)).bindExact
        (hmany.last fun x hx => Var.list.inj hx)).congr ?_
      simp [Var.every, Var.oneLine, everyOf_iff]

theorem readVar_recovers (hv : v.every Var.fits = true) :
    Recovers (readVar fmt prehistory) (writeVar fmt v) v (v.every Var.oneLine = true) := by
  have hdeep : ∀ rest, v.depth < (writeVar fmt v ++ rest).length + 1 := by
    intro rest
    have := depth_le_length fmt v
    rw [List.length_append]
    omega
  exact ⟨fun hok rest => (readVarWithin_recovers hv (hdeep rest)).exact hok rest,
    fun hn rest => (readVarWithin_recovers hv (hdeep rest)).wrong hn rest⟩

end Dbio
end LambdaMoo
