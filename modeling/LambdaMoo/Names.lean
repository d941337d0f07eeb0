import LambdaMoo.DbProperties
import LambdaMoo.DbVerbs

/-! Comparing names. On strings as C has them, without a NUL inside, it is comparing
them after all letters are made small. -/
namespace LambdaMoo

/-- A string that C reads to its end. -/
def Terminated (s : Str) : Prop := '\x00' ∉ s

instance (s : Str) : Decidable (Terminated s) := inferInstanceAs (Decidable ('\x00' ∉ s))

def lowered (s : Str) : Str := s.map asciiTolower

variable {s t u : Str} {c d : Char}

theorem asciiTolower_toNat (c : Char) :
    (asciiTolower c).toNat = if 65 ≤ c.toNat ∧ c.toNat ≤ 90 then c.toNat + 32 else c.toNat := by
  have hiff : ('A' ≤ c ∧ c ≤ 'Z') ↔ 65 ≤ c.toNat ∧ c.toNat ≤ 90 := Iff.rfl
  unfold asciiTolower
  simp only [hiff]
  split
  · next h =>
      have hv : (c.toNat + 32).isValidChar := .inl (by omega)
      unfold Char.ofNat
      rw [dif_pos hv]
      rfl
  · rfl

theorem asciiTolower_eq_zero : (asciiTolower c).toNat = 0 ↔ c = '\x00' := by
  rw [asciiTolower_toNat]
  constructor
  · intro h
    split at h
    · omega
    · exact Char.toNat_inj.mp h
  · rintro rfl
    rfl

theorem mystrcasecmp_eq_zero (hs : Terminated s) (ht : Terminated t) :
    mystrcasecmp s t = 0 ↔ lowered s = lowered t := by
  induction s generalizing t with
  | nil =>
      cases t with
      | nil => simp [mystrcasecmp]
      | cons d t =>
          have hd : d ≠ '\x00' := by
            rintro rfl
            exact ht (by simp)
          have := mt asciiTolower_eq_zero.mp hd
          simp only [mystrcasecmp, lowered, List.map_nil, List.map_cons, List.nil_eq, reduceCtorEq,
            iff_false]
          omega
  | cons c s ih =>
      cases t with
      | nil =>
          have hc : c ≠ '\x00' := by
            rintro rfl
            exact hs (by simp)
          have := mt asciiTolower_eq_zero.mp hc
          simp only [mystrcasecmp, lowered, List.map_nil, List.map_cons, reduceCtorEq, iff_false]
          omega
      | cons d t =>
          simp only [Terminated, List.mem_cons, not_or] at hs ht
          have ih := ih hs.2 ht.2
          simp only [mystrcasecmp, lowered, List.map_cons, List.cons.injEq]
          split
          · next h => simpa [h, lowered] using ih
          · next h =>
              have := mt Char.toNat_inj.mp h
              simp only [h, false_and, iff_false]
              omega

theorem sameName_iff (hs : Terminated s) (ht : Terminated t) :
    sameName s t = true ↔ lowered s = lowered t := by
  rw [sameName, beq_iff_eq, mystrcasecmp_eq_zero hs ht]

theorem sameName_of_lowered (h : lowered s = lowered t) : sameName s t = true := by
  rw [sameName, beq_iff_eq]
  induction s generalizing t with
  | nil =>
      cases t with
      | nil => rfl
      | cons d t => cases h
  | cons c s ih =>
      cases t with
      | nil => cases h
      | cons d t =>
          obtain ⟨hc, ht⟩ := List.cons.inj h
          rw [mystrcasecmp, if_pos hc]
          exact ih ht

theorem sameName_refl (s : Str) : sameName s s = true := sameName_of_lowered rfl

theorem sameName_comm (hs : Terminated s) (ht : Terminated t) : sameName s t = sameName t s := by
  rw [Bool.eq_iff_iff, sameName_iff hs ht, sameName_iff ht hs]
  exact eq_comm

theorem sameName_congr (hs : Terminated s) (ht : Terminated t) (hu : Terminated u)
    (h : lowered t = lowered u) : sameName s t = sameName s u := by
  rw [Bool.eq_iff_iff, sameName_iff hs ht, sameName_iff hs hu, h]

theorem strHash_lowered (s : Str) :
    strHash s =
      (lowered s).foldl (fun (ans : UInt32) c => (ans <<< 3) + (ans >>> 28) + UInt32.ofNat c.toNat) 0 := by
  rw [lowered, List.foldl_map]
  rfl

theorem nameMatches_of_lowered (h : lowered s = lowered t) : nameMatches s t = true := by
  rw [nameMatches, strHash_lowered, strHash_lowered t, h, sameName_of_lowered h]
  simp

theorem nameMatches_iff (hs : Terminated s) (ht : Terminated t) :
    nameMatches s t = true ↔ sameName s t = true := by
  constructor
  · intro h
    rw [nameMatches, Bool.and_eq_true] at h
    exact h.2
  · intro h
    exact nameMatches_of_lowered ((sameName_iff hs ht).mp h)

theorem nameMatches_eq (hs : Terminated s) (ht : Terminated t) : nameMatches s t = sameName s t := by
  rw [Bool.eq_iff_iff, nameMatches_iff hs ht]

end LambdaMoo
