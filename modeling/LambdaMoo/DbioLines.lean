import LambdaMoo.Dbio
import Mathlib.Data.List.TakeWhile

/-! Lines and numbers of the database file: what is written is read back, a string just if it has
no line break in it. -/
namespace LambdaMoo
namespace Dbio

open Codec

variable {s rest : Str} {n : Nat} {i : Int}

theorem takeLine_line (hs : '\n' ∉ s) (hn : s.length < n) :
    takeLine n (s ++ '\n' :: rest) = (s ++ ['\n'], rest) := by
  induction s generalizing n with
  | nil =>
    obtain ⟨m, rfl⟩ := Nat.exists_eq_succ_of_ne_zero (Nat.ne_zero_of_lt hn)
    simp [takeLine]
  | cons c cs ih =>
    obtain ⟨m, rfl⟩ := Nat.exists_eq_succ_of_ne_zero (Nat.ne_zero_of_lt hn)
    rw [List.mem_cons, not_or] at hs
    have hc : c ≠ '\n' := fun heq => hs.1 heq.symm
    simp [takeLine, hc, ih hs.2 (by simpa using hn)]

theorem takeLine_full (hs : '\n' ∉ s) (hn : n ≤ s.length) :
    takeLine n (s ++ rest) = (s.take n, s.drop n ++ rest) := by
  induction s generalizing n with
  | nil =>
    obtain rfl : n = 0 := by simpa using hn
    rfl
  | cons c cs ih =>
    cases n with
    | zero => rfl
    | succ m =>
      rw [List.mem_cons, not_or] at hs
      have hc : c ≠ '\n' := fun heq => hs.1 heq.symm
      simp [takeLine, hc, ih hs.2 (by simpa using hn)]

theorem fgets_line (hs : '\n' ∉ s) (hn : s.length < n - 1) :
    (fgets n).run (s ++ '\n' :: rest) = some (s ++ ['\n'], rest) := by
  have hne : s ++ '\n' :: rest ≠ [] := by simp
  obtain ⟨c, cs, hcs⟩ := List.exists_cons_of_ne_nil hne
  rw [hcs]
  change some (takeLine (n - 1) (c :: cs)) = _
  rw [← hcs, takeLine_line hs hn]

theorem isDigit_of_mem_toDigits {c : Char} (hc : c ∈ Nat.toDigits 10 n) : c.isDigit = true :=
  Nat.isDigit_of_mem_toDigits (by decide) (by decide) hc

theorem digits_line :
    Nat.ofDigitChars 10 ((Nat.toDigits 10 n ++ ['\n']).takeWhile Char.isDigit) 0 = n := by
  have hall : (Nat.toDigits 10 n).takeWhile Char.isDigit = Nat.toDigits 10 n :=
    List.takeWhile_eq_self_iff.mpr fun c hc => isDigit_of_mem_toDigits hc
  rw [List.takeWhile_append_of_pos fun c hc => isDigit_of_mem_toDigits hc]
  simp

theorem isspace_of_isDigit {c : Char} (hc : c.isDigit = true) : isspace c = false := by
  cases hs : isspace c with
  | false => rfl
  | true =>
    simp only [isspace, List.mem_cons, List.not_mem_nil, or_false, decide_eq_true_eq] at hs
    obtain rfl | rfl | rfl | rfl | rfl | rfl := hs <;> simp at hc

theorem strtol_digits (n : Nat) :
    strtol (Nat.toDigits 10 n ++ ['\n']) = max (-2 ^ 63) (min (n : Int) (2 ^ 63 - 1)) := by
  obtain ⟨c, cs, hcs⟩ := List.exists_cons_of_ne_nil (Nat.toDigits_ne_nil (n := n) (b := 10))
  have hc : c.isDigit = true := isDigit_of_mem_toDigits (n := n) (hcs ▸ List.mem_cons_self)
  have hdrop : (Nat.toDigits 10 n ++ ['\n']).dropWhile isspace = Nat.toDigits 10 n ++ ['\n'] := by
    rw [hcs, List.cons_append, List.dropWhile_cons_of_neg]
    simp [isspace_of_isDigit hc]
  have hminus : ∀ t, Nat.toDigits 10 n ++ ['\n'] ≠ '-' :: t := by
    intro t ht
    rw [hcs, List.cons_append, List.cons.injEq] at ht
    simp [ht.1] at hc
  have hplus : ∀ t, Nat.toDigits 10 n ++ ['\n'] ≠ '+' :: t := by
    intro t ht
    rw [hcs, List.cons_append, List.cons.injEq] at ht
    simp [ht.1] at hc
  unfold strtol
  simp only [hdrop, digits_line]

theorem strtol_decimal (hlow : -2 ^ 31 ≤ i) (hhigh : i < 2 ^ 31) :
    strtol (decimal i ++ ['\n']) = i := by
  unfold decimal
  split
  · rename_i hneg
    have hdrop : ('-' :: (Nat.toDigits 10 i.natAbs ++ ['\n'])).dropWhile isspace =
        '-' :: (Nat.toDigits 10 i.natAbs ++ ['\n']) := by
      rw [List.dropWhile_cons_of_neg]
      decide
    unfold strtol
    simp only [List.cons_append, hdrop, digits_line]
    omega
  · rw [strtol_digits]
    omega

theorem mem_decimal_ne {c : Char} (hc : c ∈ decimal i) : c ≠ '\n' := by
  rintro rfl
  unfold decimal at hc
  split at hc
  · obtain h | h := List.mem_cons.mp hc
    · contradiction
    · exact absurd (isDigit_of_mem_toDigits h) (by decide)
  · exact absurd (isDigit_of_mem_toDigits hc) (by decide)

theorem length_decimal (hlow : -2 ^ 31 ≤ i) (hhigh : i < 2 ^ 31) : (decimal i).length < 19 := by
  have hdigits : (Nat.toDigits 10 i.natAbs).length ≤ 10 :=
    (Nat.length_toDigits_le_iff (by decide) (by decide)).mpr (by omega)
  unfold decimal
  split
  · rw [List.length_cons]
    omega
  · omega

theorem wrap32_self (hlow : -2 ^ 31 ≤ i) (hhigh : i < 2 ^ 31) : wrap32 i = i := by
  unfold wrap32
  exact Int.bmod_eq_of_le (by omega) (by omega)

theorem readNum_recovers (hlow : -2 ^ 31 ≤ i) (hhigh : i < 2 ^ 31) :
    Recovers readNum (writeNum i) i True := by
  refine .of_exact fun rest => ?_
  unfold readNum writeNum
  rw [StateT.run_bind, List.append_assoc, List.singleton_append,
    fgets_line (fun h => mem_decimal_ne h rfl) (length_decimal hlow hhigh)]
  change some (wrap32 (strtol (decimal i ++ ['\n'])), rest) = _
  rw [strtol_decimal hlow hhigh, wrap32_self hlow hhigh]

theorem readPieces_line {fuel : Nat} (str : Str) (hs : '\n' ∉ s) (hfuel : s.length < fuel) :
    (readPieces fuel str).run (s ++ '\n' :: rest) = some (str ++ s, rest) := by
  induction fuel generalizing s str with
  | zero => omega
  | succ fuel ih =>
    unfold readPieces
    rw [StateT.run_bind]
    by_cases hlen : s.length < 1024 - 1
    · rw [fgets_line hs hlen]
      simp
    · -- the buffer is full before the line is over
      have hne : s ++ '\n' :: rest ≠ [] := by simp
      obtain ⟨c, cs, hcs⟩ := List.exists_cons_of_ne_nil hne
      have hget : (fgets 1024).run (s ++ '\n' :: rest) =
          some (s.take 1023, s.drop 1023 ++ '\n' :: rest) := by
        rw [hcs]
        change some (takeLine 1023 (c :: cs)) = _
        rw [← hcs, takeLine_full hs (by omega)]
      have hpiece : (s.take 1023).length = 1024 - 1 ∧ (s.take 1023).getLast? ≠ some '\n' := by
        refine ⟨by rw [List.length_take]; omega, fun hlast => hs ?_⟩
        exact List.mem_of_mem_take (List.mem_of_getLast? hlast)
      rw [hget]
      simp only [Option.bind_eq_bind, Option.bind_some, if_pos hpiece]
      rw [ih _ (fun h => hs (List.mem_of_mem_drop h)) (by rw [List.length_drop]; omega),
        List.append_assoc, List.take_append_drop]

theorem readString_line (hs : '\n' ∉ s) :
    readString.run (s ++ '\n' :: rest) = some (s, rest) := by
  change (readPieces _ []).run _ = _
  rw [readPieces_line [] hs (by rw [List.length_append]; omega), List.nil_append]

theorem readString_recovers (s : Str) : Recovers readString (writeString s) s ('\n' ∉ s) := by
  constructor
  · intro hs rest
    rw [writeString, List.append_assoc]
    exact readString_line hs
  · intro hs rest x rest' hrun
    obtain ⟨as, bs, rfl, has⟩ := List.eq_append_cons_of_mem (not_not.mp hs)
    rw [writeString, List.append_assoc, List.append_assoc, List.cons_append,
      readString_line has] at hrun
    obtain ⟨rfl, -⟩ := Prod.mk.inj (Option.some.inj hrun)
    intro heq
    have := congrArg List.length heq
    simp at this

end Dbio
end LambdaMoo
