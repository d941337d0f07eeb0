import LambdaMoo.DbioValues
import LambdaMoo.Literals

/-! The text of a literal, and the characters the lexer sees of it. -/
namespace LambdaMoo

variable {fmt : Dbio.FloatFormat} {v : Var} {c : Char} {n : Int} {s : Str}

def isPlain (c : Char) : Bool := c.toNat < 256 && c ≠ '\x00' && c ≠ '\n'

def Var.printable : Var → Bool
  | .int n | .obj n => -2 ^ 31 ≤ n && n < 2 ^ 31
  | .str s => s.all isPlain
  | .err _ | .list _ => true
  | _ => false

def quoted (s : Str) : Str := s.flatMap fun c => if c = '"' ∨ c = '\\' then ['\\', c] else [c]

mutual
def Var.literal : Var → Str
  | .int n => itoa n 10
  | .obj n => '#' :: itoa n 10
  | .err e => errorName e
  | .str s => '"' :: (quoted s ++ ['"'])
  | .list l => '{' :: (Var.literals [] l ++ ['}'])
  | _ => []
def Var.literals (sep : Str) : List Var → Str
  | [] => []
  | v :: l => sep ++ v.literal ++ Var.literals [',', ' '] l
end

theorem printChars_eq (s : Str) (out : Stream) : printChars s out = out ++ (quoted s).map charByte := by
  induction s generalizing out with
  | nil => simp [printChars, quoted]
  | cons c s ih =>
      have hquoted : quoted (c :: s) = (if c = '"' ∨ c = '\\' then ['\\', c] else [c]) ++ quoted s := rfl
      rw [printChars, ih, hquoted]
      split <;> simp [Stream.addChar]

mutual
theorem printToStream_eq : (v : Var) → (out : Stream) → v.every Var.printable = true →
    printToStream fmt v out = out ++ v.literal.map charByte
  | .list l, out, h => by
      rw [Var.every, Bool.and_eq_true] at h
      rw [printToStream, printElements_eq l _ _ h.2, Var.literal]
      simp [Stream.addChar]
  | .int n, out, _ | .obj n, out, _ | .err e, out, _ => by
      simp [printToStream, Var.literal, Stream.addString]
  | .str s, out, _ => by
      simp [printToStream, Var.literal, Stream.addChar, printChars_eq]
  | .clear, _, h | .none, _, h | .catchMarker _, _, h | .finallyMarker _, _, h | .float _, _, h =>
      absurd h Bool.false_ne_true
theorem printElements_eq : (l : List Var) → (sep : Str) → (out : Stream) → Var.everyOf Var.printable l = true →
    printElements fmt sep l out = out ++ (Var.literals sep l).map charByte
  | [], _, out, _ => by simp [printElements, Var.literals]
  | v :: l, sep, out, h => by
      rw [Var.everyOf, Bool.and_eq_true] at h
      rw [printElements, printElements_eq l _ _ h.2, printToStream_eq v _ h.1, Var.literals]
      simp [Stream.addString]
end

theorem byteChar_charByte (hc : c.toNat < 256) : byteChar (charByte c) = c := by
  unfold byteChar charByte
  rw [UInt8.toNat_ofNat', Nat.mod_eq_of_lt hc, Char.ofNat_toNat]

theorem charByte_ne_zero (hc : isPlain c = true) : charByte c ≠ 0 := by
  intro hzero
  simp only [isPlain, Bool.and_eq_true, decide_eq_true_eq] at hc
  have hchar := byteChar_charByte hc.1.1
  rw [hzero] at hchar
  exact hc.1.2 hchar.symm

theorem text_map (hs : s.all isPlain = true) : Stream.text (s.map charByte) = s := by
  rw [List.all_eq_true] at hs
  have htake : (s.map charByte).takeWhile (· ≠ 0) = s.map charByte := by
    rw [List.takeWhile_eq_self_iff]
    intro b hb
    obtain ⟨c, hc, rfl⟩ := List.mem_map.mp hb
    exact decide_eq_true (charByte_ne_zero (hs c hc))
  rw [Stream.text, htake, List.map_map]
  conv_rhs => rw [← List.map_id s]
  refine List.map_congr_left fun c hc => ?_
  have hplain := hs c hc
  simp only [isPlain, Bool.and_eq_true, decide_eq_true_eq] at hplain
  exact byteChar_charByte hplain.1.1

/-! Numbers. -/

structure Digits (s : Str) (n : Int) : Prop where
  ne_nil : s ≠ []
  all : s.all Char.isDigit = true
  value : Lexer.value (s.map ord) = wrap32 n

theorem itoaDigit_spec {d : Nat} (hd : d < 10) :
    (itoaDigit d).isDigit = true ∧ ord (itoaDigit d) - ord '0' = d := by
  have hall : ∀ d < 10, (itoaDigit d).isDigit = true ∧ ord (itoaDigit d) - ord '0' = (d : Int) := by decide
  exact hall d hd

theorem wrap32_push (a b : Int) : wrap32 (wrap32 a * 10 + b) = wrap32 (a * 10 + b) := by
  rw [wrap32, wrap32, wrap32, ← Int.bmod_add_bmod, Int.bmod_mul_bmod, Int.bmod_add_bmod]

theorem itoaLoop_digits {n room : Nat} (buffer : Str) (hbuffer : buffer.all Char.isDigit = true) :
    (itoaLoop 10 room n buffer).all Char.isDigit = true := by
  induction room generalizing n buffer with
  | zero => exact hbuffer
  | succ room ih =>
      rw [itoaLoop]
      split
      · exact hbuffer
      · refine ih _ ?_
        rw [List.all_cons, (itoaDigit_spec (Nat.mod_lt n (by decide))).1, hbuffer]
        rfl

theorem itoaLoop_value {n room : Nat} (hn : n < 10 ^ room) (buffer : Str) :
    Lexer.value ((itoaLoop 10 room n buffer).map ord) =
      (buffer.map ord).foldl (fun n c => wrap32 (n * 10 + (c - ord '0'))) (wrap32 n) := by
  induction room generalizing n buffer with
  | zero =>
      obtain rfl : n = 0 := by simpa using hn
      rfl
  | succ room ih =>
      rw [itoaLoop]
      split
      · next hzero =>
          rw [hzero]
          rfl
      · have hlt : n / 10 < 10 ^ room := Nat.div_lt_of_lt_mul (by rwa [Nat.mul_comm, ← Nat.pow_succ])
        rw [ih hlt, List.map_cons, List.foldl_cons, (itoaDigit_spec (Nat.mod_lt n (by decide))).2, wrap32_push]
        congr 2
        omega

theorem itoaLoop_ne_nil {n room : Nat} (buffer : Str) (h : buffer ≠ []) : itoaLoop 10 room n buffer ≠ [] := by
  induction room generalizing n buffer with
  | zero => exact h
  | succ room ih =>
      rw [itoaLoop]
      split
      · exact h
      · exact ih _ (List.cons_ne_nil _ _)

theorem itoaLoop_spec {n room : Nat} (hpos : n ≠ 0) (hn : n < 10 ^ room) :
    Digits (itoaLoop 10 room n []) n := by
  refine ⟨?_, itoaLoop_digits [] rfl, by rw [itoaLoop_value hn, List.map_nil, List.foldl_nil]⟩
  cases room with
  | zero => omega
  | succ room =>
      rw [itoaLoop, if_neg hpos]
      exact itoaLoop_ne_nil _ (List.cons_ne_nil _ _)

/-- A number is printed as the digits of its absolute value, with the sign before them. -/
theorem itoa_spec (hlow : -2 ^ 31 ≤ n) (hhigh : n < 2 ^ 31) :
    ∃ ds, Digits ds n.natAbs ∧ itoa n 10 = if n < 0 then '-' :: ds else ds := by
  unfold itoa
  by_cases hzero : n = 0
  · subst hzero
    exact ⟨['0'], ⟨List.cons_ne_nil _ _, by simp, by decide⟩, rfl⟩
  · rw [if_neg hzero]
    by_cases hmin : n = -2147483647 - 1
    · subst hmin
      exact ⟨"2147483648".toList, ⟨by decide, by decide, by decide⟩, by decide⟩
    · rw [if_neg hmin]
      refine ⟨itoaLoop 10 19 n.natAbs [], itoaLoop_spec (by omega) (by omega), ?_⟩
      split <;> rfl

end LambdaMoo
