import LambdaMoo.LexerProgress
import LambdaMoo.LiteralText

/-! The tokens of a literal. The lexer gives them back as they were printed, but for a string
that holds the byte that is `EOF` as a `char`: there it reports an error. -/
namespace LambdaMoo

variable {strtod : Str → UInt64} {v : Var} {c : Char} {n : Int} {s ds : Str} {input rest : List Int}
  {l l' : Lexer} {ts : List Token} {lineno : Nat} {es : List (Nat × Str)}

/-! Characters as `int`. -/

theorem charInt_ascii (h : c.toNat < 128) : charInt c = ord c :=
  Int.bmod_eq_of_le (by omega) (by omega)

theorem charInt_eq (hc : c.toNat < 256) : charInt c = if c.toNat < 128 then ord c else ord c - 256 := by
  unfold charInt ord
  split
  · exact Int.bmod_eq_of_le (by omega) (by omega)
  · rw [← Int.sub_bmod_right]
    exact Int.bmod_eq_of_le (by omega) (by omega)

theorem charInt_eq_ord (hc : c.toNat < 256) {d : Char} (hd : d.toNat < 128) : charInt c = ord d ↔ c = d := by
  rw [charInt_eq hc, ← Char.toNat_inj]
  unfold ord
  split <;> omega

theorem charInt_eq_eof (hc : c.toNat < 256) : charInt c = eof ↔ c = Char.ofNat 255 := by
  have hmark : (Char.ofNat 255).toNat = 255 := by decide
  rw [charInt_eq hc, ← Char.toNat_inj, hmark]
  unfold ord eof
  split <;> omega

theorem intByte_charInt (c : Char) : intByte (charInt c) = charByte c := by
  have hbyte : charInt c % 256 = (c.toNat : Int) % 256 := Int.bmod_emod
  unfold intByte charByte
  rw [hbyte]
  apply UInt8.toNat_inj.mp
  rw [UInt8.toNat_ofNat', UInt8.toNat_ofNat']
  omega

theorem map_charInt_of_ascii (h : ∀ c ∈ s, c.toNat < 128) : s.map charInt = s.map ord :=
  List.map_congr_left fun c hc => charInt_ascii (h c hc)

namespace Lexer

theorem span_append {p : Int → Bool} {front : List Int} (hfront : front.all p = true)
    (hrest : rest.head?.any p = false) :
    (front ++ rest).takeWhile p = front ∧ (front ++ rest).dropWhile p = rest := by
  rw [List.all_eq_true] at hfront
  rw [List.takeWhile_append_of_pos hfront, List.dropWhile_append_of_pos hfront]
  cases rest with
  | nil => simp
  | cons c rest =>
      rw [List.head?_cons, Option.any_some] at hrest
      rw [List.takeWhile_cons_of_neg (by simp [hrest]), List.dropWhile_cons_of_neg (by simp [hrest])]
      simp

def Delimited (rest : List Int) : Prop := ∃ c ∈ [',', '}', ';'], ∃ more, rest = ord c :: more

theorem Delimited.head (h : Delimited rest) :
    rest.head?.any isdigit = false ∧ rest.head?.any isword = false ∧ rest.head? ≠ some (ord '.') ∧
      rest.head? ≠ some (ord 'e') ∧ rest.head? ≠ some (ord 'E') := by
  obtain ⟨c, hc, more, rfl⟩ := h
  simp only [List.mem_cons, List.not_mem_nil, or_false] at hc
  rw [List.head?_cons, Option.any_some, Option.any_some]
  obtain rfl | rfl | rfl := hc <;> decide

theorem skip_at {c : Int} (hspace : isspace c = false) (hslash : c ≠ ord '/') :
    skip false lineno (c :: input) = .at c input lineno := by
  rw [skip.eq_def]
  dsimp only
  rw [hspace, if_neg Bool.false_ne_true, if_neg hslash]

theorem yylex_char (hc : c ∈ ['-', '{', '}', ',', ';']) :
    yylex strtod ⟨ord c :: input, lineno, es⟩ = (.char (ord c), ⟨input, lineno, es⟩) := by
  simp only [List.mem_cons, List.not_mem_nil, or_false] at hc
  obtain ⟨hspace, hdigit, halpha, hslash, hhash, hpoint, hline, hquote⟩ : isspace (ord c) = false ∧
      isdigit (ord c) = false ∧ isalpha (ord c) = false ∧ ord c ≠ ord '/' ∧ ord c ≠ ord '#' ∧
      ord c ≠ ord '.' ∧ ord c ≠ ord '_' ∧ ord c ≠ ord '"' := by
    obtain rfl | rfl | rfl | rfl | rfl := hc <;> decide
  have hoperator : ∀ l, operator (ord c) l = (.char (ord c), l) := by
    obtain rfl | rfl | rfl | rfl | rfl := hc <;> exact fun _ => rfl
  unfold yylex
  rw [skip_at hspace hslash]
  simp [hoperator, hdigit, halpha, hhash, hpoint, hline, hquote]

theorem yylex_blank : yylex strtod ⟨ord ' ' :: input, lineno, es⟩ = yylex strtod ⟨input, lineno, es⟩ := by
  have hblank : skip false lineno (ord ' ' :: input) = skip false lineno input := by
    rw [skip.eq_def]
    rfl
  unfold yylex
  dsimp only
  rw [hblank]

theorem isdigit_ord (hc : c.isDigit = true) : isdigit (ord c) = true := by
  rw [Char.isDigit, Bool.and_eq_true, decide_eq_true_eq, decide_eq_true_eq] at hc
  have hlow : (48 : UInt32).toNat ≤ c.val.toNat := UInt32.le_iff_toNat_le.mp hc.1
  have hhigh : c.val.toNat ≤ (57 : UInt32).toNat := UInt32.le_iff_toNat_le.mp hc.2
  have hchar : c.toNat = c.val.toNat := rfl
  have hends : (48 : UInt32).toNat = 48 ∧ (57 : UInt32).toNat = 57 := by decide
  rw [isdigit_iff, ord]
  omega

end Lexer

theorem Digits.chars (h : Digits ds n) : ds.map charInt = ds.map ord ∧ (ds.map ord).all Lexer.isdigit = true := by
  have hall := List.all_eq_true.mp h.all
  have hdigit : ∀ c ∈ ds, Lexer.isdigit (ord c) = true := fun c hc => Lexer.isdigit_ord (hall c hc)
  refine ⟨map_charInt_of_ascii fun c hc => ?_, by simpa using hdigit⟩
  have hrange := Lexer.isdigit_iff.mp (hdigit c hc)
  rw [ord] at hrange
  omega

namespace Lexer

theorem not_skipped {c : Int} (h : isword c = true) : isspace c = false ∧ c ≠ ord '/' ∧ c ≠ ord '#' ∧ c ≠ ord '"' := by
  rw [isword_iff, isalpha_iff, isdigit_iff] at h
  have hmarks : ord '/' = 47 ∧ ord '#' = 35 ∧ ord '"' = 34 := by decide
  rw [Bool.eq_false_iff, ne_eq, isspace_iff]
  omega

theorem number_digits (hds : Digits ds n) (hrest : Delimited rest) :
    number strtod ⟨ds.map ord ++ rest, lineno, es⟩ = (.integer (wrap32 n), ⟨rest, lineno, es⟩) := by
  obtain ⟨hdigit, -, hpoint, hlower, hupper⟩ := hrest.head
  obtain ⟨htake, hdrop⟩ := span_append hds.chars.2 hdigit
  unfold number
  dsimp only
  rw [htake, hdrop, fraction, if_neg hpoint]
  dsimp only
  rw [exponent, if_neg (not_or.mpr ⟨hlower, hupper⟩)]
  dsimp only
  rw [if_neg Bool.false_ne_true, hds.value]

theorem yylex_integer (hds : Digits ds n) (hrest : Delimited rest) :
    yylex strtod ⟨ds.map charInt ++ rest, lineno, es⟩ = (.integer (wrap32 n), ⟨rest, lineno, es⟩) := by
  have hnumber : number strtod ⟨ds.map ord ++ rest, lineno, es⟩ = _ := number_digits hds hrest
  rw [hds.chars.1]
  obtain ⟨c, cs, rfl⟩ := List.exists_cons_of_ne_nil hds.ne_nil
  have hdigit : isdigit (ord c) = true := isdigit_ord (List.all_eq_true.mp hds.all c List.mem_cons_self)
  obtain ⟨hspace, hslash, hhash, -⟩ := not_skipped (c := ord c) (by simp [isword, hdigit])
  rw [List.map_cons, List.cons_append] at hnumber ⊢
  unfold yylex
  rw [skip_at hspace hslash]
  dsimp only
  rw [if_neg hhash, if_pos (.inl hdigit)]
  exact hnumber

theorem yylex_object (hds : Digits ds n) (negative : Bool) (hrest : Delimited rest) :
    yylex strtod ⟨ord '#' :: ((if negative then [ord '-'] else []) ++ ds.map charInt ++ rest), lineno, es⟩ =
      (.object (if negative then wrap32 (-wrap32 n) else wrap32 n), ⟨rest, lineno, es⟩) := by
  obtain ⟨htake, hdrop⟩ := span_append hds.chars.2 hrest.head.1
  have hne : (ds.map ord).isEmpty = false := by
    rw [List.isEmpty_eq_false_iff]
    exact fun hnil => hds.ne_nil (List.map_eq_nil_iff.mp hnil)
  have hhead : (ds.map ord ++ rest).head? ≠ some (ord '-') := by
    obtain ⟨c, cs, rfl⟩ := List.exists_cons_of_ne_nil hds.ne_nil
    have hdigit : isdigit (ord c) = true := isdigit_ord (List.all_eq_true.mp hds.all c List.mem_cons_self)
    intro heq
    rw [List.map_cons, List.cons_append, List.head?_cons, Option.some.injEq] at heq
    rw [heq] at hdigit
    contradiction
  rw [hds.chars.1]
  unfold yylex
  rw [skip_at (by decide) (by decide)]
  dsimp only
  rw [if_pos rfl]
  unfold object
  cases negative with
  | true =>
      simp only [if_true, List.cons_append, List.nil_append, List.head?_cons, List.tail_cons]
      rw [htake, hdrop, hne, hds.value]
      rfl
  | false =>
      simp only [Bool.false_eq_true, if_false, List.nil_append]
      rw [if_neg hhead, htake, hdrop, hne, hds.value, if_neg Bool.false_ne_true, if_neg hhead]

theorem yylex_word {buf : Str} {t : Token} (hkeyword : findKeyword buf = some t) (hplain : buf.all isPlain = true)
    (hword : (buf.map charInt).all isword = true) (hfirst : (buf.map charInt).head?.any isalpha = true)
    (hrest : rest.head?.any isword = false) :
    yylex strtod ⟨buf.map charInt ++ rest, lineno, es⟩ = (t, ⟨rest, lineno, es⟩) := by
  obtain ⟨htake, hdrop⟩ := span_append hword hrest
  have htext : Stream.text ((buf.map charInt).map intByte) = buf := by
    rw [List.map_map, show intByte ∘ charInt = charByte from funext intByte_charInt, text_map hplain]
  have hlexed : word ⟨buf.map charInt ++ rest, lineno, es⟩ = (t, ⟨rest, lineno, es⟩) := by
    unfold word
    dsimp only
    rw [htake, hdrop, htext, hkeyword]
    rfl
  cases buf with
  | nil => simp at hfirst
  | cons c buf =>
      have halpha : isalpha (charInt c) = true := by simpa using hfirst
      obtain ⟨hspace, hslash, hhash, -⟩ := not_skipped (c := charInt c) (by simp [isword, halpha])
      have hdigit : ¬(isdigit (charInt c) = true ∨ charInt c = ord '.') := by
        have hpoint : ord '.' = 46 := by decide
        rw [isalpha_iff] at halpha
        rw [isdigit_iff]
        omega
      rw [List.map_cons, List.cons_append] at hlexed ⊢
      unfold yylex
      rw [skip_at hspace hslash]
      dsimp only
      rw [if_neg hhash, if_neg hdigit, if_pos (.inl halpha)]
      exact hlexed

/-! Strings. -/

theorem stringLoop_cons (hc : isPlain c = true) (input : List Int) (out : Stream) :
    stringLoop ((if c = '"' ∨ c = '\\' then ['\\', c] else [c]).map charInt ++ input) out =
      if c = Char.ofNat 255 then (false, out, input) else stringLoop input (out.addChar (charByte c)) := by
  have hplain := hc
  simp only [isPlain, Bool.and_eq_true, decide_eq_true_eq] at hplain
  have hquote : charInt c = ord '"' ↔ c = '"' := charInt_eq_ord hplain.1.1 (by decide)
  have hslash : charInt c = ord '\\' ↔ c = '\\' := charInt_eq_ord hplain.1.1 (by decide)
  have hstop : (charInt c = ord '\n' ∨ charInt c = eof) ↔ c = Char.ofNat 255 := by
    rw [charInt_eq_eof hplain.1.1, charInt_eq_ord hplain.1.1 (by decide)]
    exact or_iff_right hplain.2
  by_cases hescaped : c = '"' ∨ c = '\\'
  · rw [if_pos hescaped, List.map_cons, List.map_cons, List.map_nil, List.cons_append, List.cons_append,
      List.nil_append, charInt_ascii (c := '\\') (by decide), stringLoop.eq_def]
    dsimp only
    rw [if_neg (by decide), if_pos rfl, intByte_charInt]
    simp only [hstop]
  · rw [if_neg hescaped, List.map_singleton, List.singleton_append, stringLoop.eq_def]
    dsimp only
    rw [not_or] at hescaped
    rw [if_neg (mt hquote.mp hescaped.1), if_neg (mt hslash.mp hescaped.2), intByte_charInt]
    simp only [hstop]

/-- The loop comes to the quote that ends the string just if the string does not hold the mark. -/
theorem stringLoop_quoted (hs : s.all isPlain = true) (rest : List Int) (out : Stream) :
    (Char.ofNat 255 ∉ s → stringLoop ((quoted s).map charInt ++ ord '"' :: rest) out =
      (true, out ++ s.map charByte, rest)) ∧
    (Char.ofNat 255 ∈ s → (stringLoop ((quoted s).map charInt ++ ord '"' :: rest) out).1 = false) := by
  induction s generalizing out with
  | nil =>
      refine ⟨fun _ => ?_, fun hmem => absurd hmem List.not_mem_nil⟩
      rw [stringLoop.eq_def]
      simp [quoted]
  | cons c s ih =>
      rw [List.all_cons, Bool.and_eq_true] at hs
      have hquoted : quoted (c :: s) = (if c = '"' ∨ c = '\\' then ['\\', c] else [c]) ++ quoted s := rfl
      obtain ⟨hclean, hmarked⟩ := ih hs.2 (out.addChar (charByte c))
      rw [hquoted, List.map_append, List.append_assoc, stringLoop_cons hs.1, List.mem_cons]
      by_cases hc : c = Char.ofNat 255
      · rw [if_pos hc]
        exact ⟨fun hnot => absurd (.inl hc.symm) hnot, fun _ => rfl⟩
      · rw [if_neg hc]
        refine ⟨fun hnot => ?_, fun hmem => hmarked (hmem.resolve_left (Ne.symm hc))⟩
        rw [hclean fun hmem => hnot (.inr hmem)]
        simp [Stream.addChar]

theorem yylex_quote (input : List Int) :
    yylex strtod ⟨ord '"' :: input, lineno, es⟩ = string ⟨input, lineno, es⟩ := by
  unfold yylex
  rw [skip_at (by decide) (by decide)]
  rfl

theorem yylex_string (hs : s.all isPlain = true) (hmark : Char.ofNat 255 ∉ s) :
    yylex strtod ⟨ord '"' :: ((quoted s).map charInt ++ ord '"' :: rest), lineno, es⟩ =
      (.string s, ⟨rest, lineno, es⟩) := by
  rw [yylex_quote, string, (stringLoop_quoted hs rest []).1 hmark]
  dsimp only
  rw [List.nil_append, text_map hs, if_pos rfl]

/-- The mark is taken for the end of the program: the string has no other quote. -/
theorem yylex_marked (hs : s.all isPlain = true) (hmark : Char.ofNat 255 ∈ s) :
    (yylex strtod ⟨ord '"' :: ((quoted s).map charInt ++ ord '"' :: rest), lineno, es⟩).2.errors =
      es ++ [(lineno, "Missing quote".toList)] := by
  have hloop := (stringLoop_quoted hs rest []).2 hmark
  rw [yylex_quote, string]
  generalize stringLoop ((quoted s).map charInt ++ ord '"' :: rest) [] = looped at hloop ⊢
  obtain ⟨closed, out, input⟩ := looped
  obtain rfl : closed = false := hloop
  rfl

end Lexer

/-! Literals. -/

mutual
def Var.tokens : Var → List Token
  | .int n => if n < 0 then [.minus, .integer (wrap32 (-n))] else [.integer n]
  | .obj n => [.object n]
  | .str s => [.string s]
  | .err e => [.error e]
  | .list l => .lbrace :: (Var.tokensOf [] l ++ [.rbrace])
  | _ => []
def Var.tokensOf (sep : List Token) : List Var → List Token
  | [] => []
  | v :: l => sep ++ v.tokens ++ Var.tokensOf [.comma] l
end

def Var.unmarked : Var → Bool
  | .str s => Char.ofNat 255 ∉ s
  | _ => true

/-- Tokens that are lexed one after the other. Each takes some of the input, and none is the end. -/
inductive Lexes (strtod : Str → UInt64) : Lexer → List Token → Lexer → Prop
  | nil (l : Lexer) : Lexes strtod l [] l
  | cons {l l₁ l₂ : Lexer} {t : Token} {ts : List Token} (hlex : l.yylex strtod = (t, l₁))
      (hend : ∀ c, t = .char c → 0 < c) (hlt : l₁.input.length < l.input.length)
      (hrest : Lexes strtod l₁ ts l₂) : Lexes strtod l (t :: ts) l₂

namespace Lexes

open Lexer

theorem append {l₁ l₂ : Lexer} {ts' : List Token} (h : Lexes strtod l ts l₁) (h' : Lexes strtod l₁ ts' l₂) :
    Lexes strtod l (ts ++ ts') l₂ := by
  induction h with
  | nil => exact h'
  | cons hlex hend hlt _ ih => exact .cons hlex hend hlt (ih h')

theorem yylex_blanks {blank : List Int} (hblank : blank = [] ∨ blank = [ord ' ']) :
    yylex strtod ⟨blank ++ input, lineno, es⟩ = yylex strtod ⟨input, lineno, es⟩ := by
  obtain rfl | rfl := hblank
  · rfl
  · exact yylex_blank

theorem one (blank : List Int) {piece : List Int} {t : Token} (hblank : blank = [] ∨ blank = [ord ' ']) (hpiece : piece ≠ [])
    (hlex : yylex strtod ⟨piece ++ rest, lineno, es⟩ = (t, ⟨rest, lineno, es⟩)) (hend : ∀ c, t = .char c → 0 < c) :
    Lexes strtod ⟨blank ++ (piece ++ rest), lineno, es⟩ [t] ⟨rest, lineno, es⟩ := by
  have hpos := List.length_pos_iff.mpr hpiece
  refine .cons ((yylex_blanks hblank).trans hlex) hend ?_ (.nil _)
  simp only [List.length_append]
  omega

theorem mark (blank : List Int) (hblank : blank = [] ∨ blank = [ord ' ']) (hc : c ∈ ['-', '{', '}', ',', ';']) :
    Lexes strtod ⟨blank ++ ord c :: rest, lineno, es⟩ [.char (ord c)] ⟨rest, lineno, es⟩ := by
  have hlex : yylex strtod ⟨[ord c] ++ rest, lineno, es⟩ = (.char (ord c), ⟨rest, lineno, es⟩) := yylex_char hc
  refine one blank hblank (List.cons_ne_nil _ _) hlex fun d hd => ?_
  obtain rfl : ord c = d := Token.char.inj hd
  simp only [List.mem_cons, List.not_mem_nil, or_false] at hc
  obtain rfl | rfl | rfl | rfl | rfl := hc <;> decide

theorem tokens (h : Lexes strtod l ts l') {fuel : Nat} (hfuel : l.input.length < fuel) :
    ∃ fuel', l'.input.length < fuel' ∧
      Lexer.tokens strtod fuel l =
        ((Lexer.tokens strtod fuel' l').1.map (ts ++ ·), (Lexer.tokens strtod fuel' l').2) := by
  induction h generalizing fuel with
  | nil => exact ⟨fuel, hfuel, by simp⟩
  | @cons l l₁ l₂ t ts hlex hend hlt _ ih =>
      obtain ⟨fuel, rfl⟩ := Nat.exists_eq_add_of_lt (Nat.zero_lt_of_lt hfuel)
      have hleft : l₁.input.length < fuel := by omega
      obtain ⟨fuel', hfuel', heq⟩ := ih hleft
      refine ⟨fuel', hfuel', ?_⟩
      rw [Nat.zero_add, Lexer.tokens, hlex]
      cases t with
      | char c =>
          have hpos := hend c rfl
          dsimp only
          rw [if_neg (by omega), heq]
          simp [Function.comp_def]
      | _ =>
          dsimp only
          rw [heq]
          simp [Function.comp_def]

end Lexes

end LambdaMoo
