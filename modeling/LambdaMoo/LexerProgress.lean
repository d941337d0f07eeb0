import LambdaMoo.Lexer

/-! What the lexer leaves behind: a token takes characters, unless it is the end, and what has been
reported stays. So the tokens of every program come to an end. -/
namespace LambdaMoo
namespace Lexer

variable {strtod : Str → UInt64} {c : Int} {input rest : List Int} {l : Lexer} {lineno lineno' : Nat}
  {es : List (Nat × Str)}

theorem isdigit_iff {c : Int} : isdigit c = true ↔ 48 ≤ c ∧ c ≤ 57 := by
  unfold isdigit
  rw [Bool.and_eq_true, decide_eq_true_eq, decide_eq_true_eq]
  exact Iff.rfl

theorem isalpha_iff {c : Int} : isalpha c = true ↔ (65 ≤ c ∧ c ≤ 90) ∨ (97 ≤ c ∧ c ≤ 122) := by
  unfold isalpha
  rw [Bool.or_eq_true, Bool.and_eq_true, Bool.and_eq_true, decide_eq_true_eq, decide_eq_true_eq,
    decide_eq_true_eq, decide_eq_true_eq]
  exact Iff.rfl

theorem isword_iff {c : Int} : isword c = true ↔ isalpha c = true ∨ isdigit c = true ∨ c = 95 := by
  unfold isword
  rw [Bool.or_eq_true, Bool.or_eq_true, or_assoc, decide_eq_true_eq]
  exact Iff.rfl

theorem isspace_iff {c : Int} : isspace c = true ↔ c = 32 ∨ (9 ≤ c ∧ c ≤ 13) := by
  unfold isspace
  rw [Bool.or_eq_true, Bool.and_eq_true, decide_eq_true_eq, decide_eq_true_eq, decide_eq_true_eq]
  exact Iff.rfl

/-- The state behind a part of the lexer: no characters have come back, and no error is lost. -/
structure Passes (l l' : Lexer) : Prop where
  input : l'.input.length ≤ l.input.length
  errors : l.errors <+: l'.errors

theorem Passes.of_le (h : rest.length ≤ input.length) : Passes ⟨input, lineno, es⟩ ⟨rest, lineno', es⟩ :=
  ⟨h, List.prefix_rfl⟩

theorem Passes.yyerror (h : rest.length ≤ input.length) (s : String) :
    Passes ⟨input, lineno, es⟩ (Lexer.yyerror ⟨rest, lineno', es⟩ s) :=
  ⟨h, List.prefix_append _ _⟩

theorem skip_shorter {inComment : Bool} :
    skip inComment lineno input = .at c rest lineno' → c = eof ∨ rest.length < input.length := by
  fun_induction skip inComment lineno input with
  | case1 | case3 | case5 | case6 =>
      rintro h
      cases h
      simp
  | case2 lineno c' input hspace ih => exact fun h => (ih h).imp_right fun hlt => Nat.lt_succ_of_lt hlt
  | case7 | case8 | case10 | case12 =>
      rintro h
      cases h
  | case4 lineno input hspace ih | case9 lineno input ih =>
      intro h
      refine (ih h).imp_right fun hlt => ?_
      simp only [List.length_cons]
      omega
  | case11 lineno c' input hslash hend ih =>
      intro h
      refine (ih h).imp_right fun hlt => ?_
      simp only [List.length_cons]
      omega
  | case13 lineno c' input hstar hend ih =>
      intro h
      refine (ih h).imp_right fun hlt => ?_
      simp only [List.length_cons]
      omega

theorem dropWhile_le (p : Int → Bool) (input : List Int) : (input.dropWhile p).length ≤ input.length :=
  (List.dropWhile_suffix p).length_le

theorem passes_follow (expect : Char) (ifyes ifno : Token) : Passes l (l.follow expect ifyes ifno).2 := by
  unfold follow
  split
  · exact .of_le (by rw [List.length_tail]; exact Nat.sub_le _ _)
  · exact .of_le (Nat.le_refl _)

theorem passes_object : Passes l l.object.2 := by
  have htail : (if l.input.head? = some (ord '-') then l.input.tail else l.input).length ≤ l.input.length := by
    split
    · simp
    · exact Nat.le_refl _
  unfold object
  dsimp only
  generalize (if l.input.head? = some (ord '-') then l.input.tail else l.input) = input at htail ⊢
  by_cases hdigits : (input.takeWhile isdigit).isEmpty = true
  · rw [if_pos hdigits]
    exact .yyerror htail _
  · rw [if_neg hdigits]
    exact .of_le (Nat.le_trans (dropWhile_le _ _) htail)

theorem fraction_le {digits : List Int} {n : Numeral} (h : fraction digits rest = some n) :
    n.rest.length ≤ rest.length := by
  have hafter : (rest.tail.dropWhile isdigit).length ≤ rest.length :=
    Nat.le_trans (dropWhile_le _ _) (by simp)
  unfold fraction at h
  dsimp only at h
  split at h
  · split at h
    · cases h
      exact hafter
    · split at h
      · cases h
      · split at h
        · cases h
          simp
        · cases h
          exact Nat.le_refl _
  · cases h
    exact Nat.le_refl _

theorem exponent_le (n : Numeral) : match exponent n with
    | .ok m => m.rest.length ≤ n.rest.length
    | .error rest => rest.length ≤ n.rest.length := by
  have hdrop : ∀ k, (n.rest.tail.drop k).length ≤ n.rest.length := by
    intro k
    rw [List.length_drop, List.length_tail]
    omega
  unfold exponent
  dsimp only
  by_cases hmark : n.rest.head? = some (ord 'e') ∨ n.rest.head? = some (ord 'E')
  · rw [if_pos hmark]
    generalize (if n.rest.tail.head? = some (ord '+') ∨ n.rest.tail.head? = some (ord '-') then 1 else 0) = signs
    by_cases hdigit : (n.rest.tail.drop (n.rest.tail.take signs).length).head?.any isdigit = true
    · rw [if_pos hdigit]
      exact Nat.le_trans (dropWhile_le _ _) (hdrop _)
    · rw [if_neg hdigit]
      exact hdrop _
  · rewrite [if_neg hmark]
    exact Nat.le_refl _

theorem passes_number (hc : isdigit c = true ∨ c = ord '.') :
    Passes ⟨input, lineno, es⟩ (number strtod ⟨c :: input, lineno, es⟩).2 := by
  have hfraction : ∀ n, fraction ((c :: input).takeWhile isdigit) ((c :: input).dropWhile isdigit) = some n →
      n.rest.length ≤ input.length := by
    intro n h
    cases hdigit : isdigit c with
    | true =>
        rw [List.dropWhile_cons_of_pos hdigit] at h
        exact Nat.le_trans (fraction_le h) (dropWhile_le _ _)
    | false =>
        obtain rfl := hc.resolve_left (by simp [hdigit])
        rw [List.takeWhile_cons_of_neg (by simp [hdigit]), List.dropWhile_cons_of_neg (by simp [hdigit]),
          fraction, if_pos (List.head?_cons ..)] at h
        dsimp only [List.tail_cons] at h
        split at h
        · cases h
          exact dropWhile_le _ _
        · cases h
  unfold number
  dsimp only
  split
  · exact passes_follow _ _ _
  · next n hn =>
      have hrest := hfraction n hn
      have hexponent := exponent_le n
      split
      · next rest h =>
          rw [h] at hexponent
          exact .yyerror (Nat.le_trans hexponent hrest) _
      · next m h =>
          rw [h] at hexponent
          split
          · split
            · exact .of_le (Nat.le_trans hexponent hrest)
            · exact .yyerror (Nat.le_trans hexponent hrest) _
          · exact .of_le (Nat.le_trans hexponent hrest)

theorem passes_word (hc : isword c = true) : Passes ⟨input, lineno, es⟩ (word ⟨c :: input, lineno, es⟩).2 := by
  unfold word
  dsimp only
  rw [List.dropWhile_cons_of_pos hc]
  exact .of_le (dropWhile_le _ _)

theorem stringLoop_le (input : List Int) (out : Stream) : (stringLoop input out).2.2.length ≤ input.length := by
  fun_induction stringLoop input out with
  | case1 | case2 | case3 | case6 => simp
  | case4 =>
      simp only [List.length_cons]
      omega
  | case5 s c input hend hstop ih =>
      simp only [List.length_cons]
      omega
  | case7 s c input hquote hslash hstop ih =>
      simp only [List.length_cons]
      omega

theorem passes_string : Passes l l.string.2 := by
  unfold string
  dsimp only
  split
  · exact .of_le (stringLoop_le _ _)
  · exact .yyerror (stringLoop_le _ _) _

theorem passes_operator (c : Int) : Passes l (operator c l).2 := by
  unfold operator
  repeat' split
  all_goals first | exact passes_follow _ _ _ | exact .of_le (Nat.le_refl _)

theorem yylex_passes (l : Lexer) : l.errors <+: (l.yylex strtod).2.errors ∧
    ((∃ c ≤ 0, (l.yylex strtod).1 = .char c) ∨ (l.yylex strtod).2.input.length < l.input.length) := by
  obtain ⟨input, lineno, es⟩ := l
  have hend : eof ≤ 0 := by decide
  unfold yylex
  split
  · exact ⟨List.prefix_append _ _, .inl ⟨eof, hend, rfl⟩⟩
  · next c rest lineno' hskip =>
      dsimp only
      obtain rfl | hlt := skip_shorter hskip
      · exact ⟨List.prefix_rfl, .inl ⟨eof, hend, rfl⟩⟩
      · have hpasses : ∀ {l' : Lexer}, Passes ⟨rest, lineno', es⟩ l' → es <+: l'.errors ∧ l'.input.length < input.length :=
          fun h => ⟨h.errors, Nat.lt_of_le_of_lt h.input hlt⟩
        refine Iff.mpr and_or_left (.inr ?_)
        split
        · exact hpasses passes_object
        · split
          · next hnumber => exact hpasses (passes_number hnumber)
          · split
            · next hword => exact hpasses (passes_word (isword_iff.mpr (hword.imp_right .inr)))
            · split
              · exact hpasses passes_string
              · exact hpasses (passes_operator c)

theorem tokens_errors {fuel : Nat} (l : Lexer) : l.errors <+: (tokens strtod fuel l).2.errors := by
  induction fuel generalizing l with
  | zero => exact List.prefix_rfl
  | succ fuel ih =>
      have hlex : l.errors <+: (l.yylex strtod).2.errors := (yylex_passes l).1
      rw [tokens]
      split
      · next c l₁ heq =>
          rw [heq] at hlex
          split
          · exact hlex
          · exact hlex.trans (ih l₁)
      · next t l₁ _ heq =>
          rw [heq] at hlex
          exact hlex.trans (ih l₁)

end Lexer
end LambdaMoo
