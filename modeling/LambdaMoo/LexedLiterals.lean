import LambdaMoo.LiteralTokens

/-! Whole literals in the lexer: a literal is lexed as its tokens, or an error is reported. -/
namespace LambdaMoo
open Lexer

variable {strtod : Str → UInt64} {v : Var} {vs : List Var} {c : Char} {n : Int} {blank input rest : List Int}
  {l l' : Lexer} {lineno : Nat} {es : List (Nat × Str)}

theorem errorName_spec (e : Error) : (errorName e).all isPlain = true ∧
    ((errorName e).map charInt).all isword = true ∧ ((errorName e).map charInt).head?.any isalpha = true ∧
    findKeyword (errorName e) = some (.error e) := by
  cases e <;> decide

theorem wrap32_neg_neg (n : Int) : wrap32 (-wrap32 (-n)) = wrap32 n := by
  have hsub := Int.sub_bmod_bmod (x := 0) (y := -n) (n := 2 ^ 32)
  rwa [Int.zero_sub, Int.zero_sub, Int.neg_neg] at hsub

theorem Digits.pieces {ds : Str} (hds : Digits ds n) : ds.map charInt ≠ [] :=
  fun hnil => hds.ne_nil (List.map_eq_nil_iff.mp hnil)

theorem lexes_int (hlow : -2 ^ 31 ≤ n) (hhigh : n < 2 ^ 31) (hblank : blank = [] ∨ blank = [ord ' '])
    (hrest : Delimited rest) :
    Lexes strtod ⟨blank ++ ((itoa n 10).map charInt ++ rest), lineno, es⟩ (Var.int n).tokens ⟨rest, lineno, es⟩ := by
  obtain ⟨ds, hds, hitoa⟩ := itoa_spec hlow hhigh
  have hdigits : yylex strtod ⟨ds.map charInt ++ rest, lineno, es⟩ = (.integer (wrap32 n.natAbs), ⟨rest, lineno, es⟩) :=
    yylex_integer hds hrest
  rw [hitoa, Var.tokens]
  by_cases hneg : n < 0
  · rw [if_pos hneg, if_pos hneg, List.map_cons, charInt_ascii (c := '-') (by decide), List.cons_append]
    rw [show (n.natAbs : Int) = -n by omega] at hdigits
    exact (Lexes.mark _ hblank (by decide)).append (.one [] (.inl rfl) hds.pieces hdigits (by simp))
  · rw [show (n.natAbs : Int) = n by omega, Dbio.wrap32_self hlow hhigh] at hdigits
    rw [if_neg hneg, if_neg hneg]
    exact .one _ hblank hds.pieces hdigits (by simp)

theorem lexes_obj (hlow : -2 ^ 31 ≤ n) (hhigh : n < 2 ^ 31) (hblank : blank = [] ∨ blank = [ord ' '])
    (hrest : Delimited rest) :
    Lexes strtod ⟨blank ++ (('#' :: itoa n 10).map charInt ++ rest), lineno, es⟩ [.object n] ⟨rest, lineno, es⟩ := by
  obtain ⟨ds, hds, hitoa⟩ := itoa_spec hlow hhigh
  have hobject : yylex strtod ⟨ord '#' :: ((if decide (n < 0) then [ord '-'] else []) ++ ds.map charInt ++ rest),
      lineno, es⟩ = _ := yylex_object hds (n < 0) hrest
  refine .one _ hblank (by simp) ?_ (by simp)
  rw [hitoa, List.map_cons, charInt_ascii (c := '#') (by decide), List.cons_append]
  by_cases hneg : n < 0
  · rw [show (n.natAbs : Int) = -n by omega, wrap32_neg_neg, Dbio.wrap32_self hlow hhigh] at hobject
    rw [if_pos hneg, List.map_cons, charInt_ascii (c := '-') (by decide)]
    simpa [hneg] using hobject
  · rw [show (n.natAbs : Int) = n by omega, Dbio.wrap32_self hlow hhigh] at hobject
    rw [if_neg hneg]
    simpa [hneg] using hobject

theorem quoted_input (s : Str) (rest : List Int) : ('"' :: (quoted s ++ ['"'])).map charInt ++ rest =
    ord '"' :: ((quoted s).map charInt ++ ord '"' :: rest) := by
  simp [charInt_ascii (c := '"') (by decide)]

theorem delimited_literals (hrest : Delimited rest) (vs : List Var) :
    Delimited ((Var.literals [',', ' '] vs).map charInt ++ rest) := by
  cases vs with
  | nil => exact hrest
  | cons v vs =>
      refine ⟨',', by decide, ?_⟩
      simp [Var.literals, charInt_ascii (c := ',') (by decide)]

theorem list_input (l : List Var) (rest : List Int) : (Var.list l).literal.map charInt ++ rest =
    ord '{' :: ((Var.literals [] l).map charInt ++ ord '}' :: rest) := by
  simp [Var.literal, charInt_ascii (c := '{') (by decide), charInt_ascii (c := '}') (by decide)]

theorem first_input (v : Var) (vs : List Var) (rest : List Int) : (Var.literals [] (v :: vs)).map charInt ++ rest =
    v.literal.map charInt ++ ((Var.literals [',', ' '] vs).map charInt ++ rest) := by
  simp [Var.literals]

theorem literals_input (v : Var) (vs : List Var) (rest : List Int) :
    (Var.literals [',', ' '] (v :: vs)).map charInt ++ rest =
      ord ',' :: ([ord ' '] ++ (v.literal.map charInt ++ ((Var.literals [',', ' '] vs).map charInt ++ rest))) := by
  simp [Var.literals, charInt_ascii (c := ',') (by decide), charInt_ascii (c := ' ') (by decide)]

theorem delimited_brace (rest : List Int) : Delimited (ord '}' :: rest) := ⟨'}', by decide, rest, rfl⟩

mutual
theorem lexes_literal (strtod : Str → UInt64) (lineno : Nat) (es : List (Nat × Str)) : (v : Var) →
    v.every Var.printable = true → v.every Var.unmarked = true → ∀ {blank rest : List Int},
      blank = [] ∨ blank = [ord ' '] → Delimited rest →
      Lexes strtod ⟨blank ++ (v.literal.map charInt ++ rest), lineno, es⟩ v.tokens ⟨rest, lineno, es⟩
  | .int n, hv, _, _, _, hblank, hrest => by
      simp only [Var.every, Var.printable, Bool.and_eq_true, decide_eq_true_eq] at hv
      exact lexes_int hv.1 hv.2 hblank hrest
  | .obj n, hv, _, _, _, hblank, hrest => by
      simp only [Var.every, Var.printable, Bool.and_eq_true, decide_eq_true_eq] at hv
      exact lexes_obj hv.1 hv.2 hblank hrest
  | .err e, _, _, _, _, hblank, hrest => by
      obtain ⟨hplain, hword, hfirst, hkeyword⟩ := errorName_spec e
      have hpiece : (errorName e).map charInt ≠ [] := by
        rintro hnil
        rw [hnil] at hfirst
        contradiction
      exact .one _ hblank hpiece (yylex_word hkeyword hplain hword hfirst hrest.head.2.1) (by simp)
  | .str s, hv, hm, _, rest, hblank, _ => by
      have hmark : Char.ofNat 255 ∉ s := of_decide_eq_true hm
      refine .one _ hblank (by simp [Var.literal]) ?_ (by simp)
      rw [Var.literal, quoted_input]
      exact yylex_string hv hmark
  | .list [], _, _, blank, rest, hblank, _ => by
      rw [list_input, Var.tokens]
      exact (Lexes.mark _ hblank (by decide)).append (.mark [] (.inl rfl) (by decide))
  | .list (v :: vs), hv, hm, blank, rest, hblank, _ => by
      simp only [Var.every, Var.everyOf, Bool.and_eq_true] at hv hm
      have hopen : Lexes strtod ⟨blank ++ ord '{' :: (v.literal.map charInt ++
          ((Var.literals [',', ' '] vs).map charInt ++ ord '}' :: rest)), lineno, es⟩ [.lbrace] _ :=
        .mark _ hblank (by decide)
      have hfirst := lexes_literal strtod lineno es v hv.2.1 hm.2.1 (.inl rfl)
        (delimited_literals (delimited_brace rest) vs)
      have hothers := lexes_literals strtod lineno es vs hv.2.2 hm.2.2 (delimited_brace rest)
      have hclose : Lexes strtod ⟨ord '}' :: rest, lineno, es⟩ [.rbrace] ⟨rest, lineno, es⟩ :=
        .mark [] (.inl rfl) (by decide)
      rw [list_input, first_input, Var.tokens, Var.tokensOf, List.nil_append]
      exact hopen.append ((hfirst.append hothers).append hclose)
theorem lexes_literals (strtod : Str → UInt64) (lineno : Nat) (es : List (Nat × Str)) : (vs : List Var) →
    Var.everyOf Var.printable vs = true → Var.everyOf Var.unmarked vs = true → ∀ {rest : List Int},
      Delimited rest →
      Lexes strtod ⟨(Var.literals [',', ' '] vs).map charInt ++ rest, lineno, es⟩ (Var.tokensOf [.comma] vs)
        ⟨rest, lineno, es⟩
  | [], _, _, _, _ => .nil _
  | v :: vs, hv, hm, rest, hrest => by
      simp only [Var.everyOf, Bool.and_eq_true] at hv hm
      have hcomma : Lexes strtod ⟨ord ',' :: ([ord ' '] ++ (v.literal.map charInt ++
          ((Var.literals [',', ' '] vs).map charInt ++ rest))), lineno, es⟩ [.comma] _ :=
        .mark [] (.inl rfl) (by decide)
      have hfirst := lexes_literal strtod lineno es v hv.1 hm.1 (.inr rfl) (delimited_literals hrest vs)
      have hothers := lexes_literals strtod lineno es vs hv.2 hm.2 hrest
      rw [literals_input, Var.tokensOf]
      exact (hcomma.append hfirst).append hothers
end

def Reports (strtod : Str → UInt64) (l : Lexer) : Prop :=
  ∃ ts l', Lexes strtod l ts l' ∧ (l'.yylex strtod).2.errors ≠ []

theorem Reports.after {ts : List Token} (h : Lexes strtod l ts l') (h' : Reports strtod l') : Reports strtod l := by
  obtain ⟨ts', l'', hlexes, herrors⟩ := h'
  exact ⟨ts ++ ts', l'', h.append hlexes, herrors⟩

mutual
theorem reports_literal (strtod : Str → UInt64) (lineno : Nat) (es : List (Nat × Str)) : (v : Var) →
    v.every Var.printable = true → v.every Var.unmarked = false → ∀ (blank : List Int) {rest : List Int},
      blank = [] ∨ blank = [ord ' '] → Reports strtod ⟨blank ++ (v.literal.map charInt ++ rest), lineno, es⟩
  | .str s, hv, hm, blank, rest, hblank => by
      have hmark : Char.ofNat 255 ∈ s := Decidable.not_not.mp (of_decide_eq_false hm)
      refine ⟨[], _, .nil _, ?_⟩
      rw [Lexes.yylex_blanks hblank, Var.literal, quoted_input, yylex_marked hv hmark]
      exact List.append_ne_nil_of_right_ne_nil _ (List.cons_ne_nil _ _)
  | .list (v :: vs), hv, hm, blank, rest, hblank => by
      simp only [Var.every, Var.everyOf, Bool.and_eq_true] at hv
      simp only [Var.every, Var.unmarked, Var.everyOf, Bool.true_and, Bool.and_eq_false_iff] at hm
      have hopen : Lexes strtod ⟨blank ++ ord '{' :: (v.literal.map charInt ++
          ((Var.literals [',', ' '] vs).map charInt ++ ord '}' :: rest)), lineno, es⟩ [.lbrace] _ :=
        .mark _ hblank (by decide)
      rw [list_input, first_input]
      refine .after hopen ?_
      cases hclean : v.every Var.unmarked with
      | false => exact reports_literal strtod lineno es v hv.2.1 hclean [] (.inl rfl)
      | true =>
          have hfirst := lexes_literal strtod lineno es v hv.2.1 hclean (.inl rfl)
            (delimited_literals (delimited_brace rest) vs)
          exact .after hfirst (reports_literals strtod lineno es vs hv.2.2
            (hm.resolve_left (by simp [hclean])) (delimited_brace rest))
  | .list [], _, hm, _, _, _ | .int _, _, hm, _, _, _ | .obj _, _, hm, _, _, _ | .err _, _, hm, _, _, _ =>
      absurd hm Bool.true_eq_false.mp
  | .clear, hv, _, _, _, _ | .none, hv, _, _, _, _ | .catchMarker _, hv, _, _, _, _
  | .finallyMarker _, hv, _, _, _, _ | .float _, hv, _, _, _, _ => absurd hv Bool.false_ne_true
theorem reports_literals (strtod : Str → UInt64) (lineno : Nat) (es : List (Nat × Str)) : (vs : List Var) →
    Var.everyOf Var.printable vs = true → Var.everyOf Var.unmarked vs = false → ∀ {rest : List Int},
      Delimited rest → Reports strtod ⟨(Var.literals [',', ' '] vs).map charInt ++ rest, lineno, es⟩
  | [], _, hm, _, _ => absurd hm Bool.true_eq_false.mp
  | v :: vs, hv, hm, rest, hrest => by
      simp only [Var.everyOf, Bool.and_eq_true, Bool.and_eq_false_iff] at hv hm
      have hcomma : Lexes strtod ⟨ord ',' :: ([ord ' '] ++ (v.literal.map charInt ++
          ((Var.literals [',', ' '] vs).map charInt ++ rest))), lineno, es⟩ [.comma] _ :=
        .mark [] (.inl rfl) (by decide)
      rw [literals_input]
      refine .after hcomma ?_
      cases hclean : v.every Var.unmarked with
      | false => exact reports_literal strtod lineno es v hv.1 hclean _ (.inr rfl)
      | true =>
          have hfirst := lexes_literal strtod lineno es v hv.1 hclean (.inr rfl) (delimited_literals hrest vs)
          exact .after hfirst (reports_literals strtod lineno es vs hv.2 (hm.resolve_left (by simp [hclean])) hrest)
end

theorem Reports.errors (h : Reports strtod l) {fuel : Nat} (hfuel : l.input.length < fuel) :
    (tokens strtod fuel l).2.errors ≠ [] := by
  obtain ⟨ts, l', hlexes, herrors⟩ := h
  obtain ⟨fuel', hfuel', heq⟩ := hlexes.tokens hfuel
  obtain ⟨fuel'', rfl⟩ := Nat.exists_eq_add_of_lt (Nat.zero_lt_of_lt hfuel')
  have hstays : (l'.yylex strtod).2.errors <+: (tokens strtod (0 + fuel'' + 1) l').2.errors := by
    rw [tokens]
    split
    · next c l₁ hlex =>
        rw [hlex]
        split
        · exact List.prefix_rfl
        · exact tokens_errors l₁
    · next t l₁ _ hlex =>
        rw [hlex]
        exact tokens_errors l₁
  rw [heq]
  intro hnil
  rw [hnil, List.prefix_nil] at hstays
  exact herrors hstays

end LambdaMoo
