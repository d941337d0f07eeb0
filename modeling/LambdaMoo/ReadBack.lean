import LambdaMoo.LexedLiterals

/-! A literal is read back as the value it was printed of, unless a string in it holds the byte
that is `EOF` as a `char`, or the stack of the parser is too small for it. -/
namespace LambdaMoo
open LambdaMoo.Lexer LambdaMoo.Parser

variable {fmt : Dbio.FloatFormat} {fl : Doubles} {maxDepth : Nat} {v : Var} {vs : List Var} {c : Char} {n : Int}
  {stack before : List Symbol} {ts : List Token}

mutual
def Var.need : Var → Nat
  | .int n => if n < 0 then 2 else 1
  | .list l => Var.needElements l
  | _ => 1
/-- An empty list takes its braces and what is between them. The first element has the brace below
it, the others also the elements before and a comma. -/
def Var.needElements : List Var → Nat
  | [] => 3
  | v :: l => max (v.need + 1) (Var.needOthers l + 3)
def Var.needOthers : List Var → Nat
  | [] => 0
  | v :: l => max v.need (Var.needOthers l)
end

mutual
def Var.expr : Var → Expr
  | .list l => .list (Var.exprs l)
  | v => .var v
def Var.exprs : List Var → ArgList
  | [] => .nil
  | v :: l => .cons .normal v.expr (Var.exprs l)
end

mutual
theorem evaluate_expr (fl : Doubles) : (v : Var) → evaluate fl v.expr = some v
  | .list l => by
      rw [Var.expr, evaluate, evaluate_exprs fl l]
      rfl
  | .int _ | .obj _ | .str _ | .err _ | .clear | .none | .catchMarker _ | .finallyMarker _ | .float _ => by
      simp [Var.expr, evaluate]
theorem evaluate_exprs (fl : Doubles) : (l : List Var) → evaluateArgs fl (Var.exprs l) = some l
  | [] => by simp [Var.exprs, evaluateArgs]
  | v :: l => by
      rw [Var.exprs, evaluateArgs, evaluate_expr fl v, evaluate_exprs fl l]
      rfl
end

def ArgList.append : ArgList → ArgList → ArgList
  | .nil, args => args
  | .cons kind e next, args => .cons kind e (next.append args)

theorem snoc_append (args : ArgList) (e : Expr) (rest : ArgList) :
    (args.snoc e).append rest = args.append (.cons .normal e rest) := by
  induction args using ArgList.snoc.induct with
  | case1 => rfl
  | case2 kind e' next ih => rw [ArgList.snoc, ArgList.append, ArgList.append, ih]

theorem append_nil (args : ArgList) : args.append .nil = args := by
  induction args using ArgList.snoc.induct with
  | case1 => rfl
  | case2 kind e' next ih => rw [ArgList.append, ih]

/-! The parser. -/

theorem room_bind (more : Nat) {β : Type} (f : List Symbol → Option β) :
    (room maxDepth more stack before >>= f) = if before.length + more ≤ maxDepth then f stack else none := by
  unfold room
  split <;> rfl

theorem room_some {p : Prop} [Decidable p] {β γ : Type} (x : β) (f : β → Option γ) :
    ((if p then some x else none) >>= f) = if p then f x else none := by
  split <;> rfl

theorem room_twice {p q r : Prop} [Decidable p] [Decidable q] [Decidable r] {β : Type} {x : Option β}
    (h : r ↔ p ∧ q) : (if p then if q then x else none else none) = if r then x else none := by
  by_cases hp : p
  · rw [if_pos hp]
    simp only [h, hp, true_and]
  · rw [if_neg hp, if_neg fun hr => hp (h.mp hr).1]

theorem shift_literal {t : Token} {w : Var} (hliteral : Parser.literal t = some w) (hwants : wantsExpr stack = true) :
    shift fl maxDepth stack t = room maxDepth 1 (reduceExpr fl (.var w) stack) stack := by
  cases t with
  | integer | object | real | string | error =>
      unfold shift
      dsimp only
      rw [hliteral]
      dsimp only
      rw [if_pos hwants]
  | _ => cases hliteral

theorem foldlM_one (t : Token) : [t].foldlM (shift fl maxDepth) stack = shift fl maxDepth stack t := by
  rw [List.foldlM_cons]
  exact bind_pure _

theorem parse_token {t : Token} (hliteral : Parser.literal t = some v) (hwants : wantsExpr stack = true) :
    [t].foldlM (shift fl maxDepth) stack =
      if stack.length + 1 ≤ maxDepth then some (reduceExpr fl (.var v) stack) else none := by
  rw [foldlM_one, shift_literal hliteral hwants]
  rfl

theorem parse_int (hlow : -2 ^ 31 ≤ n) (hhigh : n < 2 ^ 31) (hwants : wantsExpr stack = true) :
    (Var.int n).tokens.foldlM (shift fl maxDepth) stack =
      if stack.length + (Var.int n).need ≤ maxDepth then some (reduceExpr fl (.var (.int n)) stack) else none := by
  rw [Var.tokens, Var.need]
  by_cases hneg : n < 0
  · have hsign : shift fl maxDepth stack .minus = room maxDepth 1 (.token .minus :: stack) stack := by
      rw [shift, if_pos hwants]
    have hnegate : reduceExpr fl (.var (.int (wrap32 (-n)))) (.token .minus :: stack) =
        reduceExpr fl (.var (.int n)) stack := by
      rw [reduceExpr, negate, wrap32_neg_neg, Dbio.wrap32_self hlow hhigh]
    rw [if_pos hneg, if_pos hneg, List.foldlM_cons, hsign, room_bind, parse_token rfl rfl, hnegate, List.length_cons]
    exact room_twice (by omega)
  · rw [if_neg hneg, if_neg hneg]
    exact parse_token rfl hwants

mutual
theorem parse_literal (fl : Doubles) (maxDepth : Nat) : (v : Var) → v.every Var.printable = true →
    ∀ {stack : List Symbol}, wantsExpr stack = true →
      v.tokens.foldlM (shift fl maxDepth) stack =
        if stack.length + v.need ≤ maxDepth then some (reduceExpr fl v.expr stack) else none
  | .int n, hv, _, hwants => by
      simp only [Var.every, Var.printable, Bool.and_eq_true, decide_eq_true_eq] at hv
      exact parse_int hv.1 hv.2 hwants
  | .obj _, _, _, hwants | .str _, _, _, hwants | .err _, _, _, hwants => parse_token rfl hwants
  | .list [], _, stack, hwants => by
      have hopen : shift fl maxDepth stack .lbrace = room maxDepth 1 (.token .lbrace :: stack) stack := by
        rw [shift, if_pos hwants]
      rw [Var.tokens, Var.tokensOf, List.nil_append, List.foldlM_cons, hopen, room_bind, foldlM_one, shift, room,
        List.length_cons, Var.need, Var.needElements, Var.expr, Var.exprs]
      exact room_twice (by omega)
  | .list (v :: vs), hv, stack, hwants => by
      simp only [Var.every, Var.everyOf, Bool.and_eq_true] at hv
      have hopen : shift fl maxDepth stack .lbrace = room maxDepth 1 (.token .lbrace :: stack) stack := by
        rw [shift, if_pos hwants]
      have hfirst : v.tokens.foldlM (shift fl maxDepth) (.token .lbrace :: stack) = _ :=
        parse_literal fl maxDepth v hv.2.1 rfl
      have hothers := parse_others fl maxDepth vs hv.2.2 (.cons .normal v.expr .nil) stack
      have hreduce : reduceExpr fl v.expr (.token .lbrace :: stack) =
          .neArglist (.cons .normal v.expr .nil) :: .token .lbrace :: stack := rfl
      rw [Var.tokens, Var.tokensOf, List.nil_append, List.foldlM_cons, hopen, room_bind, List.append_assoc,
        List.foldlM_append, hfirst, room_some, hreduce, hothers, List.length_cons, Var.need, Var.needElements,
        Var.expr, Var.exprs]
      rw [room_twice (r := stack.length + 1 + v.need ≤ maxDepth) (by omega)]
      exact room_twice (by omega)
theorem parse_others (fl : Doubles) (maxDepth : Nat) : (vs : List Var) → Var.everyOf Var.printable vs = true →
    ∀ (args : ArgList) (stack : List Symbol),
      (Var.tokensOf [.comma] vs ++ [Token.rbrace]).foldlM (shift fl maxDepth)
          (.neArglist args :: .token .lbrace :: stack) =
        if stack.length + (Var.needOthers vs + 3) ≤ maxDepth then
          some (reduceExpr fl (.list (args.append (Var.exprs vs))) stack) else none
  | [], _, args, stack => by
      rw [Var.tokensOf, List.nil_append, foldlM_one, shift, room, Var.needOthers, Var.exprs, append_nil]
      rfl
  | v :: vs, hv, args, stack => by
      rw [Var.everyOf, Bool.and_eq_true] at hv
      have hv' : v.tokens.foldlM (shift fl maxDepth)
          (.token .comma :: .neArglist args :: .token .lbrace :: stack) = _ :=
        parse_literal fl maxDepth v hv.1 rfl
      have hothers := parse_others fl maxDepth vs hv.2 (args.snoc v.expr) stack
      rw [Var.tokensOf, List.append_assoc, List.append_assoc, List.singleton_append, List.foldlM_cons, shift,
        room_bind, List.foldlM_append, hv', Var.needOthers, Var.exprs, ← snoc_append]
      have hreduce : reduceExpr fl v.expr (.token .comma :: .neArglist args :: .token .lbrace :: stack) =
          .neArglist (args.snoc v.expr) :: .token .lbrace :: stack := rfl
      rw [room_some, hreduce, hothers]
      simp only [List.length_cons]
      rw [room_twice (r := stack.length + 3 + v.need ≤ maxDepth) (by omega)]
      exact room_twice (by omega)
end

theorem parse_return (hv : v.every Var.printable = true) :
    parse fl maxDepth (.return_ :: (v.tokens ++ [.semicolon])) =
      if max 4 (v.need + 2) ≤ maxDepth then some (.cons (.return_ (.some v.expr)) .nil) else none := by
  have hvalue : v.tokens.foldlM (shift fl maxDepth) [.token .return_, .statements .nil] = _ :=
    parse_literal fl maxDepth v hv rfl
  have hreturn : shift fl maxDepth [.statements .nil] .return_ =
      room maxDepth 1 [.token .return_, .statements .nil] [.statements .nil] := rfl
  have hreduce : reduceExpr fl v.expr [.token .return_, .statements .nil] =
      [.expr v.expr, .token .return_, .statements .nil] := rfl
  have hend : shift fl maxDepth [.expr v.expr, .token .return_, .statements .nil] .semicolon =
      if 4 ≤ maxDepth then some [.statements (.cons (.return_ (.some v.expr)) .nil)] else none := rfl
  have hall : (Token.return_ :: (v.tokens ++ [Token.semicolon])).foldlM (shift fl maxDepth) [.statements .nil] =
      if max 4 (v.need + 2) ≤ maxDepth then some [.statements (.cons (.return_ (.some v.expr)) .nil)] else none := by
    rw [List.foldlM_cons, hreturn, room_bind, List.foldlM_append, hvalue, room_some, foldlM_one, hreduce, hend]
    simp only [List.length_cons, List.length_nil]
    rw [room_twice (r := v.need + 2 ≤ maxDepth) (by omega)]
    exact room_twice (by omega)
  unfold parse
  rw [room_bind, hall, room_some]
  exact room_twice (by simp only [List.length_nil]; omega)

/-! The text of the whole program. -/

theorem isPlain_of_isDigit (hc : c.isDigit = true) : isPlain c = true := by
  have hrange := isdigit_iff.mp (isdigit_ord hc)
  rw [ord] at hrange
  have hmarks : ('\x00' : Char).toNat = 0 ∧ ('\n' : Char).toNat = 10 := by decide
  simp only [isPlain, Bool.and_eq_true, decide_eq_true_eq, ne_eq, ← Char.toNat_inj]
  omega

theorem plain_itoa (hlow : -2 ^ 31 ≤ n) (hhigh : n < 2 ^ 31) : (itoa n 10).all isPlain = true := by
  obtain ⟨ds, hds, hitoa⟩ := itoa_spec hlow hhigh
  have hdigits : ds.all isPlain = true :=
    List.all_eq_true.mpr fun c hc => isPlain_of_isDigit (List.all_eq_true.mp hds.all c hc)
  rw [hitoa]
  split
  · rw [List.all_cons, hdigits]
    decide
  · exact hdigits

theorem plain_quoted {s : Str} (hs : s.all isPlain = true) : (quoted s).all isPlain = true := by
  rw [List.all_eq_true] at hs
  refine List.all_eq_true.mpr fun c hc => ?_
  obtain ⟨d, hd, hc⟩ := List.mem_flatMap.mp hc
  have hslash : isPlain '\\' = true := by decide
  split at hc
  · obtain rfl | hc := List.mem_cons.mp hc
    · exact hslash
    · rw [List.mem_singleton.mp hc]
      exact hs d hd
  · rw [List.mem_singleton.mp hc]
    exact hs d hd

mutual
theorem plain_literal : (v : Var) → v.every Var.printable = true → v.literal.all isPlain = true
  | .int n, hv => by
      simp only [Var.every, Var.printable, Bool.and_eq_true, decide_eq_true_eq] at hv
      exact plain_itoa hv.1 hv.2
  | .obj n, hv => by
      simp only [Var.every, Var.printable, Bool.and_eq_true, decide_eq_true_eq] at hv
      rw [Var.literal, List.all_cons, plain_itoa hv.1 hv.2]
      decide
  | .err e, _ => (errorName_spec e).1
  | .str s, hv => by
      have hquote : isPlain '"' = true := by decide
      rw [Var.literal, List.all_cons, List.all_append, plain_quoted hv, hquote]
      simp [hquote]
  | .list l, hv => by
      rw [Var.every, Bool.and_eq_true] at hv
      have hbraces : isPlain '{' = true ∧ isPlain '}' = true := by decide
      rw [Var.literal, List.all_cons, List.all_append, plain_literals l [] rfl hv.2]
      simp [hbraces]
  | .clear, _ | .none, _ | .catchMarker _, _ | .finallyMarker _, _ | .float _, _ => rfl
theorem plain_literals : (l : List Var) → (sep : Str) → sep.all isPlain = true → Var.everyOf Var.printable l = true →
    (Var.literals sep l).all isPlain = true
  | [], _, _, _ => rfl
  | v :: l, sep, hsep, hv => by
      rw [Var.everyOf, Bool.and_eq_true] at hv
      rw [Var.literals, List.all_append, List.all_append, hsep, plain_literal v hv.1,
        plain_literals l [',', ' '] (by decide) hv.2]
      rfl
end

theorem valueToLiteral_eq (hv : v.every Var.printable = true) : valueToLiteral fmt v = v.literal := by
  rw [valueToLiteral, printToStream_eq v [] hv, List.nil_append, text_map (plain_literal v hv)]

theorem program_input (fmt : Dbio.FloatFormat) (hv : v.every Var.printable = true) :
    charsOf ["return ".toList ++ valueToLiteral fmt v ++ [';']] =
      "return".toList.map charInt ++ ([ord ' '] ++ (v.literal.map charInt ++ [ord ';', ord '\n'])) := by
  have hmarks : charInt ' ' = ord ' ' ∧ charInt ';' = ord ';' := by decide
  have hword : "return ".toList = "return".toList ++ [' '] := by decide
  rw [charsOf, charsOf, valueToLiteral_eq hv, hword]
  simp [hmarks]

theorem lexes_return (strtod : Str → UInt64) (input : List Int) :
    Lexes strtod ⟨"return".toList.map charInt ++ ([ord ' '] ++ input), 1, []⟩ [.return_]
      ⟨[ord ' '] ++ input, 1, []⟩ := by
  have hlex : yylex strtod ⟨"return".toList.map charInt ++ ([ord ' '] ++ input), 1, []⟩ =
      (.return_, ⟨[ord ' '] ++ input, 1, []⟩) :=
    yylex_word (by decide) (by decide) (by decide) (by decide) rfl
  exact .one [] (.inl rfl) (by decide) hlex (by simp)

theorem tokens_end {strtod : Str → UInt64} {fuel : Nat} :
    Lexer.tokens strtod (fuel + 1) ⟨[ord '\n'], 1, []⟩ = (some [], ⟨[], 2, []⟩) := by
  have hskip : skip false 1 [ord '\n'] = .at eof [] 2 := by
    rw [skip.eq_def]
    change skip false 2 [] = _
    rw [skip.eq_def]
  have hlex : yylex strtod ⟨[ord '\n'], 1, []⟩ = (.char eof, ⟨[], 2, []⟩) := by
    unfold yylex
    dsimp only
    rw [hskip]
    rfl
  rw [Lexer.tokens, hlex]
  rfl

theorem program_parsed (hv : v.every Var.printable = true) (hm : v.every Var.unmarked = true) :
    parseListAsProgram fmt fl maxDepth ["return ".toList ++ valueToLiteral fmt v ++ [';']] =
      if max 4 (v.need + 2) ≤ maxDepth then some (.cons (.return_ (.some v.expr)) .nil) else none := by
  have hvalue : Lexes fmt.strtod ⟨[ord ' '] ++ (v.literal.map charInt ++ [ord ';', ord '\n']), 1, []⟩ v.tokens
      ⟨[ord ';', ord '\n'], 1, []⟩ := lexes_literal fmt.strtod 1 [] v hv hm (.inr rfl) ⟨';', by decide, _, rfl⟩
  have hsemicolon : Lexes fmt.strtod ⟨[ord ';', ord '\n'], 1, []⟩ [.semicolon] ⟨[ord '\n'], 1, []⟩ :=
    .mark [] (.inl rfl) (by decide)
  have hlexes := ((lexes_return fmt.strtod _).append hvalue).append hsemicolon
  rw [← program_input fmt hv] at hlexes
  obtain ⟨fuel, hfuel, htokens⟩ := hlexes.tokens (Nat.lt_succ_self _)
  obtain ⟨fuel, rfl⟩ := Nat.exists_eq_add_of_lt (Nat.zero_lt_of_lt hfuel)
  rw [tokens_end] at htokens
  unfold parseListAsProgram
  dsimp only
  rw [htokens]
  simp only [List.isEmpty_nil, if_true, Option.map_some, Option.bind_some, List.append_nil]
  exact parse_return hv

theorem program_refused (hv : v.every Var.printable = true) (hm : v.every Var.unmarked = false) :
    parseListAsProgram fmt fl maxDepth ["return ".toList ++ valueToLiteral fmt v ++ [';']] = none := by
  have hvalue : Reports fmt.strtod ⟨[ord ' '] ++ (v.literal.map charInt ++ [ord ';', ord '\n']), 1, []⟩ :=
    reports_literal fmt.strtod 1 [] v hv hm _ (.inr rfl)
  have hreports := Reports.after (lexes_return fmt.strtod _) hvalue
  rw [← program_input fmt hv] at hreports
  have herrors := hreports.errors (Nat.lt_succ_self _)
  unfold parseListAsProgram
  dsimp only
  rw [if_neg fun hnil => herrors (List.isEmpty_iff.mp hnil)]

/-- A value of the kinds that come back. -/
abbrev Printable := { v : Var // v.every Var.printable = true }

/-- A value is read back just if no string in it holds the byte that is `EOF` as a `char`, and the
stack of the parser is large enough. -/
theorem readBack_iff (fmt : Dbio.FloatFormat) (fl : Doubles) (maxDepth : Nat) (v : Printable) :
    readBack fmt fl maxDepth v.1 = some v.1 ↔
      v.1.every Var.unmarked = true ∧ max 4 (v.1.need + 2) ≤ maxDepth := by
  unfold readBack
  cases hm : v.1.every Var.unmarked with
  | false =>
      rw [program_refused v.2 hm]
      simp
  | true =>
      rw [program_parsed v.2 hm]
      by_cases hroom : max 4 (v.1.need + 2) ≤ maxDepth
      · rw [if_pos hroom]
        exact iff_of_true (evaluate_expr fl v.1) ⟨rfl, hroom⟩
      · rw [if_neg hroom]
        exact iff_of_false (Option.some_ne_none _).symm fun h => hroom h.2

/-- A string of one byte does not come back, however numbers are printed and whatever the stack. -/
theorem marked_not_readBack : (Var.str [Char.ofNat 255]).every Var.printable = true ∧
    ∀ fmt fl maxDepth, readBack fmt fl maxDepth (.str [Char.ofNat 255]) ≠ some (.str [Char.ofNat 255]) := by
  have hv : (Var.str [Char.ofNat 255]).every Var.printable = true := by decide
  refine ⟨hv, fun fmt fl maxDepth => ?_⟩
  unfold readBack
  rw [program_refused hv (by decide)]
  exact (Option.some_ne_none _).symm

end LambdaMoo
