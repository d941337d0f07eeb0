import LambdaMoo.Editing

/-! `substitute`: a template is filled in from the groups of a match. A template is read as pieces,
and the groups are those of any list that is taken for a match. -/
namespace LambdaMoo

def invalidPair (num1 num2 max : Int) : Bool :=
  !((num1 = 0 && num2 = -1) || (0 < num1 && num1 - 1 ≤ num2 && num2 ≤ max))

def rejectsPair (subjLength : Int) : Var → Bool
  | .list [.int num1, .int num2] => invalidPair num1 num2 subjLength
  | _ => true

def checkSubsList : Var → Bool
  | .list [.int start, .int end', .list pairs, .str subj] =>
      pairs.length ≠ 9 || invalidPair start end' (intLength subj) || pairs.any (rejectsPair (intLength subj))
  | _ => true

/-- The bounds of a group as the loop has them, counted from 0; none is a character that stands for no
group. The list is not looked at again, so that a wrong one is a wild pointer. -/
def groupFor (subs : Var) (c : Char) : Except Crash (Option (Int × Int)) :=
  match subs with
  | .list (.int start :: .int end' :: .list pairs :: _) =>
      if '1' ≤ c ∧ c ≤ '9' then do
        match ← element pairs (c.toNat - '0'.toNat) with
        | .list (.int start :: .int end' :: _) => return some (wrap32 (start - 1), wrap32 (end' - 1))
        | _ => .error .wild
      else if c = '0' then return some (wrap32 (start - 1), wrap32 (end' - 1))
      else return none
  | _ => .error .wild

/-- The loop over the template. At its end, a `%` is followed by the NUL. -/
def substituteLoop (subs : Var) (subject : Str) : Str → Str → Except Crash (Except Error Str)
  | [], s => return .ok s
  | '%' :: [], _ => return .error .eInvarg
  | '%' :: c :: template, s =>
      if c = '%' then substituteLoop subs subject template (s ++ ['%'])
      else do
        match ← groupFor subs c with
        | none => return .error .eInvarg
        | some (start, end') =>
            substituteLoop subs subject template (s ++ (← copyChars subject (end' - start + 1).toNat start))
  | c :: template, s => substituteLoop subs subject template (s ++ [c])

def bfSubstitute (template : Str) (subs : Var) : Except Crash (Except Error Var) := do
  if checkSubsList subs then return .error .eInvarg
  match subs with
  | .list [_, _, _, .str subject] =>
      match ← substituteLoop subs subject template [] with
      | .ok s => return .ok (.str s)
      | .error e => return .error e
  | _ => .error .wild

/-! What a template says. -/

/-- A piece of a template: a character, `%%`, or `%` and a digit. -/
inductive Piece
  | plain (c : Char) (h : c ≠ '%')
  | percent
  | group (n : Fin 10)

def Piece.spell : Piece → Str
  | plain c _ => [c]
  | percent => ['%', '%']
  | group n => ['%', Nat.digitChar n]

def charsBetween (s : Str) (start end' : Int) : Str := (s.drop (start - 1).toNat).take (end' - start + 1).toNat

def groupBounds (subs : Var) (n : Fin 10) : Int × Int :=
  match subs with
  | .list [.int start, .int end', .list pairs, _] =>
      if n = 0 then (start, end')
      else
        match pairs[n.val - 1]? with
        | some (.list [.int start, .int end']) => (start, end')
        | _ => (0, -1)
  | _ => (0, -1)

def subjectOf : Var → Str
  | .list [_, _, _, .str subject] => subject
  | _ => []

def Piece.filled (subs : Var) : Piece → Str
  | plain c _ => [c]
  | percent => ['%']
  | group n => charsBetween (subjectOf subs) (groupBounds subs n).1 (groupBounds subs n).2

/-- Some `%`, with the template read from the left, is followed by neither a digit nor `%`. -/
def Misplaced (template : Str) : Prop :=
  ∃ (pieces : List Piece) (rest : Str), template = pieces.flatMap Piece.spell ++ '%' :: rest ∧
    ∀ c, rest.head? = some c → c ≠ '%' ∧ c.isDigit = false

variable {subs : Var} {template rest s : Str} {c : Char}

theorem digitChar_of_isDigit (h : c.isDigit = true) : ∃ n : Fin 10, c = Nat.digitChar n := by
  have hrange : 48 ≤ c.toNat ∧ c.toNat ≤ 57 := by
    unfold Char.isDigit at h
    rw [Bool.and_eq_true, decide_eq_true_eq, decide_eq_true_eq] at h
    exact h
  refine ⟨⟨c.toNat - 48, by omega⟩, ?_⟩
  have hcases : ∀ k : Fin 10, (Nat.digitChar k).toNat = k + 48 := by decide
  apply Char.toNat_inj.mp
  rw [hcases ⟨c.toNat - 48, by omega⟩]
  dsimp only
  omega

theorem spelled_or_misplaced (template : Str) :
    (∃ pieces : List Piece, template = pieces.flatMap Piece.spell) ∨ Misplaced template := by
  have hcons : ∀ (piece : Piece) (rest : Str),
      (∃ pieces : List Piece, rest = pieces.flatMap Piece.spell) ∨ Misplaced rest →
      (∃ pieces : List Piece, piece.spell ++ rest = pieces.flatMap Piece.spell) ∨ Misplaced (piece.spell ++ rest) := by
    intro piece rest h
    obtain ⟨pieces, rfl⟩ | ⟨pieces, tail, rfl, htail⟩ := h
    · exact .inl ⟨piece :: pieces, rfl⟩
    · refine .inr ⟨piece :: pieces, tail, ?_, htail⟩
      rw [List.flatMap_cons, List.append_assoc]
  induction hn : template.length using Nat.strongRecOn generalizing template with
  | ind n ih =>
      match template with
      | [] => exact .inl ⟨[], rfl⟩
      | c :: rest =>
          by_cases hc : c = '%'
          · subst hc
            match rest with
            | [] => exact .inr ⟨[], [], rfl, fun c hc => by cases hc⟩
            | d :: rest =>
                have ih := ih rest.length (by rw [← hn, List.length_cons, List.length_cons]; omega) rest rfl
                by_cases hd : d = '%'
                · subst hd
                  exact hcons .percent rest ih
                · cases hdigit : d.isDigit with
                  | true =>
                      obtain ⟨n, rfl⟩ := digitChar_of_isDigit hdigit
                      exact hcons (.group n) rest ih
                  | false =>
                      refine .inr ⟨[], d :: rest, rfl, ?_⟩
                      rintro _ ⟨⟩
                      exact ⟨hd, hdigit⟩
          · exact hcons (.plain c hc) rest (ih rest.length (by rw [← hn, List.length_cons]; omega) rest rfl)

/-! Lists that are taken for a match. -/

theorem invalidPair_false_iff {num1 num2 max : Int} :
    invalidPair num1 num2 max = false ↔ (num1 = 0 ∧ num2 = -1) ∨ (0 < num1 ∧ num1 - 1 ≤ num2 ∧ num2 ≤ max) := by
  unfold invalidPair
  simp only [Bool.not_eq_false', Bool.or_eq_true, Bool.and_eq_true, decide_eq_true_eq, and_assoc]

theorem checkSubsList_false (h : checkSubsList subs = false) :
    ∃ start end' pairs subject, subs = .list [.int start, .int end', .list pairs, .str subject] ∧ pairs.length = 9 ∧
      invalidPair start end' (intLength subject) = false ∧
      ∀ pair ∈ pairs, rejectsPair (intLength subject) pair = false := by
  unfold checkSubsList at h
  split at h
  · next start end' pairs subject =>
      simp only [Bool.or_eq_false_iff, decide_eq_false_iff_not, ne_eq, not_not, List.any_eq_false,
        Bool.not_eq_true] at h
      obtain ⟨⟨hlength, hpair⟩, hpairs⟩ := h
      exact ⟨start, end', pairs, subject, rfl, hlength, hpair, hpairs⟩
  · cases h

/-- The bounds of every group of a list that is taken are what a match would give. -/
theorem groupBounds_valid (h : checkSubsList subs = false) (n : Fin 10) :
    invalidPair (groupBounds subs n).1 (groupBounds subs n).2 (intLength (subjectOf subs)) = false := by
  obtain ⟨start, end', pairs, subject, rfl, hlength, hpair, hpairs⟩ := checkSubsList_false h
  unfold groupBounds subjectOf
  dsimp only
  split
  · exact hpair
  · split
    · next hget =>
        exact hpairs _ (List.mem_of_getElem? hget)
    · exact invalidPair_false_iff.mpr (.inl ⟨rfl, rfl⟩)

theorem copyChars_group {subject : Str} {start end' : Int} (h : invalidPair start end' (intLength subject) = false) :
    wrap32 (start - 1) = start - 1 ∧ wrap32 (end' - 1) = end' - 1 ∧
      copyChars subject (end' - 1 - (start - 1) + 1).toNat (start - 1) = .ok (charsBetween subject start end') := by
  have hlength := intLength_le subject
  have hmax : intLength subject ≤ intMax := wrap32_le _
  have hint := intMax_eq
  have hcount : (end' - 1 - (start - 1) + 1).toNat = (end' - start + 1).toNat := congrArg Int.toNat (by omega)
  unfold charsBetween
  rw [hcount]
  obtain ⟨rfl, rfl⟩ | ⟨hpos, hle, hend⟩ := invalidPair_false_iff.mp h
  · exact ⟨rfl, rfl, rfl⟩
  · refine ⟨wrap32_of_fits (by omega) (by omega), wrap32_of_fits (by omega) (by omega), ?_⟩
    exact copyChars_eq (by omega) (by omega)

theorem groupFor_digit (h : checkSubsList subs = false) (n : Fin 10) :
    groupFor subs (Nat.digitChar n) = .ok (some ((groupBounds subs n).1 - 1, (groupBounds subs n).2 - 1)) := by
  have hvalid := groupBounds_valid h n
  obtain ⟨hstart, hend, -⟩ := copyChars_group hvalid
  obtain ⟨start, end', pairs, subject, rfl, hlength, -, hpairs⟩ := checkSubsList_false h
  rw [← hstart, ← hend]
  by_cases hn : n = 0
  · subst hn
    rfl
  · have hdigit : ∀ n : Fin 10, n ≠ 0 → ('1' ≤ Nat.digitChar n ∧ Nat.digitChar n ≤ '9') ∧
        (((Nat.digitChar n).toNat : Int) - ('0'.toNat : Int)) = n := by decide
    obtain ⟨hrange, hplace⟩ := hdigit n hn
    have hpos : 0 < n.val := Nat.pos_of_ne_zero fun h => hn (Fin.ext h)
    have hlt : n.val - 1 < pairs.length := by omega
    have hget : pairs[n.val - 1]? = some pairs[n.val - 1] := List.getElem?_eq_getElem hlt
    have helement : element pairs (n : Int) = .ok pairs[n.val - 1] := by
      unfold element
      rw [if_pos (by omega), show ((n : Int) - 1).toNat = n.val - 1 by omega, hget]
    have hpair := hpairs _ (List.getElem_mem hlt)
    unfold groupFor groupBounds
    dsimp only
    rw [if_pos hrange, if_neg hn, hplace, helement, hget]
    unfold rejectsPair at hpair
    split at hpair
    · next hint => rw [hint]; rfl
    · cases hpair

/-! The loop. -/

theorem substituteLoop_plain {subject : Str} (hc : c ≠ '%') :
    substituteLoop subs subject (c :: template) s = substituteLoop subs subject template (s ++ [c]) := by
  rw [substituteLoop.eq_def]
  split
  · next h => cases h
  · next h => cases h; exact absurd rfl hc
  · next h => cases h; exact absurd rfl hc
  · next h => cases h; rfl

theorem substituteLoop_spell (h : checkSubsList subs = false) (piece : Piece) (rest s : Str) :
    substituteLoop subs (subjectOf subs) (piece.spell ++ rest) s =
      substituteLoop subs (subjectOf subs) rest (s ++ piece.filled subs) := by
  cases piece with
  | plain c hc => exact substituteLoop_plain hc
  | percent => rfl
  | group n =>
      have hne : ∀ n : Fin 10, Nat.digitChar n ≠ '%' := by decide
      obtain ⟨-, -, hcopy⟩ := copyChars_group (groupBounds_valid h n)
      change substituteLoop subs (subjectOf subs) ('%' :: Nat.digitChar n :: rest) s = _
      rw [substituteLoop, if_neg (hne n), groupFor_digit h, ok_bind_crash]
      dsimp only
      rw [hcopy, ok_bind_crash]
      rfl

theorem substituteLoop_spelled (h : checkSubsList subs = false) (pieces : List Piece) (rest s : Str) :
    substituteLoop subs (subjectOf subs) (pieces.flatMap Piece.spell ++ rest) s =
      substituteLoop subs (subjectOf subs) rest (s ++ pieces.flatMap (Piece.filled subs)) := by
  induction pieces generalizing s with
  | nil => rw [List.flatMap_nil, List.flatMap_nil, List.nil_append, List.append_nil]
  | cons piece pieces ih =>
      rw [List.flatMap_cons, List.append_assoc, substituteLoop_spell h, ih, List.flatMap_cons, List.append_assoc]

theorem groupFor_other (h : checkSubsList subs = false) (hc : c.isDigit = false) : groupFor subs c = .ok none := by
  obtain ⟨start, end', pairs, subject, rfl, -, -, -⟩ := checkSubsList_false h
  have hdigit : ¬ ('0' ≤ c ∧ c ≤ '9') := by
    intro h
    unfold Char.isDigit at hc
    rw [Bool.and_eq_false_iff, decide_eq_false_iff_not, decide_eq_false_iff_not] at hc
    exact hc.elim (fun hlow => hlow h.1) fun hhigh => hhigh h.2
  have hnot : ¬ ('1' ≤ c ∧ c ≤ '9') := by
    rintro ⟨hlow, hhigh⟩
    exact hdigit ⟨Char.le_trans (by decide) hlow, hhigh⟩
  have hzero : c ≠ '0' := by
    rintro rfl
    exact hdigit (by decide)
  unfold groupFor
  dsimp only
  rw [if_neg hnot, if_neg hzero]
  rfl

theorem substituteLoop_misplaced (h : checkSubsList subs = false)
    (hrest : ∀ c, rest.head? = some c → c ≠ '%' ∧ c.isDigit = false) :
    substituteLoop subs (subjectOf subs) ('%' :: rest) s = .ok (.error .eInvarg) := by
  cases rest with
  | nil => rfl
  | cons c rest =>
      obtain ⟨hne, hdigit⟩ := hrest c rfl
      rw [substituteLoop, if_neg hne, groupFor_other h hdigit, ok_bind_crash]
      rfl

theorem bfSubstitute_eq (h : checkSubsList subs = false) {result : Except Error Str}
    (hloop : substituteLoop subs (subjectOf subs) template [] = .ok result) :
    bfSubstitute template subs = .ok (result.map .str) := by
  unfold bfSubstitute
  rw [if_neg (by rw [h]; decide)]
  obtain ⟨start, end', pairs, subject, rfl, -, -, -⟩ := checkSubsList_false h
  dsimp only
  rw [show substituteLoop _ subject template [] = .ok result from hloop, ok_bind_crash]
  cases result with
  | ok s => rfl
  | error e => rfl

/-- Every template and every list: an error just where the list or the template is wrong, else all
pieces of the template filled in; and no character outside of the subject is read. -/
theorem bfSubstitute_exact (template : Str) (subs : Var) :
    (∃ result, bfSubstitute template subs = .ok result) ∧
      (bfSubstitute template subs = .ok (.error .eInvarg) ↔ checkSubsList subs = true ∨ Misplaced template) ∧
      (¬ Misplaced template → ∃ pieces : List Piece, template = pieces.flatMap Piece.spell) ∧
      ∀ pieces : List Piece, template = pieces.flatMap Piece.spell → checkSubsList subs = false →
        bfSubstitute template subs = .ok (.ok (.str (pieces.flatMap (Piece.filled subs)))) := by
  have hspelled : ∀ pieces : List Piece, template = pieces.flatMap Piece.spell → checkSubsList subs = false →
      bfSubstitute template subs = .ok (.ok (.str (pieces.flatMap (Piece.filled subs)))) := by
    rintro pieces rfl h
    have hloop := substituteLoop_spelled h pieces [] []
    rw [List.append_nil, List.nil_append] at hloop
    exact bfSubstitute_eq h hloop
  have hmisplaced : Misplaced template → checkSubsList subs = false →
      bfSubstitute template subs = .ok (.error .eInvarg) := by
    rintro ⟨pieces, rest, rfl, hrest⟩ h
    have hloop : substituteLoop subs (subjectOf subs) (pieces.flatMap Piece.spell ++ '%' :: rest) [] =
        .ok (.error .eInvarg) := by
      rw [substituteLoop_spelled h, substituteLoop_misplaced h hrest]
    exact bfSubstitute_eq h hloop
  have hrejected : checkSubsList subs = true → bfSubstitute template subs = .ok (.error .eInvarg) := by
    intro h
    unfold bfSubstitute
    rw [if_pos h]
    rfl
  refine ⟨?_, ⟨?_, ?_⟩, (spelled_or_misplaced template).resolve_right, hspelled⟩
  · cases h : checkSubsList subs with
    | true => exact ⟨_, hrejected h⟩
    | false =>
        obtain ⟨pieces, hpieces⟩ | hbad := spelled_or_misplaced template
        · exact ⟨_, hspelled pieces hpieces h⟩
        · exact ⟨_, hmisplaced hbad h⟩
  · intro herror
    by_contra hgood
    rw [not_or, Bool.not_eq_true] at hgood
    obtain ⟨pieces, hpieces⟩ := (spelled_or_misplaced template).resolve_right hgood.2
    rw [hspelled pieces hpieces hgood.1] at herror
    cases herror
  · rintro (h | h)
    · exact hrejected h
    · cases hcheck : checkSubsList subs with
      | true => exact hrejected hcheck
      | false => exact hmisplaced h hcheck

end LambdaMoo
