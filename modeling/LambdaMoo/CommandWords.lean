import LambdaMoo.ParseCmd

/-! The words of a command are those of the grammar, and the text behind the first of them
is where the second scan finds it. -/
namespace LambdaMoo

variable {s : Scan} {t w rest : Str} {c : Char} {q : Bool} {fuel : Nat}

/-- The text begins with a word. Blanks end it outside of quotes, a backslash takes the next
character as it is, and a quote that is not closed goes up to the end. -/
inductive IsWord : Bool → Str → Str → Str → Prop
  | stop (q : Bool) : IsWord q [] [] []
  | blank (t : Str) : IsWord false (' ' :: t) [] (' ' :: t)
  | quote {q : Bool} {t w rest : Str} (h : IsWord (!q) t w rest) : IsWord q ('"' :: t) w rest
  | literal {q : Bool} {c : Char} {t w rest : Str} (h : IsWord q t w rest) :
      IsWord q ('\\' :: c :: t) (c :: w) rest
  | last (q : Bool) : IsWord q ['\\'] [] []
  | plain {q : Bool} {c : Char} {t w rest : Str} (hquote : c ≠ '"') (hback : c ≠ '\\')
      (hblank : q = true ∨ c ≠ ' ') (h : IsWord q t w rest) : IsWord q (c :: t) (c :: w) rest

/-- The words of a text, which are split at blanks. -/
inductive AreWords : Str → List Str → Prop
  | nil : AreWords [] []
  | blank {t : Str} {ws : List Str} (h : AreWords t ws) : AreWords (' ' :: t) ws
  | word {c : Char} {t w rest : Str} {ws : List Str} (hc : c ≠ ' ') (h : IsWord false (c :: t) w rest)
      (hs : AreWords rest ws) : AreWords (c :: t) (w :: ws)

def readWord : Bool → Str → Str × Str
  | _, [] => ([], [])
  | q, '"' :: t => readWord (!q) t
  | q, '\\' :: c :: t => (c :: (readWord q t).1, (readWord q t).2)
  | _, ['\\'] => ([], [])
  | q, c :: t =>
      if q = false ∧ c = ' ' then ([], c :: t) else (c :: (readWord q t).1, (readWord q t).2)

theorem isWord_readWord (q : Bool) (t : Str) : IsWord q t (readWord q t).1 (readWord q t).2 := by
  fun_induction readWord q t with
  | case1 q => exact .stop q
  | case2 q t ih => exact .quote ih
  | case3 q c t ih => exact .literal ih
  | case4 q => exact .last q
  | case5 q c t hquote hliteral hlast hblank =>
      obtain ⟨rfl, rfl⟩ := hblank
      exact .blank t
  | case6 q c t hquote hliteral hlast hblank ih =>
      have hback : c ≠ '\\' := by
        rintro rfl
        cases t with
        | nil => exact hlast rfl rfl
        | cons d t => exact hliteral d t rfl rfl
      refine .plain hquote hback ?_ ih
      cases q with
      | true => exact .inl rfl
      | false => exact .inr fun h => hblank ⟨rfl, h⟩

theorem IsWord.eq (h : IsWord q t w rest) : readWord q t = (w, rest) := by
  induction h with
  | stop q => rfl
  | blank t => simp [readWord]
  | quote h ih => rw [readWord, ih]
  | literal h ih => rw [readWord, ih]
  | last q => rw [readWord]
  | plain hquote hback hblank h ih =>
      rw [readWord, if_neg, ih]
      · rintro ⟨rfl, rfl⟩
        simp at hblank
      · exact hquote
      · exact fun _ _ h _ => hback h
      · exact fun h _ => hback h

theorem AreWords.unique {ws ws' : List Str} (h : AreWords t ws) (h' : AreWords t ws') : ws = ws' := by
  induction h generalizing ws' with
  | nil => cases h' with | nil => rfl
  | blank h ih =>
      cases h' with
      | blank h' => exact ih h'
      | word hc _ _ => exact absurd rfl hc
  | word hc h hs ih =>
      cases h' with
      | blank h' => exact absurd rfl hc
      | word _ h' hs' =>
          obtain ⟨rfl, rfl⟩ := Prod.mk.inj (h.eq.symm.trans h'.eq)
          rw [ih hs']

theorem IsWord.suffix (h : IsWord q t w rest) : rest <:+ t := by
  induction h with
  | stop q => exact List.suffix_rfl
  | blank t => exact List.suffix_rfl
  | quote h ih => exact ih.trans (List.suffix_cons ..)
  | literal h ih => exact ih.trans ((List.suffix_cons ..).trans (List.suffix_cons ..))
  | last q => exact List.nil_suffix
  | plain hquote hback hblank h ih => exact ih.trans (List.suffix_cons ..)

theorem IsWord.length_lt (h : IsWord false (c :: t) w rest) (hc : c ≠ ' ') : rest.length ≤ t.length := by
  cases h with
  | blank => exact absurd rfl hc
  | quote h => exact h.suffix.length_le
  | literal h => exact Nat.le_succ_of_le h.suffix.length_le
  | last => exact Nat.le_refl _
  | plain hquote hback hblank h => exact h.suffix.length_le

theorem IsWord.subset (h : IsWord q t w rest) : w ⊆ t := by
  induction h with
  | stop q => exact List.Subset.refl _
  | blank t => exact List.nil_subset _
  | quote h ih => exact List.subset_cons_of_subset _ ih
  | literal h ih => exact List.subset_cons_of_subset _ (List.cons_subset_cons _ ih)
  | last q => exact List.nil_subset _
  | plain hquote hback hblank h ih => exact List.cons_subset_cons _ ih

theorem IsWord.rest_head (h : IsWord q t w rest) : rest = [] ∨ ∃ rest', rest = ' ' :: rest' := by
  induction h with
  | stop q => exact .inl rfl
  | blank t => exact .inr ⟨t, rfl⟩
  | quote h ih => exact ih
  | literal h ih => exact ih
  | last q => exact .inl rfl
  | plain hquote hback hblank h ih => exact ih

theorem IsWord.skipVerb (h : IsWord q t w rest) : skipVerb q t = rest := by
  induction h with
  | stop q => rfl
  | blank t => simp [LambdaMoo.skipVerb]
  | quote h ih => rw [LambdaMoo.skipVerb, ih]
  | literal h ih => rw [LambdaMoo.skipVerb, ih]
  | last q => simp [LambdaMoo.skipVerb]
  | plain hquote hback hblank h ih =>
      rw [LambdaMoo.skipVerb, if_neg, ih]
      · rintro ⟨rfl, rfl⟩
        simp at hblank
      · exact hquote
      · exact fun _ _ h _ => hback h

theorem AreWords.blanks {ws : List Str} (h : AreWords (t.dropWhile (· = ' ')) ws) : AreWords t ws := by
  induction t with
  | nil => exact h
  | cons c t ih =>
      by_cases hc : c = ' '
      · subst hc
        exact .blank (ih (by simpa using h))
      · simpa [hc] using h

/-! The buffer. -/

/-- The text is what has not been read of the buffer, and nothing is written past there. -/
structure Unread (s : Scan) (t : Str) : Prop where
  text : s.buf.drop s.input = t ++ [nul]
  behind : s.ptr ≤ s.input
  seen : s.input ≤ s.seen

structure Wrote (s : Scan) (w : Str) (s' : Scan) : Prop where
  ptr : s'.ptr = s.ptr + w.length
  text : s'.buf.take s'.ptr = s.buf.take s.ptr ++ w
  length : s'.buf.length = s.buf.length

theorem Wrote.refl (s : Scan) : Wrote s [] s := ⟨rfl, by simp, rfl⟩

theorem Wrote.trans {s s' s'' : Scan} {v : Str} (h : Wrote s w s') (h' : Wrote s' v s'') : Wrote s (w ++ v) s'' :=
  ⟨by rw [h'.ptr, h.ptr, List.length_append, Nat.add_assoc], by rw [h'.text, h.text, List.append_assoc],
    h'.length.trans h.length⟩

def Scan.looked (s : Scan) : Scan := { s with seen := max s.seen (s.input + 1) }

theorem Unread.look (h : Unread s (c :: t)) : s.look = .ok (c, s.looked) := by
  have hc : s.buf[s.input]? = some c := by
    rw [← List.head?_drop, h.text]
    rfl
  rw [Scan.look, hc]
  rfl

theorem Unread.look_nil (h : Unread s []) : s.look = .ok (nul, s.looked) := by
  have hc : s.buf[s.input]? = some nul := by
    rw [← List.head?_drop, h.text]
    rfl
  rw [Scan.look, hc]
  rfl

theorem Unread.looked (h : Unread s t) : Unread s.looked t :=
  ⟨h.text, h.behind, Nat.le_trans h.seen (Nat.le_max_left ..)⟩

theorem Scan.input_lt_seen (s : Scan) : s.looked.input < s.looked.seen := by
  simp only [Scan.looked]
  omega

theorem Unread.next (h : Unread s (c :: t)) : Unread s.looked.next t :=
  ⟨(drop_succ h.text).1, Nat.le_succ_of_le h.behind, Nat.le_max_right ..⟩

theorem Wrote.next {s s' : Scan} (h : Wrote s.looked.next w s') : Wrote s w s' := ⟨h.ptr, h.text, h.length⟩

theorem Unread.input_lt (h : Unread s t) : s.input < s.buf.length := by
  by_contra hge
  have := h.text
  rw [List.drop_eq_nil_of_le (Nat.le_of_not_lt hge)] at this
  simp at this

theorem Scan.put_ok (hlen : s.ptr < s.buf.length) (hseen : s.ptr < s.seen) (d : Char) :
    s.put d = .ok { s with buf := s.buf.set s.ptr d, ptr := s.ptr + 1 } ∧
      Wrote s [d] { s with buf := s.buf.set s.ptr d, ptr := s.ptr + 1 } := by
  refine ⟨by rw [Scan.put, if_neg (by omega), if_neg (by omega)], rfl, ?_, by simp⟩
  have htake : s.buf.take (s.ptr + 1) = s.buf.take s.ptr ++ [s.buf[s.ptr]] := by
    rw [List.take_add_one, List.getElem?_eq_getElem hlen]
    rfl
  have hfull : (s.buf.take s.ptr).length = s.ptr := by
    rw [List.length_take]
    omega
  rw [List.take_set, htake, List.set_append_right _ _ (Nat.le_of_eq hfull), hfull, Nat.sub_self]
  rfl

theorem Unread.put (h : Unread s t) (hptr : s.ptr < s.input) (d : Char) :
    ∃ s', s.put d = .ok s' ∧ Unread s' t ∧ Wrote s [d] s' := by
  have hlen := h.input_lt
  have hseen := h.seen
  obtain ⟨hput, hwrote⟩ := s.put_ok (by omega) (by omega) d
  refine ⟨_, hput, ⟨?_, hptr, hseen⟩, hwrote⟩
  rw [← h.text]
  exact List.drop_set_of_lt hptr

theorem Wrote.looked (s : Scan) : Wrote s [] s.looked := ⟨rfl, (List.append_nil _).symm, rfl⟩

theorem Unread.putNext (h : Unread s (c :: t)) (d : Char) :
    ∃ s', s.looked.next.put d = .ok s' ∧ Unread s' t ∧ Wrote s [d] s' := by
  obtain ⟨s', hput, hs', hwrote⟩ := h.next.put (Nat.lt_succ_of_le h.behind) d
  exact ⟨s', hput, hs', hwrote.next⟩

theorem scan_bind {α β : Type} (x : α) (k : α → Except Overrun β) : ((Except.ok x : Except Overrun α) >>= k) = k x := rfl

theorem ne_nul_of_terminated (ht : Terminated (c :: t)) : c ≠ nul := fun h => ht (by simp [h, nul])

theorem Terminated.tail (ht : Terminated (c :: t)) : Terminated t := fun h => ht (List.mem_cons_of_mem _ h)

theorem wordLoop_look {s₁ : Scan} (h : s.look = .ok (c, s₁)) :
    wordLoop (fuel + 1) q s =
      if c = nul ∨ (q = false ∧ c = ' ') then .ok (q, s₁)
      else if c = '"' then wordLoop fuel (!q) s₁.next
      else if c = '\\' then
        s₁.next.look >>= fun (d, s₂) =>
          if d ≠ nul then s₂.next.put d >>= wordLoop fuel q else wordLoop fuel q s₂
      else s₁.next.put c >>= wordLoop fuel q := by
  rw [wordLoop, h]
  rfl

theorem wordLoop_spec (h : IsWord q t w rest) (ht : Terminated t) (hs : Unread s t) (hfuel : t.length < fuel) :
    ∃ q' s', wordLoop fuel q s = .ok (q', s') ∧ Unread s' rest ∧ s'.input < s'.seen ∧ Wrote s w s' ∧
      (rest ≠ [] → q' = false) := by
  induction h generalizing s fuel with
  | stop q =>
      obtain _ | fuel := fuel
      · simp at hfuel
      refine ⟨q, s.looked, ?_, hs.looked, s.input_lt_seen, Wrote.looked s, by simp⟩
      rw [wordLoop_look hs.look_nil, if_pos (.inl rfl)]
  | blank t =>
      obtain _ | fuel := fuel
      · simp at hfuel
      refine ⟨false, s.looked, ?_, hs.looked, s.input_lt_seen, Wrote.looked s, fun _ => rfl⟩
      rw [wordLoop_look hs.look, if_pos (.inr ⟨rfl, rfl⟩)]
  | @quote q t w rest h ih =>
      obtain _ | fuel := fuel
      · simp at hfuel
      obtain ⟨q', s', hloop, hs', hseen, hwrote, hq⟩ :=
        @ih s.looked.next fuel ht.tail hs.next (Nat.lt_of_succ_lt_succ hfuel)
      refine ⟨q', s', ?_, hs', hseen, hwrote.next, hq⟩
      rw [wordLoop_look hs.look, if_neg (by simp [nul]), if_pos rfl]
      exact hloop
  | @literal q c t w rest h ih =>
      obtain _ | fuel := fuel
      · simp at hfuel
      obtain ⟨s₁, hput, hs₁, hwrote₁⟩ := hs.next.putNext c
      obtain ⟨q', s', hloop, hs', hseen, hwrote, hq⟩ :=
        @ih s₁ fuel ht.tail.tail hs₁ (Nat.lt_of_succ_lt (Nat.lt_of_succ_lt_succ hfuel))
      refine ⟨q', s', ?_, hs', hseen, hwrote₁.next.trans hwrote, hq⟩
      rw [wordLoop_look hs.look, if_neg (by simp [nul]), if_neg (by decide), if_pos rfl, hs.next.look, scan_bind]
      dsimp only
      rw [if_pos (ne_nul_of_terminated ht.tail), hput]
      exact hloop
  | last q =>
      obtain _ | fuel := fuel
      · simp at hfuel
      obtain _ | fuel := fuel
      · simp at hfuel
      refine ⟨q, s.looked.next.looked.looked, ?_, hs.next.looked.looked, Scan.input_lt_seen _,
        ⟨rfl, (List.append_nil _).symm, rfl⟩, by simp⟩
      rw [wordLoop_look hs.look, if_neg (by simp [nul]), if_neg (by decide), if_pos rfl, hs.next.look_nil, scan_bind]
      dsimp only
      rw [if_neg (not_not.mpr rfl), wordLoop_look hs.next.looked.look_nil, if_pos (.inl rfl)]
  | @plain q c t w rest hquote hback hblank h ih =>
      obtain _ | fuel := fuel
      · simp at hfuel
      obtain ⟨s₁, hput, hs₁, hwrote₁⟩ := hs.putNext c
      obtain ⟨q', s', hloop, hs', hseen, hwrote, hq⟩ :=
        @ih s₁ fuel ht.tail hs₁ (Nat.lt_of_succ_lt_succ hfuel)
      refine ⟨q', s', ?_, hs', hseen, hwrote₁.trans hwrote, hq⟩
      have hgo : ¬ (c = nul ∨ (q = false ∧ c = ' ')) := by
        rintro (h | ⟨rfl, rfl⟩)
        · exact ne_nul_of_terminated ht h
        · simp at hblank
      rw [wordLoop_look hs.look, if_neg hgo, if_neg hquote, if_neg hback, hput]
      exact hloop

theorem skipBlanks_look {s₁ : Scan} (h : s.look = .ok (c, s₁)) :
    skipBlanks (fuel + 1) s = if c = ' ' then skipBlanks fuel s₁.next else .ok s₁ := by
  rw [skipBlanks, h]
  rfl

theorem skipBlanks_spec (hs : Unread s t) (hfuel : t.length < fuel) :
    ∃ s', skipBlanks fuel s = .ok s' ∧ Unread s' (t.dropWhile (· = ' ')) ∧ s'.input < s'.seen ∧
      Wrote s [] s' ∧ s.input ≤ s'.input ∧ (t.head? = some ' ' → s.input < s'.input) := by
  induction t generalizing s fuel with
  | nil =>
      obtain _ | fuel := fuel
      · simp at hfuel
      refine ⟨s.looked, ?_, hs.looked, s.input_lt_seen, Wrote.looked s, Nat.le_refl _, by simp⟩
      rw [skipBlanks_look hs.look_nil, if_neg (by decide)]
  | cons c t ih =>
      obtain _ | fuel := fuel
      · simp at hfuel
      by_cases hc : c = ' '
      · obtain ⟨s', hskip, hs', hseen, hwrote, hle, -⟩ := ih hs.next (Nat.lt_of_succ_lt_succ hfuel)
        refine ⟨s', ?_, by simpa [hc] using hs', hseen, hwrote.next, Nat.le_of_succ_le hle, fun _ => hle⟩
        rw [skipBlanks_look hs.look, if_pos hc, hskip]
      · refine ⟨s.looked, ?_, by simpa [hc] using hs.looked, s.input_lt_seen, Wrote.looked s, Nat.le_refl _,
          by simp [hc]⟩
        rw [skipBlanks_look hs.look, if_neg hc]

def Laid (written : Str) (starts : List Nat) (ws : List Str) : Prop :=
  ∀ tail, starts.map (stringAt (written ++ tail)) = ws

theorem Laid.nil : Laid [] [] [] := fun _ => rfl

theorem stringAt_end {written : Str} (hw : Terminated w) (tail : Str) :
    stringAt (written ++ (w ++ nul :: tail)) written.length = w := by
  unfold stringAt
  rw [List.drop_left, List.takeWhile_append_of_pos, List.takeWhile_cons_of_neg (by simp), List.append_nil]
  intro c hc
  have : c ≠ nul := by
    rintro rfl
    exact hw hc
  simpa using this

theorem Laid.word {written : Str} {starts : List Nat} {ws : List Str} (h : Laid written starts ws)
    (hw : Terminated w) : Laid (written ++ (w ++ [nul])) (starts ++ [written.length]) (ws ++ [w]) := by
  intro tail
  have htail : written ++ (w ++ [nul]) ++ tail = written ++ (w ++ nul :: tail) := by simp
  rw [htail, List.map_append, h, List.map_singleton, stringAt_end hw]

theorem Terminated.of_subset (ht : Terminated t) (h : w ⊆ t) : Terminated w := fun hnul => ht (h hnul)

theorem wordsLoop_look {s₁ : Scan} {starts : List Nat} (h : s.look = .ok (c, s₁)) (hc : c ≠ nul) :
    wordsLoop (fuel + 1) q s starts =
      wordLoop (s₁.buf.length + 1) q s₁ >>= fun (q, s₂) =>
        skipBlanks (s₂.buf.length + 1) s₂ >>= fun s₃ =>
          s₃.put nul >>= fun s₄ => wordsLoop fuel q s₄ (starts ++ [s₁.ptr]) := by
  rw [wordsLoop, h, scan_bind]
  dsimp only
  rw [if_neg hc]

theorem Unread.length_lt (h : Unread s t) : t.length < s.buf.length := by
  have := congrArg List.length h.text
  rw [List.length_drop, List.length_append, List.length_singleton] at this
  omega

theorem Unread.putNul (h : Unread s t) (hptr : s.ptr < s.input ∨ t = []) (hseen : s.input < s.seen) :
    ∃ s', s.put nul = .ok s' ∧ s'.buf.drop s'.input = t ++ [nul] ∧ Wrote s [nul] s' ∧
      s'.ptr ≤ s'.buf.length ∧ (t ≠ [] → Unread s' t) := by
  have hlen := h.input_lt
  have hbehind := h.behind
  obtain ⟨hput, hwrote⟩ := s.put_ok (by omega) (by omega) nul
  have hdrop : (s.buf.set s.ptr nul).drop s.input = t ++ [nul] := by
    rw [List.drop_set, h.text]
    split
    · rfl
    · next hge =>
        obtain hlt | rfl := hptr
        · exact absurd hlt hge
        · obtain hzero : s.ptr - s.input = 0 := by omega
          rw [hzero]
          rfl
  have hroom : s.ptr + 1 ≤ (s.buf.set s.ptr nul).length := by
    rw [List.length_set]
    omega
  refine ⟨_, hput, hdrop, hwrote, hroom, fun hne => ⟨hdrop, ?_, Nat.le_of_lt hseen⟩⟩
  obtain hlt | rfl := hptr
  · exact hlt
  · exact absurd rfl hne

theorem wordsLoop_spec {starts : List Nat} {ws : List Str} (ht : Terminated t) (hfuel : t.length < fuel)
    (htext : s.buf.drop s.input = t ++ [nul]) (hunread : t ≠ [] → Unread s t ∧ q = false)
    (hfirst : t.head? ≠ some ' ') (hptr : s.ptr ≤ s.buf.length) (hlaid : Laid (s.buf.take s.ptr) starts ws) :
    ∃ starts' s' ws', wordsLoop fuel q s starts = .ok (starts', s') ∧ AreWords t ws' ∧
      starts'.map (stringAt s'.buf) = ws ++ ws' := by
  induction fuel generalizing q s t starts ws with
  | zero => omega
  | succ fuel ih =>
      cases t with
      | nil =>
          have hc : s.buf[s.input]? = some nul := by
            rw [← List.head?_drop, htext]
            rfl
          refine ⟨starts, s.looked, [], ?_, .nil, ?_⟩
          · rw [wordsLoop, Scan.look, hc, scan_bind]
            rfl
          · have h := hlaid (s.buf.drop s.ptr)
            rwa [List.take_append_drop, ← List.append_nil ws] at h
      | cons c t =>
          have hblank : c ≠ ' ' := fun h => hfirst (congrArg some h)
          obtain ⟨hs, rfl⟩ := hunread (by simp)
          obtain ⟨w, rest, hword⟩ : ∃ w rest, IsWord false (c :: t) w rest := ⟨_, _, isWord_readWord false (c :: t)⟩
          have hrest := hword.length_lt hblank
          have hw := ht.of_subset hword.subset
          have hrestOk : Terminated rest := ht.of_subset hword.suffix.subset
          obtain ⟨q₁, s₁, hloop, hs₁, hseen₁, hwrote₁, hq₁⟩ := wordLoop_spec hword ht hs.looked
            (show _ < _ + 1 from Nat.lt_succ_of_lt hs.looked.length_lt)
          obtain ⟨s₂, hskip, hs₂, hseen₂, hwrote₂, hle, hlt⟩ :=
            skipBlanks_spec hs₁ (show _ < _ + 1 from Nat.lt_succ_of_lt hs₁.length_lt)
          have hptr₂ : s₂.ptr < s₂.input ∨ rest.dropWhile (· = ' ') = [] := by
            obtain rfl | ⟨rest', rfl⟩ := hword.rest_head
            · exact .inr rfl
            · refine .inl ?_
              have := hlt rfl
              have := hs₁.behind
              rw [hwrote₂.ptr]
              simpa using Nat.lt_of_le_of_lt ‹_› ‹_›
          obtain ⟨s₃, hput, htext₃, hwrote₃, hroom, hs₃⟩ := hs₂.putNul hptr₂ hseen₂
          have hwrote : Wrote s.looked (w ++ [nul]) s₃ := hwrote₁.trans (hwrote₂.trans hwrote₃)
          have htake : (s.buf.take s.ptr).length = s.ptr := by
            rw [List.length_take]
            omega
          have hlaid₃ := hlaid.word hw
          rw [htake, ← show _ = s.buf.take s.ptr ++ (w ++ [nul]) from hwrote.text] at hlaid₃
          have hshort : (rest.dropWhile (· = ' ')).length ≤ rest.length := (List.dropWhile_suffix _).length_le
          have hlen : (c :: t).length = t.length + 1 := rfl
          obtain ⟨starts', s', ws', hrun, hws, hread⟩ := ih (q := q₁)
            (hrestOk.of_subset (List.dropWhile_suffix _).subset) (by omega) htext₃
            (fun hne => ⟨hs₃ hne, hq₁ fun h => hne (by rw [h]; rfl)⟩) (head_dropWhile rest) hroom hlaid₃
          refine ⟨starts', s', w :: ws', ?_, .word hblank hword hws.blanks, by simpa using hread⟩
          rw [wordsLoop_look hs.look (ne_nul_of_terminated ht), hloop, scan_bind]
          dsimp only
          rw [hskip, scan_bind, hput, scan_bind]
          exact hrun

/-- `parse_into_words` stays in its buffer, writes over nothing that it has not read, and
gives the words of the grammar. -/
theorem parseIntoWords_spec (ht : Terminated t) : ∃ ws, parseIntoWords t = .ok ws ∧ AreWords t ws := by
  have hstart : Unread ⟨t ++ [nul], 0, 0, 0⟩ t := ⟨rfl, Nat.le_refl _, Nat.le_refl _⟩
  obtain ⟨s, hskip, hs, -, hwrote, -⟩ :=
    @skipBlanks_spec _ _ ((t ++ [nul]).length + 1) hstart (by rw [List.length_append, List.length_singleton]; omega)
  have hptr : s.ptr = 0 := hwrote.ptr
  have hlen : (t.dropWhile (· = ' ')).length ≤ t.length := (List.dropWhile_suffix _).length_le
  have hlaid : Laid (s.buf.take s.ptr) [] [] := by
    rw [hptr]
    exact Laid.nil
  obtain ⟨starts, s', ws, hloop, hws, hread⟩ := @wordsLoop_spec s _ false ((t ++ [nul]).length + 1) _ _
    (ht.of_subset (List.dropWhile_suffix _).subset) (by rw [List.length_append, List.length_singleton]; omega) hs.text (fun _ => ⟨hs, rfl⟩)
    (head_dropWhile t) (by omega) hlaid
  refine ⟨ws, ?_, hws.blanks⟩
  simp only [parseIntoWords, hskip, scan_bind, hloop]
  exact congrArg _ hread

/-! The parts of a command. -/

def areAlias (j : Nat) (ws : List Str) : Prop :=
  ∃ aliases, prepTable[j]? = some aliases ∧ ∃ words ∈ aliases, words.length = ws.length ∧
    ∀ p ∈ ws.zip words, sameName p.1 p.2 = true

theorem prepTable_ne_nil {aliases : List (List Str)} (h : aliases ∈ prepTable) :
    ∀ words ∈ aliases, words ≠ [] := by
  intro words hwords
  obtain ⟨p, -, rfl⟩ := List.mem_map.mp h
  obtain ⟨cprep, -, rfl⟩ := List.mem_map.mp hwords
  exact List.splitOn_ne_nil _ _

theorem dbFindPrep_some {argv : List Str} {j first last : Nat} (h : dbFindPrep argv = some (j, first, last)) :
    first ≤ last ∧ last < argv.length ∧ areAlias j ((argv.drop first).take (last - first + 1)) := by
  obtain ⟨i, -, hi⟩ := List.exists_of_findSome?_eq_some h
  obtain ⟨⟨j', words⟩, hat, heq⟩ := Option.map_eq_some_iff.mp hi
  obtain ⟨⟨aliases, j''⟩, hmem, hfind⟩ := List.exists_of_findSome?_eq_some hat
  obtain ⟨words', hwords, hpair⟩ := Option.map_eq_some_iff.mp hfind
  simp only [Prod.mk.injEq] at hpair heq
  obtain ⟨rfl, rfl⟩ := hpair
  obtain ⟨rfl, rfl, rfl⟩ := heq
  have hj : prepTable[j'']? = some aliases := List.mem_zipIdx_iff_getElem?.mp hmem
  have hne : words' ≠ [] := prepTable_ne_nil (List.mem_of_getElem? hj) _ (List.mem_of_find?_eq_some hwords)
  have hpos := List.length_pos_iff.mpr hne
  have halias := List.find?_some hwords
  simp only [aliasAt, Bool.and_eq_true, decide_eq_true_eq, List.all_eq_true] at halias
  obtain ⟨hlen, hsame⟩ := halias
  refine ⟨by omega, by omega, aliases, hj, words', List.mem_of_find?_eq_some hwords, ?_, ?_⟩
  · rw [List.length_take, List.length_drop]
    omega
  · have hcount : i + words'.length - 1 - i + 1 = words'.length := by omega
    rw [hcount]
    intro p hp
    refine hsame p ?_
    rw [List.zip_eq_zip_take_min, Nat.min_eq_right (by rw [List.length_drop]; omega), List.take_length]
    exact hp

theorem buildFrom_some {argv : List Str} {start count : Nat} (h : start + count ≤ argv.length) :
    buildFrom argv start count = some (buildString ((argv.drop start).take count)) := by
  rw [buildFrom, if_pos ⟨by omega, by simpa using h⟩, Int.toNat_natCast]

structure Divided (pc : ParsedCommand) : Prop where
  words : ∃ dobj prep iobj, pc.args = dobj ++ prep ++ iobj ∧ pc.dobjstr = buildString dobj ∧
    pc.prepstr = buildString prep ∧ pc.iobjstr = buildString iobj ∧
    match pc.prep with
    | none => prep = [] ∧ iobj = []
    | some j => areAlias j prep

/-- The objects of a command are found in its words, which they take up with the preposition. -/
theorem findObjects_spec (matchObject : Objid → Str → Objid) (user : Objid) (argstr verb : Str) (args : List Str) :
    ∃ pc, findObjects matchObject user argstr (verb :: args) = some pc ∧ pc.verb = verb ∧
      pc.argstr = argstr ∧ pc.args = args ∧ Divided pc := by
  have hdobj : ∀ count : Nat, count ≤ args.length →
      buildFrom (verb :: args) 1 count = some (buildString (args.take count)) := by
    intro count hcount
    rw [buildFrom_some (by simp only [List.length_cons]; omega)]
    rfl
  match hprep : (if 1 < (verb :: args).length then dbFindPrep args else none) with
  | none =>
      have hwhole := hdobj args.length (Nat.le_refl _)
      rw [List.take_length] at hwhole
      unfold findObjects
      by_cases hargs : args = []
      · subst hargs
        refine ⟨_, rfl, rfl, rfl, rfl, ⟨[], [], [], rfl, rfl, rfl, rfl, rfl, rfl⟩⟩
      · have hlen : ((verb :: args).length : Int) - 1 = (args.length : Int) := by
          simp only [List.length_cons]
          omega
        have hne : (args.length : Int) ≠ 0 := by simpa using hargs
        simp only [List.tail_cons, hprep, Option.isSome_none, hlen, hne, if_false, hwhole]
        exact ⟨_, rfl, rfl, rfl, rfl, ⟨args, [], [], by simp, rfl, rfl, rfl, rfl, rfl⟩⟩
  | some (j, first, last) =>
      have hfound : dbFindPrep args = some (j, first, last) := by
        split at hprep
        · exact hprep
        · cases hprep
      obtain ⟨hle, hlt, halias⟩ := dbFindPrep_some hfound
      have hlen : (verb :: args).length = args.length + 1 := rfl
      have hp : buildFrom (verb :: args) (first + 1) ((last + 1 : Nat) - (first + 1 : Nat) + 1) =
          some (buildString ((args.drop first).take (last - first + 1))) := by
        have hcount : ((last + 1 : Nat) : Int) - (first + 1 : Nat) + 1 = (last - first + 1 : Nat) := by omega
        rw [hcount, buildFrom_some (by omega)]
        rfl
      have hi : buildFrom (verb :: args) (last + 1 + 1) ((verb :: args).length - ((last + 1 : Nat) + 1)) =
          some (buildString (args.drop (last + 1))) := by
        have hcount : ((verb :: args).length : Int) - ((last + 1 : Nat) + 1) = (args.length - (last + 1) : Nat) := by
          omega
        rw [hcount, buildFrom_some (by omega), List.drop_succ_cons, List.take_of_length_le]
        exact Nat.le_of_eq List.length_drop
      have hd : ((first + 1 : Nat) : Int) - 1 = (first : Nat) := by omega
      have hsplit : args = args.take first ++ (args.drop first).take (last - first + 1) ++ args.drop (last + 1) := by
        have hdrop : args.drop (last + 1) = (args.drop first).drop (last - first + 1) := by
          rw [List.drop_drop]
          congr 1
          omega
        rw [hdrop, List.append_assoc, List.take_append_drop, List.take_append_drop]
      unfold findObjects
      simp only [List.tail_cons, hprep, Option.isSome_some, if_true, hp, hi, hd]
      by_cases hzero : first = 0
      · subst hzero
        exact ⟨_, rfl, rfl, rfl, rfl, ⟨[], _, _, hsplit, rfl, rfl, rfl, halias⟩⟩
      · have hne : (first : Int) ≠ 0 := by simpa using hzero
        simp only [hne, if_false, hdobj first (by omega)]
        exact ⟨_, rfl, rfl, rfl, rfl, ⟨_, _, _, hsplit, rfl, rfl, rfl, halias⟩⟩

def commandOf (command : Str) (pc : ParsedCommand) : Prop :=
  Divided pc ∧
    match command.head?.bind specialVerb with
    | some verb => pc.verb = verb ∧ pc.argstr = command.tail ∧ AreWords pc.argstr pc.args
    | none => ∃ behind, IsWord false command pc.verb behind ∧ pc.argstr = behind.dropWhile (· = ' ') ∧
        AreWords pc.argstr pc.args

theorem isWord_plain {verb : Str} (h : ∀ c ∈ verb, c ≠ '"' ∧ c ≠ '\\' ∧ c ≠ ' ') (rest : Str) :
    IsWord false (verb ++ ' ' :: rest) verb (' ' :: rest) := by
  induction verb with
  | nil => exact .blank rest
  | cons c verb ih =>
      obtain ⟨⟨hquote, hback, hblank⟩, h⟩ := List.forall_mem_cons.mp h
      exact .plain hquote hback (.inr hblank) (ih h)

theorem specialVerb_plain {verb : Str} (h : specialVerb c = some verb) :
    verb ≠ [] ∧ ∀ d ∈ verb, d ≠ '"' ∧ d ≠ '\\' ∧ d ≠ ' ' ∧ d ≠ nul := by
  unfold specialVerb at h
  split at h
  case h_4 => cases h
  all_goals
    obtain rfl := Option.some.inj h
    simp [nul]

theorem AreWords.cons_inv {ws : List Str} (h : AreWords t ws) (hne : t ≠ []) (hfirst : t.head? ≠ some ' ') :
    ∃ w rest ws', ws = w :: ws' ∧ IsWord false t w rest ∧ AreWords rest ws' := by
  cases h with
  | nil => exact absurd rfl hne
  | blank h => simp at hfirst
  | word hc h hs => exact ⟨_, _, _, rfl, h, hs⟩

theorem AreWords.dropWhile {ws : List Str} (h : AreWords t ws) : AreWords (t.dropWhile (· = ' ')) ws := by
  induction h with
  | nil => exact .nil
  | blank h ih => simpa using ih
  | word hc h hs ih => simpa [hc] using AreWords.word hc h hs

theorem parseCommand_eq (matchObject : Objid → Str → Objid) (user : Objid) {command buf argstr verb : Str}
    {args : List Str} (htext : commandText command = (buf, argstr)) (hparse : parseIntoWords buf = .ok (verb :: args)) :
    ∃ pc, parseCommand matchObject user command = .ok (some (some pc)) ∧ pc.verb = verb ∧
      pc.argstr = argstr ∧ pc.args = args ∧ Divided pc := by
  obtain ⟨pc, hfind, hpc⟩ := findObjects_spec matchObject user argstr verb args
  refine ⟨pc, ?_, hpc⟩
  rw [parseCommand, htext]
  dsimp only
  rw [hparse, scan_bind, if_neg (by simp), hfind]
  rfl

theorem parseCommand_spec (matchObject : Objid → Str → Objid) (user : Objid) (ht : Terminated t) :
    match t.dropWhile (· = ' ') with
    | [] => parseCommand matchObject user t = .ok (some none)
    | c :: command => ∃ pc, parseCommand matchObject user t = .ok (some (some pc)) ∧ commandOf (c :: command) pc := by
  have hfirst := head_dropWhile t
  have htd := ht.of_subset (List.dropWhile_suffix (· = ' ')).subset
  cases hd : t.dropWhile (· = ' ') with
  | nil =>
      have hparse : parseIntoWords [] = .ok [] := by
        obtain ⟨ws, hparse, hws⟩ := @parseIntoWords_spec [] (by simp [Terminated])
        rw [hparse, hws.unique .nil]
      rw [parseCommand, commandText, hd]
      dsimp only [List.head?_nil, Option.bind_none]
      rw [hparse]
      rfl
  | cons c command =>
      rw [hd] at hfirst htd
      dsimp only
      cases hspecial : specialVerb c with
      | some verb =>
          obtain ⟨hne, hplain⟩ := specialVerb_plain hspecial
          have htext : commandText t = (verb ++ ' ' :: command, command) := by
            simp [commandText, hd, hspecial]
          have hbuf : Terminated (verb ++ ' ' :: command) := by
            intro hnul
            obtain h | h := List.mem_append.mp hnul
            · exact (hplain _ h).2.2.2 rfl
            · obtain h | h := List.mem_cons.mp h
              · simp at h
              · exact htd (List.mem_cons_of_mem _ h)
          obtain ⟨ws, hparse, hws⟩ := parseIntoWords_spec hbuf
          have hword := isWord_plain (fun d hd => ⟨(hplain d hd).1, (hplain d hd).2.1, (hplain d hd).2.2.1⟩) command
          have hhead : (verb ++ ' ' :: command).head? ≠ some ' ' := by
            cases verb with
            | nil => exact absurd rfl hne
            | cons d verb => simpa using (hplain d (by simp)).2.2.1
          obtain ⟨w, rest, ws', rfl, hw, hws'⟩ := hws.cons_inv (by simp) hhead
          obtain ⟨rfl, rfl⟩ := Prod.mk.inj (hword.eq.symm.trans hw.eq)
          obtain ⟨pc, hpc, hverb, hargstr, hargs, hdivided⟩ := parseCommand_eq matchObject user htext hparse
          refine ⟨pc, hpc, hdivided, ?_⟩
          have hhd : (c :: command).head?.bind specialVerb = some verb := hspecial
          rw [hhd]
          refine ⟨hverb, hargstr, ?_⟩
          rw [hargstr, hargs]
          cases hws' with
          | blank h => exact h
          | word h => exact absurd rfl h
      | none =>
          have htext : commandText t = (c :: command, (skipVerb false (c :: command)).dropWhile (· = ' ')) := by
            simp [commandText, hd, hspecial]
          obtain ⟨ws, hparse, hws⟩ := parseIntoWords_spec htd
          obtain ⟨w, rest, ws', rfl, hw, hws'⟩ := hws.cons_inv (by simp) hfirst
          obtain ⟨pc, hpc, hverb, hargstr, hargs, hdivided⟩ := parseCommand_eq matchObject user htext hparse
          refine ⟨pc, hpc, hdivided, ?_⟩
          have hhd : (c :: command).head?.bind specialVerb = none := hspecial
          rw [hhd]
          rw [hw.skipVerb] at hargstr
          refine ⟨rest, hverb ▸ hw, hargstr, ?_⟩
          rw [hargstr, hargs]
          exact hws'.dropWhile

/-- The words of a line are those of the grammar, and its parts are put together from them. A
special character counts as the first one if only blanks are before it. -/
theorem commands_parsed (matchObject : Objid → Str → Objid) (user : Objid) (line : CStr) :
    (∃ ws, parseIntoWords line = .ok ws ∧ ∀ ws', AreWords line ws' ↔ ws' = ws) ∧
      match line.val.dropWhile (· = ' ') with
      | [] => parseCommand matchObject user line = .ok (some none)
      | c :: command => ∃ pc, parseCommand matchObject user line = .ok (some (some pc)) ∧
          commandOf (c :: command) pc := by
  obtain ⟨ws, hparse, hws⟩ := parseIntoWords_spec line.property
  refine ⟨⟨ws, hparse, fun ws' => ⟨fun h => h.unique hws, ?_⟩⟩, parseCommand_spec matchObject user line.property⟩
  rintro rfl
  exact hws

/-- In a line that begins with a blank and a colon, `argstr` is not what is behind the first word. -/
theorem argstr_not_behind :
    ¬ ∀ line : CStr, line.val.head?.bind specialVerb = none →
      ∀ pc, parseCommand (fun _ _ => nothing) 0 line = .ok (some (some pc)) →
        ∀ w behind, IsWord false (line.val.dropWhile (· = ' ')) w behind →
          pc.argstr = behind.dropWhile (· = ' ') := by
  intro h
  have hw : IsWord false [':', 'x', ' ', 'y'] [':', 'x'] [' ', 'y'] :=
    .plain (by decide) (by decide) (.inr (by decide))
      (.plain (by decide) (by decide) (.inr (by decide)) (.blank ['y']))
  have ht : Terminated [' ', ':', 'x', ' ', 'y'] := by decide
  obtain ⟨pc, hpc, -, -, hargstr, -⟩ := parseCommand_spec (fun _ _ => nothing) 0 ht
  have hbehind := h ⟨_, ht⟩ rfl pc hpc _ _ hw
  rw [hargstr] at hbehind
  revert hbehind
  decide

end LambdaMoo
