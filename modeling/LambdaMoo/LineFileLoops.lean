import LambdaMoo.Lib.Meets
import LambdaMoo.LineFiles

/-! The loops over a file, by where its end is met: behind what a loop wants, in the line without
a newline, or where nothing is left to be read. -/
namespace LambdaMoo
namespace LineFiles
open FilePaths Stdio

variable {σ : Type} {goes : Int → Bool} {step : σ → Int → Str → Bool → σ} {index startLine endLine : Int}
  {f f' : File Char} {acc : σ} {ls as bs cs : List Str} {text tail buffer printed : Str} {bound : Option Int}

def Short (line : Str) : Prop := line.length < bufLen - 1

def Lines (ls : List Str) : Prop := ∀ line ∈ ls, '\n' ∉ line ∧ Short line

/-- What follows the last newline, when it is there and read whole. -/
structure Tail (tail : Str) : Prop where
  ne : tail ≠ []
  newline : '\n' ∉ tail
  short : Short tail

def ended (ls : List Str) : List Str := ls.map (· ++ ['\n'])

def steps (step : σ → Int → Str → Bool → σ) : σ → Int → List Str → σ
  | acc, _, [] => acc
  | acc, index, line :: ls => steps step (step acc index line false) (index + 1) ls

theorem intMax_pos : 0 < intMax := by decide

theorem Lines.of_append (h : Lines (as ++ bs)) : Lines as ∧ Lines bs := List.forall_mem_append.mp h

/-! One round. -/

theorem eachLine_stop (h : goes index = false ∨ f.eof = true) :
    eachLine goes step index f acc = .ok (index, f, acc) := by
  rw [eachLine, if_neg]
  obtain h | h := h <;> simp [h]

theorem eachLine_round (hgo : goes index = true) (heof : f.eof = false)
    (hread : fgets '\n' bufLen f = (some buffer, f')) : eachLine goes step index f acc =
      eachLine goes step (wrap32 (index + 1)) f' (step acc index buffer f'.eof) := by
  rw [eachLine, if_pos (by simp [hgo, heof])]
  split
  · next h =>
      rw [hread] at h
      cases h
  · next h =>
      rw [hread] at h
      cases h
      rfl

/-- The end of the file has not been met, and there is nothing to be read. -/
theorem eachLine_end (hgo : goes index = true) (heof : f.eof = false) (hrest : f.rest = []) :
    eachLine goes step index f acc = .error .panic := by
  obtain ⟨f', hread, -, -⟩ := @fgets_tail Char _ '\n' f bufLen (by simp [hrest]) (by simp [hrest, bufLen])
  rw [if_pos hrest] at hread
  rw [eachLine, if_pos (by simp [hgo, heof])]
  split
  · rfl
  · next h =>
      rw [hread] at h
      cases h

/-! A whole loop. -/

theorem eachLine_lines (hls : Lines ls) (hgoes : ∀ i : Nat, i < ls.length → goes (index + i) = true)
    (hpos : 0 < index) (hmax : index + ls.length ≤ intMax) (heof : f.eof = false)
    (hrest : f.rest = unlines '\n' ls ++ text) : ∃ f', f'.rest = text ∧ f'.eof = false ∧
      eachLine goes step index f acc =
        eachLine goes step (index + ls.length) f' (steps step acc index (ended ls)) := by
  induction ls generalizing index f acc with
  | nil =>
      refine ⟨f, hrest, heof, ?_⟩
      rw [List.length_nil, Nat.cast_zero, Int.add_zero]
      rfl
  | cons line ls ih =>
      obtain ⟨⟨hline, hshort⟩, hls⟩ := List.forall_mem_cons.mp hls
      rw [unlines_cons, List.append_assoc, List.cons_append] at hrest
      obtain ⟨f₁, hread, hrest₁, heof₁⟩ := fgets_line hline hshort hrest
      rw [heof] at heof₁
      rw [List.length_cons] at hgoes hmax
      have hwrap : wrap32 (index + 1) = index + 1 := wrap32_of_fits (by omega) (by omega)
      obtain ⟨f', hrest', heof', heq⟩ := @ih (index + 1) f₁ (step acc index (line ++ ['\n']) false) hls
        (fun i hi => by
          have hgo := hgoes (i + 1) (by omega)
          rwa [Nat.cast_add, Nat.cast_one, Int.add_comm _ 1, ← Int.add_assoc] at hgo)
        (by omega) (by omega) heof₁ hrest₁
      refine ⟨f', hrest', heof', ?_⟩
      have hfirst : goes index = true := by simpa using hgoes 0 (by omega)
      have hindex : index + ((line :: ls).length : Int) = index + 1 + ls.length := by
        rw [List.length_cons]
        omega
      rw [eachLine_round hfirst heof hread, hwrap, heof₁, heq, hindex]
      rfl

theorem eachLine_within (hls : Lines ls) (hgoes : ∀ i : Nat, i < ls.length → goes (index + i) = true)
    (hstop : goes (index + ls.length) = false) (hpos : 0 < index) (hmax : index + ls.length ≤ intMax)
    (heof : f.eof = false) (hrest : f.rest = unlines '\n' ls ++ text) : ∃ f', f'.rest = text ∧ f'.eof = false ∧
      eachLine goes step index f acc = .ok (index + ls.length, f', steps step acc index (ended ls)) := by
  obtain ⟨f', hrest', heof', heq⟩ := @eachLine_lines σ goes step index f acc ls text hls hgoes hpos hmax heof hrest
  exact ⟨f', hrest', heof', heq.trans (eachLine_stop (.inl hstop))⟩

theorem eachLine_through (hls : Lines ls) (htail : Tail tail)
    (hgoes : ∀ i : Nat, i ≤ ls.length → goes (index + i) = true) (hpos : 0 < index)
    (hmax : index + ls.length ≤ intMax) (heof : f.eof = false) (hrest : f.rest = unlines '\n' ls ++ tail) :
    ∃ i f', f'.eof = true ∧ eachLine goes step index f acc =
      .ok (i, f', step (steps step acc index (ended ls)) (index + ls.length) tail true) := by
  obtain ⟨f₁, hrest₁, heof₁, heq⟩ := @eachLine_lines σ goes step index f acc ls tail hls
    (fun i hi => hgoes i hi.le) hpos hmax heof hrest
  obtain ⟨f', hread, -, heof'⟩ := @fgets_tail Char _ '\n' f₁ bufLen (by simpa [hrest₁] using htail.newline)
    (hrest₁ ▸ htail.short)
  rw [if_neg (by simpa [hrest₁] using htail.ne), hrest₁] at hread
  refine ⟨wrap32 (index + ls.length + 1), f', heof', ?_⟩
  rw [heq, eachLine_round (hgoes _ le_rfl) heof₁ hread, eachLine_stop (.inr heof'), heof']

theorem eachLine_past (hls : Lines ls) (hgoes : ∀ i : Nat, i ≤ ls.length → goes (index + i) = true)
    (hpos : 0 < index) (hmax : index + ls.length ≤ intMax) (heof : f.eof = false)
    (hrest : f.rest = unlines '\n' ls) : eachLine goes step index f acc = .error .panic := by
  obtain ⟨f', hrest', heof', heq⟩ := @eachLine_lines σ goes step index f acc ls [] hls
    (fun i hi => hgoes i hi.le) hpos hmax heof (by rw [hrest, List.append_nil])
  rw [heq, eachLine_end (hgoes _ le_rfl) heof' hrest']

/-! What the steps come to. -/

theorem steps_copy (out : Str) (index : Int) (ls : List Str) :
    steps copy out index (ended ls) = out ++ unlines '\n' ls := by
  induction ls generalizing out index with
  | nil => exact (List.append_nil out).symm
  | cons line ls ih =>
      rw [unlines_cons]
      refine (ih (out ++ (line ++ ['\n'])) (index + 1)).trans ?_
      simp

theorem steps_copyMore (out : Str) (index : Int) (ls : List Str) :
    steps copyMore out index (ended ls) = out ++ unlines '\n' ls := by
  induction ls generalizing out index with
  | nil => exact (List.append_nil out).symm
  | cons line ls ih =>
      rw [unlines_cons]
      refine (ih (out ++ (line ++ ['\n'])) (index + 1)).trans ?_
      simp

theorem steps_keep (ret : List Var) (index : Int) (ls : List Str) :
    steps keep ret index (ended ls) = ret ++ ls.map Var.str := by
  induction ls generalizing ret index with
  | nil => exact (List.append_nil ret).symm
  | cons line ls ih =>
      refine (ih (ret ++ [.str (line ++ ['\n']).dropLast]) (index + 1)).trans ?_
      simp

/-! `fileread`. -/

theorem readLines_within (has : Lines as) (hbs : Lines bs) (hk : as.length = (startLine - 1).toNat)
    (hm : as.length + bs.length = max as.length endLine.toNat) (hstart : startLine ≤ intMax)
    (hend : endLine < intMax) (text : Str) :
    readLines (unlines '\n' as ++ (unlines '\n' bs ++ text)) startLine endLine = .ok (bs.map Var.str) := by
  have hpos := intMax_pos
  unfold readLines
  obtain ⟨f₁, hrest₁, heof₁, heq₁⟩ := @eachLine_within _ ((· < startLine)) skip 1 (.opened (unlines '\n' as ++ (unlines '\n' bs ++ text))) () _ _ has
    (fun i hi => decide_eq_true (by omega)) (decide_eq_false (by omega)) (by omega) (by omega) rfl rfl
  obtain ⟨f₂, -, -, heq₂⟩ := @eachLine_within _ ((· ≤ endLine)) keep (1 + as.length) _ [] _ _ hbs (fun i hi => decide_eq_true (by omega)) (decide_eq_false (by omega)) (by omega)
    (by omega) heof₁ hrest₁
  rw [heq₁, Except.bind_of_ok]
  dsimp only
  rw [heq₂, Except.bind_of_ok, steps_keep]
  rfl

/-- The last line that is asked for is behind the lines; what follows them is left out. -/
theorem readLines_through (has : Lines as) (hbs : Lines bs) (htail : Tail tail)
    (hk : as.length = (startLine - 1).toNat) (hm : as.length + bs.length + 1 ≤ endLine)
    (hend : endLine ≤ intMax) :
    readLines (unlines '\n' as ++ (unlines '\n' bs ++ tail)) startLine endLine = .ok (bs.map Var.str) := by
  have hpos := intMax_pos
  unfold readLines
  obtain ⟨f₁, hrest₁, heof₁, heq₁⟩ := @eachLine_within _ ((· < startLine)) skip 1 (.opened (unlines '\n' as ++ (unlines '\n' bs ++ tail))) () _ _ has
    (fun i hi => decide_eq_true (by omega)) (decide_eq_false (by omega)) (by omega) (by omega) rfl rfl
  obtain ⟨i, f₂, -, heq₂⟩ := @eachLine_through _ ((· ≤ endLine)) keep (1 + as.length) _ [] _ _ hbs htail (fun i hi => decide_eq_true (by omega)) (by omega) (by omega) heof₁ hrest₁
  rw [heq₁, Except.bind_of_ok]
  dsimp only
  rw [heq₂, Except.bind_of_ok, steps_keep]
  rfl

theorem readLines_behind (has : Lines as) (htail : Tail tail) (hk : as.length + 1 < startLine)
    (hstart : startLine ≤ intMax) (endLine : Int) :
    readLines (unlines '\n' as ++ tail) startLine endLine = .ok [] := by
  have hpos := intMax_pos
  unfold readLines
  obtain ⟨i, f₁, heof₁, heq₁⟩ := @eachLine_through _ ((· < startLine)) skip 1 (.opened (unlines '\n' as ++ tail)) () _ _ has htail
    (fun i hi => decide_eq_true (by omega)) (by omega) (by omega) rfl rfl
  rw [heq₁, Except.bind_of_ok]
  dsimp only
  rw [eachLine_stop (.inr heof₁)]
  rfl

theorem readLines_past (has : Lines as) (hk : (as.length : Int) < max (startLine - 1) endLine)
    (hstart : startLine ≤ intMax) (hend : endLine ≤ intMax) :
    readLines (unlines '\n' as) startLine endLine = .error .panic := by
  have hpos := intMax_pos
  unfold readLines
  obtain hfirst | hfirst := Int.lt_or_le as.length (startLine - 1)
  · rw [@eachLine_past _ ((· < startLine)) _ _ _ _ _ has (fun i hi => decide_eq_true (by omega)) (by omega) (by omega)
      rfl rfl]
    rfl
  obtain ⟨as, ls, rfl, hlen⟩ : ∃ bs cs, as = bs ++ cs ∧ bs.length = (startLine - 1).toNat :=
    ⟨_, _, (List.take_append_drop (startLine - 1).toNat as).symm, by rw [List.length_take]; omega⟩
  obtain ⟨has, hls⟩ := has.of_append
  rw [List.length_append] at hk
  rw [unlines_append]
  obtain ⟨f₁, hrest₁, heof₁, heq₁⟩ := @eachLine_within _ ((· < startLine)) skip 1 (.opened (unlines '\n' as ++ unlines '\n' ls)) () _ _ has
    (fun i hi => decide_eq_true (by omega)) (decide_eq_false (by omega)) (by omega) (by omega) rfl rfl
  rw [heq₁, Except.bind_of_ok]
  dsimp only
  rw [@eachLine_past _ ((· ≤ endLine)) _ _ _ _ _ hls (fun i hi => decide_eq_true (by omega)) (by omega) (by omega)
    heof₁ hrest₁]
  rfl

/-! The functions that edit. -/

theorem any_le (bound : Option Int) (hpos : 0 < index) :
    bound.any (index ≤ ·) = decide (index ≤ bound.getD 0) := by
  cases bound with
  | none => exact (decide_eq_false (by simpa using hpos)).symm
  | some endLine => rfl

theorem editText_behind (has : Lines as) (htail : Tail tail) (hk : as.length + 1 < startLine)
    (hstart : startLine ≤ intMax) (bound : Option Int) (printed : Str) :
    editText (unlines '\n' as ++ tail) startLine bound printed = .ok (unlines '\n' as ++ tail ++ printed) := by
  have hpos := intMax_pos
  unfold editText
  obtain ⟨i, f₁, heof₁, heq₁⟩ := @eachLine_through _ ((· < startLine)) copy 1 (.opened (unlines '\n' as ++ tail)) [] _ _ has htail
    (fun i hi => decide_eq_true (by omega)) (by omega) (by omega) rfl rfl
  rw [heq₁, Except.bind_of_ok]
  dsimp only
  rw [eachLine_stop (.inr heof₁), Except.bind_of_ok]
  dsimp only
  rw [eachLine_stop (.inr heof₁), steps_copy]
  rfl

theorem copied_before (has : Lines as) (hk : as.length = (startLine - 1).toNat) (hstart : startLine ≤ intMax)
    (text : Str) : ∃ f, f.rest = text ∧ f.eof = false ∧
      eachLine (· < startLine) copy 1 (.opened (unlines '\n' as ++ text)) [] =
        .ok (1 + as.length, f, unlines '\n' as) := by
  have hpos := intMax_pos
  obtain ⟨f, hrest, heof, heq⟩ := @eachLine_within _ ((· < startLine)) copy 1 (.opened (unlines '\n' as ++ text)) [] _ _ has
    (fun i hi => decide_eq_true (by omega)) (decide_eq_false (by omega)) (by omega) (by omega) rfl rfl
  rw [steps_copy, List.nil_append] at heq
  exact ⟨f, hrest, heof, heq⟩

theorem editText_through (has : Lines as) (hbs : Lines bs) (htail : Tail tail)
    (hk : as.length = (startLine - 1).toNat) (hm : as.length + bs.length + 1 ≤ bound.getD 0)
    (hstart : startLine ≤ intMax) (hbound : bound.getD 0 ≤ intMax) (printed : Str) :
    editText (unlines '\n' as ++ (unlines '\n' bs ++ tail)) startLine bound printed =
      .ok (unlines '\n' as ++ printed) := by
  have hpos := intMax_pos
  unfold editText
  obtain ⟨f₁, hrest₁, heof₁, heq₁⟩ := copied_before has hk hstart (unlines '\n' bs ++ tail)
  obtain ⟨i, f₂, heof₂, heq₂⟩ := @eachLine_through _ (fun index => bound.any (index ≤ ·)) skip (1 + as.length) _ () _ _ hbs htail
    (fun i hi => (any_le bound (by omega)).trans (decide_eq_true (by omega))) (by omega) (by omega) heof₁ hrest₁
  rw [heq₁, Except.bind_of_ok]
  dsimp only
  rw [heq₂, Except.bind_of_ok]
  dsimp only
  rw [eachLine_stop (.inr heof₂)]
  rfl

theorem left_out (hbs : Lines bs) {k : Nat} (hm : k + bs.length = max k (bound.getD 0).toNat)
    (hmax : 1 + k + bs.length ≤ intMax) (heof : f.eof = false) (hrest : f.rest = unlines '\n' bs ++ text) :
    ∃ f', f'.rest = text ∧ f'.eof = false ∧ eachLine (fun index => bound.any (index ≤ ·)) skip (1 + k) f () =
      .ok (1 + k + bs.length, f', ()) := by
  obtain ⟨f', hrest', heof', heq⟩ := @eachLine_within _ (fun index => bound.any (index ≤ ·)) skip (1 + k) _ () _ _ hbs
    (fun i hi => (any_le bound (by omega)).trans (decide_eq_true (by omega)))
    ((any_le bound (by omega)).trans (decide_eq_false (by omega))) (by omega) (by omega) heof hrest
  exact ⟨f', hrest', heof', heq⟩

theorem editText_within (has : Lines as) (hbs : Lines bs) (hcs : Lines cs) (htail : Tail tail)
    (hk : as.length = (startLine - 1).toNat) (hm : as.length + bs.length = max as.length (bound.getD 0).toNat)
    (hstart : startLine ≤ intMax) (hmax : (as.length + bs.length + cs.length : Int) < intMax) (printed : Str) :
    editText (unlines '\n' as ++ (unlines '\n' bs ++ (unlines '\n' cs ++ tail))) startLine bound printed =
      .ok (unlines '\n' as ++ printed ++ unlines '\n' cs) := by
  have hpos := intMax_pos
  unfold editText
  obtain ⟨f₁, hrest₁, heof₁, heq₁⟩ := copied_before has hk hstart (unlines '\n' bs ++ (unlines '\n' cs ++ tail))
  obtain ⟨f₂, hrest₂, heof₂, heq₂⟩ := left_out hbs hm (by omega) heof₁ hrest₁
  obtain ⟨i, f₃, -, heq₃⟩ := @eachLine_through _ (fun _ => true) copyMore 1 _ (unlines '\n' as ++ printed) _ _ hcs htail (fun _ _ => rfl) (by omega) (by omega) heof₂ hrest₂
  rw [heq₁, Except.bind_of_ok]
  dsimp only
  rw [heq₂, Except.bind_of_ok]
  dsimp only
  rw [heq₃, steps_copyMore]
  rfl

/-- Nothing follows the last newline: one of the loops meets the end without noticing it before. -/
theorem editText_past (hls : Lines ls) (hmax : (ls.length : Int) < intMax) (hstart : startLine ≤ intMax)
    (printed : Str) : editText (unlines '\n' ls) startLine bound printed = .error .panic := by
  have hpos := intMax_pos
  unfold editText
  obtain hfirst | hfirst := Int.lt_or_le ls.length (startLine - 1)
  · rw [@eachLine_past _ ((· < startLine)) _ _ _ _ _ hls (fun i hi => decide_eq_true (by omega)) (by omega) (by omega)
      rfl rfl]
    rfl
  obtain ⟨as, ls, rfl, hk⟩ : ∃ as ls', ls = as ++ ls' ∧ as.length = (startLine - 1).toNat :=
    ⟨_, _, (List.take_append_drop (startLine - 1).toNat ls).symm, by rw [List.length_take]; omega⟩
  obtain ⟨has, hls⟩ := hls.of_append
  rw [List.length_append] at hmax
  rw [unlines_append]
  obtain ⟨f₁, hrest₁, heof₁, heq₁⟩ := copied_before has hk hstart (unlines '\n' ls)
  rw [heq₁, Except.bind_of_ok]
  dsimp only
  obtain hsecond | hsecond := Int.lt_or_le (as.length + ls.length) (bound.getD 0)
  · rw [@eachLine_past _ (fun index => bound.any (index ≤ ·)) _ _ _ _ _ hls
      (fun i hi => (any_le bound (by omega)).trans (decide_eq_true (by omega))) (by omega) (by omega) heof₁ hrest₁]
    rfl
  obtain ⟨bs, cs, rfl, hm⟩ : ∃ bs cs, ls = bs ++ cs ∧
      as.length + bs.length = max as.length (bound.getD 0).toNat :=
    ⟨_, _, (List.take_append_drop ((bound.getD 0).toNat - as.length) ls).symm, by rw [List.length_take]; omega⟩
  obtain ⟨hbs, hcs⟩ := hls.of_append
  rw [List.length_append] at hmax
  rw [unlines_append] at hrest₁
  obtain ⟨f₂, hrest₂, heof₂, heq₂⟩ := left_out hbs hm (by omega) heof₁ hrest₁
  rw [heq₂, Except.bind_of_ok]
  dsimp only
  rw [eachLine_past hcs (fun _ _ => rfl) (by omega) (by omega) heof₂ hrest₂]
  rfl

end LineFiles
end LambdaMoo
