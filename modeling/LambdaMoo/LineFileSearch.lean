import LambdaMoo.LineFileLines

/-! What is searched for in a text file, and when the functions that search by lines find it. -/
namespace LambdaMoo
namespace LineFiles
open FilePaths Stdio

variable {σ : Type} {step : σ → Int → Str → Bool → σ} {acc : σ} {ls lines as bs inside : List Str} {text tail line : Str}
  {h : FileHost} {o : GrepOption} {pattern first second last : Str} {slist nlist : List Var} {x : Extraction} {k : Nat}
  {start : Int} {seen required : Bool}

theorem steps_append (acc : σ) (index : Int) (as bs : List Str) :
    steps step acc index (as ++ bs) = steps step (steps step acc index as) (index + as.length) bs := by
  induction as generalizing acc index with
  | nil => simp [steps]
  | cons line as ih =>
      have hindex : index + ((line :: as).length : Int) = index + 1 + as.length := by
        rw [List.length_cons]
        omega
      rw [hindex]
      exact ih _ _

theorem eachLine_whole (acc : σ) (hs : Split text ls tail) (hshort : ∀ line ∈ fileLines text, Short line)
    (hne : tail ≠ []) (hcount : (fileLines text).length ≤ intMax) : ∃ i f,
      eachLine (fun _ => true) step 1 (.opened text) acc =
        .ok (i, f, step (steps step acc 1 (ended ls)) (1 + ls.length) tail true) := by
  rw [hs.length hne] at hcount
  obtain ⟨i, f, -, heq⟩ := @eachLine_through σ (fun _ => true) step 1 (.opened text) acc ls tail
    (hs.linesOf hshort) (hs.tailOf hshort hne) (fun _ _ => rfl) (by omega) (by omega) rfl hs.eq
  exact ⟨i, f, heq⟩

theorem eachLine_whole_past (acc : σ) (hs : Split text ls []) (hp : Plain text) :
    eachLine (fun _ => true) step 1 (.opened text) acc = .error .panic := by
  have hcount := hp.count
  rw [hs.fileLines, if_pos rfl, List.append_nil] at hcount
  refine eachLine_past (hs.linesOf hp.short) (fun _ _ => rfl) (by omega) (by omega) rfl ?_
  exact hs.eq.trans (List.append_nil _)

/-! `filegrep`. -/

def found (h : FileHost) (o : GrepOption) (pattern : Str) (k : Nat) (lines : List Str) : List (Str × Nat) :=
  (lines.zipIdx k).filter fun line => h.matches line.1 pattern == o.showfound

def foundStrings (o : GrepOption) (found : List (Str × Nat)) : List Var :=
  if o.strings then found.map fun line => .str (body line.1) else []

def foundNumbers (o : GrepOption) (found : List (Str × Nat)) : List Var :=
  if o.numbers then found.map fun line => .int line.2 else []

/-- The last line has no newline, and is not among those that are looked for. -/
structure GrepsWell (h : FileHost) (o : GrepOption) (pattern text : Str) : Prop where
  unterminated : Unterminated text
  short : ∀ line ∈ fileLines text, Short line
  count : (fileLines text).length ≤ intMax
  last : ∀ line ∈ (textLines text).getLast?, (h.matches line pattern == o.showfound) = false

theorem found_append (as bs : List Str) :
    found h o pattern k (as ++ bs) = found h o pattern k as ++ found h o pattern (k + as.length) bs := by
  rw [found, List.zipIdx_append, List.filter_append]
  rfl

theorem found_singleton (h : FileHost) (o : GrepOption) (pattern : Str) (k : Nat) (line : Str) :
    found h o pattern k [line] = if h.matches line pattern == o.showfound then [(line, k)] else [] := by
  rw [found, List.zipIdx_singleton, List.filter_singleton]
  exact cond_eq_ite ..

theorem grepStep_false (hline : '\n' ∉ line) : grepStep h o pattern (slist, nlist) k (line ++ ['\n']) false =
    (slist ++ foundStrings o (found h o pattern k [line ++ ['\n']]),
      nlist ++ foundNumbers o (found h o pattern k [line ++ ['\n']])) := by
  obtain ⟨strings, numbers, showfound⟩ := o
  unfold grepStep foundStrings foundNumbers
  rw [found_singleton]
  dsimp only
  cases h.matches (line ++ ['\n']) pattern == showfound with
  | false => simp
  | true =>
      rw [if_pos rfl, if_pos rfl, List.map_singleton, List.map_singleton, body_ended hline]
      cases strings <;> cases numbers <;> simp

theorem steps_grep (hls : ∀ line ∈ ls, '\n' ∉ line) (k : Nat) (slist nlist : List Var) :
    steps (grepStep h o pattern) (slist, nlist) k (ended ls) =
      (slist ++ foundStrings o (found h o pattern k (ended ls)),
        nlist ++ foundNumbers o (found h o pattern k (ended ls))) := by
  induction ls generalizing k slist nlist with
  | nil => simp [steps, ended, found, foundStrings, foundNumbers]
  | cons line ls ih =>
      obtain ⟨hline, hls⟩ := List.forall_mem_cons.mp hls
      have hcons : found h o pattern k (ended (line :: ls)) =
          found h o pattern k [line ++ ['\n']] ++ found h o pattern (k + 1) (ended ls) :=
        found_append [line ++ ['\n']] (ended ls)
      have hmore := ih hls (k + 1) (slist ++ foundStrings o (found h o pattern k [line ++ ['\n']]))
        (nlist ++ foundNumbers o (found h o pattern k [line ++ ['\n']]))
      rw [← grepStep_false hline, Nat.cast_add, Nat.cast_one] at hmore
      refine Eq.trans hmore ?_
      rw [hcons]
      unfold foundStrings foundNumbers
      rw [List.map_append, List.map_append]
      cases o.strings <;> cases o.numbers <;> simp

theorem grepStep_true (found : List Var × List Var) (index : Int) (line : Str) :
    grepStep h o pattern found index line true = found := by
  unfold grepStep
  split
  simp

theorem grep_whole (hs : Split text ls tail) (hshort : ∀ line ∈ fileLines text, Short line) (hne : tail ≠ [])
    (hcount : (fileLines text).length ≤ intMax) : ∃ i f,
      eachLine (fun _ => true) (grepStep h o pattern) 1 (.opened text) ([], []) =
        .ok (i, f, foundStrings o (found h o pattern 1 (ended ls)), foundNumbers o (found h o pattern 1 (ended ls))) := by
  obtain ⟨i, f, heq⟩ := eachLine_whole ([], []) hs hshort hne hcount
  refine ⟨i, f, heq.trans ?_⟩
  have hsteps := @steps_grep ls h o pattern hs.lines 1 [] []
  rw [Nat.cast_one] at hsteps
  rw [grepStep_true, hsteps, List.nil_append, List.nil_append]

theorem getLast_textLines (hs : Split text ls tail) (hne : tail ≠ []) : (textLines text).getLast? = some tail := by
  rw [hs.textLines, if_neg hne, List.getLast?_append]
  rfl

theorem found_textLines (hs : Split text ls tail) (hne : tail ≠ []) :
    found h o pattern 1 (textLines text) =
      found h o pattern 1 (ended ls) ++ found h o pattern (1 + (ended ls).length) [tail] := by
  rw [hs.textLines, if_neg hne, found_append]

theorem grep_right (hw : GrepsWell h o pattern text) : ∃ i f,
    eachLine (fun _ => true) (grepStep h o pattern) 1 (.opened text) ([], []) = .ok (i, f,
      foundStrings o (found h o pattern 1 (textLines text)), foundNumbers o (found h o pattern 1 (textLines text))) := by
  obtain ⟨ls, tail, hs⟩ := exists_split text
  have hne := hs.unterminated.mp hw.unterminated
  have hlast := hw.last tail (getLast_textLines hs hne)
  rw [found_textLines hs hne, found_singleton, if_neg (by rw [hlast]; exact Bool.false_ne_true), List.append_nil]
  exact grep_whole hs hw.short hne hw.count

theorem grepsWell_of_right (hp : Plain text) (ho : o.strings = true ∨ o.numbers = true) {i : Int} {f : File Char}
    (hright : eachLine (fun _ => true) (grepStep h o pattern) 1 (.opened text) ([], []) = .ok (i, f,
      foundStrings o (found h o pattern 1 (textLines text)), foundNumbers o (found h o pattern 1 (textLines text)))) :
    GrepsWell h o pattern text := by
  obtain ⟨ls, tail, hs⟩ := exists_split text
  by_cases hne : tail = []
  · subst hne
    rw [eachLine_whole_past _ hs hp] at hright
    cases hright
  · refine ⟨hs.unterminated.mpr hne, hp.short, (Int.le_of_lt hp.count), fun line hline => ?_⟩
    rw [getLast_textLines hs hne, Option.mem_some_iff] at hline
    subst hline
    by_contra hmatch
    rw [Bool.not_eq_false] at hmatch
    obtain ⟨i', f', heq⟩ := @grep_whole ls text tail h o pattern hs hp.short hne (Int.le_of_lt hp.count)
    rw [heq, found_textLines hs hne, found_singleton, if_pos hmatch] at hright
    simp only [Except.ok.injEq, Prod.mk.injEq] at hright
    obtain ⟨-, -, hstrings, hnumbers⟩ := hright
    unfold foundStrings at hstrings
    unfold foundNumbers at hnumbers
    obtain ho | ho := ho
    · rw [if_pos ho, if_pos ho] at hstrings
      simpa using congrArg List.length hstrings
    · rw [if_pos ho, if_pos ho] at hnumbers
      simpa using congrArg List.length hnumbers

theorem grepOption_some (option : Option Str) :
    (grepOption option).strings = true ∨ (grepOption option).numbers = true := by
  unfold grepOption
  split
  · exact .inl rfl
  · next option =>
      dsimp only
      cases strstr option ['n'] <;> simp

/-! `fileextract`. -/

/-- The sections of some lines: the next one begins with the first line for `first`, and ends with the
first from there for `second`. It counts if one of its lines is for `extra`. -/
def sections (first second extra : Str → Bool) (k : Nat) (lines : List Str) : List (Nat × Nat) :=
  let before := lines.takeWhile (!first ·)
  let rest := lines.dropWhile (!first ·)
  let inside := rest.takeWhile (!second ·)
  match _hrest : rest.dropWhile (!second ·) with
  | [] => []
  | close :: more =>
      let start := k + before.length
      let stop := start + inside.length
      (if (inside ++ [close]).any extra then [(start, stop)] else []) ++ sections first second extra (stop + 1) more
termination_by lines.length
decreasing_by
  have hlen : ((lines.dropWhile (!first ·)).dropWhile (!second ·)).length = more.length + 1 :=
    congrArg List.length _hrest
  have hle := List.length_dropWhile_le (!second ·) (lines.dropWhile (!first ·))
  have hle' := List.length_dropWhile_le (!first ·) lines
  omega

/-- The line that the last pattern is for counts only when that pattern is required. -/
def FileHost.extra (h : FileHost) (required : Bool) (last : Str) (line : Str) : Bool :=
  !required || h.matches line last

def Extraction.within (x : Extraction) (start : Int) (seen : Bool) : Extraction :=
  { x with startLine := start, status := if seen then 3 else 2 }

def Extraction.behind (x : Extraction) (start stop : Int) (seen : Bool) : Extraction :=
  if seen then ⟨1, start, x.startList ++ [.int start], x.endList ++ [.int stop]⟩ else { x with startLine := start, status := 1 }

theorem behind_status {stop : Int} : (x.behind start stop seen).status = 1 := by
  cases seen <;> rfl

section Sections

variable {begins ends extra : Str → Bool} {close : Str} {more : List Str}

theorem sections_nil (hrest : (lines.dropWhile (!begins ·)).dropWhile (!ends ·) = []) :
    sections begins ends extra k lines = [] := by
  rw [sections]
  split
  · rfl
  · next h =>
      rw [hrest] at h
      cases h

theorem sections_cons (hrest : (lines.dropWhile (!begins ·)).dropWhile (!ends ·) = close :: more)
    {start stop : Nat} (hstart : start = k + (lines.takeWhile (!begins ·)).length)
    (hstop : stop = start + ((lines.dropWhile (!begins ·)).takeWhile (!ends ·)).length) :
    sections begins ends extra k lines =
      (if ((lines.dropWhile (!begins ·)).takeWhile (!ends ·) ++ [close]).any extra then [(start, stop)] else []) ++
        sections begins ends extra (stop + 1) more := by
  subst hstop hstart
  rw [sections]
  split
  · next h =>
      rw [hrest] at h
      cases h
  · next h =>
      rw [hrest] at h
      cases h
      rfl

end Sections

section Extracting

variable (h) (required) (first second last)

theorem extractStep_before {index : Int} (hx : x.status = 1) (hline : h.matches line first = false) (eof : Bool) :
    extractStep h required first second last x index line eof = x := by
  simp [extractStep, hx, hline]

theorem extractStep_first {index : Int} (hx : x.status = 1) (hline : h.matches line first = true) (eof : Bool) :
    extractStep h required first second last x index line eof =
      extractStep h required first second last (x.within index (!required)) index line eof := by
  cases required <;> simp [extractStep, hx, hline, Extraction.within]

theorem extractStep_within {index : Int} (hline : h.matches line second = false) (eof : Bool) :
    extractStep h required first second last (x.within start seen) index line eof =
      x.within start (seen || h.matches line last) := by
  cases seen <;> cases hlast : h.matches line last <;> simp [extractStep, Extraction.within, hline, hlast]

theorem extractStep_close {index : Int} (hline : h.matches line second = true) (eof : Bool) :
    extractStep h required first second last (x.within start seen) index line eof =
      x.behind start index (seen || h.matches line last) := by
  cases seen <;> cases hlast : h.matches line last <;>
    simp [extractStep, Extraction.within, Extraction.behind, hline, hlast]

theorem steps_before {index : Int} (hx : x.status = 1) (hls : ∀ line ∈ ls, h.matches line first = false) :
    steps (extractStep h required first second last) x index ls = x := by
  induction ls generalizing index with
  | nil => rfl
  | cons line ls ih =>
      obtain ⟨hline, hls⟩ := List.forall_mem_cons.mp hls
      rw [steps, extractStep_before h first second last required hx hline, ih hls]

theorem steps_within {index : Int} (hls : ∀ line ∈ ls, h.matches line second = false) :
    steps (extractStep h required first second last) (x.within start seen) index ls =
      x.within start (seen || ls.any (h.matches · last)) := by
  induction ls generalizing index seen with
  | nil => simp [steps]
  | cons line ls ih =>
      obtain ⟨hline, hls⟩ := List.forall_mem_cons.mp hls
      rw [steps, extractStep_within h first second last required hline, ih hls, List.any_cons, Bool.or_assoc]

/-- The lines that a predicate does not hold of, up to the first that it holds of. -/
theorem split_first (p : Str → Bool) (lines : List Str) :
    lines.takeWhile (!p ·) ++ lines.dropWhile (!p ·) = lines ∧ (∀ line ∈ lines.takeWhile (!p ·), p line = false) ∧
      ∀ line rest, lines.dropWhile (!p ·) = line :: rest → p line = true := by
  refine ⟨List.takeWhile_append_dropWhile, fun line hline => ?_, fun line rest hrest => ?_⟩
  · simpa using List.mem_takeWhile_imp hline
  · have hhead := List.dropWhile_get_zero_not (!p ·) lines (by rw [hrest]; exact Nat.zero_lt_succ _)
    simpa [hrest] using hhead

theorem any_extra (inside : List Str) (close : Str) : (inside ++ [close]).any (h.extra required last) =
    ((!required || inside.any (h.matches · last)) || h.matches close last) := by
  rw [List.any_append, List.any_cons, List.any_nil, Bool.or_false]
  cases required with
  | true => rfl
  | false => simp [FileHost.extra]

theorem steps_opened {index : Int} (hx : x.status = 1) (hline : h.matches line first = true) (rest : List Str) :
    steps (extractStep h required first second last) x index (line :: rest) =
      steps (extractStep h required first second last) (x.within index (!required)) index (line :: rest) := by
  rw [steps, extractStep_first h first second last required hx hline]
  rfl

theorem steps_closed {index : Int} (hls : ∀ line ∈ ls, h.matches line second = false)
    (hline : h.matches line second = true) (rest : List Str) :
    steps (extractStep h required first second last) (x.within start seen) index (ls ++ line :: rest) =
      steps (extractStep h required first second last)
        (x.behind start (index + ls.length) (seen || ls.any (h.matches · last) || h.matches line last))
        (index + ls.length + 1) rest := by
  rw [steps_append, steps_within h first second last required hls, steps,
    extractStep_close h first second last required hline]

theorem steps_extract (lines : List Str) (k : Nat) (hx : x.status = 1) :
    (steps (extractStep h required first second last) x k lines).startList = x.startList ++
      (sections (h.matches · first) (h.matches · second) (h.extra required last) k lines).map (.int ·.1) ∧
    (steps (extractStep h required first second last) x k lines).endList = x.endList ++
      (sections (h.matches · first) (h.matches · second) (h.extra required last) k lines).map (.int ·.2) := by
  induction hn : lines.length using Nat.strong_induction_on generalizing lines k x with
  | _ n ih =>
      obtain ⟨hlines, hbefore, hfirst⟩ := split_first (h.matches · first) lines
      obtain ⟨hrest, hinside, hsecond⟩ := split_first (h.matches · second) (lines.dropWhile (!h.matches · first))
      have hsteps : steps (extractStep h required first second last) x k lines =
          steps (extractStep h required first second last) x
            (k + (lines.takeWhile (!h.matches · first)).length : Nat) (lines.dropWhile (!h.matches · first)) := by
        nth_rewrite 1 [← hlines]
        rw [steps_append, steps_before h first second last required hx hbefore, Nat.cast_add]
      rw [hsteps]
      cases hclose : (lines.dropWhile (!h.matches · first)).dropWhile (!h.matches · second) with
      | nil =>
          rw [sections_nil hclose, List.map_nil, List.map_nil, List.append_nil, List.append_nil]
          cases hopen : lines.dropWhile (!h.matches · first) with
          | nil => exact ⟨rfl, rfl⟩
          | cons line rest =>
              have hall : ∀ l ∈ line :: rest, h.matches l second = false := by
                rw [hclose, List.append_nil, hopen] at hrest
                rw [hopen, hrest] at hinside
                exact hinside
              rw [steps_opened h first second last required hx (hfirst line rest hopen) rest,
                steps_within h first second last required hall]
              exact ⟨rfl, rfl⟩
      | cons close more =>
          have hmore : more.length < n := by
            have hlen := congrArg List.length hclose
            have hle := List.length_dropWhile_le (!h.matches · second) (lines.dropWhile (!h.matches · first))
            have hle' := List.length_dropWhile_le (!h.matches · first) lines
            rw [List.length_cons] at hlen
            omega
          have hlast := hsecond close more hclose
          rw [sections_cons hclose rfl rfl]
          generalize k + (lines.takeWhile (!h.matches · first)).length = start
          generalize (lines.dropWhile (!h.matches · first)).takeWhile (!h.matches · second) = inside at *
          rw [hclose] at hrest
          have hopened : steps (extractStep h required first second last) x start (lines.dropWhile (!h.matches · first)) =
              steps (extractStep h required first second last)
                (x.behind start (start + inside.length : Nat) ((inside ++ [close]).any (h.extra required last)))
                ((start + inside.length + 1 : Nat)) more := by
            cases hopen : lines.dropWhile (!h.matches · first) with
            | nil => simp [hopen] at hrest
            | cons line rest =>
                rw [steps_opened h first second last required hx (hfirst line rest hopen), ← hopen, ← hrest,
                  steps_closed h first second last required hinside hlast, any_extra]
                rfl
          obtain ⟨hstart, hstop⟩ := ih more.length hmore more (start + inside.length + 1) behind_status rfl
          rw [hopened, hstart, hstop]
          cases (inside ++ [close]).any (h.extra required last) <;> simp [Extraction.behind]

end Extracting

theorem extract_right (hunterminated : Unterminated text) (hshort : ∀ line ∈ fileLines text, Short line)
    (hcount : (fileLines text).length ≤ intMax) (h : FileHost) (required : Bool) (first second last : Str) :
    ∃ i f x, eachLine (fun _ => true) (extractStep h required first second last) 1 (.opened text) ⟨1, 0, [], []⟩ =
        .ok (i, f, x) ∧
      x.startList = (sections (h.matches · first) (h.matches · second) (h.extra required last) 1
        (textLines text)).map (.int ·.1) ∧
      x.endList = (sections (h.matches · first) (h.matches · second) (h.extra required last) 1
        (textLines text)).map (.int ·.2) := by
  obtain ⟨ls, tail, hs⟩ := exists_split text
  have hne := hs.unterminated.mp hunterminated
  obtain ⟨i, f, heq⟩ := @eachLine_whole Extraction (extractStep h required first second last) ls text tail
    ⟨1, 0, [], []⟩ hs hshort hne hcount
  have hall : steps (extractStep h required first second last) ⟨1, 0, [], []⟩ 1 (textLines text) =
      extractStep h required first second last
        (steps (extractStep h required first second last) ⟨1, 0, [], []⟩ 1 (ended ls)) (1 + ls.length) tail true := by
    have hlen : (ended ls).length = ls.length := List.length_map ..
    rw [hs.textLines, if_neg hne, steps_append, hlen]
    rfl
  obtain ⟨hstart, hend⟩ := @steps_extract h first second last ⟨1, 0, [], []⟩ required (textLines text) 1 rfl
  rw [Nat.cast_one, hall] at hstart hend
  exact ⟨i, f, _, heq, hstart, hend⟩

theorem extract_past (hp : Plain text) (hterminated : ¬ Unterminated text) (h : FileHost) (required : Bool)
    (first second last : Str) :
    eachLine (fun _ => true) (extractStep h required first second last) 1 (.opened text) ⟨1, 0, [], []⟩ =
      .error .panic := by
  obtain ⟨ls, tail, hs⟩ := exists_split text
  rw [hs.unterminated, not_not] at hterminated
  subst hterminated
  exact eachLine_whole_past _ hs hp

end LineFiles
end LambdaMoo
