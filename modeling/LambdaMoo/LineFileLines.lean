import LambdaMoo.LineFileLoops
import Mathlib.Data.List.TakeWhile

/-! The lines of a text file, and when the loops that read and edit by lines are right about them. -/
namespace LambdaMoo
namespace LineFiles
open FilePaths Stdio

variable {startLine endLine : Int} {ls as bs cs new : List Str} {text text' tail line : Str} {bound : Option Int}
  {h : FileHost}

/-- The lines of a text as they are in the file; the last one may be without a newline. -/
def textLines (text : Str) : List Str :=
  let (ls, tail) := splitLines '\n' text
  ended ls ++ if tail = [] then [] else [tail]

def body (line : Str) : Str := line.takeWhile (· ≠ '\n')

def fileLines (text : Str) : List Str := (textLines text).map body

def Unterminated (text : Str) : Prop := (splitLines '\n' text).2 ≠ []

/-- Lines that the buffer has room for, and no more than there are numbers. -/
structure Plain (text : Str) : Prop where
  short : ∀ line ∈ fileLines text, Short line
  count : ((fileLines text).length : Int) < intMax

def requested (text : Str) (startLine endLine : Int) : List Str :=
  ((fileLines text).take endLine.toNat).drop (startLine - 1).toNat

def editLines (lines : List Str) (startLine endLine : Int) (new : List Str) : List Str :=
  lines.take (startLine - 1).toNat ++ new ++ lines.drop (max (startLine - 1) endLine).toNat

def newLines (h : FileHost) (list : List Var) : List Str :=
  list.flatMap fun v => fileLines (elementText h v ++ ['\n'])

/-! A text and its lines. -/

/-- Lines and what follows them, where they come from a text. -/
structure Split (text : Str) (ls : List Str) (tail : Str) : Prop where
  eq : text = unlines '\n' ls ++ tail
  lines : ∀ line ∈ ls, '\n' ∉ line
  tail : '\n' ∉ tail

theorem exists_split (text : Str) : ∃ ls tail, Split text ls tail := by
  obtain ⟨ls, tail, -, heq, hls, htail⟩ := splitLines_spec '\n' text
  exact ⟨ls, tail, heq, hls, htail⟩

theorem Split.splitLines (hs : Split text ls tail) : splitLines '\n' text = (ls, tail) := by
  rw [hs.eq, splitLines_unlines hs.lines, splitLines_tail hs.tail, List.append_nil]

theorem Split.unterminated (hs : Split text ls tail) : Unterminated text ↔ tail ≠ [] := by
  rw [Unterminated, hs.splitLines]

theorem Split.textLines (hs : Split text ls tail) :
    textLines text = ended ls ++ if tail = [] then [] else [tail] := by
  rw [LineFiles.textLines, hs.splitLines]

theorem body_eq (h : '\n' ∉ line) : body line = line := by
  unfold body
  rw [List.takeWhile_eq_self_iff]
  intro c hc
  exact decide_eq_true fun heq => h (heq ▸ hc)

theorem body_ended (h : '\n' ∉ line) : body (line ++ ['\n']) = line := by
  have hall : ∀ c ∈ line, decide (c ≠ '\n') = true := fun c hc => decide_eq_true fun heq => h (heq ▸ hc)
  rw [body, List.takeWhile_append_of_pos hall]
  simp

theorem bodies (h : ∀ line ∈ ls, '\n' ∉ line) : (ended ls).map body = ls := by
  unfold ended
  rw [List.map_map]
  exact (List.map_congr_left fun line hline => body_ended (h line hline)).trans (List.map_id' ls)

theorem Split.fileLines (hs : Split text ls tail) : fileLines text = ls ++ if tail = [] then [] else [tail] := by
  rw [LineFiles.fileLines, hs.textLines, List.map_append, bodies hs.lines]
  split
  · rfl
  · rw [List.map_singleton, body_eq hs.tail]

theorem Split.count (hs : Split text ls tail) : text.count '\n' = ls.length := by
  rw [hs.eq, List.count_append, List.count_eq_zero.mpr hs.tail]
  have hlines := hs.lines
  clear hs
  induction ls with
  | nil => rfl
  | cons line ls ih =>
      obtain ⟨hline, hls⟩ := List.forall_mem_cons.mp hlines
      rw [unlines_cons, List.count_append, List.count_cons_self, List.count_eq_zero.mpr hline, List.length_cons]
      have := ih hls
      omega

theorem Split.linesOf (hs : Split text ls tail) (hshort : ∀ line ∈ LineFiles.fileLines text, Short line) :
    Lines ls := by
  rw [hs.fileLines] at hshort
  exact fun line hline => ⟨hs.lines line hline, hshort line (List.mem_append_left _ hline)⟩

theorem Split.tailOf (hs : Split text ls tail) (hshort : ∀ line ∈ LineFiles.fileLines text, Short line)
    (hne : tail ≠ []) : Tail tail := by
  rw [hs.fileLines, if_neg hne] at hshort
  exact ⟨hne, hs.tail, hshort tail (by simp)⟩

theorem Split.length (hs : Split text ls tail) (hne : tail ≠ []) : (LineFiles.fileLines text).length = ls.length + 1 := by
  rw [hs.fileLines, if_neg hne, List.length_append]
  rfl

theorem split_unlines (hls : ∀ line ∈ ls, '\n' ∉ line) : Split (unlines '\n' ls) ls [] :=
  ⟨(List.append_nil _).symm, hls, by simp⟩

theorem fileLines_unlines (hls : ∀ line ∈ ls, '\n' ∉ line) : fileLines (unlines '\n' ls) = ls := by
  rw [(split_unlines hls).fileLines, if_pos rfl, List.append_nil]

/-! What a list is written as. -/

theorem ended_text (text : Str) : ∃ ls, (∀ line ∈ ls, '\n' ∉ line) ∧ text ++ ['\n'] = unlines '\n' ls := by
  obtain ⟨ls, tail, hs⟩ := exists_split text
  refine ⟨ls ++ [tail], List.forall_mem_append.mpr ⟨hs.lines, by simpa using hs.tail⟩, ?_⟩
  rw [hs.eq, unlines_append, unlines_cons, unlines_nil, List.append_assoc]

theorem printedList_spec (h : FileHost) (list : List Var) :
    printedList h list = unlines '\n' (newLines h list) ∧ ∀ line ∈ newLines h list, '\n' ∉ line := by
  induction list with
  | nil => exact ⟨rfl, by simp [newLines]⟩
  | cons v list ih =>
      obtain ⟨ls, hls, heq⟩ := ended_text (elementText h v)
      have hlines : fileLines (elementText h v ++ ['\n']) = ls := by rw [heq, fileLines_unlines hls]
      have hnew : newLines h (v :: list) = ls ++ newLines h list := by
        rw [← hlines]
        rfl
      rw [hnew]
      refine ⟨?_, List.forall_mem_append.mpr ⟨hls, ih.2⟩⟩
      rw [unlines_append, ← heq, ← ih.1, List.append_assoc]
      rfl

/-! `fileread`. -/

/-- The first line that is asked for is behind all the lines, the last of which has no newline; or
all that is asked for has a newline. -/
def ReadsWell (text : Str) (startLine endLine : Int) : Prop :=
  (Unterminated text ∧ (∀ line ∈ fileLines text, Short line) ∧ (fileLines text).length < startLine) ∨
    (max (startLine - 1) endLine ≤ text.count '\n' ∧ endLine < intMax ∧
      ∀ line ∈ (fileLines text).take (max (startLine - 1) endLine).toNat, Short line)

theorem lines_before (hle : startLine - 1 ≤ ls.length) :
    ∃ as bs, ls = as ++ bs ∧ as.length = (startLine - 1).toNat :=
  ⟨_, _, (List.take_append_drop (startLine - 1).toNat ls).symm, by rw [List.length_take]; omega⟩

/-- The lines in front of the first that is asked for, those asked for, and the rest. -/
theorem cut_lines (hle : max (startLine - 1) endLine ≤ ls.length) : ∃ as bs cs, ls = as ++ bs ++ cs ∧
    as.length = (startLine - 1).toNat ∧ as.length + bs.length = max as.length endLine.toNat := by
  refine ⟨ls.take (startLine - 1).toNat, (ls.drop (startLine - 1).toNat).take (endLine.toNat - (startLine - 1).toNat),
    (ls.drop (startLine - 1).toNat).drop (endLine.toNat - (startLine - 1).toNat), ?_, ?_, ?_⟩
  · rw [List.append_assoc, List.take_append_drop, List.take_append_drop]
  · rw [List.length_take]
    omega
  · rw [List.length_take, List.length_take, List.length_drop]
    omega

theorem requested_eq (heq : fileLines text = as ++ bs ++ cs) (hk : as.length = (startLine - 1).toNat)
    (hm : as.length + bs.length = max as.length endLine.toNat) : requested text startLine endLine = bs := by
  rw [requested, heq, List.drop_take, ← hk, List.append_assoc, List.drop_left]
  exact List.take_left' (by omega)

theorem readLines_right (hstart : startLine ≤ intMax) (hw : ReadsWell text startLine endLine) :
    readLines text startLine endLine = .ok ((requested text startLine endLine).map .str) := by
  obtain ⟨ls, tail, hs⟩ := exists_split text
  obtain ⟨hunterminated, hshort, hbehind⟩ | ⟨hle, hend, hshort⟩ := hw
  · have hne := hs.unterminated.mp hunterminated
    rw [hs.length hne] at hbehind
    have hempty : requested text startLine endLine = [] := by
      rw [requested, List.drop_eq_nil_iff, List.length_take, hs.length hne]
      omega
    rw [hempty, hs.eq]
    exact readLines_behind (hs.linesOf hshort) (hs.tailOf hshort hne) (by omega) hstart endLine
  · rw [hs.count] at hle
    obtain ⟨as, bs, cs, rfl, hk, hm⟩ := cut_lines hle
    have hlines := hs.fileLines
    rw [List.append_assoc] at hlines
    rw [requested_eq hlines hk hm]
    have hread : Lines (as ++ bs) := by
      intro line hline
      refine ⟨hs.lines line (List.mem_append_left _ hline), hshort line ?_⟩
      have htake : (as ++ bs).length = (max (startLine - 1) endLine).toNat := by
        rw [List.length_append]
        omega
      rwa [hlines, ← htake, List.take_left]
    rw [hs.eq, unlines_append, unlines_append, List.append_assoc, List.append_assoc]
    exact readLines_within hread.of_append.1 hread.of_append.2 hk hm hstart hend _

theorem readsWell_of_right (hp : Plain text) (hstart : startLine ≤ intMax) (hend : endLine ≤ intMax)
    (hread : readLines text startLine endLine = .ok ((requested text startLine endLine).map .str)) :
    ReadsWell text startLine endLine := by
  obtain ⟨ls, tail, hs⟩ := exists_split text
  have hcount := hp.count
  have hls := hs.linesOf hp.short
  by_cases hle : max (startLine - 1) endLine ≤ ls.length
  · have hlen : ls.length ≤ (fileLines text).length := by
      rw [hs.fileLines, List.length_append]
      omega
    exact .inr ⟨hs.count ▸ hle, by omega, fun line hline => hp.short line (List.mem_of_mem_take hline)⟩
  by_cases hne : tail = []
  · subst hne
    rw [hs.eq, List.append_nil, readLines_past hls (by omega) hstart hend] at hread
    cases hread
  · have hlen := hs.length hne
    by_cases hbehind : ls.length + 1 < startLine
    · exact .inl ⟨hs.unterminated.mpr hne, hp.short, by omega⟩
    · obtain ⟨as, bs, rfl, hk⟩ := @lines_before startLine ls (by omega)
      obtain ⟨has, hbs⟩ := hls.of_append
      rw [List.length_append] at hle hbehind
      have hlines : fileLines text = as ++ (bs ++ [tail]) ++ [] := by
        rw [hs.fileLines, if_neg hne, List.append_nil, List.append_assoc]
      have hrequested : requested text startLine endLine = bs ++ [tail] := by
        rw [requested, hlines, List.append_nil, List.drop_take, ← hk, List.drop_left]
        refine List.take_of_length_le ?_
        rw [List.length_append, List.length_singleton]
        omega
      have htext : text = unlines '\n' as ++ (unlines '\n' bs ++ tail) := by
        rw [hs.eq, unlines_append, List.append_assoc]
      rw [hrequested, htext, readLines_through has hbs (hs.tailOf hp.short hne) hk (by omega) hend,
        Except.ok.injEq] at hread
      have := congrArg List.length hread
      simp at this

/-! The functions that edit. -/

/-- The lines end before `startLine` and nothing is to be put behind them, or they end within what
is to be left out; the last one has no newline. -/
structure EditsWell (text : Str) (startLine : Int) (bound : Option Int) (endLine : Int) (new : List Str) : Prop where
  unterminated : Unterminated text
  short : ∀ line ∈ fileLines text, Short line
  ends : (fileLines text).length < startLine ∧ new = [] ∨ startLine ≤ (fileLines text).length ∧
    (fileLines text).length ≤ bound.getD 0 ∧ (fileLines text).length ≤ endLine

theorem editLines_length (lines : List Str) (startLine endLine : Int) (new : List Str) :
    (editLines lines startLine endLine new).length = min (startLine - 1).toNat lines.length + new.length +
      (lines.length - (max (startLine - 1) endLine).toNat) := by
  rw [editLines, List.length_append, List.length_append, List.length_take, List.length_drop]

theorem editText_right (hnew : ∀ line ∈ new, '\n' ∉ line) (hstart : startLine ≤ intMax)
    (hbound : bound.getD 0 ≤ intMax) (hw : EditsWell text startLine bound endLine new) :
    ∃ text', editText text startLine bound (unlines '\n' new) = .ok text' ∧
      fileLines text' = editLines (fileLines text) startLine endLine new := by
  obtain ⟨ls, tail, hs⟩ := exists_split text
  have hne := hs.unterminated.mp hw.unterminated
  have hls := hs.linesOf hw.short
  have htail := hs.tailOf hw.short hne
  have hlen := hs.length hne
  obtain ⟨hbehind, rfl⟩ | ⟨hle, hend, hend'⟩ := hw.ends
  · refine ⟨text, ?_, ?_⟩
    · rw [hs.eq, editText_behind hls htail (by omega) hstart, unlines_nil, List.append_nil]
    · rw [editLines, List.take_of_length_le (by omega), List.drop_eq_nil_iff.mpr (by omega), List.append_nil,
        List.append_nil]
  · obtain ⟨as, bs, rfl, hk⟩ := @lines_before startLine ls (by omega)
    obtain ⟨has, hbs⟩ := hls.of_append
    rw [List.length_append] at hlen
    refine ⟨unlines '\n' (as ++ new), ?_, ?_⟩
    · rw [hs.eq, unlines_append, unlines_append, List.append_assoc]
      exact editText_through has hbs htail hk (by omega) hstart hbound _
    · rw [fileLines_unlines (List.forall_mem_append.mpr ⟨fun line hline => (has line hline).1, hnew⟩), editLines,
        List.drop_eq_nil_iff.mpr (by omega), List.append_nil, hs.fileLines, ← hk, List.append_assoc as, List.take_left]

theorem editsWell_of_right (hp : Plain text) (hstart : startLine ≤ intMax) (hbound : bound.getD 0 ≤ intMax)
    (hend : endLine ≤ max (startLine - 1) (bound.getD 0)) (hnew : ∀ line ∈ new, '\n' ∉ line)
    (hedit : editText text startLine bound (unlines '\n' new) = .ok text')
    (hlines : fileLines text' = editLines (fileLines text) startLine endLine new) :
    EditsWell text startLine bound endLine new := by
  obtain ⟨ls, tail, hs⟩ := exists_split text
  have hcount := hp.count
  have hls := hs.linesOf hp.short
  have hlength := congrArg List.length hlines
  rw [editLines_length] at hlength
  by_cases hne : tail = []
  · subst hne
    have hcount' : (ls.length : Int) < intMax := by
      rwa [hs.fileLines, if_pos rfl, List.append_nil] at hcount
    rw [hs.eq, List.append_nil, editText_past hls hcount' hstart] at hedit
    cases hedit
  have htail := hs.tailOf hp.short hne
  have hlen := hs.length hne
  refine ⟨hs.unterminated.mpr hne, hp.short, ?_⟩
  rw [hlen] at hlength hcount ⊢
  by_cases hbehind : (ls.length : Int) + 1 < startLine
  · refine .inl ⟨hbehind, ?_⟩
    rw [hs.eq, editText_behind hls htail hbehind hstart, Except.ok.injEq] at hedit
    cases new with
    | nil => rfl
    | cons line new =>
        obtain ⟨hline, hnew⟩ := List.forall_mem_cons.mp hnew
        -- The first of the new lines goes on where the last one ends.
        have htext : text' = unlines '\n' (ls ++ (tail ++ line) :: new) := by
          rw [← hedit, unlines_append, unlines_cons, unlines_cons, List.append_assoc, List.append_assoc]
        have hall : ∀ l ∈ ls ++ (tail ++ line) :: new, '\n' ∉ l :=
          List.forall_mem_append.mpr ⟨hs.lines, List.forall_mem_cons.mpr ⟨by simp [hs.tail, hline], hnew⟩⟩
        rw [htext, fileLines_unlines hall, List.length_append, List.length_cons, List.length_cons] at hlength
        omega
  · obtain hwithin | hthrough := Int.lt_or_le (bound.getD 0) (ls.length + 1)
    · obtain ⟨as, bs, cs, rfl, hk, hm⟩ := @cut_lines startLine (bound.getD 0) ls (by omega)
      obtain ⟨hls, hcs⟩ := hls.of_append
      obtain ⟨has, hbs⟩ := hls.of_append
      simp only [List.length_append] at hlength hcount
      have htext : text = unlines '\n' as ++ (unlines '\n' bs ++ (unlines '\n' cs ++ tail)) := by
        rw [hs.eq, unlines_append, unlines_append, List.append_assoc, List.append_assoc]
      rw [htext, editText_within has hbs hcs htail hk hm hstart (by omega), Except.ok.injEq] at hedit
      have hall : ∀ l ∈ as ++ new ++ cs, '\n' ∉ l :=
        List.forall_mem_append.mpr ⟨List.forall_mem_append.mpr ⟨fun l hl => (has l hl).1, hnew⟩,
          fun l hl => (hcs l hl).1⟩
      rw [← hedit, ← unlines_append, ← unlines_append, fileLines_unlines hall, List.length_append,
        List.length_append] at hlength
      omega
    · obtain ⟨as, bs, rfl, hk⟩ := @lines_before startLine ls (by omega)
      obtain ⟨has, hbs⟩ := hls.of_append
      rw [List.length_append] at hlength hthrough hbehind ⊢
      have htext : text = unlines '\n' as ++ (unlines '\n' bs ++ tail) := by
        rw [hs.eq, unlines_append, List.append_assoc]
      rw [htext, editText_through has hbs htail hk (by omega) hstart hbound, Except.ok.injEq] at hedit
      have hall : ∀ l ∈ as ++ new, '\n' ∉ l := List.forall_mem_append.mpr ⟨fun l hl => (has l hl).1, hnew⟩
      rw [← hedit, ← unlines_append, fileLines_unlines hall, List.length_append] at hlength
      exact .inr ⟨by omega, by omega, by omega⟩

end LineFiles
end LambdaMoo
