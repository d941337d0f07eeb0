import LambdaMoo.FileReads

/-! Reading by lines, against the lines of the file. Only what is left behind the last newline
is not read as it is. -/
namespace LambdaMoo
namespace FileHandles

open Stdio

variable {type : FileType} {f f' : File UInt8} {x y t tail : List UInt8} {ls : List (List UInt8)} {ft : FileTable}
  {env : FileEnv} {fhandle : Var} {i k n : Nat} {errno : Option Str}

def successive : Nat → FileTable → FileStreams → FileEnv → Var → List FilePackage × FileTable × FileStreams
  | 0, ft, st, _, _ => ([], ft, st)
  | k + 1, ft, st, env, fhandle =>
      let (r, ft, st) := ft.bfFileReadline st env fhandle
      let (rs, ft, st) := successive k ft st env fhandle
      (r :: rs, ft, st)

/-- Calls that read by lines: some of `file_readline`, or one of `file_readlines`. -/
inductive LineCall
  | readline (count : Nat)
  | readlines (first last : Int)

def LineCall.results (ft : FileTable) (st : FileStreams) (env : FileEnv) (fhandle : Var) : LineCall → List FilePackage
  | .readline count => (successive count ft st env fhandle).1
  | .readlines first last => [(ft.bfFileReadlines st env fhandle first last).1]

/-- What they work on: what is left of the file, or all of it. -/
def LineCall.text (f : File UInt8) : LineCall → List UInt8
  | .readline _ => f.rest
  | .readlines _ _ => f.bytes

def lineResult (type : FileType) (line : List UInt8) : Var := .str (filtered type line)

def LineCall.expected (type : FileType) (errno : Option Str) (ls : List (List UInt8)) : LineCall → List FilePackage
  | .readline count =>
      (ls.take count).map (fun line => .var (lineResult type line)) ++
        List.replicate (count - ls.length) (fileRaiseErrno errno "readline".toList)
  | .readlines first last =>
      if first < 1 ∨ last < first then [.error .eInvarg]
      else if (first - 1).toNat ≤ ls.length then
        [.var (.list (((ls.drop (first - 1).toNat).take (last - (first - 1)).toNat).map (lineResult type)))]
      else [fileRaiseErrno errno "read_line".toList]

/-! What the calls return is what is seen. -/

theorem readable_setFile (h : ft.readable env fhandle = .ok (i, f)) (f' : File UInt8) :
    (ft.fileHandleSetFile i f').readable env fhandle = .ok (i, f') := by
  unfold FileTable.readable at h
  split at h
  · cases h
  next hwizard =>
  split at h
  · cases h
  next i' f'' hsafe =>
  split at h
  · cases h
  next hread =>
  cases h
  have hsafe' : (ft.fileHandleSetFile i f').fileHandleFileSafe fhandle = some (i, f') := by
    cases fhandle with
    | int j =>
        unfold FileTable.fileHandleFileSafe at hsafe ⊢
        dsimp only at hsafe ⊢
        split at hsafe
        · cases hsafe
        next hvalid =>
        obtain ⟨g, hg, hpair⟩ := Option.map_eq_some_iff.mp hsafe
        cases hpair
        have hvalid' : (ft.fileHandleSetFile j.toNat f').fileHandleValid (.int j) = ft.fileHandleValid (.int j) := by
          simp [FileTable.fileHandleValid, FileTable.fileHandleSetFile, FileTable.set]
        rw [hvalid', if_neg hvalid]
        simp [FileTable.fileHandleSetFile, FileTable.set]
    | _ => cases hsafe
  have hmode : ((ft.fileHandleSetFile i f').handles i).mode = (ft.handles i).mode := by
    simp [FileTable.fileHandleSetFile, FileTable.set]
  unfold FileTable.readable
  rw [if_neg hwizard, hsafe']
  dsimp only
  rw [hmode, if_neg hread]

theorem setFile_type (ft : FileTable) (i : Nat) (f : File UInt8) :
    ((ft.fileHandleSetFile i f).handles i).type = (ft.handles i).type := by
  simp [FileTable.fileHandleSetFile, FileTable.set]

theorem bfFileReadline_eq (h : ft.readable env fhandle = .ok (i, f)) : ∃ f', seen f'.rest = (seen f.rest).tail ∧
    ft.bfFileReadline .initial env fhandle =
      (match seen f.rest with
        | [] => fileRaiseErrno env.errno "readline".toList
        | x :: _ => .var (lineResult (ft.handles i).type x), ft.fileHandleSetFile i f', .initial) := by
  obtain ⟨f', -, -, hstep⟩ := fileReadLine_step f
  unfold FileTable.bfFileReadline
  rw [h]
  cases hseen : seen f.rest with
  | nil =>
      rw [hseen] at hstep
      obtain ⟨len, hread, hrest⟩ := hstep
      refine ⟨f', hrest, ?_⟩
      simp only [hread]
  | cons x xs =>
      rw [hseen] at hstep
      obtain ⟨line, len, hread, htake, hrest⟩ := hstep
      refine ⟨f', hrest, ?_⟩
      simp only [hread, inFilter_eq, htake]
      rfl

theorem successive_eq (h : ft.readable env fhandle = .ok (i, f)) (k : Nat) :
    (successive k ft .initial env fhandle).1 =
      (LineCall.readline k).expected (ft.handles i).type env.errno (seen f.rest) := by
  induction k generalizing ft f with
  | zero => simp [successive, LineCall.expected]
  | succ k ih =>
      obtain ⟨f', hrest, hdo⟩ := bfFileReadline_eq h
      have hnext := ih (readable_setFile h f')
      rw [hrest, setFile_type] at hnext
      rw [successive, hdo]
      simp only [hnext]
      cases seen f.rest with
      | nil => simp [LineCall.expected, List.replicate_succ]
      | cons x xs => simp [LineCall.expected]

def leavesAt (ft : FileTable) (i n : Nat) : Prop := (ft.handles i).file.map File.pos = some n

theorem bfFileReadlines_found (h : ft.readable env fhandle = .ok (i, f)) {first last : Int}
    (hrange : ¬ (first < 1 ∨ last < first)) (hfound : (first - 1).toNat ≤ (seen f.bytes).length) :
    (wrap32 (lineStart (first - 1).toNat f.bytes) < 0 →
        ∃ text, (ft.bfFileReadlines .initial env fhandle first last).1 = fileRaiseErrno env.errno text) ∧
      (0 ≤ wrap32 (lineStart (first - 1).toNat f.bytes) →
        [(ft.bfFileReadlines .initial env fhandle first last).1] =
            (LineCall.readlines first last).expected (ft.handles i).type env.errno (seen f.bytes) ∧
          leavesAt (ft.bfFileReadlines .initial env fhandle first last).2.1 i
            (wrap32 (lineStart (first - 1).toNat f.bytes)).toNat) := by
  have hall : f.rewind.rest = f.bytes := rfl
  obtain ⟨f', -, hskip, hleft⟩ := skipLines_eq (first - 1).toNat f.rewind
  obtain ⟨f'', -, hcollect⟩ := collectLines_eq (ft.handles i).type (last - (first - 1)).toNat f'
  rw [hall] at hskip hleft
  obtain ⟨hseen, hpos⟩ := hleft hfound
  have hstart : f'.pos = lineStart (first - 1).toNat f.bytes := by
    rw [hpos]
    exact Nat.zero_add _
  rw [hseen] at hcollect
  simp only [FileTable.bfFileReadlines, LineCall.expected, if_neg hrange, h, hskip, hfound, decide_true, Bool.not_true,
    Bool.false_eq_true, false_or, if_true, hstart, hcollect]
  generalize wrap32 (lineStart (first - 1).toNat f.bytes) = beginLoc
  constructor
  · intro hneg
    by_cases hminus : beginLoc = -1
    · rw [if_pos hminus]
      exact ⟨_, rfl⟩
    · rw [if_neg hminus, if_pos hneg]
      exact ⟨_, rfl⟩
  · intro hpos
    rw [if_neg (by omega), if_neg (by omega), List.map_map]
    refine ⟨rfl, ?_⟩
    simp [leavesAt, FileTable.fileHandleSetFile, FileTable.set, File.seek]

theorem bfFileReadlines_notFound (h : ft.readable env fhandle = .ok (i, f)) {first last : Int}
    (hrange : ¬ (first < 1 ∨ last < first)) (hlost : ¬ (first - 1).toNat ≤ (seen f.bytes).length) :
    (ft.bfFileReadlines .initial env fhandle first last).1 = fileRaiseErrno env.errno "read_line".toList := by
  have hall : f.rewind.rest = f.bytes := rfl
  obtain ⟨f', -, hskip, -⟩ := skipLines_eq (first - 1).toNat f.rewind
  rw [hall] at hskip
  simp only [FileTable.bfFileReadlines, if_neg hrange, h, hskip, hlost, decide_false, Bool.not_false, true_or, if_true]

/-! What is left behind the last newline. -/

def completeLines (t : List UInt8) : List (List UInt8) := (splitLines newline t).1

def unfinished (t : List UInt8) : List UInt8 := (splitLines newline t).2

def allLines (t : List UInt8) : List (List UInt8) :=
  completeLines t ++ if unfinished t = [] then [] else [unfinished t]

def LineCall.behind (n : Nat) : LineCall → Prop
  | .readline _ => False
  | .readlines first last => 1 ≤ first ∧ first ≤ last ∧ n + 1 < first

def LineCall.goesBack (ft : FileTable) (st : FileStreams) (env : FileEnv) (fhandle : Var) (i : Nat) (f : File UInt8) :
    LineCall → Prop
  | .readline _ => True
  | .readlines first last => 1 ≤ first → first ≤ last →
      leavesAt (ft.bfFileReadlines st env fhandle first last).2.1 i (lineStart (first - 1).toNat f.bytes)

/-- The calls return the lines of the file, and for what follows these that or the end of the file. A range
that begins behind all of it has no lines. -/
structure LineCall.Exact (call : LineCall) (ft : FileTable) (st : FileStreams) (env : FileEnv) (fhandle : Var) (i : Nat)
    (f : File UInt8) : Prop where
  lines : ¬ call.behind (completeLines (call.text f)).length →
    call.results ft st env fhandle =
        call.expected (ft.handles i).type env.errno (completeLines (call.text f)) ∨
      call.results ft st env fhandle = call.expected (ft.handles i).type env.errno (allLines (call.text f))
  back : ¬ call.behind (completeLines (call.text f)).length → call.goesBack ft st env fhandle i f
  none : call.behind (completeLines (call.text f)).length →
    ∀ l, call.results ft st env fhandle = [.var (.list l)] → l = []

def LineCall.beginsLow (t : List UInt8) : LineCall → Prop
  | .readline _ => True
  | .readlines first last => 1 ≤ first → first ≤ last → first ≤ (completeLines t).length + 1 →
      (lineStart (first - 1).toNat t : Int) ≤ intMax

def LineCall.reaches (n : Nat) : LineCall → Prop
  | .readline count => n < count
  | .readlines first last => 1 ≤ first ∧ first ≤ n + 1 ∧ n + 1 ≤ last

/-- What follows the lines fills its buffers, or ends with a byte that the filter drops. -/
def harmless (type : FileType) (tail : List UInt8) : Prop :=
  4095 ∣ tail.length ∨ type = .text ∧ ∀ c ∈ tail.getLast?, inRun c = false

theorem expected_reaches (type : FileType) (errno : Option Str) {call : LineCall} (h : call.reaches ls.length) :
    (call.expected type errno (ls ++ [x]) = call.expected type errno (ls ++ [y]) ↔ filtered type x = filtered type y) ∧
      call.expected type errno (ls ++ [x]) ≠ call.expected type errno ls := by
  cases call with
  | readline count =>
      obtain ⟨more, rfl⟩ := Nat.exists_eq_add_of_lt h
      have htake : ∀ z, (ls ++ [z]).take (ls.length + more + 1) = ls ++ [z] := fun z =>
        List.take_of_length_le (by simp)
      have hcount : ls.length + more + 1 - ls.length = more + 1 := by omega
      simp only [LineCall.expected, htake, List.map_append, List.length_append, List.length_singleton,
        List.append_assoc, List.take_of_length_le (show ls.length ≤ ls.length + more + 1 by omega), hcount,
        List.replicate_succ]
      constructor
      · simp [lineResult]
      · intro h
        have hhead := List.append_cancel_left h
        cases errno <;> cases hhead
  | readlines first last =>
      obtain ⟨hfirst, hle, hlast⟩ := h
      have hdrop : ∀ z, ((ls ++ [z]).drop (first - 1).toNat).take (last - (first - 1)).toNat =
          ls.drop (first - 1).toNat ++ [z] := fun z => by
        rw [List.drop_append_of_le_length (by omega)]
        exact List.take_of_length_le (by rw [List.length_append, List.length_drop, List.length_singleton]; omega)
      have hdrop' : (ls.drop (first - 1).toNat).take (last - (first - 1)).toNat = ls.drop (first - 1).toNat :=
        List.take_of_length_le (by rw [List.length_drop]; omega)
      have hrange : ¬ (first < 1 ∨ last < first) := by omega
      have hfound : ∀ z : List UInt8, (first - 1).toNat ≤ (ls ++ [z]).length := fun z => by
        rw [List.length_append]
        omega
      simp only [LineCall.expected, if_neg hrange, if_pos (hfound _), if_pos (show (first - 1).toNat ≤ ls.length by omega),
        hdrop, hdrop']
      constructor
      · simp [lineResult]
      · simp

theorem expected_not_reaches (type : FileType) (errno : Option Str) {call : LineCall} (h : ¬ call.reaches ls.length)
    (x y : List UInt8) : call.expected type errno (ls ++ [x]) = call.expected type errno (ls ++ [y]) := by
  cases call with
  | readline count =>
      have hle : count ≤ ls.length := Nat.not_lt.mp h
      simp only [LineCall.expected, List.take_append_of_le_length hle, List.length_append, List.length_singleton]
  | readlines first last =>
      by_cases hrange : first < 1 ∨ last < first
      · simp only [LineCall.expected, if_pos hrange]
      have hout : ls.length + 1 < first ∨ last < ls.length + 1 := by
        unfold LineCall.reaches at h
        omega
      simp only [LineCall.expected, if_neg hrange, List.length_append, List.length_singleton]
      have hsame : ∀ z, ((ls ++ [z]).drop (first - 1).toNat).take (last - (first - 1)).toNat =
          (ls.drop (first - 1).toNat).take (last - (first - 1)).toNat := fun z => by
        obtain hbehind | hbefore := hout
        · rw [List.drop_of_length_le (by rw [List.length_append, List.length_singleton]; omega),
            List.drop_of_length_le (by omega)]
        · rw [List.drop_append_of_le_length (by omega)]
          exact List.take_append_of_le_length (by rw [List.length_drop]; omega)
      rw [hsame, hsame]

theorem escaped_ne_nil (c : UInt8) : escaped c ≠ [] := by
  intro h
  have hread := escaped_read c
  rw [h] at hread
  cases hread

theorem filtered_singleton_eq_nil (type : FileType) (c : UInt8) :
    filtered type [c] = [] ↔ type = .text ∧ inRun c = false := by
  rw [filtered, List.map_eq_nil_iff, List.flatMap_cons, List.flatMap_nil, List.append_nil]
  cases type with
  | binary => exact iff_of_false (escaped_ne_nil c) fun h => by cases h.1
  | text => cases h : inRun c <;> simp [filterByte, h]

theorem filtered_dropLast (hne : tail ≠ []) : filtered type tail.dropLast = filtered type tail ↔
    type = .text ∧ ∀ c ∈ tail.getLast?, inRun c = false := by
  obtain ⟨front, c, rfl⟩ := List.eq_nil_or_concat' tail |>.resolve_left hne
  rw [List.dropLast_concat, filtered_append, List.self_eq_append_right, filtered_singleton_eq_nil, List.getLast?_concat]
  simp

theorem seen_eq (t : List UInt8) : seen t = completeLines t ++
    if 4095 ∣ (unfinished t).length then [] else [(unfinished t).dropLast] := rfl

theorem seen_exact_iff (type : FileType) (errno : Option Str) (t : List UInt8) (call : LineCall) :
    (call.expected type errno (seen t) = call.expected type errno (completeLines t) ∨
        call.expected type errno (seen t) = call.expected type errno (allLines t)) ↔
      harmless type (unfinished t) ∨ ¬ call.reaches (completeLines t).length := by
  rw [allLines, seen_eq]
  set tail := unfinished t
  set ls := completeLines t
  by_cases hdvd : 4095 ∣ tail.length
  · rw [if_pos hdvd, List.append_nil]
    exact iff_of_true (.inl rfl) (.inl (.inl hdvd))
  have hne : tail ≠ [] := by
    intro h
    rw [h] at hdvd
    exact hdvd (Nat.dvd_zero _)
  rw [if_neg hdvd, if_neg hne]
  by_cases hreach : call.reaches ls.length
  · obtain ⟨hsame, hmore⟩ := @expected_reaches tail.dropLast tail ls type errno call hreach
    rw [or_iff_right hmore, hsame, filtered_dropLast hne, harmless, or_iff_right hdvd, or_iff_left (not_not.mpr hreach)]
  · exact iff_of_true (.inr (expected_not_reaches _ _ hreach _ _)) (.inr hreach)

theorem readline_exact_iff (h : ft.readable env fhandle = .ok (i, f)) (count : Nat) :
    (LineCall.readline count).Exact ft .initial env fhandle i f ↔
      harmless (ft.handles i).type (unfinished f.rest) ∨
        ¬ (LineCall.readline count).reaches (completeLines f.rest).length := by
  have hresults : (LineCall.readline count).results ft .initial env fhandle =
      (LineCall.readline count).expected (ft.handles i).type env.errno (seen f.rest) := successive_eq h count
  rw [← seen_exact_iff _ env.errno, ← hresults]
  exact ⟨fun hexact => hexact.lines id, fun hlines => ⟨fun _ => hlines, fun _ => trivial, fun hno => hno.elim⟩⟩

theorem seen_length_ge (t : List UInt8) : (completeLines t).length ≤ (seen t).length := by
  rw [seen_eq, List.length_append]
  exact Nat.le_add_right _ _

theorem seen_length_le (t : List UInt8) : (seen t).length ≤ (completeLines t).length + 1 := by
  rw [seen_eq, List.length_append]
  split <;> simp

theorem readlines_exact_iff (h : ft.readable env fhandle = .ok (i, f)) {first last : Int} (hfirst : 1 ≤ first)
    (hlast : first ≤ last) (hin : first ≤ (completeLines f.bytes).length + 1) :
    (LineCall.readlines first last).Exact ft .initial env fhandle i f ↔
      (harmless (ft.handles i).type (unfinished f.bytes) ∨
        ¬ (LineCall.readlines first last).reaches (completeLines f.bytes).length) ∧
      (lineStart (first - 1).toNat f.bytes : Int) ≤ intMax := by
  have hrange : ¬ (first < 1 ∨ last < first) := by omega
  have hseen := seen_length_ge f.bytes
  have hbehind : ¬ (LineCall.readlines first last).behind (completeLines f.bytes).length := fun hno => by
    have := hno.2.2
    omega
  have hfound := @bfFileReadlines_found f ft env fhandle i h first last hrange (by omega)
  -- what is expected is a list
  have hvar : ∀ ls : List (List UInt8), (completeLines f.bytes).length ≤ ls.length →
      ∃ l, (LineCall.readlines first last).expected (ft.handles i).type env.errno ls = [.var (.list l)] := by
    intro ls hls
    rw [LineCall.expected, if_neg hrange, if_pos (by omega)]
    exact ⟨_, rfl⟩
  by_cases hlow : (lineStart (first - 1).toNat f.bytes : Int) ≤ intMax
  · have hwrap : wrap32 (lineStart (first - 1).toNat f.bytes) = lineStart (first - 1).toNat f.bytes :=
      wrap32_of_fits (by omega) hlow
    rw [hwrap, Int.toNat_natCast] at hfound
    obtain ⟨hresults, hback⟩ := hfound.2 (by omega)
    rw [← seen_exact_iff _ env.errno, ← hresults, and_iff_left hlow]
    exact ⟨fun hexact => hexact.lines hbehind,
      fun hlines => ⟨fun _ => hlines, fun _ _ _ => hback, fun hno => absurd hno hbehind⟩⟩
  · refine iff_of_false (fun hexact => ?_) fun hboth => hlow hboth.2
    by_cases hneg : wrap32 (lineStart (first - 1).toNat f.bytes) < 0
    · obtain ⟨text, hraised⟩ := hfound.1 hneg
      have hresults : (LineCall.readlines first last).results ft .initial env fhandle =
          [fileRaiseErrno env.errno text] := congrArg (fun r => [r]) hraised
      have hno : ∀ l, [fileRaiseErrno env.errno text] ≠ [FilePackage.var (.list l)] := by
        intro l
        cases env.errno <;> intro hl <;> cases hl
      obtain hlines | hlines := hexact.lines hbehind
      · obtain ⟨l, hl⟩ := hvar _ (Nat.le_refl _)
        exact hno l (hresults.symm.trans (hlines.trans hl))
      · obtain ⟨l, hl⟩ := hvar (allLines f.bytes) (by rw [allLines, List.length_append]; exact Nat.le_add_right _ _)
        exact hno l (hresults.symm.trans (hlines.trans hl))
    · have hback : leavesAt _ i _ := hexact.back hbehind hfirst hlast
      have hplace := Option.some.inj ((hfound.2 (by omega)).2.symm.trans hback)
      have hle := wrap32_le (lineStart (first - 1).toNat f.bytes)
      omega

theorem readlines_exact_of_out (h : ft.readable env fhandle = .ok (i, f)) {first last : Int}
    (hout : first < 1 ∨ last < first ∨ (completeLines f.bytes).length + 1 < first) :
    (LineCall.readlines first last).Exact ft .initial env fhandle i f := by
  by_cases hrange : first < 1 ∨ last < first
  · refine ⟨fun _ => .inl ?_, fun _ hfirst hlast => by omega, fun hno => by have := hno.2.1; have := hno.1; omega⟩
    simp only [LineCall.results, FileTable.bfFileReadlines, LineCall.expected, if_pos hrange]
  have hbehind : (LineCall.readlines first last).behind (completeLines f.bytes).length := ⟨by omega, by omega, by omega⟩
  refine ⟨fun hno => absurd hbehind hno, fun hno => absurd hbehind hno, fun _ l hl => ?_⟩
  have hraised : ∀ text, (ft.bfFileReadlines .initial env fhandle first last).1 ≠ fileRaiseErrno env.errno text := by
    intro text hraised
    have hl' : [fileRaiseErrno env.errno text] = [.var (.list l)] := (congrArg (fun r => [r]) hraised).symm.trans hl
    revert hl'
    cases env.errno <;> intro hl' <;> cases hl'
  by_cases hfound : (first - 1).toNat ≤ (seen f.bytes).length
  · have hto := bfFileReadlines_found h hrange hfound
    by_cases hneg : wrap32 (lineStart (first - 1).toNat f.bytes) < 0
    · obtain ⟨text, htext⟩ := hto.1 hneg
      exact absurd htext (hraised text)
    · have hle := seen_length_le f.bytes
      have hdrop : (seen f.bytes).drop (first - 1).toNat = [] := List.drop_of_length_le (by omega)
      have hexpected := hl.symm.trans (hto.2 (by omega)).1
      rw [LineCall.expected, if_neg hrange, if_pos hfound, hdrop, List.take_nil] at hexpected
      cases hexpected
      rfl
  · exact absurd (bfFileReadlines_notFound h hrange hfound) (hraised _)

theorem exact_iff (h : ft.readable env fhandle = .ok (i, f)) (call : LineCall) :
    call.Exact ft .initial env fhandle i f ↔
      (harmless (ft.handles i).type (unfinished (call.text f)) ∨
        ¬ call.reaches (completeLines (call.text f)).length) ∧ call.beginsLow (call.text f) := by
  cases call with
  | readline count => exact (readline_exact_iff h count).trans (and_iff_left trivial).symm
  | readlines first last =>
      by_cases hin : 1 ≤ first ∧ first ≤ last ∧ first ≤ (completeLines f.bytes).length + 1
      · rw [readlines_exact_iff h hin.1 hin.2.1 hin.2.2]
        exact and_congr_right fun _ => ⟨fun hlow _ _ _ => hlow, fun hlow => hlow hin.1 hin.2.1 hin.2.2⟩
      · refine iff_of_true (readlines_exact_of_out h (by omega)) ⟨.inr fun hreach => ?_, fun h₁ h₂ h₃ => ?_⟩
        · obtain ⟨h₁, h₂, h₃⟩ := hreach
          exact hin ⟨h₁, by omega, h₂⟩
        · exact absurd ⟨h₁, h₂, h₃⟩ hin

/-- After any calls that read, the lines of a file are read as they are, but for one that does
not end with a newline: this loses a byte unless it fills its buffers or the byte is dropped anyway. A
range has to begin below 2 GiB. -/
theorem lineCall_exact_iff (calls : List ReadCall) (h : ft.readable env fhandle = .ok (i, f)) (call : LineCall) :
    call.Exact ft (.after calls) env fhandle i f ↔
      (harmless (ft.handles i).type (unfinished (call.text f)) ∨
        ¬ call.reaches (completeLines (call.text f)).length) ∧ call.beginsLow (call.text f) := by
  rw [after_eq]
  exact exact_iff h call

theorem lineCall_exact_second : (LineCall.readlines 2 3).Exact (oneFile .text [97, 10, 98, 10, 99, 10, 100])
      (.after [.readline (oneFile .text [97, 10]) FileTable.anyFile (.int 0)]) FileTable.anyFile (.int 0) 0
      (.opened [97, 10, 98, 10, 99, 10, 100]) :=
  (lineCall_exact_iff _ (oneFile_readable .text [97, 10, 98, 10, 99, 10, 100]) (.readlines 2 3)).mpr
    ⟨.inr (by rintro ⟨-, -, hlast⟩; revert hlast; decide), fun _ _ _ => by decide +kernel⟩

/-- A line without its newline loses its last letter. -/
theorem readline_unfinished : ¬ (LineCall.readline 1).Exact (oneFile .text [97, 98]) .initial FileTable.anyFile (.int 0) 0
    (.opened [97, 98]) := by
  rw [exact_iff (oneFile_readable .text [97, 98])]
  rintro ⟨(hdvd | ⟨-, hdropped⟩) | hreach, -⟩
  · exact absurd hdvd (by decide)
  · exact absurd (hdropped 98 (by decide)) (by decide)
  · exact hreach (show 0 < 1 by decide)

end FileHandles
end LambdaMoo
