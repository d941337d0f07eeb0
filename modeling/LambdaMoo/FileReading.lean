import LambdaMoo.BinaryCodec
import LambdaMoo.FileHandles

/-! What is read from open files, by lines and by counts, and goes through the filter of the
handle's type. The files hold no NUL: `strlen` of what has been read is its length. -/
namespace LambdaMoo
namespace FileHandles

open Stdio

def fileIoBufferLength : Nat := 4096

def newline : UInt8 := charByte '\n'

/-- The static streams of the filters and of the functions that read. -/
structure FileStreams where
  clean : Stream
  binary : Stream
  readLine : Stream
  read : Stream

def FileStreams.initial : FileStreams := ⟨[], [], [], []⟩

def cleanByte (s : Stream) (c : UInt8) : Stream :=
  if isgraph c ∨ c = charByte ' ' ∨ c = charByte '\t' then s.addChar c else s

def rawBytesToClean (s : Stream) (buffer : List UInt8) : Str × Stream :=
  ((buffer.foldl cleanByte s).text, [])

def inFilter (st : FileStreams) (type : FileType) (data : List UInt8) (buflen : Int) : Str × FileStreams :=
  match type with
  | .binary =>
      let (text, binary) := rawBytesToBinary st.binary (data.take buflen.toNat)
      (text, { st with binary })
  | .text =>
      let (text, clean) := rawBytesToClean st.clean (data.take buflen.toNat)
      (text, { st with clean })

/-! Lines. -/

def readLineLoop (str : Stream) (usedStream : Bool) (totalLen : Int) (f : File UInt8) :
    Option (List UInt8) × Int × Stream × File UInt8 :=
  match _hread : fgets newline fileIoBufferLength f with
  | (none, f) => (none, totalLen, if usedStream then [] else str, f)
  | (some buffer, f) =>
      let totalLen := totalLen + buffer.length
      if buffer.length = fileIoBufferLength - 1 ∧ buffer.getLast? ≠ some newline then
        readLineLoop (str ++ buffer) true totalLen f
      else
        let buffer := if buffer.getLast? = some newline then buffer.dropLast else buffer
        (some (str ++ buffer), totalLen, [], f)
termination_by f.rest.length
decreasing_by exact (fgets_lt _hread).2.2

def fileReadLine (st : FileStreams) (f : File UInt8) : Option (List UInt8) × Int × FileStreams × File UInt8 :=
  let (rv, totalLen, readLine, f) := readLineLoop st.readLine false 0 f
  (rv, totalLen - 1, { st with readLine }, f)

namespace FileTable

def readable (ft : FileTable) (env : FileEnv) (fhandle : Var) : Except FilePackage (Nat × File UInt8) :=
  if !env.isWizard then .error (.error .ePerm)
  else
    match ft.fileHandleFileSafe fhandle with
    | none => .error (.raise .eInvarg "Invalid FHANDLE".toList fhandle)
    | some (i, f) =>
        if !(ft.handles i).mode.read then .error (.raise .eInvarg "File is open write-only".toList fhandle)
        else .ok (i, f)

def bfFileReadline (ft : FileTable) (st : FileStreams) (env : FileEnv) (fhandle : Var) :
    FilePackage × FileTable × FileStreams :=
  match ft.readable env fhandle with
  | .error r => (r, ft, st)
  | .ok (i, f) =>
      let (line, len, st, f) := fileReadLine st f
      let ft' := ft.fileHandleSetFile i f
      match line with
      | none => (fileRaiseErrno env.errno "readline".toList, ft', st)
      | some line =>
          let (text, st) := inFilter st (ft.handles i).type line len
          (.var (.str text), ft', st)

/-- The loop of `bf_file_readlines` that goes to the first line: whether it gets there. -/
def skipLines : Nat → FileStreams → File UInt8 → Bool × FileStreams × File UInt8
  | 0, st, f => (true, st, f)
  | count + 1, st, f =>
      match fileReadLine st f with
      | (none, _, st, f) => (false, st, f)
      | (some _, _, st, f) => skipLines count st f

def collectLines (type : FileType) : Nat → FileStreams → File UInt8 → List Str × FileStreams × File UInt8
  | 0, st, f => ([], st, f)
  | count + 1, st, f =>
      match fileReadLine st f with
      | (none, _, st, f) => ([], st, f)
      | (some line, len, st, f) =>
          let (text, st) := inFilter st type line len
          let (lines, st, f) := collectLines type count st f
          (text :: lines, st, f)

def bfFileReadlines (ft : FileTable) (st : FileStreams) (env : FileEnv) (fhandle : Var) (first last : Int) :
    FilePackage × FileTable × FileStreams :=
  if first < 1 ∨ last < first then (.error .eInvarg, ft, st)
  else
    match ft.readable env fhandle with
    | .error r => (r, ft, st)
    | .ok (i, f) =>
        let (found, st, f) := skipLines (first - 1).toNat st f.rewind
        -- an `int32` for what `ftell` gives
        let beginLoc := wrap32 f.pos
        if !found ∨ beginLoc = -1 then
          (fileRaiseErrno env.errno "read_line".toList, ft.fileHandleSetFile i f, st)
        else
          let (lines, st, f) := collectLines (ft.handles i).type (last - (first - 1)).toNat st f
          if beginLoc < 0 then (fileRaiseErrno env.errno "seeking".toList, ft.fileHandleSetFile i f, st)
          else (.var (.list (lines.map .str)), ft.fileHandleSetFile i (f.seek beginLoc.toNat), st)

end FileTable

/-! Counts. -/

/-- `bf_file_read` from `try_again` on: the text, or none where nothing has been read. What
an `int` cannot count any more is undefined, and is counted on here. -/
def readLoop (type : FileType) (readLength : Nat) (recordLength : Int) (len : Int) (st : FileStreams)
    (f : File UInt8) : Option Str × FileStreams × File UInt8 :=
  match _hread : fread readLength f with
  | (buffer, f') =>
      if buffer = [] ∧ len = 0 then (none, st, f')
      else
        let len' := len + buffer.length
        if _hmore : buffer ≠ [] ∧ len' < recordLength then
          let (text, st) := inFilter st type buffer buffer.length
          readLoop type readLength recordLength len' { st with read := st.read.addString text } f'
        else
          let (text, st) := inFilter st type buffer buffer.length
          (some (st.read.addString text).text, { st with read := [] }, f')
termination_by f.rest.length
decreasing_by exact fread_lt _hread _hmore.1

namespace FileTable

def bfFileRead (ft : FileTable) (st : FileStreams) (env : FileEnv) (fhandle : Var) (recordLength : Int) :
    FilePackage × FileTable × FileStreams :=
  let readLength := if (fileIoBufferLength : Int) < recordLength % 2 ^ 64 then fileIoBufferLength else recordLength.toNat
  match ft.readable env fhandle with
  | .error r => (r, ft, st)
  | .ok (i, f) =>
      let (text, st, f) := readLoop (ft.handles i).type readLength recordLength 0 st f
      let ft' := ft.fileHandleSetFile i f
      match text with
      | none => (fileRaiseErrno env.errno (ft.handles i).name, ft', st)
      | some text => (.var (.str text), ft', st)

end FileTable

/-! A history of reads. -/

/-- A call that reads, from whatever table and handle. -/
inductive ReadCall
  | readline (ft : FileTable) (env : FileEnv) (fhandle : Var)
  | readlines (ft : FileTable) (env : FileEnv) (fhandle : Var) (first last : Int)
  | read (ft : FileTable) (env : FileEnv) (fhandle : Var) (recordLength : Int)

def FileStreams.perform (st : FileStreams) : ReadCall → FileStreams
  | .readline ft env fhandle => (ft.bfFileReadline st env fhandle).2.2
  | .readlines ft env fhandle first last => (ft.bfFileReadlines st env fhandle first last).2.2
  | .read ft env fhandle recordLength => (ft.bfFileRead st env fhandle recordLength).2.2

def FileStreams.after (calls : List ReadCall) : FileStreams := calls.foldl FileStreams.perform .initial

/-! The filters. -/

variable {st : FileStreams} {type : FileType} {f : File UInt8} {l u t rest data done : List UInt8} {c : UInt8}
  {ft : FileTable} {env : FileEnv} {fhandle : Var} {i k n : Nat}

def filterByte : FileType → UInt8 → List UInt8
  | .binary, c => escaped c
  | .text, c => if inRun c then [c] else []

def filtered (type : FileType) (data : List UInt8) : Str := (data.flatMap (filterByte type)).map byteChar

theorem foldl_cleanByte (s : Stream) (data : List UInt8) :
    data.foldl cleanByte s = s ++ data.flatMap (filterByte .text) := by
  induction data generalizing s with
  | nil => simp
  | cons c data ih =>
      have hc : cleanByte s c = s ++ filterByte .text c := by
        have hkeep : inRun c = true ↔ isgraph c = true ∨ c = charByte ' ' ∨ c = charByte '\t' := by
          simp [inRun, or_assoc]
        unfold cleanByte
        dsimp only [filterByte]
        by_cases h : inRun c = true
        · rw [if_pos (hkeep.mp h), if_pos h, Stream.addChar]
        · rw [if_neg fun h' => h (hkeep.mpr h'), if_neg h, List.append_nil]
      rw [List.foldl_cons, ih, hc, List.flatMap_cons, List.append_assoc]

theorem nul_notMem_filtered (type : FileType) (data : List UInt8) : 0 ∉ data.flatMap (filterByte type) := by
  cases type with
  | binary => exact nul_notMem_escaped data
  | text =>
      rw [List.mem_flatMap]
      rintro ⟨c, -, hc⟩
      dsimp only [filterByte] at hc
      split at hc
      · next hkeep =>
          rw [← List.mem_singleton.mp hc] at hkeep
          exact absurd hkeep (by decide)
      · cases hc

theorem inFilter_of_empty (hclean : st.clean = []) (hbinary : st.binary = []) (type : FileType) (data : List UInt8)
    (len : Int) : inFilter st type data len = (filtered type (data.take len.toNat), st) := by
  obtain ⟨clean, binary, readLine, read⟩ := st
  obtain rfl : clean = [] := hclean
  obtain rfl : binary = [] := hbinary
  cases type with
  | binary =>
      unfold inFilter
      simp only [rawBytesToBinary_eq]
      rfl
  | text =>
      unfold inFilter rawBytesToClean
      simp only [foldl_cleanByte, List.nil_append, Stream.text_eq (nul_notMem_filtered .text _)]
      rfl

theorem inFilter_eq (type : FileType) (data : List UInt8) (len : Int) :
    inFilter .initial type data len = (filtered type (data.take len.toNat), .initial) :=
  inFilter_of_empty rfl rfl type data len

/-! Lines. -/

/-- The bytes that the functions pass on for the lines of a text. What is left behind the last
newline is taken for a line unless it fills its buffers, and loses its last byte. -/
def seen (t : List UInt8) : List (List UInt8) :=
  let (lines, tail) := splitLines newline t
  lines ++ if fileIoBufferLength - 1 ∣ tail.length then [] else [tail.dropLast]

theorem seen_line (hl : newline ∉ l) (rest : List UInt8) : seen (l ++ newline :: rest) = l :: seen rest := by
  unfold seen
  rw [splitLines_line hl]
  rfl

theorem seen_tail (hu : newline ∉ u) :
    seen u = if fileIoBufferLength - 1 ∣ u.length then [] else [u.dropLast] := by
  unfold seen
  rw [splitLines_tail hu]
  rfl

theorem advance_advance (f : File UInt8) (a b : Nat) (e e' : Bool) :
    (f.advance a e).advance b e' = f.advance (a + b) (e || e') := by
  simp only [File.advance, Nat.add_assoc, Bool.or_assoc]

theorem getLast?_ne_newline (hl : newline ∉ l) : l.getLast? ≠ some newline :=
  fun h => hl (List.mem_of_getLast? h)

theorem readLineLoop_more {str : Stream} {used : Bool} {total : Int} (hl : newline ∉ l)
    (hlen : l.length = fileIoBufferLength - 1) (hrest : f.rest = l ++ rest) :
    readLineLoop str used total f = readLineLoop (str ++ l) true (total + l.length) (f.advance l.length false) := by
  have htake : takeLine newline (fileIoBufferLength - 1) f.rest = (l, false) := by
    rw [hrest, ← hlen, takeLine_full hl]
  have hne : l ≠ [] := by
    rintro rfl
    cases hlen
  have hread := fgets_eq htake
  rw [if_neg hne] at hread
  rw [readLineLoop]
  split
  · next h =>
      rw [hread] at h
      cases h
  · next buffer f' h =>
      rw [hread] at h
      cases h
      rw [if_pos ⟨hlen, getLast?_ne_newline hl⟩]

theorem readLineLoop_line {str : Stream} {used : Bool} {total : Int} (hl : newline ∉ l)
    (hrest : f.rest = l ++ newline :: rest) :
    readLineLoop str used total f = (some (str ++ l), total + l.length + 1, [], f.advance (l.length + 1) false) := by
  induction hlen : l.length using Nat.strong_induction_on generalizing l str used total f with
  | _ len ih =>
      subst hlen
      by_cases hshort : l.length < fileIoBufferLength - 1
      · have htake : takeLine newline (fileIoBufferLength - 1) f.rest = (l ++ [newline], false) := by
          rw [hrest, takeLine_line hl hshort]
        have hread := fgets_eq htake
        rw [if_neg (by simp)] at hread
        rw [readLineLoop]
        split
        · next h =>
            rw [hread] at h
            cases h
        · next buffer f' h =>
            rw [hread] at h
            cases h
            rw [if_neg fun h => h.2 List.getLast?_concat, if_pos List.getLast?_concat]
            simp [Int.add_assoc]
      · -- the first buffer, and what comes behind it
        obtain ⟨a, b, rfl, ha⟩ : ∃ a b, l = a ++ b ∧ a.length = fileIoBufferLength - 1 :=
          ⟨l.take (fileIoBufferLength - 1), l.drop (fileIoBufferLength - 1), (List.take_append_drop _ _).symm,
            List.length_take_of_le (Nat.not_lt.mp hshort)⟩
        rw [List.mem_append, not_or] at hl
        rw [List.append_assoc] at hrest
        have hpos : 0 < a.length := by
          rw [ha]
          decide
        have hrest' : (f.advance a.length false).rest = b ++ newline :: rest := by
          rw [File.advance_rest, hrest, List.drop_left]
        rw [readLineLoop_more hl.1 ha hrest,
          ih b.length (by rw [List.length_append]; omega) hl.2 hrest' rfl, advance_advance]
        simp only [List.length_append, List.append_assoc, Nat.add_assoc, Bool.or_self, Prod.mk.injEq, true_and,
          and_true]
        push_cast
        omega

theorem readLineLoop_tail {str : Stream} {used : Bool} {total : Int} (hused : used = false → str = [])
    (hu : newline ∉ u) (hrest : f.rest = u) :
    readLineLoop str used total f = (if fileIoBufferLength - 1 ∣ u.length then none else some (str ++ u),
      total + u.length, [], f.advance u.length true) := by
  induction hlen : u.length using Nat.strong_induction_on generalizing u str used total f with
  | _ len ih =>
      subst hlen
      by_cases hshort : u.length < fileIoBufferLength - 1
      · have htake : takeLine newline (fileIoBufferLength - 1) f.rest = (u, true) := by
          rw [hrest, takeLine_tail hu hshort]
        have hread := fgets_eq htake
        by_cases hempty : u = []
        · subst hempty
          rw [if_pos rfl] at hread
          rw [readLineLoop]
          split
          · next f' h =>
              rw [hread] at h
              cases h
              have hstr : (if used = true then [] else str) = [] := by
                cases used with
                | true => rfl
                | false => exact hused rfl
              rw [hstr]
              simp
          · next buffer f' h =>
              rw [hread] at h
              cases h
        · rw [if_neg hempty] at hread
          have hpos := List.length_pos_iff.mpr hempty
          have hnot : ¬ fileIoBufferLength - 1 ∣ u.length := Nat.not_dvd_of_pos_of_lt hpos hshort
          rw [readLineLoop]
          split
          · next h =>
              rw [hread] at h
              cases h
          · next buffer f' h =>
              rw [hread] at h
              cases h
              rw [if_neg fun h => absurd h.1 (Nat.ne_of_lt hshort), if_neg (getLast?_ne_newline hu), if_neg hnot]
      · obtain ⟨a, b, rfl, ha⟩ : ∃ a b, u = a ++ b ∧ a.length = fileIoBufferLength - 1 :=
          ⟨u.take (fileIoBufferLength - 1), u.drop (fileIoBufferLength - 1), (List.take_append_drop _ _).symm,
            List.length_take_of_le (Nat.not_lt.mp hshort)⟩
        rw [List.mem_append, not_or] at hu
        have hpos : 0 < a.length := by
          rw [ha]
          decide
        have hrest' : (f.advance a.length false).rest = b := by
          rw [File.advance_rest, hrest, List.drop_left]
        have hdvd : fileIoBufferLength - 1 ∣ (a ++ b).length ↔ fileIoBufferLength - 1 ∣ b.length := by
          rw [List.length_append, ha]
          exact Nat.dvd_add_right (Nat.dvd_refl _)
        have hsum : total + a.length + b.length = total + (a ++ b).length := by
          rw [List.length_append]
          push_cast
          omega
        rw [readLineLoop_more hu.1 ha hrest,
          ih b.length (by rw [List.length_append]; omega) (fun h => by cases h) hu.2 hrest' rfl, advance_advance,
          hsum, if_congr hdvd.symm rfl rfl, List.append_assoc, List.length_append, Bool.false_or]

def lineSpan (t : List UInt8) : Nat := min t.length ((t.takeWhile (· ≠ newline)).length + 1)

theorem lineSpan_line (hl : newline ∉ l) (rest : List UInt8) : lineSpan (l ++ newline :: rest) = l.length + 1 := by
  have hkeep : ∀ c ∈ l, decide (c ≠ newline) = true := fun c hc => decide_eq_true (ne_of_mem_of_not_mem hc hl)
  have htake : (l ++ newline :: rest).takeWhile (· ≠ newline) = l := by
    rw [List.takeWhile_append_of_pos hkeep]
    simp
  rw [lineSpan, htake, List.length_append, List.length_cons]
  omega

theorem lineSpan_tail (hu : newline ∉ u) : lineSpan u = u.length := by
  have hkeep : ∀ c ∈ u, decide (c ≠ newline) = true := fun c hc => decide_eq_true (ne_of_mem_of_not_mem hc hu)
  rw [lineSpan, List.takeWhile_eq_self_iff.mpr hkeep]
  omega

def lineStart : Nat → List UInt8 → Nat
  | 0, _ => 0
  | n + 1, t => lineSpan t + lineStart n (t.drop (lineSpan t))

theorem fileReadLine_step (f : File UInt8) : ∃ f', f'.bytes = f.bytes ∧ f'.pos = f.pos + lineSpan f.rest ∧
    match seen f.rest with
    | [] => ∃ len, fileReadLine .initial f = (none, len, .initial, f') ∧ seen f'.rest = []
    | x :: xs => ∃ line len, fileReadLine .initial f = (some line, len, .initial, f') ∧
        line.take len.toNat = x ∧ seen f'.rest = xs := by
  obtain ⟨l, rest, hl, hrest⟩ | hu := line_cases newline f.rest
  · have hafter : (f.advance (l.length + 1) false).rest = rest := by
      rw [File.advance_rest, hrest, ← List.singleton_append, ← List.append_assoc, List.drop_left' (by simp)]
    refine ⟨f.advance (l.length + 1) false, rfl, by rw [hrest, lineSpan_line hl]; rfl, ?_⟩
    rw [hafter, hrest, seen_line hl]
    refine ⟨l, l.length, ?_, ?_, rfl⟩
    · rw [fileReadLine, readLineLoop_line hl hrest]
      simp [FileStreams.initial]
    · rw [Int.toNat_natCast, List.take_length]
  · have hafter : (f.advance f.rest.length true).rest = [] := by
      rw [File.advance_rest, List.drop_length]
    have hnone : seen [] = [] := rfl
    refine ⟨f.advance f.rest.length true, rfl, by rw [lineSpan_tail hu]; rfl, ?_⟩
    rw [hafter, hnone, seen_tail hu]
    have hread := @readLineLoop_tail f f.rest [] false 0 (fun _ => rfl) hu rfl
    by_cases hdvd : fileIoBufferLength - 1 ∣ f.rest.length
    · rw [if_pos hdvd] at hread ⊢
      refine ⟨0 + f.rest.length - 1, ?_, rfl⟩
      rw [fileReadLine]
      simp only [FileStreams.initial, hread]
    · rw [if_neg hdvd] at hread ⊢
      refine ⟨f.rest, f.rest.length - 1, ?_, ?_, rfl⟩
      · rw [fileReadLine]
        simp only [FileStreams.initial, hread, List.nil_append, Int.zero_add]
      · rw [List.dropLast_eq_take]
        congr 1
        omega

theorem skipLines_eq (n : Nat) (f : File UInt8) : ∃ f', f'.bytes = f.bytes ∧
    FileTable.skipLines n .initial f = (decide (n ≤ (seen f.rest).length), .initial, f') ∧
    (n ≤ (seen f.rest).length → seen f'.rest = (seen f.rest).drop n ∧ f'.pos = f.pos + lineStart n f.rest) := by
  induction n generalizing f with
  | zero => exact ⟨f, rfl, by simp [FileTable.skipLines], fun _ => ⟨rfl, rfl⟩⟩
  | succ n ih =>
      obtain ⟨f', hbytes, hpos, hstep⟩ := fileReadLine_step f
      rw [FileTable.skipLines]
      cases hseen : seen f.rest with
      | nil =>
          rw [hseen] at hstep
          obtain ⟨len, hread, -⟩ := hstep
          rw [hread]
          exact ⟨f', hbytes, by simp, fun h => by simp at h⟩
      | cons x xs =>
          rw [hseen] at hstep
          obtain ⟨line, len, hread, -, hrest⟩ := hstep
          obtain ⟨f'', hbytes', hskip, hdrop⟩ := ih f'
          rw [hrest] at hskip hdrop
          rw [hread]
          have hleft : f'.rest = f.rest.drop (lineSpan f.rest) := by
            rw [File.rest, hbytes, hpos, ← List.drop_drop]
            rfl
          refine ⟨f'', hbytes'.trans hbytes, ?_, fun h => ?_⟩
          · simp only [hskip, List.length_cons, Nat.add_le_add_iff_right]
          · obtain ⟨hseen', hpos'⟩ := hdrop (by simpa using h)
            refine ⟨hseen', ?_⟩
            rw [hpos', hpos, lineStart, hleft, Nat.add_assoc]

theorem collectLines_eq (type : FileType) (n : Nat) (f : File UInt8) : ∃ f', f'.bytes = f.bytes ∧
    FileTable.collectLines type n .initial f = (((seen f.rest).take n).map (filtered type), .initial, f') := by
  induction n generalizing f with
  | zero => exact ⟨f, rfl, rfl⟩
  | succ n ih =>
      obtain ⟨f', hbytes, -, hstep⟩ := fileReadLine_step f
      rw [FileTable.collectLines]
      cases hseen : seen f.rest with
      | nil =>
          rw [hseen] at hstep
          obtain ⟨len, hread, -⟩ := hstep
          rw [hread]
          exact ⟨f', hbytes, rfl⟩
      | cons x xs =>
          rw [hseen] at hstep
          obtain ⟨line, len, hread, htake, hrest⟩ := hstep
          obtain ⟨f'', hbytes', hcollect⟩ := ih f'
          rw [hrest] at hcollect
          rw [hread]
          refine ⟨f'', hbytes'.trans hbytes, ?_⟩
          simp only [inFilter_eq, htake, hcollect, List.take_succ_cons, List.map_cons]

end FileHandles
end LambdaMoo
