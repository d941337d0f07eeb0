import Mathlib.Data.List.Basic

/-! Files that are read as the C library reads them: by lines into a buffer of some size, or
by counts. The indicator for the end of the file is set by a read that wants more than there is. -/
namespace Stdio

/-- An open file, what it holds and how far it has been read. -/
structure File (α : Type*) where
  bytes : List α
  pos : Nat
  eof : Bool

variable {α : Type*}

namespace File

def opened (bytes : List α) : File α := ⟨bytes, 0, false⟩

def rest (f : File α) : List α := f.bytes.drop f.pos

def rewind (f : File α) : File α := { f with pos := 0, eof := false }

def seek (f : File α) (pos : Nat) : File α := { f with pos, eof := false }

end File

/-- The characters that go into a buffer with some room: up to a newline, which is one of
them. Also whether the end of the file is met. -/
def takeLine [DecidableEq α] (newline : α) : Nat → List α → List α × Bool
  | 0, _ => ([], false)
  | _ + 1, [] => ([], true)
  | room + 1, c :: cs =>
      if c = newline then ([c], false)
      else
        let (line, eof) := takeLine newline room cs
        (c :: line, eof)

namespace File

def advance (f : File α) (count : Nat) (eof : Bool) : File α :=
  { f with pos := f.pos + count, eof := f.eof || eof }

end File

def fgets [DecidableEq α] (newline : α) (size : Nat) (f : File α) : Option (List α) × File α :=
  let (line, eof) := takeLine newline (size - 1) f.rest
  (if line = [] then none else some line, f.advance line.length eof)

def fread (count : Nat) (f : File α) : List α × File α :=
  let bytes := f.rest.take count
  (bytes, f.advance bytes.length (f.rest.length < count))

/-- The lines of a text that end with a newline, without it, and what follows the last of these. -/
def splitLines [DecidableEq α] (newline : α) : List α → List (List α) × List α
  | [] => ([], [])
  | c :: cs =>
      match splitLines newline cs with
      | (lines, tail) =>
          if c = newline then ([] :: lines, tail)
          else
            match lines with
            | [] => ([], c :: tail)
            | line :: lines => ((c :: line) :: lines, tail)

@[simp] theorem File.advance_rest (f : File α) (count : Nat) (eof : Bool) :
    (f.advance count eof).rest = f.rest.drop count := by
  rw [File.rest, File.rest, List.drop_drop]
  rfl

@[simp] theorem File.advance_bytes (f : File α) (count : Nat) (eof : Bool) :
    (f.advance count eof).bytes = f.bytes := rfl

theorem fread_lt {f f' : File α} {count : Nat} {bytes : List α} (h : fread count f = (bytes, f'))
    (hne : bytes ≠ []) : f'.rest.length < f.rest.length := by
  rw [fread, Prod.mk.injEq] at h
  obtain ⟨rfl, rfl⟩ := h
  have hpos := List.length_pos_iff.mpr hne
  rw [List.length_take] at hpos
  rw [File.advance_rest, List.length_drop, List.length_take]
  omega

def unlines (newline : α) (ls : List (List α)) : List α := ls.flatMap fun line => line ++ [newline]

@[simp] theorem unlines_nil (newline : α) : unlines newline [] = [] := rfl

theorem unlines_cons (newline : α) (line : List α) (ls : List (List α)) :
    unlines newline (line :: ls) = line ++ newline :: unlines newline ls := by
  rw [unlines, List.flatMap_cons, List.append_assoc]
  rfl

theorem unlines_append (newline : α) (ls ls' : List (List α)) :
    unlines newline (ls ++ ls') = unlines newline ls ++ unlines newline ls' :=
  List.flatMap_append

variable [DecidableEq α] {newline : α} {f f' : File α} {line text rest : List α} {room size count : Nat} {eof : Bool}

/-! What is read into the buffer. -/

theorem takeLine_prefix (newline : α) (room : Nat) (text : List α) : (takeLine newline room text).1 <+: text := by
  fun_induction takeLine newline room text with
  | case1 text => exact List.nil_prefix
  | case2 room => exact List.nil_prefix
  | case3 room cs => exact ⟨cs, rfl⟩
  | case4 room c cs hc line eof h ih =>
      rw [h] at ih
      exact List.prefix_cons_inj c |>.mpr ih

theorem takeLine_line (hline : newline ∉ line) (hroom : line.length < room) (rest : List α) :
    takeLine newline room (line ++ newline :: rest) = (line ++ [newline], false) := by
  induction line generalizing room with
  | nil =>
      obtain ⟨room, rfl⟩ := Nat.exists_eq_succ_of_ne_zero (Nat.ne_of_gt hroom)
      simp [takeLine]
  | cons c line ih =>
      obtain ⟨hc, hline⟩ := not_or.mp (mt List.mem_cons.mpr hline)
      obtain ⟨room, rfl⟩ := Nat.exists_eq_succ_of_ne_zero (Nat.ne_of_gt (Nat.lt_of_le_of_lt (Nat.zero_le _) hroom))
      rw [List.cons_append, takeLine, if_neg (Ne.symm hc), ih hline (Nat.lt_of_succ_lt_succ hroom)]
      rfl

theorem takeLine_full (hline : newline ∉ line) (rest : List α) :
    takeLine newline line.length (line ++ rest) = (line, false) := by
  induction line with
  | nil => rw [List.length_nil, takeLine]
  | cons c line ih =>
      obtain ⟨hc, hline⟩ := not_or.mp (mt List.mem_cons.mpr hline)
      rw [List.cons_append, List.length_cons, takeLine, if_neg (Ne.symm hc), ih hline]

theorem takeLine_tail (hline : newline ∉ line) (hroom : line.length < room) :
    takeLine newline room line = (line, true) := by
  induction line generalizing room with
  | nil =>
      obtain ⟨room, rfl⟩ := Nat.exists_eq_succ_of_ne_zero (Nat.ne_of_gt hroom)
      rfl
  | cons c line ih =>
      obtain ⟨hc, hline⟩ := not_or.mp (mt List.mem_cons.mpr hline)
      obtain ⟨room, rfl⟩ := Nat.exists_eq_succ_of_ne_zero (Nat.ne_of_gt (Nat.lt_of_le_of_lt (Nat.zero_le _) hroom))
      rw [takeLine, if_neg (Ne.symm hc), ih hline (Nat.lt_of_succ_lt_succ hroom)]

theorem fgets_eq (h : takeLine newline (size - 1) f.rest = (line, eof)) :
    fgets newline size f = (if line = [] then none else some line, f.advance line.length eof) := by
  rw [fgets, h]

theorem fgets_lt (h : fgets newline size f = (some line, f')) :
    line ≠ [] ∧ f'.rest = f.rest.drop line.length ∧ f'.rest.length < f.rest.length := by
  have hprefix := takeLine_prefix newline (size - 1) f.rest
  rcases ht : takeLine newline (size - 1) f.rest with ⟨taken, eof⟩
  rw [ht] at hprefix
  rw [fgets_eq ht, Prod.mk.injEq] at h
  obtain ⟨hline, rfl⟩ := h
  split at hline
  · cases hline
  · next hne =>
      obtain rfl := Option.some.inj hline
      have hle : taken.length ≤ f.rest.length := hprefix.length_le
      have hpos := List.length_pos_iff.mpr hne
      rw [File.advance_rest, List.length_drop]
      exact ⟨hne, rfl, by omega⟩

/-! The lines of a text. -/

theorem splitLines_line (hline : newline ∉ line) (rest : List α) :
    splitLines newline (line ++ newline :: rest) =
      (line :: (splitLines newline rest).1, (splitLines newline rest).2) := by
  induction line with
  | nil =>
      rw [List.nil_append, splitLines]
      simp
  | cons c line ih =>
      obtain ⟨hc, hline⟩ := not_or.mp (mt List.mem_cons.mpr hline)
      rw [List.cons_append, splitLines, ih hline]
      simp [Ne.symm hc]

theorem splitLines_tail (hline : newline ∉ line) : splitLines newline line = ([], line) := by
  induction line with
  | nil => rfl
  | cons c line ih =>
      obtain ⟨hc, hline⟩ := not_or.mp (mt List.mem_cons.mpr hline)
      rw [splitLines, ih hline]
      simp [Ne.symm hc]

theorem splitLines_unlines {ls : List (List α)} (hls : ∀ line ∈ ls, newline ∉ line) (text : List α) :
    splitLines newline (unlines newline ls ++ text) = (ls ++ (splitLines newline text).1, (splitLines newline text).2) := by
  induction ls with
  | nil => rfl
  | cons line ls ih =>
      obtain ⟨hline, hls⟩ := List.forall_mem_cons.mp hls
      rw [unlines_cons, List.append_assoc, List.cons_append, splitLines_line hline, ih hls]
      rfl

theorem splitLines_spec (newline : α) (text : List α) :
    ∃ ls tail, splitLines newline text = (ls, tail) ∧ text = unlines newline ls ++ tail ∧
      (∀ line ∈ ls, newline ∉ line) ∧ newline ∉ tail := by
  induction text with
  | nil => exact ⟨[], [], rfl, rfl, by simp, by simp⟩
  | cons c cs ih =>
      obtain ⟨ls, tail, hsplit, rfl, hls, htail⟩ := ih
      by_cases hc : c = newline
      · subst hc
        refine ⟨[] :: ls, tail, ?_, ?_, by simpa using hls, htail⟩
        · rw [splitLines, hsplit]
          exact if_pos rfl
        · rw [unlines_cons]
          rfl
      · rw [splitLines, hsplit]
        dsimp only
        rw [if_neg hc]
        cases ls with
        | nil => exact ⟨[], c :: tail, rfl, rfl, by simp, by simp [Ne.symm hc, htail]⟩
        | cons line ls =>
            obtain ⟨hline, hls⟩ := List.forall_mem_cons.mp hls
            refine ⟨(c :: line) :: ls, tail, rfl, ?_, ?_, htail⟩
            · rw [unlines_cons, unlines_cons]
              rfl
            · exact List.forall_mem_cons.mpr ⟨by simp [Ne.symm hc, hline], hls⟩

/-! One read by lines. -/

theorem fgets_line (hline : newline ∉ line) (hroom : line.length < size - 1)
    (hrest : f.rest = line ++ newline :: rest) :
    ∃ f', fgets newline size f = (some (line ++ [newline]), f') ∧ f'.rest = rest ∧ f'.eof = f.eof := by
  have htake := takeLine_line hline hroom rest
  rw [← hrest] at htake
  refine ⟨_, (fgets_eq htake).trans (by rw [if_neg (by simp)]), ?_, ?_⟩
  · rw [File.advance_rest, hrest, List.length_append]
    simp
  · simp [File.advance]

/-- What follows the last newline is read if there is anything, and the end is met. -/
theorem fgets_tail (hline : newline ∉ f.rest) (hroom : f.rest.length < size - 1) :
    ∃ f', fgets newline size f = (if f.rest = [] then none else some f.rest, f') ∧ f'.rest = [] ∧ f'.eof = true := by
  refine ⟨_, fgets_eq (takeLine_tail hline hroom), ?_, ?_⟩
  · rw [File.advance_rest, List.drop_length]
  · simp [File.advance]

theorem line_cases (newline : α) (text : List α) :
    (∃ line rest, newline ∉ line ∧ text = line ++ newline :: rest) ∨ newline ∉ text := by
  by_cases h : newline ∈ text
  · obtain ⟨line, rest, rfl, hline⟩ := List.eq_append_cons_of_mem h
    exact .inl ⟨line, rest, hline, rfl⟩
  · exact .inr h

end Stdio
