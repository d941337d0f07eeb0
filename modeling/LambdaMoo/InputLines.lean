import LambdaMoo.Streams

/-! Lines of text that come in from a connection. Where one read ends and the next begins makes no
difference to them. -/
namespace LambdaMoo

structure InputHandle where
  input : Stream
  lastInputWasCR : Bool
  binary : Bool
  deriving DecidableEq

/-- What `read` comes back with: some bytes, none at the end of the file, or an error, after which it
may be tried again. -/
inductive ReadResult
  | bytes (buffer : List UInt8)
  | failed (again : Bool)

namespace InputHandle

/-- One round of the loop, with the line that is received, if there is one. -/
def round (h : InputHandle) (c : UInt8) : List Str × InputHandle :=
  let s : Stream := if c = 0x08 ∨ c = 0x7f then h.input.dropLast else h.input
  let wasCR : Bool := c = 13
  if isgraph c ∨ c = 32 ∨ c = 9 then ([], { h with input := s.addChar c, lastInputWasCR := wasCR })
  else if c = 13 ∨ (c = 10 ∧ h.lastInputWasCR = false) then
    ([s.text], { h with input := [], lastInputWasCR := wasCR })
  else ([], { h with input := s, lastInputWasCR := wasCR })

def rounds : List UInt8 → InputHandle → List Str × InputHandle
  | [], h => ([], h)
  | c :: buffer, h => ((h.round c).1 ++ (rounds buffer (h.round c).2).1, (rounds buffer (h.round c).2).2)

def pullInput (h : InputHandle) : ReadResult → Bool × List Str × InputHandle
  | .failed again => (again, [], h)
  | .bytes [] => (false, [], h)
  | .bytes buffer =>
      if h.binary then
        let s := h.input.addString (rawBytesToBinary [] buffer).1
        (true, [s.text], { h with input := [], lastInputWasCR := false })
      else
        (true, rounds buffer h)

def pullInputs : List ReadResult → InputHandle → List Str × InputHandle
  | [], h => ([], h)
  | read :: reads, h =>
      let (_, lines, h) := h.pullInput read
      (lines ++ (pullInputs reads h).1, (pullInputs reads h).2)

end InputHandle

def newInput : InputHandle where
  input := []
  lastInputWasCR := false
  binary := false

def ReadResult.received : ReadResult → List UInt8
  | bytes buffer => buffer
  | failed _ => []

/-! The lines of a stream of bytes as a whole. -/

def withPrevious (bytes : List UInt8) : List (Option UInt8 × UInt8) := (none :: bytes.map some).zip bytes

/-- A line ends at a CR, and at an LF that does not follow a CR. -/
def endsLine (c : Option UInt8 × UInt8) : Bool := c.2 = 13 || (c.2 = 10 && c.1 ≠ some 13)

/-- What a byte makes of a line that is being typed: a backspace or DEL takes away what has come last,
and only what is printed, spaces and tabs stay. -/
def typing (line : List UInt8) (c : UInt8) : List UInt8 :=
  if c = 0x08 ∨ c = 0x7f then line.dropLast
  else if isgraph c ∨ c = 32 ∨ c = 9 then line ++ [c] else line

def typedLine (line : List (Option UInt8 × UInt8)) : List UInt8 := (line.map Prod.snd).foldl typing []

def typedLines (bytes : List UInt8) : List (List UInt8) :=
  ((withPrevious bytes).splitOnP endsLine).map typedLine

theorem endsLine_iff {prev : Option UInt8} {c : UInt8} :
    endsLine (prev, c) = true ↔ c = 13 ∨ (c = 10 ∧ prev ≠ some 13) := by
  unfold endsLine
  rw [Bool.or_eq_true, Bool.and_eq_true, decide_eq_true_eq, decide_eq_true_eq, decide_eq_true_eq]

namespace InputHandle

variable {h : InputHandle} {c : UInt8} {prev : Option UInt8}

theorem round_ends (hprev : h.lastInputWasCR = true ↔ prev = some 13) (hc : endsLine (prev, c) = true) :
    h.round c = ([h.input.text], { h with input := [], lastInputWasCR := c = 13 }) := by
  rw [endsLine_iff] at hc
  have hback : ¬ (c = 0x08 ∨ c = 0x7f) := by
    obtain rfl | ⟨rfl, -⟩ := hc <;> decide
  have hgraph : ¬ (isgraph c = true ∨ c = 32 ∨ c = 9) := by
    obtain rfl | ⟨rfl, -⟩ := hc <;> decide
  have hends : c = 13 ∨ (c = 10 ∧ h.lastInputWasCR = false) := by
    apply hc.imp_right
    rintro ⟨hlf, hne⟩
    exact ⟨hlf, Bool.eq_false_iff.mpr (mt hprev.mp hne)⟩
  unfold round
  rw [if_neg hback, if_neg hgraph, if_pos hends]

theorem round_goes (hprev : h.lastInputWasCR = true ↔ prev = some 13) (hc : endsLine (prev, c) = false) :
    h.round c = ([], { h with input := typing h.input c, lastInputWasCR := c = 13 }) := by
  have hends : ¬ (c = 13 ∨ (c = 10 ∧ h.lastInputWasCR = false)) := by
    intro h'
    have hnot : ¬ endsLine (prev, c) = true := by
      rw [hc]
      decide
    apply hnot
    rw [endsLine_iff]
    apply h'.imp_right
    rintro ⟨hlf, hcr⟩
    exact ⟨hlf, mt hprev.mpr (Bool.eq_false_iff.mp hcr)⟩
  unfold round typing
  dsimp only
  rw [if_neg hends]
  by_cases hback : c = 0x08 ∨ c = 0x7f
  · have hgraph : ¬ (isgraph c = true ∨ c = 32 ∨ c = 9) := by
      obtain rfl | rfl := hback <;> decide
    rw [if_pos hback, if_pos hback, if_neg hgraph]
  · rw [if_neg hback, if_neg hback]
    split
    · rfl
    · rfl

/-- The loop over a buffer, from the bytes of the line that have come before it. -/
theorem rounds_split {acc : List (Option UInt8 × UInt8)} {buffer : List UInt8}
    (hprev : h.lastInputWasCR = true ↔ prev = some 13)
    (hinput : h.input = typedLine acc.reverse) :
    (h.rounds buffer).1 =
        ((List.splitOnPPrepend endsLine ((prev :: buffer.map some).zip buffer) acc).map typedLine).dropLast.map Stream.text ∧
      ((List.splitOnPPrepend endsLine ((prev :: buffer.map some).zip buffer) acc).map typedLine).getLast? =
        some (h.rounds buffer).2.input := by
  induction buffer generalizing h prev acc with
  | nil => exact ⟨rfl, congrArg some hinput.symm⟩
  | cons c buffer ih =>
      rw [rounds, List.map_cons, List.zip_cons_cons, List.splitOnPPrepend_cons_eq_if]
      have hprev' : decide (c = 13) = true ↔ some c = some 13 := by
        rw [decide_eq_true_eq, Option.some.injEq]
      cases hc : endsLine (prev, c) with
      | true =>
          rw [round_ends hprev hc, if_pos rfl, List.splitOnP_eq_splitOnPPrepend, List.map_cons, ← hinput]
          obtain ⟨hlines, hlast⟩ := @ih { h with input := [], lastInputWasCR := c = 13 } (some c) [] hprev' rfl
          have hne : (List.splitOnPPrepend endsLine ((some c :: buffer.map some).zip buffer) []).map typedLine ≠ [] := by
            rw [ne_eq, List.map_eq_nil_iff]
            apply List.splitOnPPrepend_ne_nil
          constructor
          · rw [List.dropLast_cons_of_ne_nil hne, List.map_cons, ← hlines]
            rfl
          · rw [List.getLast?_cons, hlast]
            rfl
      | false =>
          rw [round_goes hprev hc, if_neg Bool.false_ne_true]
          apply ih hprev'
          rw [typedLine, List.reverse_cons, List.map_append, List.foldl_append, ← typedLine, ← hinput]
          rfl

theorem rounds_append {a b : List UInt8} :
    h.rounds (a ++ b) = ((h.rounds a).1 ++ ((h.rounds a).2.rounds b).1, ((h.rounds a).2.rounds b).2) := by
  induction a generalizing h with
  | nil => rfl
  | cons c a ih =>
      rw [List.cons_append, rounds, rounds, ih]
      dsimp only
      rw [List.append_assoc]

theorem round_binary : (h.round c).2.binary = h.binary := by
  unfold round
  dsimp only
  split
  · rfl
  · split
    · rfl
    · rfl

theorem rounds_binary {buffer : List UInt8} : (h.rounds buffer).2.binary = h.binary := by
  induction buffer generalizing h with
  | nil => rfl
  | cons c buffer ih =>
      calc
        (rounds buffer (h.round c).2).2.binary = (h.round c).2.binary := ih
        _ = h.binary := round_binary

theorem pullInputs_eq_rounds {reads : List ReadResult} (hbinary : h.binary = false) :
    h.pullInputs reads = h.rounds (reads.flatMap ReadResult.received) := by
  induction reads generalizing h with
  | nil => rfl
  | cons read reads ih =>
      have hread : (h.pullInput read).2 = h.rounds read.received := by
        cases read with
        | failed again => rfl
        | bytes buffer =>
            cases buffer with
            | nil => rfl
            | cons c buffer =>
                have hnot : ¬ h.binary = true := by
                  rw [hbinary]
                  decide
                unfold pullInput
                dsimp only
                rw [if_neg hnot]
                rfl
      rw [pullInputs, List.flatMap_cons, rounds_append, ← hread, ← ih (by rw [hread, rounds_binary, hbinary])]

end InputHandle

/-- On a connection that is not binary, the lines that the server receives are those of all the bytes
that come, however the reads cut them, and the last line stays in the stream. -/
theorem pullInputs_lines (reads : List ReadResult) :
    (newInput.pullInputs reads).1 = (typedLines (reads.flatMap ReadResult.received)).dropLast.map Stream.text ∧
      (typedLines (reads.flatMap ReadResult.received)).getLast? = some (newInput.pullInputs reads).2.input := by
  rw [InputHandle.pullInputs_eq_rounds rfl]
  have hstart : newInput.lastInputWasCR = true ↔ (none : Option UInt8) = some 13 := by decide
  have hempty : newInput.input = typedLine [].reverse := rfl
  exact InputHandle.rounds_split hstart hempty

example : newInput.pullInputs [.bytes [104, 105, 120, 8, 13], .failed true, .bytes [10, 9, 33]] =
    (["hi".toList], ⟨[9, 33], false, false⟩) := by
  decide

end LambdaMoo
