import LambdaMoo.Literals
import LambdaMoo.Storage

/-! The buffers that streams are kept in. A buffer is a block of cells, none where nothing has
been written; each access is checked against the block, and sizes are computed as the server
does it. -/
namespace LambdaMoo

abbrev Block := List (Option UInt8)

def Block.store (block : Block) (i : Int) (bytes : List UInt8) : Except Crash Block :=
  if 0 ≤ i ∧ i + bytes.length ≤ block.length then
    .ok (block.take i.toNat ++ bytes.map some ++ block.drop (i.toNat + bytes.length))
  else .error .outside

structure Buffer where
  buffer : Block
  buflen : Int
  current : Int

inductive Arg
  | string (string : Str)
  | int (n : Int)
  | float (bits : UInt64)

inductive Add
  | char (c : UInt8)
  | string (string : Str)

/-- A call. -/
inductive StreamCall
  | addChar (c : UInt8)
  | addString (string : Str)
  | printf (format : Str) (args : List Arg)
  | reset
  | contents

def newStream (size : Int) : Except Crash Buffer := do
  return { buffer := List.replicate (← mymalloc size) none, buflen := size, current := 0 }

namespace Buffer

def grow (b : Buffer) (newlen : Int) : Except Crash Buffer := do
  let newbuf : Block := List.replicate (← mymalloc newlen) none
  if 0 ≤ b.current ∧ b.current ≤ b.buffer.length ∧ b.current ≤ newbuf.length then
    return { b with
      buffer := b.buffer.take b.current.toNat ++ newbuf.drop b.current.toNat
      buflen := newlen }
  else .error .outside

/-- The test before a write whose last index is to be smaller than the length. -/
def growFor (b : Buffer) (last newlen : Int) : Except Crash Buffer :=
  if b.buflen ≤ last then b.grow newlen else .ok b

def addChar (b : Buffer) (c : UInt8) : Except Crash Buffer := do
  let b ← b.growFor (wrap32 (b.current + 1)) (wrap32 (b.buflen * 2))
  let buffer ← Block.store b.buffer b.current [c]
  return { b with buffer, current := wrap32 (b.current + 1) }

def fitting (buflen last : Int) : Int :=
  let newlen := wrap32 (buflen * 2)
  if newlen ≤ last then wrap32 (last + 1) else newlen

def addString (b : Buffer) (string : Str) : Except Crash Buffer := do
  let last := wrap32 (b.current + intLength string)
  if intMax / 2 ≤ wrap32 (last + 1) then .error .panic
  else
    let b ← b.growFor last (fitting b.buflen last)
    let buffer ← Block.store b.buffer b.current (string.map charByte ++ [0])
    return { b with buffer, current := last }

def contents (b : Buffer) : Except Crash (Block × Buffer) := do
  let buffer ← Block.store b.buffer b.current [0]
  return (buffer, { b with buffer })

def reset (b : Buffer) : Except Crash (Block × Buffer) := do
  let buffer ← Block.store b.buffer b.current [0]
  return (buffer, { b with buffer, current := 0 })

def add (b : Buffer) : Add → Except Crash Buffer
  | .char c => b.addChar c
  | .string string => b.addString string

def addAll : List Add → Buffer → Except Crash Buffer
  | [], b => .ok b
  | a :: adds, b => do addAll adds (← b.add a)

end Buffer

variable (fmt : Dbio.FloatFormat)

def paddedAdds (pad : Char) (width : Int) (string : Str) : List Add :=
  let left := wrap32 (width - string.length)
  (if width ≠ 0 ∧ 0 < left then List.replicate left.toNat (.char (charByte pad)) else [])
    ++ [.string string]

def directiveString : Char → Arg → Option Str
  | 's', .string string => some string
  | 'x', .int n => some (itoa n 16)
  | 'o', .int n => some (itoa n 8)
  | 'd', .int n => some (itoa n 10)
  | 'g', .float bits => some (printFloat fmt bits)
  | _, _ => none

def takesArgument (c : Char) : Bool := c ∈ ['s', 'x', 'o', 'd', 'g']

/-- The loops of `stream_printf`: what is added, and whether the format or the arguments are
read where there are none. In a directive there is a padding and a width. -/
def printfAdds : Option (Char × Int) → Str → List Arg → List Add × Option Crash
  | none, [], _ => ([], none)
  -- the NUL ends the directive, and the next character is the one behind it
  | some (pad, width), [], _ => (paddedAdds pad width [], some .outside)
  | none, c :: format, args =>
      if c = '%' then printfAdds (some (' ', 0)) format args
      else
        let (adds, crash) := printfAdds none format args
        (.char (charByte c) :: adds, crash)
  | some (pad, width), c :: format, args =>
      if takesArgument c then
        match args with
        | [] => ([], some .wild)
        | arg :: args =>
            match directiveString fmt c arg with
            | none => ([], some .wild)
            | some string =>
                let (adds, crash) := printfAdds none format args
                (paddedAdds pad width string ++ adds, crash)
      else if c = '0' ∧ width = 0 then printfAdds (some ('0', 0)) format args
      else if '0' ≤ c ∧ c ≤ '9' then
        printfAdds (some (pad, wrap32 (width * 10 + (c.toNat - '0'.toNat : Nat)))) format args
      else ([], none)

namespace Buffer

def printf (b : Buffer) (format : Str) (args : List Arg) : Except Crash Buffer := do
  let (adds, crash) := printfAdds fmt none format args
  let b ← addAll adds b
  match crash with
  | none => return b
  | some crash => .error crash

def call (b : Buffer) : StreamCall → Except Crash (Option Block × Buffer)
  | .addChar c => do return (none, ← b.addChar c)
  | .addString string => do return (none, ← b.addString string)
  | .printf format args => do return (none, ← b.printf fmt format args)
  | .reset => do
      let (block, b) ← b.reset
      return (some block, b)
  | .contents => do
      let (block, b) ← b.contents
      return (some block, b)

end Buffer

/-! What the calls are for. -/

def Add.text : Add → List UInt8
  | .char c => [c]
  | .string str => str.map charByte

/-- A call on what has been added since the last reset, with what it has to return. -/
def Stream.call (s : Stream) : StreamCall → Option (List UInt8) × Stream
  | .addChar c => (none, s.addChar c)
  | .addString string => (none, s.addString string)
  | .printf format args => (none, s ++ ((printfAdds fmt none format args).1.map Add.text).flatten)
  | .reset => (some s, [])
  | .contents => (some s, s)

/-- A block that holds a text and the NUL behind it. -/
def Block.Terminated (block : Block) (text : List UInt8) : Prop :=
  ∃ rest, block = text.map some ++ some 0 :: rest

def tooLong : Nat := 2 ^ 30 - 2

/-- Calls from a state on write only inside of the buffer, and what they return is what has
been added since the last reset. They go on to the end, if it does not get too long. -/
def ExactFrom : List StreamCall → Buffer → Stream → Prop
  | [], _, _ => True
  | c :: calls, b, s =>
      match b.call fmt c with
      | .ok (returned, b') =>
          Option.Rel Block.Terminated returned (s.call fmt c).1 ∧ ExactFrom calls b' (s.call fmt c).2
      | .error .panic => tooLong ≤ (s.call fmt c).2.length
      | .error _ => False

/-! The condition. -/

/-- A buffer whose length is 0 and that is full. Its block is a cell long. -/
def Buffer.Stuck (b : Buffer) : Prop := b.buflen = 0 ∧ b.current = 1

def Add.Fits (b : Buffer) : Add → Prop
  | .char _ => ¬ b.Stuck
  | .string str => b.current + str.length + 1 ≤ intMax

def AddsFit : List Add → Buffer → Prop
  | [], _ => True
  | a :: adds, b => a.Fits b ∧ ∀ b', b.add a = .ok b' → AddsFit adds b'

/-- A call finds a buffer that is not stuck, a string does not exceed what an `int` counts, and a
format fits its arguments. -/
def StreamCall.Fits (b : Buffer) : StreamCall → Prop
  | .addChar c => (Add.char c).Fits b
  | .addString string => (Add.string string).Fits b
  | .printf format args =>
      AddsFit (printfAdds fmt none format args).1 b ∧ (printfAdds fmt none format args).2 = none
  | .reset => ¬ b.Stuck
  | .contents => ¬ b.Stuck

def CallsFit : List StreamCall → Buffer → Prop
  | [], _ => True
  | c :: calls, b => c.Fits fmt b ∧ ∀ returned b', b.call fmt c = .ok (returned, b') → CallsFit calls b'

/-! Blocks. -/

theorem store_spec {block : Block} {s bytes : List UInt8} (h : block.take s.length = s.map some)
    (hroom : s.length + bytes.length ≤ block.length) :
    Block.store block s.length bytes =
      .ok ((s ++ bytes).map some ++ block.drop (s.length + bytes.length)) := by
  unfold Block.store
  rw [if_pos ⟨by omega, by omega⟩, Int.toNat_natCast, h, List.map_append]

/-! What a buffer holds. -/

/-- A buffer whose block has the size that it is said to have, and begins with the text. -/
structure Begins (b : Buffer) (s : Stream) : Prop where
  current : b.current = s.length
  text : b.buffer.take s.length = s.map some
  size : b.buffer.length = max b.buflen.toNat 1
  low : 0 ≤ b.buflen
  high : b.buflen ≤ intMax

/-- Between the calls there is room for the NUL, too, unless the length is 0. -/
structure HoldsText (b : Buffer) (s : Stream) : Prop extends Begins b s where
  room : s.length < b.buflen ∨ b.buflen = 0 ∧ s.length ≤ 1

namespace Begins

variable {b : Buffer} {s : Stream}

theorem length_le (h : Begins b s) : s.length ≤ b.buffer.length := by
  have := congrArg List.length h.text
  rw [List.length_take, List.length_map] at this
  omega

theorem grow (h : Begins b s) {newlen : Int} (hlow : 0 ≤ newlen) (hhigh : newlen ≤ intMax)
    (hroom : s.length ≤ max newlen.toNat 1) :
    ∃ b', b.grow newlen = .ok b' ∧ b'.buflen = newlen ∧ Begins b' s := by
  have hle := h.length_le
  refine ⟨{ b with
    buffer := b.buffer.take b.current.toNat ++
      (List.replicate (max newlen.toNat 1) (none : Option UInt8)).drop b.current.toNat
    buflen := newlen }, ?_, rfl, ⟨h.current, ?_, ?_, hlow, hhigh⟩⟩
  · unfold Buffer.grow
    rw [mymalloc_ok hlow (Int.le_trans hhigh (by decide))]
    simp only [ok_bind_crash, List.length_replicate]
    rw [if_pos ⟨by rw [h.current]; omega, by rw [h.current]; omega, by rw [h.current]; omega⟩]
    rfl
  · simp only [h.current, Int.toNat_natCast, h.text]
    rw [List.take_left' (by simp)]
  · simp only [h.current, Int.toNat_natCast, h.text]
    simp
    omega

theorem grow_negative {newlen : Int} (hlow : -2 ^ 31 ≤ newlen) (hneg : newlen < 0) :
    b.grow newlen = .error .panic := by
  unfold Buffer.grow
  rw [mymalloc_negative hlow hneg]
  rfl

theorem append (h : Begins b s) {bytes behind : List UInt8} {current : Int}
    (hroom : s.length + (bytes ++ behind).length ≤ b.buffer.length)
    (hcurrent : current = s.length + bytes.length) :
    ∃ buffer, Block.store b.buffer b.current (bytes ++ behind) = .ok buffer ∧
      Begins { b with buffer, current } (s ++ bytes) := by
  refine ⟨_, by rw [h.current]; exact store_spec h.text hroom, ?_, ?_, ?_, h.low, h.high⟩
  · simp only [hcurrent, List.length_append]
    push_cast
    rfl
  · simp only
    rw [← List.append_assoc s, List.map_append, List.append_assoc,
      List.take_left' (List.length_map ..)]
  · have hsize := h.size
    simp only [List.length_append, List.length_map, List.length_drop] at hroom ⊢
    omega

end Begins

namespace HoldsText

variable {b : Buffer} {s : Stream}

theorem newStream {size : Int} (h : 0 ≤ size) (h' : size ≤ intMax) :
    ∃ b, newStream size = .ok b ∧ b.buflen = size ∧ HoldsText b [] := by
  refine ⟨⟨List.replicate (max size.toNat 1) none, size, 0⟩, ?_, rfl, ⟨⟨rfl, rfl, ?_, h, h'⟩, ?_⟩⟩
  · unfold LambdaMoo.newStream
    rw [mymalloc_ok h (Int.le_trans h' (by decide))]
    rfl
  · exact List.length_replicate ..
  · simp only [List.length_nil]
    omega

theorem not_full (h : HoldsText b s) (hstuck : ¬ b.Stuck) : s.length + 1 ≤ b.buffer.length := by
  have hroom := h.room
  have hsize := h.size
  have hcurrent := h.current
  unfold Buffer.Stuck at hstuck
  omega

theorem addChar_room (h : HoldsText b s) (hstuck : ¬ b.Stuck) :
    (∃ b', b.growFor (wrap32 (b.current + 1)) (wrap32 (b.buflen * 2)) = .ok b' ∧ Begins b' s ∧
        (s.length + 1 < b'.buflen ∨ b'.buflen = 0 ∧ s.length = 0)) ∨
      b.growFor (wrap32 (b.current + 1)) (wrap32 (b.buflen * 2)) = .error .panic ∧
        tooLong ≤ s.length + 1 := by
  have hroom := h.room
  have hhigh := h.high
  have hlow := h.low
  have hcurrent := h.current
  have hmax := intMax_eq
  unfold Buffer.Stuck at hstuck
  have hnext : wrap32 (b.current + 1) = s.length + 1 := by
    rw [wrap32_of_fits (by omega) (by omega), hcurrent]
  unfold Buffer.growFor
  rw [hnext]
  by_cases hlast : b.buflen ≤ s.length + 1
  · rw [if_pos hlast]
    by_cases hdouble : b.buflen * 2 ≤ intMax
    · rw [wrap32_of_fits (by omega) hdouble]
      obtain ⟨b', hgrow, hbuflen, hkept⟩ := h.grow (by omega) hdouble (by omega)
      refine .inl ⟨b', hgrow, hkept, ?_⟩
      rw [hbuflen]
      omega
    · obtain ⟨k, hk, hklow, hkhigh⟩ := wrap32_cases (b.buflen * 2)
      refine .inr ⟨Begins.grow_negative (by omega) (by omega), ?_⟩
      unfold tooLong
      omega
  · rw [if_neg hlast]
    refine .inl ⟨b, rfl, h.toBegins, ?_⟩
    omega

theorem addChar (h : HoldsText b s) (hstuck : ¬ b.Stuck) (c : UInt8) :
    (∃ b', b.addChar c = .ok b' ∧ HoldsText b' (s ++ [c])) ∨
      b.addChar c = .error .panic ∧ tooLong ≤ (s ++ [c]).length := by
  have hmax := intMax_eq
  unfold Buffer.addChar
  obtain ⟨b', hgrow, hkept, hroom⟩ | ⟨hgrow, hlong⟩ := h.addChar_room hstuck
  · have hhigh := hkept.high
    have hsize := hkept.size
    have hcurrent := hkept.current
    obtain ⟨buffer, hstore, hkept'⟩ := @Begins.append _ _ hkept [c] [] (wrap32 (b'.current + 1))
      (by simp only [List.append_nil, List.length_singleton]; omega)
      (by rw [wrap32_of_fits (by omega) (by omega), hcurrent]; rfl)
    rw [List.append_nil] at hstore
    refine .inl ⟨_, by rw [hgrow, ok_bind_crash, hstore]; rfl, hkept', ?_⟩
    simp only [List.length_append, List.length_singleton]
    push_cast
    omega
  · exact .inr ⟨by rw [hgrow]; rfl, by simpa using hlong⟩

/-- `stream_add_string` grows the buffer so that the string and its NUL fit, also where twice the
length is too little. -/
theorem addString_room (h : HoldsText b s) {string : Str}
    (hlong : s.length + string.length < tooLong) :
    ∃ b', b.growFor (s.length + string.length) (Buffer.fitting b.buflen (s.length + string.length))
        = .ok b' ∧ Begins b' s ∧ s.length + string.length < b'.buflen := by
  have hroom := h.room
  have hhigh := h.high
  have hlow := h.low
  have hmax := intMax_eq
  unfold tooLong at hlong
  unfold Buffer.growFor
  by_cases hlast : b.buflen ≤ s.length + string.length
  · rw [if_pos hlast]
    have hnext : wrap32 (s.length + string.length + 1 : Int) = s.length + string.length + 1 :=
      wrap32_of_fits (by omega) (by omega)
    have hfitting : s.length + string.length < Buffer.fitting b.buflen (s.length + string.length) ∧
        Buffer.fitting b.buflen (s.length + string.length) ≤ intMax := by
      have := wrap32_le (b.buflen * 2)
      unfold Buffer.fitting
      simp only
      split <;> omega
    obtain ⟨b', hgrow, hbuflen, hkept⟩ := h.grow (by omega) hfitting.2 (by omega)
    exact ⟨b', hgrow, hkept, by omega⟩
  · rw [if_neg hlast]
    exact ⟨b, rfl, h.toBegins, by omega⟩

theorem addString (h : HoldsText b s) {string : Str} (hfits : b.current + string.length + 1 ≤ intMax) :
    (∃ b', b.addString string = .ok b' ∧ HoldsText b' (s ++ string.map charByte)) ∨
      b.addString string = .error .panic ∧ tooLong ≤ (s ++ string.map charByte).length := by
  have hmax := intMax_eq
  have hcurrent := h.current
  have hlength : intLength string = string.length := wrap32_of_fits (by omega) (by omega)
  have hlast : wrap32 (b.current + intLength string) = s.length + string.length := by
    rw [hlength, wrap32_of_fits (by omega) (by omega), hcurrent]
  have hnext : wrap32 (s.length + string.length + 1 : Int) = s.length + string.length + 1 :=
    wrap32_of_fits (by omega) (by omega)
  unfold Buffer.addString
  simp only [hlast, hnext]
  by_cases hlong : s.length + string.length < tooLong
  · have hguard : ¬ intMax / 2 ≤ (s.length + string.length + 1 : Int) := by
      unfold tooLong at hlong
      omega
    obtain ⟨b', hgrow, hkept, hroom⟩ := h.addString_room hlong
    have hsize := hkept.size
    obtain ⟨buffer, hstore, hkept'⟩ := @Begins.append _ _ hkept (string.map charByte) [0]
      (s.length + string.length : Int)
      (by simp only [List.length_append, List.length_map, List.length_singleton]; omega)
      (by rw [List.length_map])
    rw [if_neg hguard]
    refine .inl ⟨_, by rw [hgrow, ok_bind_crash, hstore]; rfl, hkept', .inl ?_⟩
    simp only [List.length_append, List.length_map]
    push_cast
    omega
  · have hguard : intMax / 2 ≤ (s.length + string.length + 1 : Int) := by
      unfold tooLong at hlong
      omega
    rw [if_pos hguard]
    refine .inr ⟨rfl, ?_⟩
    simp only [List.length_append, List.length_map]
    omega

theorem terminate (h : HoldsText b s) (hstuck : ¬ b.Stuck) :
    ∃ buffer, Block.store b.buffer b.current [0] = .ok buffer ∧ Block.Terminated buffer s ∧
      HoldsText { b with buffer } s ∧ HoldsText { b with buffer, current := 0 } [] := by
  have hfull := h.not_full hstuck
  have hroom := h.room
  obtain ⟨buffer, hstore, hkept⟩ := @Begins.append _ _ h.toBegins [] [0] b.current hfull
    (by rw [h.current]; rfl)
  have hspec := @store_spec _ _ [0] h.text hfull
  rw [← h.current] at hspec
  rw [List.append_nil] at hkept
  refine ⟨buffer, hstore, ⟨b.buffer.drop (s.length + 1), ?_⟩, ⟨hkept, hroom⟩, ?_⟩
  · rw [Except.ok.inj (hstore.symm.trans hspec), List.map_append, List.append_assoc]
    rfl
  · refine ⟨⟨rfl, rfl, hkept.size, h.low, h.high⟩, ?_⟩
    simp only [List.length_nil]
    omega

theorem add (h : HoldsText b s) {a : Add} (hfits : a.Fits b) :
    (∃ b', b.add a = .ok b' ∧ HoldsText b' (s ++ a.text)) ∨
      b.add a = .error .panic ∧ tooLong ≤ (s ++ a.text).length := by
  cases a with
  | char c => exact h.addChar hfits c
  | string string => exact h.addString hfits

theorem addAll {adds : List Add} : ∀ {b s}, HoldsText b s → AddsFit adds b →
    (∃ b', b.addAll adds = .ok b' ∧ HoldsText b' (s ++ (adds.map Add.text).flatten)) ∨
      b.addAll adds = .error .panic ∧ tooLong ≤ (s ++ (adds.map Add.text).flatten).length := by
  induction adds with
  | nil => exact fun h _ => .inl ⟨_, rfl, by simpa using h⟩
  | cons a adds ih =>
    intro b s h hfits
    rw [List.map_cons, List.flatten_cons, ← List.append_assoc]
    obtain ⟨b', hadd, h'⟩ | ⟨hadd, hlong⟩ := h.add hfits.1
    · have hrest := ih h' (hfits.2 b' hadd)
      unfold Buffer.addAll
      rw [hadd]
      exact hrest
    · refine .inr ⟨by unfold Buffer.addAll; rw [hadd]; rfl, ?_⟩
      rw [List.length_append]
      omega

theorem printf (h : HoldsText b s) {format : Str} {args : List Arg}
    (hfits : (StreamCall.printf format args).Fits fmt b) :
    (∃ b', b.printf fmt format args = .ok b' ∧
        HoldsText b' (s.call fmt (.printf format args)).2) ∨
      b.printf fmt format args = .error .panic ∧
        tooLong ≤ (s.call fmt (.printf format args)).2.length := by
  obtain ⟨hadds, hend⟩ := hfits
  unfold Buffer.printf
  obtain ⟨b', hadd, h'⟩ | ⟨hadd, hlong⟩ := h.addAll hadds
  · refine .inl ⟨b', ?_, h'⟩
    simp only [hend, hadd]
    rfl
  · refine .inr ⟨?_, hlong⟩
    simp only [hadd]
    rfl

theorem call (h : HoldsText b s) {c : StreamCall} (hfits : c.Fits fmt b) :
    (∃ returned b', b.call fmt c = .ok (returned, b') ∧
        Option.Rel Block.Terminated returned (s.call fmt c).1 ∧ HoldsText b' (s.call fmt c).2) ∨
      b.call fmt c = .error .panic ∧ tooLong ≤ (s.call fmt c).2.length := by
  cases c with
  | addChar c =>
    obtain ⟨b', hcall, h'⟩ | ⟨hcall, hlong⟩ := h.addChar hfits c
    · exact .inl ⟨none, b', by unfold Buffer.call; simp only [hcall]; rfl, .none, h'⟩
    · exact .inr ⟨by unfold Buffer.call; simp only [hcall]; rfl, hlong⟩
  | addString string =>
    obtain ⟨b', hcall, h'⟩ | ⟨hcall, hlong⟩ := h.addString hfits
    · exact .inl ⟨none, b', by unfold Buffer.call; simp only [hcall]; rfl, .none, h'⟩
    · exact .inr ⟨by unfold Buffer.call; simp only [hcall]; rfl, hlong⟩
  | printf format args =>
    obtain ⟨b', hcall, h'⟩ | ⟨hcall, hlong⟩ := h.printf fmt hfits
    · exact .inl ⟨none, b', by unfold Buffer.call; simp only [hcall]; rfl, .none, h'⟩
    · exact .inr ⟨by unfold Buffer.call; simp only [hcall]; rfl, hlong⟩
  | reset =>
    obtain ⟨buffer, hstore, hterm, -, h'⟩ := h.terminate hfits
    refine .inl ⟨some buffer, _, ?_, .some hterm, h'⟩
    unfold Buffer.call Buffer.reset
    simp only [hstore]
    rfl
  | contents =>
    obtain ⟨buffer, hstore, hterm, h', -⟩ := h.terminate hfits
    refine .inl ⟨some buffer, _, ?_, .some hterm, h'⟩
    unfold Buffer.call Buffer.contents
    simp only [hstore]
    rfl

theorem exactFrom {calls : List StreamCall} :
    ∀ {b s}, HoldsText b s → CallsFit fmt calls b → ExactFrom fmt calls b s := by
  induction calls with
  | nil => exact fun _ _ => trivial
  | cons c calls ih =>
    intro b s h hfits
    unfold ExactFrom
    obtain ⟨returned, b', hcall, hreturned, h'⟩ | ⟨hcall, hlong⟩ := h.call fmt hfits.1
    · simp only [hcall]
      exact ⟨hreturned, ih h' (hfits.2 returned b' hcall)⟩
    · simp only [hcall]
      exact hlong

end HoldsText

/-- The calls on a stream from `new_stream(size)` on are exact. -/
def ExactStream (size : Int) (calls : List StreamCall) : Prop :=
  ∃ b, newStream size = .ok b ∧ ExactFrom fmt calls b []

/-- Each call finds what it needs. -/
def StreamFits (size : Int) (calls : List StreamCall) : Prop :=
  ∀ b, newStream size = .ok b → CallsFit fmt calls b

theorem streams_exact {size : Int} (hlow : 0 ≤ size) (hhigh : size ≤ intMax)
    {calls : List StreamCall} (hfits : StreamFits fmt size calls) : ExactStream fmt size calls := by
  obtain ⟨b, hnew, -, h⟩ := HoldsText.newStream hlow hhigh
  exact ⟨b, hnew, h.exactFrom fmt (hfits b hnew)⟩

theorem streams_exact_longer : ExactStream ⟨fun _ => [], fun _ => 0⟩ 1
    [.addChar 97, .addString ['b', 'c'], .contents] :=
  streams_exact _ (by decide) (by decide) <| by
    rintro b ⟨⟩
    refine ⟨by unfold StreamCall.Fits Add.Fits Buffer.Stuck; decide, ?_⟩
    rintro _ _ ⟨⟩
    refine ⟨by unfold StreamCall.Fits Add.Fits; decide, ?_⟩
    rintro _ _ ⟨⟩
    exact ⟨by unfold StreamCall.Fits Buffer.Stuck; decide, fun _ _ _ => trivial⟩

/-- Twice no length is no length: the character fills the block, and the NUL is written behind it. -/
theorem new_stream_zero : ¬ ExactStream ⟨fun _ => [], fun _ => 0⟩ 0 [.addChar 97, .contents] := by
  rintro ⟨b, ⟨⟩, -, h⟩
  exact h

end LambdaMoo
