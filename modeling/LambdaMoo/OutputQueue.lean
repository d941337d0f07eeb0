import LambdaMoo.ListEdit

/-! The output that waits for a connection. What the network does not take stays in a list of blocks
with a pointer to its end, and old blocks are flushed to make way for new ones. -/
namespace LambdaMoo

/-- A `text_block` and its address. From `start` on its bytes are still to be written. -/
structure TextBlock where
  address : Nat
  buffer : List UInt8
  start : Nat
  length : Nat
  deriving DecidableEq

def TextBlock.sent (b : TextBlock) : List UInt8 := b.buffer.take b.start

def TextBlock.remaining (b : TextBlock) : List UInt8 := b.buffer.drop b.start

theorem TextBlock.sent_append_remaining (b : TextBlock) : b.sent ++ b.remaining = b.buffer :=
  List.take_append_drop _ _

/-- The output part of an `nhandle`. The blocks are those that are linked from `output_head` on;
`outputTail` designates `output_head` itself or the link of a block. -/
structure OutputHandle where
  blocks : List TextBlock
  outputTail : Option Nat
  outputLength : Int
  outputLinesFlushed : Int
  fresh : Nat
  deriving DecidableEq

/-- What `write` comes back with: it has taken some of the bytes, or it has failed, after which it may
be tried again. -/
inductive WriteResult
  | took (count : Nat)
  | failed (again : Bool)

/-- What happens to bytes in the course of a call. -/
inductive OutputEvent
  /-- Some of a notice is written, which tells of so many lines when it is complete. -/
  | noticed (bytes : List UInt8) (lines : Nat)
  | wrote (bytes : List UInt8)
  | dropped (rest : List UInt8)
  deriving DecidableEq

def maxQueuedOutput : Nat := 131072

def overflowNotice (lines : Nat) : List UInt8 :=
  ("\r\n>> network buffer overflow: ".toList ++ Nat.toDigits 10 lines ++
    " line(s) flushed\r\n".toList).map charByte

namespace OutputHandle

def newOutput : OutputHandle where
  blocks := []
  outputTail := none
  outputLength := 0
  outputLinesFlushed := 0
  fresh := 0

def resetTail (h : OutputHandle) : OutputHandle :=
  if h.blocks = [] then { h with outputTail := none } else h

def took (h : OutputHandle) (b : TextBlock) (rest : List TextBlock) (count : Nat) : OutputHandle :=
  { h with
    outputLength := wrap32 (h.outputLength - count)
    blocks :=
      if count = b.length then rest
      else { b with start := b.start + count, length := b.length - count } :: rest }

/-- The loop of `push_output`. It ends when there is nothing left to write or `write` fails; where no
result is given it would block. -/
def pushBlocks : List WriteResult → OutputHandle → Bool × List OutputEvent × OutputHandle
  | [], h => (true, [], h.resetTail)
  | result :: results, h =>
      match h.blocks with
      | [] => (true, [], h.resetTail)
      | b :: rest =>
          match result with
          | .failed again => (again, [], h)
          | .took count =>
              let written := min count b.length
              let (returned, events, h) := pushBlocks results (h.took b rest written)
              (returned, .wrote (b.remaining.take written) :: events, h)

def pushOutput (h : OutputHandle) (results : List WriteResult) : Bool × List OutputEvent × OutputHandle :=
  if h.outputLinesFlushed ≤ 0 then pushBlocks results h
  else
    let buf := overflowNotice h.outputLinesFlushed.toNat
    match results with
    | [] => (true, [], h)
    | .failed again :: _ => (again, [], h)
    | .took count :: results =>
        if buf.length ≤ count then
          let (returned, events, h') := pushBlocks results { h with outputLinesFlushed := 0 }
          (returned, .noticed buf h.outputLinesFlushed.toNat :: events, h')
        else (true, [.noticed (buf.take count) 0], h)

def dropFirst (h : OutputHandle) (b : TextBlock) (rest : List TextBlock) : OutputHandle :=
  { h with
    outputLength := wrap32 (h.outputLength - b.length)
    outputLinesFlushed := wrap32 (h.outputLinesFlushed + 1)
    blocks := rest }

def flush : List TextBlock → Int → OutputHandle → List OutputEvent × OutputHandle
  | [], _, h => ([], h)
  | b :: rest, toFlush, h =>
      if 0 < toFlush then
        let (events, h) := flush rest (toFlush - b.length) (h.dropFirst b rest)
        (.dropped b.remaining :: events, h)
      else ([], h)

/-- `*(a->next) = block`, where the block at the address is the last one or what follows it is lost. It
is an error when there is no such block any more. -/
def hang (a : Nat) (block : TextBlock) : List TextBlock → Option (List TextBlock)
  | [] => none
  | b :: bs => if b.address = a then some [b, block] else (hang a block bs).map (b :: ·)

/-- The end of `enqueue_output`: a block with these bytes is hung where the tail pointer says. -/
def append (h : OutputHandle) (bytes : List UInt8) : Option OutputHandle :=
  let block : TextBlock := { address := h.fresh, buffer := bytes, start := 0, length := bytes.length }
  let blocks :=
    match h.outputTail with
    | none => some [block]
    | some a => hang a block h.blocks
  blocks.map fun blocks =>
    { h with
      blocks := blocks
      outputTail := some block.address
      outputLength := wrap32 (h.outputLength + bytes.length)
      fresh := h.fresh + 1 }

/-- `enqueue_output(nh, line, line_length, add_eol, flush_ok)`; none is a wrong use of memory. -/
def enqueueOutput (h : OutputHandle) (line : List UInt8) (addEol flushOk : Bool) (results : List WriteResult) :
    Option (Bool × List OutputEvent × OutputHandle) :=
  let bytes := line ++ if addEol then [13, 10] else []
  if h.outputLength ≠ 0 ∧ wrap32 (h.outputLength + bytes.length + maxQueuedOutput) ≠ 0 then
    let (_, events, h) := h.pushOutput results
    let toFlush := wrap32 (h.outputLength + bytes.length - maxQueuedOutput)
    if 0 < toFlush ∧ flushOk = false then some (false, events, h)
    else
      let (drops, h) := flush h.blocks toFlush h
      (h.resetTail.append bytes).map fun h => (true, events ++ drops, h)
  else (h.append bytes).map fun h => (true, [], h)

end OutputHandle

/-! What becomes of the blocks. -/

/-- What has become of a block that is not in the queue any more. -/
inductive Fate
  | written (block : List UInt8)
  | dropped (sent rest : List UInt8)

namespace Fate

def block : Fate → List UInt8
  | written block => block
  | dropped sent rest => sent ++ rest

def sent : Fate → List UInt8
  | written block => block
  | dropped sent _ => sent

def rest : Fate → Option (List UInt8)
  | written _ => none
  | dropped _ rest => some rest

end Fate

namespace OutputEvent

def written : OutputEvent → List UInt8
  | wrote bytes => bytes
  | _ => []

def rest : OutputEvent → Option (List UInt8)
  | dropped rest => some rest
  | _ => none

def reported : OutputEvent → Nat
  | noticed _ lines => lines
  | _ => 0

end OutputEvent

namespace OutputHandle

/-- From one state to another: the blocks that were there or are added have gone, in their order, or are
still there. What is written is what has been sent of them, and what is dropped are the rests of those
that have been dropped, each of which is counted. -/
structure Accounts (gone : List Fate) (h : OutputHandle) (added : List (List UInt8))
    (events : List OutputEvent) (h' : OutputHandle) : Prop where
  blocks : h.blocks.map TextBlock.buffer ++ added = gone.map Fate.block ++ h'.blocks.map TextBlock.buffer
  written : h.blocks.flatMap TextBlock.sent ++ events.flatMap OutputEvent.written =
    gone.flatMap Fate.sent ++ h'.blocks.flatMap TextBlock.sent
  dropped : events.filterMap OutputEvent.rest = gone.filterMap Fate.rest
  counted : h.outputLinesFlushed + (gone.filterMap Fate.rest).length =
    ((events.map OutputEvent.reported).sum : Nat) + h'.outputLinesFlushed

/-- What holds of the queue in the course of a call. The tail pointer may be left behind by a queue that
has been emptied. -/
structure Held (h : OutputHandle) : Prop where
  lengths : ∀ b ∈ h.blocks, b.start + b.length = b.buffer.length
  begun : ∀ b ∈ h.blocks.tail, b.start = 0
  total : h.outputLength = ((h.blocks.map TextBlock.length).sum : Nat)
  fits : h.outputLength ≤ intMax
  tail : ∀ b ∈ h.blocks.getLast?, h.outputTail = some b.address
  ordered : (h.blocks.map TextBlock.address).Pairwise (· < ·)
  older : ∀ b ∈ h.blocks, b.address < h.fresh
  bounded : 2 ≤ h.blocks.length → h.outputLength ≤ maxQueuedOutput
  flushed : 0 ≤ h.outputLinesFlushed

variable {gone gone' : List Fate} {h h' h'' : OutputHandle} {added added' : List (List UInt8)}
  {events events' : List OutputEvent} {b : TextBlock} {rest : List TextBlock} {count : Nat} {lines : Int}

theorem Accounts.refl : Accounts [] h [] [] h where
  blocks := List.append_nil _
  written := List.append_nil _
  dropped := rfl
  counted := by simp

theorem Accounts.trans (hl : Accounts gone h added events h') (hr : Accounts gone' h' added' events' h'') :
    Accounts (gone ++ gone') h (added ++ added') (events ++ events') h'' where
  blocks := by
    rw [← List.append_assoc, hl.blocks, List.append_assoc, hr.blocks, List.map_append, List.append_assoc]
  written := by
    rw [List.flatMap_append, ← List.append_assoc, hl.written, List.append_assoc, hr.written,
      List.flatMap_append, List.append_assoc]
  dropped := by
    rw [List.filterMap_append, List.filterMap_append, hl.dropped, hr.dropped]
  counted := by
    have h₁ := hl.counted
    have h₂ := hr.counted
    rw [List.filterMap_append, List.length_append, List.map_append, List.sum_append]
    omega

/-! One block, from the front. -/

theorem Held.total_cons (hh : h.Held) (hb : h.blocks = b :: rest) :
    h.outputLength = b.length + ((rest.map TextBlock.length).sum : Nat) := by
  rw [hh.total, hb, List.map_cons, List.sum_cons, Int.natCast_add]

theorem Held.wrap32_sub (hh : h.Held) (hb : h.blocks = b :: rest) (hcount : count ≤ b.length) :
    wrap32 (h.outputLength - count) = h.outputLength - count := by
  have htotal := hh.total_cons hb
  have hfits := hh.fits
  rw [intMax_eq] at hfits
  apply wrap32_of_fits
  · omega
  · rw [intMax_eq]
    omega

theorem Held.pop (hh : h.Held) (hb : h.blocks = b :: rest) (hlines : 0 ≤ lines) :
    Held { h with
      outputLength := wrap32 (h.outputLength - b.length)
      outputLinesFlushed := lines
      blocks := rest } := by
  have hmem : ∀ c ∈ rest, c ∈ h.blocks := fun c hc => hb ▸ List.mem_cons_of_mem _ hc
  have htotal := hh.total_cons hb
  rw [hh.wrap32_sub hb (Nat.le_refl _)]
  refine ⟨fun c hc => hh.lengths c (hmem c hc), ?_, ?_, ?_, ?_, ?_, fun c hc => hh.older c (hmem c hc), ?_, hlines⟩
  · intro c hc
    exact hh.begun c (by rw [hb]; exact List.mem_of_mem_tail hc)
  · dsimp only
    omega
  · have hfits := hh.fits
    dsimp only
    omega
  · intro c hc
    apply hh.tail c
    rw [hb]
    cases rest with
    | nil => cases hc
    | cons d rest => exact hc
  · have hordered := hh.ordered
    rw [hb, List.map_cons, List.pairwise_cons] at hordered
    exact hordered.2
  · intro hlen
    have hbounded := hh.bounded (by rw [hb]; exact Nat.le_succ_of_le hlen)
    dsimp only
    omega

theorem Held.rest_unsent (hh : h.Held) (hb : h.blocks = b :: rest) : rest.flatMap TextBlock.sent = [] := by
  rw [List.flatMap_eq_nil_iff]
  intro c hc
  unfold TextBlock.sent
  rw [hh.begun c (by rw [hb]; exact hc), List.take_zero]

theorem Held.took (hh : h.Held) (hb : h.blocks = b :: rest) (hcount : count ≤ b.length) :
    (h.took b rest count).Held ∧
      ∃ gone, Accounts gone h [] [.wrote (b.remaining.take count)] (h.took b rest count) := by
  have hlength := hh.lengths b (by simp [hb])
  by_cases heq : count = b.length
  · subst heq
    have hall : b.remaining.take b.length = b.remaining := by
      apply List.take_of_length_le
      unfold TextBlock.remaining
      rw [List.length_drop]
      omega
    have htook : h.took b rest b.length =
        { h with outputLength := wrap32 (h.outputLength - b.length), blocks := rest } := by
      unfold OutputHandle.took
      rw [if_pos rfl]
    rw [htook, hall]
    refine ⟨hh.pop hb hh.flushed, [.written b.buffer], ?_, ?_, rfl, ?_⟩
    · simp [hb, Fate.block]
    · have hrest : rest.flatMap TextBlock.sent = [] := hh.rest_unsent hb
      simp [hb, hrest, Fate.sent, OutputEvent.written, b.sent_append_remaining]
    · simp [Fate.rest, OutputEvent.reported]
  · have htook : h.took b rest count =
        { h with
          outputLength := h.outputLength - count
          blocks := { b with start := b.start + count, length := b.length - count } :: rest } := by
      unfold OutputHandle.took
      rw [if_neg heq, hh.wrap32_sub hb hcount]
    have htotal := hh.total_cons hb
    rw [htook]
    refine ⟨⟨?_, ?_, ?_, ?_, ?_, ?_, ?_, ?_, hh.flushed⟩, [], ?_, ?_, rfl, ?_⟩
    · intro c hc
      obtain rfl | hc := List.mem_cons.mp hc
      · dsimp only
        omega
      · exact hh.lengths c (by rw [hb]; exact List.mem_cons_of_mem _ hc)
    · intro c hc
      exact hh.begun c (by rw [hb]; exact hc)
    · rw [List.map_cons, List.sum_cons, Int.natCast_add]
      dsimp only
      omega
    · have hfits := hh.fits
      dsimp only
      omega
    · intro c hc
      have htail := hh.tail
      rw [hb] at htail
      cases rest with
      | nil =>
          cases hc
          exact htail b rfl
      | cons d rest => exact htail c hc
    · have hordered := hh.ordered
      rw [hb] at hordered
      exact hordered
    · intro c hc
      obtain rfl | hc := List.mem_cons.mp hc
      · exact hh.older b (by simp [hb])
      · exact hh.older c (by rw [hb]; exact List.mem_cons_of_mem _ hc)
    · intro hlen
      have hbounded := hh.bounded (by rw [hb]; exact hlen)
      dsimp only
      omega
    · simp [hb]
    · have hsent : b.buffer.take (b.start + count) = b.sent ++ b.remaining.take count := List.take_add
      have hrest : rest.flatMap TextBlock.sent = [] := hh.rest_unsent hb
      simp only [hb, List.flatMap_cons, hrest, TextBlock.sent, OutputEvent.written, List.flatMap_nil,
        List.append_nil, List.nil_append]
      exact hsent.symm
    · simp [OutputEvent.reported]

theorem Held.dropFirst (hh : h.Held) (hb : h.blocks = b :: rest) (hfew : h.outputLinesFlushed + 1 ≤ intMax) :
    (h.dropFirst b rest).Held ∧
      Accounts [.dropped b.sent b.remaining] h [] [.dropped b.remaining] (h.dropFirst b rest) ∧
      (h.dropFirst b rest).outputLinesFlushed = h.outputLinesFlushed + 1 := by
  have hflushed := hh.flushed
  have hcount : wrap32 (h.outputLinesFlushed + 1) = h.outputLinesFlushed + 1 := wrap32_of_fits (by omega) hfew
  refine ⟨hh.pop hb (by omega), ⟨?_, ?_, rfl, ?_⟩, hcount⟩
  · simp [OutputHandle.dropFirst, hb, Fate.block, b.sent_append_remaining]
  · have hrest : rest.flatMap TextBlock.sent = [] := hh.rest_unsent hb
    simp [OutputHandle.dropFirst, hb, hrest, Fate.sent, OutputEvent.written]
  · simp [OutputHandle.dropFirst, Fate.rest, OutputEvent.reported, hcount]

/-! Whole calls. -/

/-- What holds of the queue between calls: the tail pointer designates the end of the list. -/
structure Wired (h : OutputHandle) : Prop extends h.Held where
  reset : h.blocks = [] → h.outputTail = none

theorem Wired.tail_eq (hw : h.Wired) : h.outputTail = h.blocks.getLast?.map TextBlock.address := by
  cases hlast : h.blocks.getLast? with
  | none => exact hw.reset (List.getLast?_eq_none_iff.mp hlast)
  | some b => exact hw.tail b hlast

theorem Held.resetTail (hh : h.Held) :
    h.resetTail.Wired ∧ Accounts [] h [] [] h.resetTail ∧ h.resetTail.blocks = h.blocks ∧
      h.resetTail.outputLength = h.outputLength := by
  unfold OutputHandle.resetTail
  split
  · next hnil =>
      refine ⟨⟨⟨hh.lengths, hh.begun, hh.total, hh.fits, ?_, hh.ordered, hh.older, hh.bounded, hh.flushed⟩,
        fun _ => rfl⟩, ⟨List.append_nil _, List.append_nil _, rfl, by simp⟩, rfl, rfl⟩
      intro b hb
      rw [hnil] at hb
      cases hb
  · next hne => exact ⟨⟨hh, fun hnil => absurd hnil hne⟩, .refl, rfl, rfl⟩

theorem Held.pushBlocks (hh : h.Held) (results : List WriteResult) :
    (pushBlocks results h).2.2.Wired ∧
      (∃ gone, Accounts gone h [] (pushBlocks results h).2.1 (pushBlocks results h).2.2) ∧
      (pushBlocks results h).2.1.filterMap OutputEvent.rest = [] ∧
      (pushBlocks results h).2.2.outputLength ≤ h.outputLength := by
  induction results generalizing h with
  | nil =>
      obtain ⟨hwired, haccounts, -, hlength⟩ := hh.resetTail
      exact ⟨hwired, ⟨[], haccounts⟩, rfl, Int.le_of_eq hlength⟩
  | cons result results ih =>
      unfold OutputHandle.pushBlocks
      split
      · obtain ⟨hwired, haccounts, -, hlength⟩ := hh.resetTail
        exact ⟨hwired, ⟨[], haccounts⟩, rfl, Int.le_of_eq hlength⟩
      · next b rest hb =>
          cases result with
          | failed again =>
              refine ⟨⟨hh, fun hnil => ?_⟩, ⟨[], .refl⟩, rfl, Int.le_refl _⟩
              rw [hb] at hnil
              cases hnil
          | took count =>
              have hcount : min count b.length ≤ b.length := Nat.min_le_right _ _
              obtain ⟨htook, gone, haccounts⟩ := hh.took hb hcount
              obtain ⟨hwired, ⟨gone', haccounts'⟩, hnone, hlength⟩ := ih htook
              refine ⟨hwired, ⟨gone ++ gone', haccounts.trans haccounts'⟩, hnone, Int.le_trans hlength ?_⟩
              have hsub : (h.took b rest (min count b.length)).outputLength =
                  h.outputLength - (min count b.length : Nat) := hh.wrap32_sub hb hcount
              omega

theorem pushBlocks_shrinks (results : List WriteResult) (h : OutputHandle) :
    (pushBlocks results h).2.2.outputLinesFlushed = h.outputLinesFlushed ∧
      (pushBlocks results h).2.2.blocks.length ≤ h.blocks.length := by
  have hreset : ∀ h : OutputHandle, h.resetTail.outputLinesFlushed = h.outputLinesFlushed ∧
      h.resetTail.blocks.length ≤ h.blocks.length := by
    intro h
    unfold OutputHandle.resetTail
    split <;> exact ⟨rfl, Nat.le_refl _⟩
  induction results generalizing h with
  | nil => exact hreset h
  | cons result results ih =>
      unfold OutputHandle.pushBlocks
      split
      · exact hreset h
      · next b rest hb =>
          cases result with
          | failed again => exact ⟨rfl, Nat.le_refl _⟩
          | took count =>
              obtain ⟨hflushed, hle⟩ := ih (h.took b rest (min count b.length))
              refine ⟨hflushed, Nat.le_trans hle ?_⟩
              unfold OutputHandle.took
              rw [hb]
              split <;> simp

theorem Held.pushOutput_shrinks (hh : h.Held) (results : List WriteResult) :
    (h.pushOutput results).2.2.outputLinesFlushed + (h.pushOutput results).2.2.blocks.length ≤
      h.outputLinesFlushed + h.blocks.length := by
  have hflushed := hh.flushed
  unfold OutputHandle.pushOutput
  split
  · have hshrinks := pushBlocks_shrinks results h
    omega
  · cases results with
    | nil => exact Int.le_refl _
    | cons result results =>
        cases result with
        | failed again => exact Int.le_refl _
        | took count =>
            dsimp only
            split
            · obtain ⟨hsame, hle⟩ := pushBlocks_shrinks results { h with outputLinesFlushed := 0 }
              exact Int.add_le_add (Int.le_trans (Int.le_of_eq hsame) hflushed) (Int.ofNat_le.mpr hle)
            · exact Int.le_refl _

theorem Wired.pushOutput (hw : h.Wired) (results : List WriteResult) :
    (h.pushOutput results).2.2.Wired ∧
      (∃ gone, Accounts gone h [] (h.pushOutput results).2.1 (h.pushOutput results).2.2) ∧
      (h.pushOutput results).2.1.filterMap OutputEvent.rest = [] ∧
      (h.pushOutput results).2.2.outputLength ≤ h.outputLength := by
  unfold OutputHandle.pushOutput
  split
  · exact hw.pushBlocks results
  · cases results with
    | nil => exact ⟨hw, ⟨[], .refl⟩, rfl, Int.le_refl _⟩
    | cons result results =>
        cases result with
        | failed again => exact ⟨hw, ⟨[], .refl⟩, rfl, Int.le_refl _⟩
        | took count =>
            dsimp only
            split
            · have hheld : Held { h with outputLinesFlushed := 0 } :=
                ⟨hw.lengths, hw.begun, hw.total, hw.fits, hw.tail, hw.ordered, hw.older, hw.bounded, Int.le_refl _⟩
              obtain ⟨hwired, ⟨gone, haccounts⟩, hnone, hlength⟩ := hheld.pushBlocks results
              have hnotice : Accounts []
                  h [] [.noticed (overflowNotice h.outputLinesFlushed.toNat) h.outputLinesFlushed.toNat]
                  { h with outputLinesFlushed := 0 } :=
                ⟨List.append_nil _, List.append_nil _, rfl,
                  by simpa [OutputEvent.reported] using (Int.max_eq_left hw.flushed).symm⟩
              exact ⟨hwired, ⟨gone, hnotice.trans haccounts⟩, hnone, hlength⟩
            · exact ⟨hw, ⟨[], List.append_nil _, List.append_nil _, rfl, by simp [OutputEvent.reported]⟩, rfl,
                Int.le_refl _⟩

theorem Held.flush {toFlush : Int} (hh : h.Held) {blocks : List TextBlock} (hb : h.blocks = blocks)
    (hfew : h.outputLinesFlushed + blocks.length ≤ intMax) :
    (flush blocks toFlush h).2.Held ∧
      (∃ gone, Accounts gone h [] (flush blocks toFlush h).1 (flush blocks toFlush h).2) ∧
      ((flush blocks toFlush h).2.blocks = [] ∨
        (flush blocks toFlush h).2.outputLength + toFlush ≤ h.outputLength) ∧
      (toFlush ≤ 0 → (flush blocks toFlush h).1 = []) := by
  induction blocks generalizing h toFlush with
  | nil => exact ⟨hh, ⟨[], .refl⟩, .inl hb, fun _ => rfl⟩
  | cons b rest ih =>
      unfold OutputHandle.flush
      split
      · next hpos =>
          rw [List.length_cons] at hfew
          obtain ⟨hheld, haccounts, hcount⟩ := hh.dropFirst hb (by omega)
          obtain ⟨hheld', ⟨gone, haccounts'⟩, hlength, -⟩ :=
            @ih (h.dropFirst b rest) (toFlush - b.length) hheld rfl (by omega)
          refine ⟨hheld', ⟨_, haccounts.trans haccounts'⟩, hlength.imp_right fun hle => ?_, fun hle => ?_⟩
          · have hsub : (h.dropFirst b rest).outputLength = h.outputLength - b.length :=
              hh.wrap32_sub hb (Nat.le_refl _)
            dsimp only
            omega
          · omega
      · next hneg => exact ⟨hh, ⟨[], .refl⟩, .inr (by dsimp only; omega), fun _ => rfl⟩

theorem hang_last {block : TextBlock} {blocks : List TextBlock}
    (hordered : (blocks.map TextBlock.address).Pairwise (· < ·)) (hb : blocks.getLast? = some b) :
    hang b.address block blocks = some (blocks ++ [block]) := by
  induction blocks with
  | nil => cases hb
  | cons c blocks ih =>
      rw [List.map_cons, List.pairwise_cons] at hordered
      cases blocks with
      | nil =>
          cases hb
          exact if_pos rfl
      | cons d blocks =>
          have hlast : (d :: blocks).getLast? = some b := hb
          have hmem : b ∈ d :: blocks := List.mem_of_getLast? hlast
          have hne : c.address ≠ b.address := Nat.ne_of_lt (hordered.1 _ (List.mem_map_of_mem hmem))
          unfold hang
          rw [if_neg hne, ih hordered.2 hlast]
          rfl

theorem Wired.append {bytes : List UInt8} (hw : h.Wired)
    (hfits : h.outputLength + bytes.length ≤ intMax)
    (hshort : h.blocks = [] ∨ h.outputLength + bytes.length ≤ maxQueuedOutput) :
    ∃ h', h.append bytes = some h' ∧ h'.Wired ∧ Accounts [] h [bytes] [] h' := by
  have hpos : 0 ≤ h.outputLength := hw.total ▸ Int.natCast_nonneg _
  have hwrap : wrap32 (h.outputLength + bytes.length) = h.outputLength + bytes.length := by
    apply wrap32_of_fits _ hfits
    omega
  have hblocks : (match h.outputTail with
      | none => some [⟨h.fresh, bytes, 0, bytes.length⟩]
      | some a => hang a ⟨h.fresh, bytes, 0, bytes.length⟩ h.blocks) =
      some (h.blocks ++ [(⟨h.fresh, bytes, 0, bytes.length⟩ : TextBlock)]) := by
    rw [hw.tail_eq]
    cases hlast : h.blocks.getLast? with
    | none => rw [List.getLast?_eq_none_iff.mp hlast]; rfl
    | some b => exact hang_last hw.ordered hlast
  have happend : h.append bytes = some
      { h with
        blocks := h.blocks ++ [⟨h.fresh, bytes, 0, bytes.length⟩]
        outputTail := some h.fresh
        outputLength := h.outputLength + bytes.length
        fresh := h.fresh + 1 } := by
    rw [← hwrap]
    exact congrArg (Option.map _) hblocks
  refine ⟨_, happend, ⟨⟨?_, ?_, ?_, hfits, ?_, ?_, ?_, ?_, hw.flushed⟩, ?_⟩, ?_, ?_, rfl, ?_⟩
  · intro b hb
    obtain hb | hb := List.mem_append.mp hb
    · exact hw.lengths b hb
    · cases List.mem_singleton.mp hb
      exact Nat.zero_add _
  · intro b hb
    cases hblocks' : h.blocks with
    | nil => simp [hblocks'] at hb
    | cons c rest =>
        dsimp only at hb
        rw [hblocks', List.cons_append, List.tail_cons] at hb
        obtain hb | hb := List.mem_append.mp hb
        · exact hw.begun b (by rw [hblocks']; exact hb)
        · cases List.mem_singleton.mp hb
          rfl
  · simp [hw.total]
  · intro b hb
    dsimp only at hb
    rw [List.getLast?_concat] at hb
    cases hb
    rfl
  · simp only [List.map_append, List.map_cons, List.map_nil, List.pairwise_append]
    refine ⟨hw.ordered, List.pairwise_singleton _ _, ?_⟩
    intro a ha a' ha'
    obtain ⟨b, hb, rfl⟩ := List.mem_map.mp ha
    cases List.mem_singleton.mp ha'
    exact hw.older b hb
  · intro b hb
    obtain hb | hb := List.mem_append.mp hb
    · exact Nat.lt_succ_of_lt (hw.older b hb)
    · cases List.mem_singleton.mp hb
      exact Nat.lt_succ_self _
  · intro hlen
    obtain hnil | hle := hshort
    · simp [hnil] at hlen
    · exact hle
  · intro hnil
    simp at hnil
  · simp
  · simp [TextBlock.sent]
  · simp

/-! Runs. -/

/-- A call, with what the calls of `write` in it come back with. -/
inductive OutputCall
  | enqueue (line : List UInt8) (addEol flushOk : Bool) (results : List WriteResult)
  | push (results : List WriteResult)

namespace OutputCall

def bytes : OutputCall → List UInt8
  | enqueue line addEol _ _ => line ++ if addEol then [13, 10] else []
  | push _ => []

def flushOk : OutputCall → Bool
  | enqueue _ _ flushOk _ => flushOk
  | push _ => false

def adds : OutputCall → Bool → List (List UInt8)
  | call@(enqueue ..), true => [call.bytes]
  | enqueue .., false => []
  | push _, _ => []

end OutputCall

/-- What a call returns, and what happens in the course of it. -/
structure Outcome where
  returned : Bool
  events : List OutputEvent

def call (h : OutputHandle) : OutputCall → Option (Outcome × OutputHandle)
  | .enqueue line addEol flushOk results =>
      (h.enqueueOutput line addEol flushOk results).map fun (returned, events, h) => (⟨returned, events⟩, h)
  | .push results =>
      let (returned, events, h) := h.pushOutput results
      some (⟨returned, events⟩, h)

def calls : List OutputCall → OutputHandle → Option (List (OutputCall × Outcome) × OutputHandle)
  | [], h => some ([], h)
  | c :: cs, h => do
      let (outcome, h) ← h.call c
      let (outcomes, h) ← calls cs h
      some ((c, outcome) :: outcomes, h)

/-- What is asked of a call: the lengths are within an `int`, as is the count of the drops that no notice
has told of should all that is queued be dropped, and a block that is longer than `MAX_QUEUED_OUTPUT` does
not come behind blocks all of which are empty. -/
def Admits (h : OutputHandle) : OutputCall → Prop
  | c@(.enqueue ..) =>
      (c.bytes.length : Int) ≤ intMax ∧ h.outputLinesFlushed + h.blocks.length ≤ intMax ∧
        if h.outputLength = 0 then h.blocks = [] ∨ c.bytes.length ≤ maxQueuedOutput
        else h.outputLength + c.bytes.length + maxQueuedOutput ≤ intMax
  | .push _ => True

/-- Each call in turn is as it should be. -/
def AdmitsAll (h : OutputHandle) : List OutputCall → Prop
  | [] => True
  | c :: cs => h.Admits c ∧ ∀ outcome h', h.call c = some (outcome, h') → h'.AdmitsAll cs

/-- What the queue is to be after some calls. -/
structure Ordered (h : OutputHandle) (outcomes : List (OutputCall × Outcome)) : Prop where
  length : h.outputLength = ((h.blocks.map fun b => b.remaining.length).sum : Nat)
  tail : h.outputTail = h.blocks.getLast?.map TextBlock.address
  unsent : ∀ b ∈ h.blocks.tail, b.sent = []
  accounts : ∃ gone, Accounts gone newOutput (outcomes.flatMap fun o => o.1.adds o.2.returned)
    (outcomes.flatMap fun o => o.2.events) h
  permitted : ∀ o ∈ outcomes, o.2.events.filterMap OutputEvent.rest ≠ [] →
    o.1.flushOk = true ∧ o.2.returned = true
  bounded : maxQueuedOutput < h.outputLength → ∃ b, h.blocks = [b]

variable {c : OutputCall}

theorem wired_newOutput : newOutput.Wired where
  lengths := by
    intro b hb
    cases hb
  begun := by
    intro b hb
    cases hb
  total := rfl
  fits := by decide
  tail := by
    intro b hb
    cases hb
  ordered := .nil
  older := by
    intro b hb
    cases hb
  bounded := fun _ => by decide
  flushed := Int.le_refl _
  reset := fun _ => rfl

/-- Old blocks are dropped until there is room for a new one, or until none is left. -/
theorem Wired.flush_append {bytes : List UInt8} {toFlush : Int} (hw : h.Wired)
    (hint : (bytes.length : Int) ≤ intMax) (hfew : h.outputLinesFlushed + h.blocks.length ≤ intMax)
    (hflush : toFlush = h.outputLength + bytes.length - maxQueuedOutput) :
    ∃ h', (flush h.blocks toFlush h).2.resetTail.append bytes = some h' ∧ h'.Wired ∧
      ∃ gone, Accounts gone h [bytes] (flush h.blocks toFlush h).1 h' := by
  obtain ⟨hheld, ⟨gone, haccounts⟩, hlength, -⟩ := @Held.flush h toFlush hw.toHeld _ rfl hfew
  obtain ⟨hwired, haccounts', hblocks, hsame⟩ := hheld.resetTail
  rw [← hblocks, ← hsame] at hlength
  have hshort : (flush h.blocks toFlush h).2.resetTail.blocks = [] ∨
      (flush h.blocks toFlush h).2.resetTail.outputLength + bytes.length ≤ maxQueuedOutput := by
    apply hlength.imp_right
    omega
  have hfits : (flush h.blocks toFlush h).2.resetTail.outputLength + bytes.length ≤ intMax := by
    obtain hnil | hle := hshort
    · rw [hwired.total, hnil]
      simpa using hint
    · rw [maxQueuedOutput] at hle
      rw [intMax_eq]
      omega
  obtain ⟨h', happend, hwired', haccounts''⟩ := hwired.append hfits hshort
  refine ⟨h', happend, hwired', gone, ?_⟩
  simpa using (haccounts.trans haccounts').trans haccounts''

/-- A block that comes when there is room, or after room has been made for it. -/
theorem Wired.enqueueOutput {line : List UInt8} {addEol flushOk : Bool} {results : List WriteResult}
    (hw : h.Wired) (hadmits : h.Admits (.enqueue line addEol flushOk results)) :
    ∃ outcome h', h.call (.enqueue line addEol flushOk results) = some (outcome, h') ∧ h'.Wired ∧
      (∃ gone, Accounts gone h (OutputCall.adds (.enqueue line addEol flushOk results) outcome.returned)
        outcome.events h') ∧
      (outcome.events.filterMap OutputEvent.rest ≠ [] → flushOk = true ∧ outcome.returned = true) := by
  obtain ⟨hint, hfew, hadmits⟩ := hadmits
  have hpos : 0 ≤ h.outputLength := hw.total ▸ Int.natCast_nonneg _
  unfold call OutputHandle.enqueueOutput
  dsimp only
  generalize hbytes : OutputCall.bytes (.enqueue line addEol flushOk results) = bytes at hint hadmits
  have hadds : OutputCall.adds (.enqueue line addEol flushOk results) true = [bytes] := by rw [← hbytes]; rfl
  have hline : (line ++ if addEol then [13, 10] else []) = bytes := hbytes
  rw [hline]
  by_cases hzero : h.outputLength = 0
  · rw [if_pos hzero] at hadmits
    have hshort : h.blocks = [] ∨ h.outputLength + bytes.length ≤ maxQueuedOutput := by
      apply hadmits.imp_right
      omega
    obtain ⟨h', happend, hwired, haccounts⟩ := hw.append (by omega) hshort
    rw [if_neg (fun h => h.1 hzero), happend]
    refine ⟨⟨true, []⟩, h', rfl, hwired, ⟨[], ?_⟩, fun hne => absurd rfl hne⟩
    rw [hadds]
    exact haccounts
  · rw [if_neg hzero] at hadmits
    have htrue : h.outputLength ≠ 0 ∧ wrap32 (h.outputLength + bytes.length + maxQueuedOutput) ≠ 0 := by
      refine ⟨hzero, ?_⟩
      rw [wrap32_of_fits (by omega) hadmits, maxQueuedOutput]
      omega
    rw [if_pos htrue]
    obtain ⟨hpushed, ⟨gone, haccounts⟩, hnone, hlength⟩ := hw.pushOutput results
    have hshrinks := hw.pushOutput_shrinks results
    generalize hpush : h.pushOutput results = pushed at hpushed haccounts hnone hlength hshrinks
    obtain ⟨returned, events, p⟩ := pushed
    have hpos' : 0 ≤ p.outputLength := hpushed.total ▸ Int.natCast_nonneg _
    have hflush : wrap32 (p.outputLength + bytes.length - maxQueuedOutput) =
        p.outputLength + bytes.length - maxQueuedOutput := by
      dsimp only at hlength
      rw [intMax_eq, maxQueuedOutput] at hadmits
      apply wrap32_of_fits
      · rw [maxQueuedOutput]
        omega
      · rw [intMax_eq, maxQueuedOutput]
        omega
    obtain ⟨h', happend, hwired, gone', haccounts'⟩ := hpushed.flush_append hint (by omega) hflush
    dsimp only
    split
    · refine ⟨⟨false, events⟩, p, rfl, hpushed, ⟨gone, haccounts⟩, fun hne => absurd hnone hne⟩
    · next hgo =>
        rw [happend]
        refine ⟨⟨true, _⟩, h', rfl, hwired, ⟨gone ++ gone', ?_⟩, fun hne => ⟨?_, rfl⟩⟩
        · rw [hadds]
          exact haccounts.trans haccounts'
        · -- Were flushing not permitted, there would be nothing to flush.
          by_contra hno
          apply hne
          have hle : wrap32 (p.outputLength + bytes.length - maxQueuedOutput) ≤ 0 := by
            by_contra hpos
            exact hgo ⟨Int.not_le.mp hpos, Bool.eq_false_iff.mpr hno⟩
          have hkept := (@Held.flush p _ hpushed.toHeld _ rfl (by dsimp only at hshrinks; omega)).2.2.2 hle
          dsimp only
          rw [hkept, List.append_nil]
          exact hnone

theorem Wired.call (hw : h.Wired) (hadmits : h.Admits c) :
    ∃ outcome h', h.call c = some (outcome, h') ∧ h'.Wired ∧
      (∃ gone, Accounts gone h (c.adds outcome.returned) outcome.events h') ∧
      (outcome.events.filterMap OutputEvent.rest ≠ [] → c.flushOk = true ∧ outcome.returned = true) := by
  cases c with
  | enqueue line addEol flushOk results => exact hw.enqueueOutput hadmits
  | push results =>
      obtain ⟨hwired, haccounts, hnone, -⟩ := hw.pushOutput results
      exact ⟨⟨_, _⟩, _, rfl, hwired, haccounts, fun hne => absurd hnone hne⟩

theorem Wired.calls {cs : List OutputCall} (hw : h.Wired) (hadmits : h.AdmitsAll cs) :
    ∃ outcomes h', OutputHandle.calls cs h = some (outcomes, h') ∧ h'.Wired ∧
      (∃ gone, Accounts gone h (outcomes.flatMap fun o => o.1.adds o.2.returned)
        (outcomes.flatMap fun o => o.2.events) h') ∧
      ∀ o ∈ outcomes, o.2.events.filterMap OutputEvent.rest ≠ [] →
        o.1.flushOk = true ∧ o.2.returned = true := by
  induction cs generalizing h with
  | nil =>
      refine ⟨[], h, rfl, hw, ⟨[], .refl⟩, ?_⟩
      intro o ho
      cases ho
  | cons c cs ih =>
      obtain ⟨outcome, h₁, hcall, hwired, ⟨gone, haccounts⟩, hpermitted⟩ := hw.call hadmits.1
      obtain ⟨outcomes, h', hcalls, hwired', ⟨gone', haccounts'⟩, hpermitted'⟩ :=
        ih hwired (hadmits.2 outcome h₁ hcall)
      refine ⟨(c, outcome) :: outcomes, h', ?_, hwired', ⟨gone ++ gone', haccounts.trans haccounts'⟩, ?_⟩
      · unfold OutputHandle.calls
        simp only [hcall, hcalls, Option.bind_eq_bind, Option.bind_some]
      · intro o ho
        obtain rfl | ho := List.mem_cons.mp ho
        · exact hpermitted
        · exact hpermitted' o ho

theorem Wired.bounded_single (hw : h.Wired) (hlong : maxQueuedOutput < h.outputLength) :
    ∃ b, h.blocks = [b] := by
  have hlen : h.blocks.length < 2 := by
    by_contra hlen
    have hle := hw.bounded (by omega)
    omega
  cases hb : h.blocks with
  | nil =>
      rw [hw.total, hb] at hlong
      exact absurd hlong (by simp)
  | cons b rest =>
      rw [hb, List.length_cons] at hlen
      have hrest : rest.length = 0 := by omega
      exact ⟨b, by rw [List.length_eq_zero_iff.mp hrest]⟩

/-- The queue after calls each of which is as it should be. -/
theorem calls_ordered (cs : List OutputCall) (hadmits : newOutput.AdmitsAll cs) :
    ∃ outcomes h, calls cs newOutput = some (outcomes, h) ∧ h.Ordered outcomes := by
  obtain ⟨outcomes, h, hcalls, hw, haccounts, hpermitted⟩ := wired_newOutput.calls hadmits
  refine ⟨outcomes, h, hcalls, ?_, hw.tail_eq, ?_, haccounts, hpermitted, hw.bounded_single⟩
  · have hlength : ∀ b ∈ h.blocks, b.length = b.remaining.length := by
      intro b hb
      have hb := hw.lengths b hb
      unfold TextBlock.remaining
      rw [List.length_drop]
      omega
    rw [hw.total, List.map_congr_left hlength]
  · intro b hb
    unfold TextBlock.sent
    rw [hw.begun b hb, List.take_zero]

/-- A line of which three bytes are written before a long one comes, and then room for a notice. -/
def noticeCalls (line : List UInt8) : List OutputCall :=
  [.enqueue [104, 105] true true [], .enqueue line false true [.took 3, .failed true], .push [.took 60, .failed true]]

theorem noticeCalls_first : ∃ first : OutputHandle,
    newOutput.call (.enqueue [104, 105] true true []) = some (⟨true, []⟩, first) ∧
      first.blocks = [⟨0, [104, 105, 13, 10], 0, 4⟩] ∧ first.outputTail = some 0 ∧ first.outputLength = 4 ∧
      first.outputLinesFlushed = 0 :=
  ⟨_, rfl, rfl, rfl, rfl, rfl⟩

theorem noticeCalls_admitted {line : List UInt8} (hlength : line.length = maxQueuedOutput) :
    newOutput.AdmitsAll (noticeCalls line) := by
  obtain ⟨first, hfirst, hblocks, -, hcount, hflushed⟩ := noticeCalls_first
  refine ⟨⟨by decide, by decide, .inl rfl⟩, fun outcome h hcall => ⟨?_, fun _ _ _ => ⟨trivial, fun _ _ _ => trivial⟩⟩⟩
  cases hfirst.symm.trans hcall
  simp [Admits, OutputCall.bytes, hblocks, hcount, hflushed, hlength, maxQueuedOutput, intMax_eq]

theorem noticeCalls_events {line : List UInt8} (hlength : line.length = maxQueuedOutput) :
    ∃ outcomes h, calls (noticeCalls line) newOutput = some (outcomes, h) ∧
      outcomes.flatMap (fun o => o.2.events) =
        [.wrote [104, 105, 13], .dropped [10], .noticed (overflowNotice 1) 1] := by
  obtain ⟨first, hfirst, hblocks, htail, hcount, hflushed⟩ := noticeCalls_first
  obtain ⟨second, hsecond, hlines, hblock⟩ : ∃ second : OutputHandle,
      first.call (.enqueue line false true [.took 3, .failed true]) =
        some (⟨true, [.wrote [104, 105, 13], .dropped [10]]⟩, second) ∧ second.outputLinesFlushed = 1 ∧
        second.blocks = [⟨first.fresh, line, 0, line.length⟩] := by
    simp [call, OutputHandle.enqueueOutput, OutputHandle.pushOutput, OutputHandle.pushBlocks,
      OutputHandle.took, OutputHandle.flush, OutputHandle.dropFirst, OutputHandle.resetTail, OutputHandle.append,
      TextBlock.remaining, hblocks, hcount, hflushed, htail, hlength, maxQueuedOutput, wrap32]
  have hfits : (overflowNotice 1).length ≤ 60 := by decide
  have hthird : ∃ third, second.call (.push [.took 60, .failed true]) =
      some (⟨true, [.noticed (overflowNotice 1) 1]⟩, third) := by
    simp [call, OutputHandle.pushOutput, OutputHandle.pushBlocks, hlines, hblock, hfits]
  obtain ⟨third, hthird⟩ := hthird
  have hcalls : calls (noticeCalls line) newOutput = some
      ([(.enqueue [104, 105] true true [], ⟨true, []⟩),
        (.enqueue line false true [.took 3, .failed true], ⟨true, [.wrote [104, 105, 13], .dropped [10]]⟩),
        (.push [.took 60, .failed true], ⟨true, [.noticed (overflowNotice 1) 1]⟩)], third) := by
    simp only [calls, noticeCalls, hfirst, hsecond, hthird, Option.bind_eq_bind, Option.bind_some]
  exact ⟨_, _, hcalls, rfl⟩

theorem notice_ordered : ∃ outcomes h,
    calls (noticeCalls (List.replicate maxQueuedOutput 0)) newOutput = some (outcomes, h) ∧ h.Ordered outcomes ∧
      outcomes.flatMap (fun o => o.2.events) =
        [.wrote [104, 105, 13], .dropped [10], .noticed (overflowNotice 1) 1] := by
  obtain ⟨outcomes, h, hcalls, hevents⟩ := noticeCalls_events (List.length_replicate (a := (0 : UInt8)))
  obtain ⟨outcomes', h', hcalls', hordered⟩ := calls_ordered _ (noticeCalls_admitted List.length_replicate)
  cases hcalls.symm.trans hcalls'
  exact ⟨outcomes, h, hcalls, hordered, hevents⟩

/-- An empty block in the queue, and its length is still zero: a long block comes behind it without
anything being flushed. -/
theorem not_ordered_of_emptyBlock {line : List UInt8} (hlong : maxQueuedOutput < line.length)
    (hint : (line.length : Int) ≤ intMax) : ∃ outcomes h,
    calls [.enqueue [] false true [], .enqueue line false true []] newOutput = some (outcomes, h) ∧
      ¬ h.Ordered outcomes := by
  obtain ⟨first, hfirst, hfirst_blocks, hfirst_length, hfirst_tail⟩ :
      ∃ first : OutputHandle, newOutput.call (.enqueue [] false true []) = some (⟨true, []⟩, first) ∧
        first.blocks = [⟨0, [], 0, 0⟩] ∧ first.outputLength = 0 ∧ first.outputTail = some 0 :=
    ⟨_, rfl, rfl, by decide, rfl⟩
  have hfits : wrap32 (line.length : Int) = line.length := wrap32_of_fits (by omega) hint
  obtain ⟨second, hsecond, hblocks, hlength⟩ :
      ∃ second : OutputHandle, first.call (.enqueue line false true []) = some (⟨true, []⟩, second) ∧
        second.blocks.length = 2 ∧ second.outputLength = line.length := by
    refine ⟨{ first with
      blocks := [⟨0, [], 0, 0⟩, ⟨first.fresh, line, 0, line.length⟩]
      outputTail := some first.fresh
      outputLength := line.length
      fresh := first.fresh + 1 }, ?_, rfl, rfl⟩
    simp [call, OutputHandle.enqueueOutput, OutputHandle.append, hang, hfirst_blocks, hfirst_length, hfirst_tail,
      hfits]
  have hcalls : calls [.enqueue [] false true [], .enqueue line false true []] newOutput = some
      ([(.enqueue [] false true [], ⟨true, []⟩), (.enqueue line false true [], ⟨true, []⟩)], second) := by
    simp only [calls, hfirst, hsecond, Option.bind_eq_bind, Option.bind_some]
  refine ⟨_, second, hcalls, fun h => ?_⟩
  obtain ⟨b, hb⟩ := h.bounded (hlength ▸ Int.ofNat_lt.mpr hlong)
  rw [hb] at hblocks
  cases hblocks

theorem emptyBlock_not_ordered : ∃ outcomes h,
    calls [.enqueue [] false true [], .enqueue (List.replicate 131073 0) false true []] newOutput =
      some (outcomes, h) ∧ ¬ h.Ordered outcomes := by
  apply not_ordered_of_emptyBlock
  · rw [List.length_replicate]
    decide
  · rw [List.length_replicate]
    decide

end OutputHandle
end LambdaMoo
