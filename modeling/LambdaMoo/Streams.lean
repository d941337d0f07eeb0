import LambdaMoo.Cells
import LambdaMoo.DbProperties

/-! Streams, the numbers that are printed to them, and the codec of binary strings. The
streams of the codec are static: what one call leaves in them the next one finds. -/
namespace LambdaMoo

/-- What has been added to a stream since it was last reset. -/
abbrev Stream := List UInt8

def charByte (c : Char) : UInt8 := UInt8.ofNat c.toNat

def byteChar (b : UInt8) : Char := Char.ofNat b.toNat

namespace Stream

def addChar (s : Stream) (c : UInt8) : Stream := s ++ [c]

/-- The text stays below `2 ^ 30 - 2` bytes here: at that length `stream_add_string` is a panic of the server, as the
model of the buffer has it. -/
def addString (s : Stream) (string : Str) : Stream := s ++ string.map charByte

def text (s : Stream) : Str := (s.takeWhile (· ≠ 0)).map byteChar

end Stream

def itoaDigit (digit : Nat) : Char :=
  if digit < 10 then Char.ofNat ('0'.toNat + digit) else Char.ofNat ('A'.toNat + digit - 10)

def itoaLoop (radix : Nat) : Nat → Nat → Str → Str
  | 0, _, buffer => buffer
  | room + 1, n, buffer =>
      if n = 0 then buffer else itoaLoop radix room (n / radix) (itoaDigit (n % radix) :: buffer)

def itoa (n : Int) (radix : Nat) : Str :=
  if n = 0 then ['0']
  else if n = -2147483647 - 1 then
    match radix with
    | 16 => "-7FFFFFFF".toList
    | 10 => "-2147483648".toList
    | 8 => "-17777777777".toList
    | _ => ['0']
  else if n < 0 then '-' :: itoaLoop radix 19 n.natAbs []
  else itoaLoop radix 19 n.natAbs []

def padded (pad : Char) (width : Nat) (string : Str) : Str :=
  List.replicate (width - string.length) pad ++ string

/-! `raw_bytes_to_binary` and `binary_to_raw_bytes`. -/

def isgraph (c : UInt8) : Bool := 33 ≤ c && c ≤ 126

def rawByte (s : Stream) (c : UInt8) : Stream :=
  if c ≠ charByte '~' ∧ (isgraph c ∨ c = charByte ' ') then s.addChar c
  else (s.addChar (charByte '~')).addString (padded '0' 2 (itoa c.toNat 16))

def rawBytesToBinary (s : Stream) (buffer : List UInt8) : Str × Stream :=
  ((buffer.foldl rawByte s).text, [])

def toupper (c : Char) : Char := if 'a' ≤ c ∧ c ≤ 'z' then Char.ofNat (c.toNat - 32) else c

def hexDigit (c : Char) : Option UInt8 :=
  let c := toupper c
  if ('0' ≤ c ∧ c ≤ '9') ∨ ('A' ≤ c ∧ c ≤ 'F') then
    some (UInt8.ofNat (if c ≤ '9' then c.toNat - '0'.toNat else c.toNat - 'A'.toNat + 10))
  else none

/-- The loop of `binary_to_raw_bytes`: whether it gets to the end, and the stream. The NUL
at the end is no digit. -/
def binaryLoop : Str → Stream → Bool × Stream
  | [], s => (true, s)
  | '~' :: x :: y :: ptr, s =>
      match hexDigit x, hexDigit y with
      | some i, some j => binaryLoop ptr (s.addChar ((0 * 16 + i) * 16 + j))
      | _, _ => (false, s)
  | '~' :: _, s => (false, s)
  | c :: ptr, s => binaryLoop ptr (s.addChar (charByte c))

def binaryToRawBytes (_s : Stream) (binary : Str) : Option (List UInt8) × Stream :=
  match binaryLoop binary [] with
  | (true, s) => (some s, [])
  | (false, s) => (none, s)

/-! `decode_binary` and `encode_binary`. -/

def inRun (c : UInt8) : Bool := isgraph c || c = charByte ' ' || c = charByte '\t'

def countElements : List UInt8 → Nat → Bool → Nat
  | [], count, _ => count
  | c :: bytes, count, inString =>
      if inRun c then countElements bytes (if inString then count else count + 1) true
      else countElements bytes (count + 1) false

structure Filling where
  r : Cells
  count : Nat
  inString : Bool
  s : Stream

def Filling.putRun (f : Filling) : Option Filling :=
  if f.inString then do
    let r ← f.r.put f.count (.str f.s.text)
    return { f with r, count := f.count + 1, s := [] }
  else some f

def Filling.step (f : Filling) (c : UInt8) : Option Filling :=
  if inRun c then some { f with s := f.s.addChar c, inString := true }
  else do
    let f ← f.putRun
    let r ← f.r.put f.count (.int c.toNat)
    return { f with r, count := f.count + 1, inString := false }

def fillLoop : List UInt8 → Filling → Option Filling
  | [], f => f.putRun
  | c :: bytes, f => do fillLoop bytes (← f.step c)

structure Statics where
  raw : Stream
  binary : Stream
  decode : Stream
  encode : Stream

def Statics.initial : Statics := ⟨[], [], [], []⟩

/-- `bf_decode_binary(arglist)`. The first element of the argument list is a string; none
is a list that is not filled as it was counted. -/
def bfDecodeBinary (st : Statics) (binary : Str) (more : List Var) : Option (Except Error Var) × Statics :=
  let (bytes, s) := binaryToRawBytes st.binary binary
  let fully := more.head?.any Var.isTrue
  match bytes with
  | none => (some (.error .eInvarg), { st with binary := s })
  | some bytes =>
      if fully then
        (some (.ok (.list (bytes.map fun c => .int c.toNat))), { st with binary := s })
      else
        let r := List.replicate (countElements bytes 0 false) none
        match fillLoop bytes ⟨r, 1, false, st.decode⟩ with
        | none => (none, { st with binary := s })
        | some f => (f.r.value.map .ok, { st with binary := s, decode := f.s })

mutual
def encodeBinary (s : Stream) : Var → Bool × Stream
  | .int num => if num < 0 ∨ 256 ≤ num then (false, s) else (true, s.addChar (UInt8.ofNat num.toNat))
  | .str str => (true, s.addString str)
  | .list list => encodeBinaryList s list
  | _ => (false, s)
def encodeBinaryList (s : Stream) : List Var → Bool × Stream
  | [] => (true, s)
  | v :: list =>
      match encodeBinary s v with
      | (true, s) => encodeBinaryList s list
      | (false, s) => (false, s)
end

def bfEncodeBinary (st : Statics) (arglist : List Var) : Except Error Var × Statics :=
  match encodeBinaryList st.encode arglist with
  | (true, s) =>
      let (str, raw) := rawBytesToBinary st.raw s
      (.ok (.str str), { st with raw, encode := [] })
  | (false, _) => (.error .eInvarg, { st with encode := [] })

end LambdaMoo
