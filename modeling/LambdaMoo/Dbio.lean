import LambdaMoo.Lib.Codec
import LambdaMoo.Structures

/-! The lowest layer of the database file: lines, numbers, strings and values, as db_io.c writes
and reads them. A reader that fails is a panic of the server. -/
namespace LambdaMoo
namespace Dbio

open Codec

abbrev Reader (α : Type) := Codec.Reader Char α

/-- What `printf` and `strtod` make of a floating-point number. -/
structure FloatFormat where
  print : UInt64 → Str
  strtod : Str → UInt64

/-- The characters `fgets` takes when it may still take `n`, and what it leaves. -/
def takeLine : Nat → Str → Str × Str
  | 0, s => ([], s)
  | _ + 1, [] => ([], [])
  | n + 1, c :: cs =>
      if c = '\n' then ([c], cs) else (c :: (takeLine n cs).1, (takeLine n cs).2)

/-- `fgets(s, n, input)`; at the end of the file there is nothing to get. -/
def fgets (n : Nat) : Reader Str := fun input =>
  match input with
  | [] => none
  | _ => some (takeLine (n - 1) input)

def isspace (c : Char) : Bool := c ∈ [' ', '\t', '\n', '\x0b', '\x0c', '\r']

/-- `strtol(s, 0, 10)`, with the ends of the range of `long` for what is beyond them. -/
def strtol (s : Str) : Int :=
  let digits (s : Str) : Nat := Nat.ofDigitChars 10 (s.takeWhile Char.isDigit) 0
  let value : Int := match s.dropWhile isspace with
    | '-' :: s => -(digits s : Int)
    | '+' :: s => digits s
    | s => digits s
  max (-2 ^ 63) (min value (2 ^ 63 - 1))

/-- `dbio_read_num`; the error it may log is left out. -/
def readNum : Reader Int := do
  let s ← fgets 20
  return wrap32 (strtol s)

def readObjid : Reader Objid := readNum

def readFloat (fmt : FloatFormat) : Reader UInt64 := do
  let s ← fgets 40
  return fmt.strtod s

/-- The rounds of `dbio_read_string`; a piece that fills the buffer has more of its line to come. -/
def readPieces : Nat → Str → Reader Str
  | 0, _ => fun _ => none
  | fuel + 1, str => do
      let buffer ← fgets 1024
      if buffer.length = 1024 - 1 ∧ buffer.getLast? ≠ some '\n' then
        readPieces fuel (str ++ buffer)
      else if buffer.getLast? = some '\n' then return str ++ buffer.dropLast
      else return str ++ buffer

def readString : Reader Str := fun input => readPieces (input.length + 1) [] input

def errors : List Error :=
  [.eNone, .eType, .eDiv, .ePerm, .ePropnf, .eVerbnf, .eVarnf, .eInvind, .eRecmove, .eMaxrec,
    .eRange, .eArgs, .eNacc, .eInvarg, .eQuota, .eFloat]

def errorNum (e : Error) : Int := errors.idxOf e

/-- A number is taken as it is for what the type says; one that is none of that type is not read. -/
def numAs (f : Nat → Option Var) (n : Int) : Reader Var := fun input =>
  if n < 0 then none else (f n.toNat).map (·, input)

def readVarOfType (fmt : FloatFormat) (readElement : Reader Var) : Int → Reader Var
  | 5 => return .clear
  | 6 => return .none
  | 2 => return .str (← readString)
  | 1 => return .obj (← readNum)
  | 3 => do numAs (fun n => errors[n]?.map .err) (← readNum)
  | 0 => return .int (← readNum)
  | 7 => do numAs (fun n => some (.catchMarker n)) (← readNum)
  | 8 => do numAs (fun n => some (.finallyMarker n)) (← readNum)
  | 9 => return .float (← readFloat fmt)
  | 4 => do
      let l ← readNum
      return .list (← many readElement l.toNat)
  | _ => return zero

def readVarWithin (fmt : FloatFormat) (prehistory : Bool) : Nat → Reader Var
  | 0 => fun _ => none
  | fuel + 1 => do
      let l ← readNum
      readVarOfType fmt (readVarWithin fmt prehistory fuel) (if l = -1 ∧ prehistory then 6 else l)

def readVar (fmt : FloatFormat) (prehistory : Bool) : Reader Var := fun input =>
  readVarWithin fmt prehistory (input.length + 1) input

/-! The writers. -/

def decimal (n : Int) : Str :=
  if n < 0 then '-' :: Nat.toDigits 10 n.natAbs else Nat.toDigits 10 n.natAbs

def writeNum (n : Int) : Str := decimal n ++ ['\n']

def writeObjid (oid : Objid) : Str := writeNum oid

def writeString (s : Str) : Str := s ++ ['\n']

mutual
def writeVar (fmt : FloatFormat) : Var → Str
  | .clear => writeNum 5
  | .none => writeNum 6
  | .str s => writeNum 2 ++ writeString s
  | .obj oid => writeNum 1 ++ writeNum oid
  | .err e => writeNum 3 ++ writeNum (errorNum e)
  | .int n => writeNum 0 ++ writeNum n
  | .catchMarker n => writeNum 7 ++ writeNum n
  | .finallyMarker n => writeNum 8 ++ writeNum n
  | .float d => writeNum 9 ++ (fmt.print d ++ ['\n'])
  | .list l => writeNum 4 ++ (writeNum l.length ++ writeVars fmt l)
def writeVars (fmt : FloatFormat) : List Var → Str
  | [] => []
  | v :: vs => writeVar fmt v ++ writeVars fmt vs
end

end Dbio
end LambdaMoo
