import LambdaMoo.FilePaths
import LambdaMoo.Lib.Stdio
import LambdaMoo.ListEdit

/-! The functions of extensions.c that edit and search text files by lines. What they read goes
through one buffer, line by line or in pieces of what it holds. -/
namespace LambdaMoo
namespace LineFiles
open FilePaths Stdio

structure TextFile where
  text : Str
  noNul : '\x00' ∉ text

/-- What is outside of these functions: the file system, the text of the time, `%g`, and
`do_match`. `contents` has the files that `fopen` opens for reading, `opens` says whether it opens
one for writing. -/
structure FileHost where
  fs : FileSystem
  contents : Str → Option TextFile
  opens : Str → Bool
  time : Str
  printFloat : UInt64 → Str
  doMatch : Str → Str → Var

def FileHost.matches (h : FileHost) (subject pattern : Str) : Bool := (h.doMatch subject pattern).isTrue

/-- What a function returns, and the file that it leaves where there was none or another. -/
structure Done where
  value : Var
  written : Option (Str × Str)

def maxInt : Int := 32760

/-! Arguments. -/

def argStr (args : List Var) (i : Nat) : Except Crash Str := do
  match ← element args i with
  | .str s => .ok s
  | _ => .error .wild

def argNum (args : List Var) (i : Nat) : Except Crash Int := do
  match ← element args i with
  | .int n => .ok n
  | _ => .error .wild

def argList (args : List Var) (i : Nat) : Except Crash (List Var) := do
  match ← element args i with
  | .list l => .ok l
  | _ => .error .wild

def numberOr (args : List Var) (i : Nat) (default : Except Crash Int) : Except Crash Int :=
  if i ≤ args.length then argNum args i else default

/-! Loops. -/

/-- A loop that goes on while `goes` says so of the number of the line and the end of the file has
not been met; each round reads with `wrapped_fgets`. A step gets the number of the line, what is in
the buffer, and whether the end has been met by now. -/
def eachLine {σ : Type} (goes : Int → Bool) (step : σ → Int → Str → Bool → σ) (index : Int)
    (f : File Char) (acc : σ) : Except Crash (Int × File Char × σ) :=
  if goes index && !f.eof then
    match _hread : fgets '\n' bufLen f with
    | (none, _) => .error .panic
    | (some buffer, f') => eachLine goes step (wrap32 (index + 1)) f' (step acc index buffer f'.eof)
  else .ok (index, f, acc)
termination_by f.rest.length
decreasing_by exact (fgets_lt _hread).2.2

def skip {σ : Type} (acc : σ) (_ : Int) (_ : Str) (_ : Bool) : σ := acc

def copy (out : Str) (_ : Int) (buffer : Str) (_ : Bool) : Str := out ++ buffer

def copyMore (out : Str) (_ : Int) (buffer : Str) (eof : Bool) : Str := if eof then out else out ++ buffer

/-- The last character is taken off, and the line is returned if the end has not been met. -/
def keep (ret : List Var) (_ : Int) (buffer : Str) (eof : Bool) : List Var :=
  if eof then ret else ret ++ [.str buffer.dropLast]

/-! The functions that read. -/

def readLines (text : Str) (startLine endLine : Int) : Except Crash (List Var) := do
  let (index, f, _) ← eachLine (· < startLine) skip 1 (.opened text) ()
  let (_, _, ret) ← eachLine (· ≤ endLine) keep index f []
  return ret

def bfFileread (h : FileHost) (args : List Var) : Except Crash (Except Error Done) := do
  let dir ← argStr args 1
  let name ← argStr args 2
  match buildFileName h.fs dir name 'r' with
  | .error e => return .error e
  | .ok infileName => do
      let startLine ← numberOr args 3 (.ok 1)
      let endLine ← numberOr args 4 (.ok maxInt)
      match h.contents infileName with
      | none => return .error .eInvarg
      | some file => do
          let ret ← readLines file.text startLine endLine
          return .ok ⟨.list ret, none⟩

structure GrepOption where
  strings : Bool
  numbers : Bool
  showfound : Bool

def grepOption (option : Option Str) : GrepOption :=
  match option with
  | none => ⟨true, false, true⟩
  | some option =>
      ⟨!(strstr option ['n'] && !strstr option ['s']), strstr option ['n'], !strstr option ['v']⟩

def argOption (args : List Var) : Except Crash (Option Str) :=
  if args.length = 4 then some <$> argStr args 4 else .ok none

def grepStep (h : FileHost) (o : GrepOption) (pattern : Str) (found : List Var × List Var) (lineNum : Int)
    (buffer : Str) (eof : Bool) : List Var × List Var :=
  let (slist, nlist) := found
  if h.matches buffer pattern == o.showfound then
    (if o.strings && !eof then slist ++ [.str buffer.dropLast] else slist,
      if o.numbers && !eof then nlist ++ [.int lineNum] else nlist)
  else found

def bfFilegrep (h : FileHost) (args : List Var) : Except Crash (Except Error Done) := do
  let dir ← argStr args 1
  let name ← argStr args 2
  match buildFileName h.fs dir name 'r' with
  | .error e => return .error e
  | .ok infileName => do
      let option ← argOption args
      match h.contents infileName with
      | none => return .error .eInvarg
      | some file => do
          let pattern ← argStr args 3
          let (_, _, slist, nlist) ←
            eachLine (fun _ => true) (grepStep h (grepOption option) pattern) 1 (.opened file.text) ([], [])
          return .ok ⟨.list [.list slist, .list nlist], none⟩

structure Extraction where
  status : Nat
  startLine : Int
  startList : List Var
  endList : List Var

def extractStep (h : FileHost) (requiredPattern : Bool) (first second last : Str) (x : Extraction)
    (numOfLine : Int) (buffer : Str) (_ : Bool) : Extraction :=
  let x :=
    if x.status = 1 ∧ h.matches buffer first then
      { x with startLine := numOfLine, status := if requiredPattern then 2 else 3 }
    else x
  let x := if x.status = 2 ∧ h.matches buffer last then { x with status := 3 } else x
  if (x.status = 2 ∨ x.status = 3) ∧ h.matches buffer second then
    if x.status = 3 then
      { x with status := 1, startList := x.startList ++ [.int x.startLine],
               endList := x.endList ++ [.int numOfLine] }
    else { x with status := 1 }
  else x

def bfFileextract (h : FileHost) (args : List Var) : Except Crash (Except Error Done) := do
  let dir ← argStr args 1
  let name ← argStr args 2
  match buildFileName h.fs dir name 'r' with
  | .error e => return .error e
  | .ok infileName => do
      let first ← argStr args 3
      let second ← argStr args 4
      let last ← argStr args args.length
      if name = [] ∨ first = [] ∨ second = [] ∨ last = [] then return .error .eInvarg
      else
        match h.contents infileName with
        | none => return .error .eInvarg
        | some file => do
            let (_, _, x) ← eachLine (fun _ => true) (extractStep h (4 < args.length) first second last) 1
              (.opened file.text) ⟨1, 0, [], []⟩
            return .ok ⟨.list [.list x.startList, .list x.endList], none⟩

/-! The functions that edit. -/

/-- What `build_file_name` has put into the buffer when it gets so far; too long a name is cut off. -/
def fileNameBuffer (dir name : Str) : Option Str :=
  if bufLen ≤ dir.length ∨ bufLen ≤ name.length then none
  else
    some ((fupSubdir ++ removeSpecialCharacters dir ++ '/' :: removeSpecialCharacters name).take (bufLen - 1))

/-- The name of a file to edit, which need not exist: only `E_PERM` is an error here. -/
def editName (h : FileHost) (dir name : Str) : Except Crash (Except Error Str) :=
  match buildFileName h.fs dir name 'w' with
  | .ok infileName => .ok (.ok infileName)
  | .error .ePerm => .ok (.error .ePerm)
  | .error _ =>
      match fileNameBuffer dir name with
      | some infileName => .ok (.ok infileName)
      | none => .error .unset

def FileHost.outfileName (h : FileHost) (infileName : Str) : Str := infileName ++ '.' :: h.time

def unparseError : Error → Str
  | .eNone => "No error".toList
  | .eType => "Type mismatch".toList
  | .eDiv => "Division by zero".toList
  | .ePerm => "Permission denied".toList
  | .ePropnf => "Property not found".toList
  | .eVerbnf => "Verb not found".toList
  | .eVarnf => "Variable not found".toList
  | .eInvind => "Invalid indirection".toList
  | .eRecmove => "Recursive move".toList
  | .eMaxrec => "Too many verb calls".toList
  | .eRange => "Range error".toList
  | .eArgs => "Incorrect number of arguments".toList
  | .eNacc => "Move refused by destination".toList
  | .eInvarg => "Invalid argument".toList
  | .eQuota => "Resource limit exceeded".toList
  | .eFloat => "Floating-point arithmetic error".toList

def elementText (h : FileHost) : Var → Str
  | .int n => itoa n 10
  | .float bits => h.printFloat bits
  | .obj o => '#' :: itoa o 10
  | .str s => s
  | .err e => unparseError e
  | .list _ => "{list}".toList
  | _ => "*** unrecognized VAR TYPE (this should never happen) ***".toList

def printedList (h : FileHost) : List Var → Str
  | [] => []
  | v :: list => elementText h v ++ '\n' :: printedList h list

/-- The loops of the functions that edit, and what is printed between them: the lines before
`startLine`, those up to `endLine` left out, if the function has the loop for it, and the lines behind. -/
def editText (text : Str) (startLine : Int) (endLine : Option Int) (printed : Str) : Except Crash Str := do
  let (index, f, out) ← eachLine (· < startLine) copy 1 (.opened text) []
  let (_, f, _) ← eachLine (fun index => endLine.any (index ≤ ·)) skip index f ()
  let (_, _, out) ← eachLine (fun _ => true) copyMore 1 f (out ++ printed)
  return out

def editFile (h : FileHost) (infileName : Str) (startLine : Int) (endLine : Option Int) (printed : Str) :
    Except Crash (Except Error Done) :=
  if !h.opens (h.outfileName infileName) then .ok (.error .eInvarg)
  else
    match h.contents infileName with
    | none => .ok (.ok ⟨.int 1, some (infileName, printed)⟩)
    | some file => do
        let out ← editText file.text startLine endLine printed
        return .ok ⟨.int 1, some (infileName, out)⟩

def bfFilewrite (h : FileHost) (args : List Var) : Except Crash (Except Error Done) := do
  let dir ← argStr args 1
  let name ← argStr args 2
  match ← editName h dir name with
  | .error e => return .error e
  | .ok infileName => do
      let startLine ← numberOr args 4 (.ok 1)
      let list ← argList args 3
      let endLine ← numberOr args 5 (do return wrap32 (wrap32 ((← argNum args 4) + list.length) - 1))
      editFile h infileName startLine (some endLine) (printedList h list)

def bfFileinsert (h : FileHost) (args : List Var) : Except Crash (Except Error Done) := do
  let dir ← argStr args 1
  let name ← argStr args 2
  match ← editName h dir name with
  | .error e => return .error e
  | .ok infileName => do
      let startLine ← numberOr args 4 (.ok 1)
      let list ← argList args 3
      editFile h infileName startLine none (printedList h list)

def bfFilecut (h : FileHost) (args : List Var) : Except Crash (Except Error Done) := do
  let dir ← argStr args 1
  let name ← argStr args 2
  match ← editName h dir name with
  | .error e => return .error e
  | .ok infileName => do
      let startLine ← numberOr args 3 (.ok 1)
      let endLine ← numberOr args 4 (do return wrap32 ((← argNum args 3) - 1))
      editFile h infileName startLine (some endLine) []

/-! Registration. -/

def isStr : Var → Bool
  | .str _ => true
  | _ => false

inductive LineFunction
  | fileread
  | filewrite
  | fileinsert
  | filecut
  | filegrep
  | fileextract

namespace LineFunction

def minargs : LineFunction → Nat
  | fileread => 2
  | filewrite => 3
  | fileinsert => 3
  | filecut => 2
  | filegrep => 3
  | fileextract => 4

def prototype : LineFunction → List (Var → Bool)
  | fileread => [isStr, isStr, Var.isInt, Var.isInt]
  | filewrite => [isStr, isStr, Var.isList]
  | fileinsert => [isStr, isStr, Var.isList, Var.isInt, Var.isInt]
  | filecut => [isStr, isStr, Var.isInt, Var.isInt]
  | filegrep => [isStr, isStr, isStr, isStr]
  | fileextract => [isStr, isStr, isStr, isStr, isStr]

def run (h : FileHost) : LineFunction → List Var → Except Crash (Except Error Done)
  | fileread => bfFileread h
  | filewrite => bfFilewrite h
  | fileinsert => bfFileinsert h
  | filecut => bfFilecut h
  | filegrep => bfFilegrep h
  | fileextract => bfFileextract h

/-- The registration lets the arguments through. -/
structure Admits (fn : LineFunction) (args : List Var) : Prop where
  check : checkArgs fn.minargs fn.prototype args = none
  storable : ∀ v ∈ args, v.storable = true

end LineFunction

end LineFiles
end LambdaMoo
