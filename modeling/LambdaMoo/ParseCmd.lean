import LambdaMoo.VerbMatching

/-! Commands and their words. The words are put together in the buffer that is still being
read; the place up to which it has been read goes with it, and what is written is checked
against it. -/
namespace LambdaMoo

/-- What a scan of a buffer must not do: leave it, write over what it has not read, or go
on for ever. -/
inductive Overrun
  | outside | unread | endless
  deriving DecidableEq, Repr

structure Scan where
  buf : Str
  input : Nat
  ptr : Nat
  /-- The characters before this one have been read. -/
  seen : Nat

def Scan.look (s : Scan) : Except Overrun (Char × Scan) :=
  match s.buf[s.input]? with
  | some c => .ok (c, { s with seen := max s.seen (s.input + 1) })
  | none => .error .outside

def Scan.next (s : Scan) : Scan := { s with input := s.input + 1 }

def Scan.put (s : Scan) (c : Char) : Except Overrun Scan :=
  if s.buf.length ≤ s.ptr then .error .outside
  else if s.seen ≤ s.ptr then .error .unread
  else .ok { s with buf := s.buf.set s.ptr c, ptr := s.ptr + 1 }

def skipBlanks : Nat → Scan → Except Overrun Scan
  | 0, _ => .error .endless
  | fuel + 1, s => do
      let (c, s) ← s.look
      if c = ' ' then skipBlanks fuel s.next else return s

def wordLoop : Nat → Bool → Scan → Except Overrun (Bool × Scan)
  | 0, _, _ => .error .endless
  | fuel + 1, inQuotes, s => do
      let (c, s) ← s.look
      if c = nul ∨ (inQuotes = false ∧ c = ' ') then return (inQuotes, s)
      let s := s.next
      if c = '"' then wordLoop fuel (!inQuotes) s
      else if c = '\\' then
        let (d, s) ← s.look
        if d ≠ nul then wordLoop fuel inQuotes (← s.next.put d)
        else wordLoop fuel inQuotes s
      else wordLoop fuel inQuotes (← s.put c)

def wordsLoop : Nat → Bool → Scan → List Nat → Except Overrun (List Nat × Scan)
  | 0, _, _, _ => .error .endless
  | fuel + 1, inQuotes, s, words => do
      let (c, s) ← s.look
      if c = nul then return (words, s)
      let start := s.ptr
      let (inQuotes, s) ← wordLoop (s.buf.length + 1) inQuotes s
      let s ← skipBlanks (s.buf.length + 1) s
      wordsLoop fuel inQuotes (← s.put nul) (words ++ [start])

def stringAt (buf : Str) (i : Nat) : Str := (buf.drop i).takeWhile (· ≠ nul)

def parseIntoWords (input : Str) : Except Overrun (List Str) := do
  let buf := input ++ [nul]
  let s ← skipBlanks (buf.length + 1) ⟨buf, 0, 0, 0⟩
  let (words, s) ← wordsLoop (buf.length + 1) false s []
  return words.map (stringAt s.buf)

def buildString : List Str → Str
  | [] => []
  | [word] => word
  | word :: argv => word ++ ' ' :: buildString argv

/-! Prepositions. -/

def prepList : List Str :=
  ["with/using", "at/to", "in front of", "in/inside/into", "on top of/on/onto/upon",
    "out of/from inside/from", "over", "through", "under/underneath/beneath", "behind", "beside",
    "for/about", "is", "as", "off/off of"].map String.toList

def prepTable : List (List (List Str)) :=
  prepList.map fun p => (p.splitOn '/').map fun cprep => cprep.splitOn ' '

def aliasAt (argv : List Str) (i : Nat) (words : List Str) : Bool :=
  i + words.length ≤ argv.length && ((argv.drop i).zip words).all fun (arg, word) => sameName arg word

/-- The first entry of the table that has an alias at a place, and the alias. -/
def prepAt (argv : List Str) (i : Nat) : Option (Nat × List Str) :=
  prepTable.zipIdx.findSome? fun (aliases, j) => (aliases.find? (aliasAt argv i)).map fun words => (j, words)

/-- `db_find_prep(argc, argv, &first, &last)`; none is `PREP_NONE`. -/
def dbFindPrep (argv : List Str) : Option (Nat × Nat × Nat) :=
  (List.range argv.length).findSome? fun i =>
    (prepAt argv i).map fun (j, words) => (j, i, i + words.length - 1)

/-! Commands. -/

structure ParsedCommand where
  verb : Str
  argstr : Str
  args : List Str
  prep : Option Nat
  prepstr : Str
  dobjstr : Str
  dobj : Objid
  iobjstr : Str
  iobj : Objid
  deriving DecidableEq, Repr

def specialVerb : Char → Option Str
  | '"' => some "say".toList
  | ':' => some "emote".toList
  | ';' => some "eval".toList
  | _ => none

def skipVerb : Bool → Str → Str
  | _, [] => []
  | inQuotes, '"' :: argstr => skipVerb (!inQuotes) argstr
  | inQuotes, '\\' :: _ :: argstr => skipVerb inQuotes argstr
  | inQuotes, c :: argstr =>
      if inQuotes = false ∧ c = ' ' then c :: argstr else skipVerb inQuotes argstr

/-- `build_string(argc, argv + start)`; none is a count or a word outside of `argv`. -/
def buildFrom (argv : List Str) (start : Nat) (argc : Int) : Option Str :=
  if 0 ≤ argc ∧ start + argc.toNat ≤ argv.length then some (buildString ((argv.drop start).take argc.toNat))
  else none

def findObjects (matchObject : Objid → Str → Objid) (user : Objid) (argstr : Str) (argv : List Str) :
    Option ParsedCommand := do
  let argc := argv.length
  let found := if 1 < argc then dbFindPrep argv.tail else none
  let (prep, pstart, pend) := match found with
    | none => (none, argc, argc)
    | some (prep, first, last) => (some prep, first + 1, last + 1)
  let (prepstr, iobjstr, iobj) ←
    if prep.isSome then do
      let prepstr ← buildFrom argv pstart (pend - pstart + 1)
      let iobjstr ← buildFrom argv (pend + 1) (argc - (pend + 1))
      pure (prepstr, iobjstr, matchObject user iobjstr)
    else pure ([], [], nothing)
  let dlen : Int := pstart - 1
  let (dobjstr, dobj) ←
    if dlen = 0 then pure ([], nothing)
    else do
      let dobjstr ← buildFrom argv 1 dlen
      pure (dobjstr, matchObject user dobjstr)
  return { verb := argv.headD [], argstr, args := argv.tail, prep, prepstr, dobjstr, dobj, iobjstr, iobj }

def commandText (command : Str) : Str × Str :=
  let command := command.dropWhile (· = ' ')
  match command.head?.bind specialVerb with
  | some verb => (verb ++ ' ' :: command.tail, command.tail)
  | none => (command, (skipVerb false command).dropWhile (· = ' '))

/-- `parse_command(command, user)`: a fault, no command, or the command; none within is a
word outside of `argv`. -/
def parseCommand (matchObject : Objid → Str → Objid) (user : Objid) (command : Str) :
    Except Overrun (Option (Option ParsedCommand)) := do
  let (buf, argstr) := commandText command
  let argv ← parseIntoWords buf
  if argv.length = 0 then return some none
  else return (findObjects matchObject user argstr argv).map some

end LambdaMoo
