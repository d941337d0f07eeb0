import LambdaMoo.Numbers
import LambdaMoo.Streams

/-! The lexer of the language, at the current version of the database, where every keyword
counts. Characters come as `int`, and a `char` that is made an `int` keeps its sign. -/
namespace LambdaMoo

def eof : Int := -1

def charInt (c : Char) : Int := (c.toNat : Int).bmod 256

def ord (c : Char) : Int := c.toNat

def intByte (c : Int) : UInt8 := UInt8.ofNat (c % 256).toNat

/-- `my_getc(data)` of a list of strings, of which the part that is not yet read is left; a task
that runs out of time meanwhile is left out. -/
def myGetc : List Str → Int × List Str
  | [] => (eof, [])
  | [] :: code => (ord '\n', code)
  | (c :: str) :: code => (charInt c, str :: code)

def charsOf : List Str → List Int
  | [] => []
  | str :: code => str.map charInt ++ ord '\n' :: charsOf code

theorem myGetc_charsOf (code : List Str) :
    (myGetc code).1 = (charsOf code).headD eof ∧ charsOf (myGetc code).2 = (charsOf code).tail := by
  cases code with
  | nil => exact ⟨rfl, rfl⟩
  | cons str code => cases str <;> simp [myGetc, charsOf]

inductive Keyword
  | if_ | else_ | elseif | endif | for_ | in_ | endfor | fork | endfork | return_ | while_ | endwhile
  | try_ | except | finally_ | endtry | any | break_ | continue_
  deriving DecidableEq, Repr

inductive Token
  | char (c : Int)
  | integer (n : Int)
  | object (oid : Objid)
  | real (bits : UInt64)
  | string (s : Str)
  | id (name : Str)
  | error (e : Error)
  | keyword (k : Keyword)
  | eq | ne | le | ge | or | and | to | arrow
  deriving DecidableEq, Repr

def keywords : List (Str × Token) :=
  [("if".toList, .keyword .if_), ("else".toList, .keyword .else_), ("elseif".toList, .keyword .elseif),
    ("endif".toList, .keyword .endif), ("for".toList, .keyword .for_), ("in".toList, .keyword .in_),
    ("endfor".toList, .keyword .endfor), ("fork".toList, .keyword .fork),
    ("endfork".toList, .keyword .endfork), ("return".toList, .keyword .return_),
    ("while".toList, .keyword .while_), ("endwhile".toList, .keyword .endwhile),
    ("try".toList, .keyword .try_), ("except".toList, .keyword .except),
    ("finally".toList, .keyword .finally_), ("endtry".toList, .keyword .endtry),
    ("ANY".toList, .keyword .any), ("break".toList, .keyword .break_),
    ("continue".toList, .keyword .continue_), ("E_NONE".toList, .error .eNone),
    ("E_TYPE".toList, .error .eType), ("E_DIV".toList, .error .eDiv), ("E_PERM".toList, .error .ePerm),
    ("E_PROPNF".toList, .error .ePropnf), ("E_VERBNF".toList, .error .eVerbnf),
    ("E_VARNF".toList, .error .eVarnf), ("E_INVIND".toList, .error .eInvind),
    ("E_RECMOVE".toList, .error .eRecmove), ("E_MAXREC".toList, .error .eMaxrec),
    ("E_RANGE".toList, .error .eRange), ("E_ARGS".toList, .error .eArgs),
    ("E_NACC".toList, .error .eNacc), ("E_INVARG".toList, .error .eInvarg),
    ("E_QUOTA".toList, .error .eQuota), ("E_FLOAT".toList, .error .eFloat)]

def findKeyword (word : Str) : Option Token := keywords.lookup word

/-- The lexer: the characters that are pushed back and those to come, the line, and the errors
that have been reported, each with its line. -/
structure Lexer where
  input : List Int
  lineno : Nat
  errors : List (Nat × Str)

namespace Lexer

/-! The classes of characters of the C locale. -/

def isspace (c : Int) : Bool := c = ord ' ' || (9 ≤ c && c ≤ 13)

def isdigit (c : Int) : Bool := ord '0' ≤ c && c ≤ ord '9'

def isalpha (c : Int) : Bool := (ord 'A' ≤ c && c ≤ ord 'Z') || (ord 'a' ≤ c && c ≤ ord 'z')

def isword (c : Int) : Bool := isalpha c || isdigit c || c = ord '_'

def yyerror (l : Lexer) (s : String) : Lexer := { l with errors := l.errors ++ [(l.lineno, s.toList)] }

/-- Where the loops before a token end: at a character, or in a comment at the end of the program. -/
inductive Skipped
  | at (c : Int) (input : List Int) (lineno : Nat)
  | inComment (lineno : Nat)

def skip : Bool → Nat → List Int → Skipped
  | false, lineno, [] => .at eof [] lineno
  | false, lineno, c :: input =>
      if isspace c then skip false (if c = ord '\n' then lineno + 1 else lineno) input
      else if c = ord '/' then
        match input with
        | [] => .at c [] lineno
        | c' :: input => if c' = ord '*' then skip true lineno input else .at c (c' :: input) lineno
      else .at c input lineno
  | true, lineno, [] => .inComment lineno
  | true, lineno, c :: input =>
      if c = ord '*' then
        -- the character behind the star is gone, also when it is another star
        match input with
        | [] => .inComment lineno
        | c' :: input =>
            if c' = ord '/' then skip false lineno input
            else if c' = eof then .inComment lineno
            else skip true lineno input
      else if c = eof then .inComment lineno
      else skip true lineno input

def follow (l : Lexer) (expect : Char) (ifyes ifno : Token) : Token × Lexer :=
  if l.input.head? = some (ord expect) then (ifyes, { l with input := l.input.tail }) else (ifno, l)

def value (digits : List Int) : Int := digits.foldl (fun n c => wrap32 (n * 10 + (c - ord '0'))) 0

def object (l : Lexer) : Token × Lexer :=
  let negative := l.input.head? = some (ord '-')
  let input := if negative then l.input.tail else l.input
  if (input.takeWhile isdigit).isEmpty then
    (.char 0, { l with input }.yyerror "Malformed object number")
  else
    let oid := value (input.takeWhile isdigit)
    (.object (if negative then wrap32 (-oid) else oid), { l with input := input.dropWhile isdigit })

/-- A number while it is read: whether it is floating-point, its text and the characters behind. -/
structure Numeral where
  isFloat : Bool
  text : List Int
  rest : List Int

/-- The point of a number and what belongs to it; none is a point that is no part of a number. -/
def fraction (digits rest : List Int) : Option Numeral :=
  if rest.head? = some (ord '.') then
    let after := rest.tail
    if after.head?.any isdigit then
      some ⟨true, digits ++ ord '.' :: after.takeWhile isdigit, after.dropWhile isdigit⟩
    else if digits.isEmpty then none
    -- the first of two points is no part of it
    else if after.head? ≠ some (ord '.') then some ⟨true, digits ++ [ord '.'], after⟩
    else some ⟨false, digits, rest⟩
  else some ⟨false, digits, rest⟩

def exponent (n : Numeral) : Except (List Int) Numeral :=
  if n.rest.head? = some (ord 'e') ∨ n.rest.head? = some (ord 'E') then
    let after := n.rest.tail
    let sign := after.take (if after.head? = some (ord '+') ∨ after.head? = some (ord '-') then 1 else 0)
    let digits := after.drop sign.length
    if digits.head?.any isdigit then
      .ok ⟨true, n.text ++ n.rest.take 1 ++ sign ++ digits.takeWhile isdigit, digits.dropWhile isdigit⟩
    else .error digits
  else .ok n

variable (strtod : Str → UInt64)

def number (l : Lexer) : Token × Lexer :=
  let digits := l.input.takeWhile isdigit
  match fraction digits (l.input.dropWhile isdigit) with
  | none => follow { l with input := l.input.tail } '.' .to (.char (ord '.'))
  | some n =>
      match exponent n with
      | .error rest => (.char 0, { l with input := rest }.yyerror "Malformed floating-point literal")
      | .ok n =>
          let l := { l with input := n.rest }
          if n.isFloat then
            let d := strtod (Stream.text (n.text.map intByte))
            if Float64.isReal d then (.real d, l)
            else (.real 0, l.yyerror "Floating-point literal out of range")
          else (.integer (value digits), l)

def word (l : Lexer) : Token × Lexer :=
  let buf := Stream.text ((l.input.takeWhile isword).map intByte)
  ((findKeyword buf).getD (.id buf), { l with input := l.input.dropWhile isword })

/-- The loop over a string, behind its first quote: whether it comes to the other one. -/
def stringLoop : List Int → Stream → Bool × Stream × List Int
  | [], s => (false, s, [])
  | c :: input, s =>
      if c = ord '"' then (true, s, input)
      else if c = ord '\\' then
        match input with
        | [] => (false, s, [])
        | c :: input =>
            if c = ord '\n' ∨ c = eof then (false, s, input) else stringLoop input (s.addChar (intByte c))
      else if c = ord '\n' ∨ c = eof then (false, s, input)
      else stringLoop input (s.addChar (intByte c))

def string (l : Lexer) : Token × Lexer :=
  let (closed, s, input) := stringLoop l.input []
  let l := { l with input }
  (.string s.text, if closed then l else l.yyerror "Missing quote")

def operator (c : Int) (l : Lexer) : Token × Lexer :=
  if c = ord '>' then l.follow '=' .ge (.char c)
  else if c = ord '<' then l.follow '=' .le (.char c)
  else if c = ord '=' then
    if l.input.head? = some (ord '=') then l.follow '=' .eq (.char 0) else l.follow '>' .arrow (.char c)
  else if c = ord '!' then l.follow '=' .ne (.char c)
  else if c = ord '|' then l.follow '|' .or (.char c)
  else if c = ord '&' then l.follow '&' .and (.char c)
  else (.char c, l)

def yylex (l : Lexer) : Token × Lexer :=
  match skip false l.lineno l.input with
  | .inComment lineno =>
      (.char eof, { l with input := [], lineno }.yyerror "End of program while in a comment")
  | .at c input lineno =>
      let l := { l with input, lineno }
      if c = ord '#' then l.object
      else if isdigit c ∨ c = ord '.' then number strtod { l with input := c :: input }
      else if isalpha c ∨ c = ord '_' then word { l with input := c :: input }
      else if c = ord '"' then l.string
      else operator c l

/-- The tokens that the parser asks for, one after the other, until there is one that stands for
the end; none is more than there can be. -/
def tokens : Nat → Lexer → Option (List Token) × Lexer
  | 0, l => (none, l)
  | fuel + 1, l =>
      match l.yylex strtod with
      | (.char c, l) =>
          if c ≤ 0 then (some [], l)
          else ((tokens fuel l).1.map (.char c :: ·), (tokens fuel l).2)
      | (t, l) => ((tokens fuel l).1.map (t :: ·), (tokens fuel l).2)

end Lexer

end LambdaMoo
