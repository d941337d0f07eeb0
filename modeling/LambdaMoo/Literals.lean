import LambdaMoo.Ast
import LambdaMoo.Dbio
import LambdaMoo.Lexer

/-! Literals: the text that a value is printed as, and the part of the grammar that reads such
a text. The parser is the one that is generated from the grammar. Its stack holds a bounded
number of symbols, and what needs more of them is refused. -/
namespace LambdaMoo

variable (fmt : Dbio.FloatFormat) (fl : Doubles)

def errorName : Error → Str
  | .eNone => "E_NONE".toList
  | .eType => "E_TYPE".toList
  | .eDiv => "E_DIV".toList
  | .ePerm => "E_PERM".toList
  | .ePropnf => "E_PROPNF".toList
  | .eVerbnf => "E_VERBNF".toList
  | .eVarnf => "E_VARNF".toList
  | .eInvind => "E_INVIND".toList
  | .eRecmove => "E_RECMOVE".toList
  | .eMaxrec => "E_MAXREC".toList
  | .eRange => "E_RANGE".toList
  | .eArgs => "E_ARGS".toList
  | .eNacc => "E_NACC".toList
  | .eInvarg => "E_INVARG".toList
  | .eQuota => "E_QUOTA".toList
  | .eFloat => "E_FLOAT".toList

def printFloat (fnum : UInt64) : Str :=
  let buffer := fmt.print fnum
  if '.' ∉ buffer ∧ 'e' ∉ buffer then buffer ++ ".0".toList else buffer

def printChars : Str → Stream → Stream
  | [], s => s
  | c :: str, s =>
      let s := if c = '"' ∨ c = '\\' then s.addChar (charByte '\\') else s
      printChars str (s.addChar (charByte c))

mutual
/-- `print_to_stream(v, s)`; the message about a type that is none of the language is left out. -/
def printToStream : Var → Stream → Stream
  | .int num, s => s.addString (itoa num 10)
  | .obj obj, s => (s.addString ['#']).addString (itoa obj 10)
  | .err err, s => s.addString (errorName err)
  | .float fnum, s => s.addString (printFloat fmt fnum)
  | .str str, s => (printChars str (s.addChar (charByte '"'))).addChar (charByte '"')
  | .list list, s => (printElements [] list (s.addChar (charByte '{'))).addChar (charByte '}')
  | _, s => s.addString ">>Unknown value<<".toList
def printElements (sep : Str) : List Var → Stream → Stream
  | [], s => s
  | v :: list, s => printElements [',', ' '] list (printToStream v (s.addString sep))
end

def valueToLiteral (v : Var) : Str := (printToStream fmt v []).text

/-! The productions that a literal, a list of literals and the statement that returns one need. -/

@[match_pattern] abbrev Token.minus : Token := .char 45
@[match_pattern] abbrev Token.comma : Token := .char 44
@[match_pattern] abbrev Token.semicolon : Token := .char 59
@[match_pattern] abbrev Token.lbrace : Token := .char 123
@[match_pattern] abbrev Token.rbrace : Token := .char 125
@[match_pattern] abbrev Token.return_ : Token := .keyword .return_

/-- A symbol on the stack of the parser, with its value. -/
inductive Symbol
  | token (t : Token)
  | statements (stmts : Stmts)
  | expr (e : Expr)
  | neArglist (args : ArgList)

def ArgList.snoc (e : Expr) : ArgList → ArgList
  | .nil => .cons .normal e .nil
  | .cons kind expr next => .cons kind expr (next.snoc e)

def Stmts.snoc (stmt : Stmt) : Stmts → Stmts
  | .nil => .cons stmt .nil
  | .cons first next => .cons first (next.snoc stmt)

namespace Parser

def negate : Expr → Expr
  | .var (.int num) => .var (.int (wrap32 (-num)))
  | .var (.float fnum) => .var (.float (fl.neg fnum))
  | e => .unary .negate e

/-- What becomes of an expression on top of the stack. No token that can follow here binds stronger
than a minus sign, so none of the productions has to wait for it. -/
def reduceExpr (e : Expr) : List Symbol → List Symbol
  | .token .minus :: stack => reduceExpr (negate fl e) stack
  | .token .lbrace :: stack => .neArglist (.cons .normal e .nil) :: .token .lbrace :: stack
  | .token .comma :: .neArglist args :: stack => .neArglist (args.snoc e) :: stack
  | stack => .expr e :: stack

def wantsExpr : List Symbol → Bool
  | .token .return_ :: _ | .token .minus :: _ | .token .lbrace :: _ | .token .comma :: _ => true
  | _ => false

def literal : Token → Option Var
  | .integer n => some (.int n)
  | .object oid => some (.obj oid)
  | .real bits => some (.float bits)
  | .string s => some (.str s)
  | .error e => some (.err e)
  | _ => none

variable (maxDepth : Nat)

/-- The stack when there is room for more symbols; none is a parser that gives up. -/
def room (more : Nat) (stack before : List Symbol) : Option (List Symbol) :=
  if before.length + more ≤ maxDepth then some stack else none

/-- The next token is shifted, and what is complete by it is reduced. None is also a syntax error. -/
def shift (stack : List Symbol) : Token → Option (List Symbol)
  | .semicolon =>
      match stack with
      | .token .return_ :: .statements stmts :: below =>
          room maxDepth 1 (.statements (stmts.snoc (.return_ .none)) :: below) stack
      | .expr e :: .token .return_ :: .statements stmts :: below =>
          room maxDepth 1 (.statements (stmts.snoc (.return_ (.some e))) :: below) stack
      | _ => none
  | .return_ =>
      match stack with
      | .statements _ :: _ => room maxDepth 1 (.token .return_ :: stack) stack
      | _ => none
  | .comma =>
      match stack with
      | .neArglist _ :: _ => room maxDepth 1 (.token .comma :: stack) stack
      | _ => none
  | .rbrace =>
      match stack with
      | .neArglist args :: .token .lbrace :: below =>
          room maxDepth 1 (reduceExpr fl (.list args) below) stack
      -- an empty arglist is a symbol, too
      | .token .lbrace :: below => room maxDepth 2 (reduceExpr fl (.list .nil) below) stack
      | _ => none
  | .minus => if wantsExpr stack then room maxDepth 1 (.token .minus :: stack) stack else none
  | .lbrace => if wantsExpr stack then room maxDepth 1 (.token .lbrace :: stack) stack else none
  | t =>
      match literal t with
      | some v => if wantsExpr stack then room maxDepth 1 (reduceExpr fl (.var v) stack) stack else none
      | none => none

def parse (ts : List Token) : Option Stmts := do
  let start ← room maxDepth 1 [.statements .nil] []
  match ← ts.foldlM (shift fl maxDepth) start with
  | [.statements stmts] => some stmts
  | _ => none

/-- `parse_list_as_program(code, &errors)` as far as to the statements; there are none when anything
has been reported. -/
def parseListAsProgram (code : List Str) : Option Stmts :=
  let input := charsOf code
  let (ts, l) := Lexer.tokens fmt.strtod (input.length + 1) ⟨input, 1, []⟩
  if l.errors.isEmpty then ts.bind (parse fl maxDepth) else none

end Parser

mutual
/-- What an expression that these productions build evaluates to; none is an error that it raises. -/
def evaluate : Expr → Option Var
  | .var v => some v
  | .unary .negate e => do
      let v ← evaluate e
      if v.isNumber then some (opUnaryMinus fl v) else none
  | .list args => do some (.list (← evaluateArgs args))
  | _ => none
def evaluateArgs : ArgList → Option (List Var)
  | .nil => some []
  | .cons .normal e next => do
      let v ← evaluate e
      some (v :: (← evaluateArgs next))
  | .cons .splice _ _ => none
end

/-- A value is printed, and the text is read and evaluated as an expression. -/
def readBack (maxDepth : Nat) (v : Var) : Option Var :=
  match Parser.parseListAsProgram fmt fl maxDepth ["return ".toList ++ valueToLiteral fmt v ++ [';']] with
  | some (.cons (.return_ (.some e)) .nil) => evaluate fl e
  | _ => none

end LambdaMoo
