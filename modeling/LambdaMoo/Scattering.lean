import LambdaMoo.Admitted
import LambdaMoo.CodeGen
import LambdaMoo.Editing
import LambdaMoo.RangeLoops

/-! Scattering assignments: the elements of a list are distributed over variables, and
defaults are evaluated for those that get none. -/
namespace LambdaMoo

/-! What a scattering assignment is to do. -/

inductive Share
  | element (id : Nat) (v : Var)
  | rest (id : Nat) (l : List Var)
  | missing (id : Nat) (default : Default)

/-- The elements from the left to the right. Of the optional targets, as many as `avail` get
one; the rest target gets as many as `excess`. -/
def distribute : Scatter → Nat → Nat → List Var → Option (List Share)
  | .nil, _, _, _ => some []
  | .cons .required id _ next, avail, excess, v :: l => (distribute next avail excess l).map (.element id v :: ·)
  | .cons .optional id default next, 0, excess, l => (distribute next 0 excess l).map (.missing id default :: ·)
  | .cons .optional id _ next, avail + 1, excess, v :: l => (distribute next avail excess l).map (.element id v :: ·)
  | .cons .rest id _ next, avail, excess, l =>
      if excess ≤ l.length then (distribute next avail excess (l.drop excess)).map (.rest id (l.take excess) :: ·)
      else none
  | _, _, _, [] => none

/-- What is left after the required targets goes to the optional ones; what is left then is
for the rest target. -/
def distributed (targets : Scatter) (l : List Var) : Option (List Share) :=
  let avail := l.length - targets.countKind .required
  distribute targets avail (avail - targets.countKind .optional) l

def Share.elements : Share → List Var
  | .element _ v => [v]
  | .rest _ l => l
  | .missing .. => []

def assign : List Share → (Nat → Var) → Nat → Var
  | [], env => env
  | .element id v :: shares, env => assign shares (Function.update env id v)
  | .rest id l :: shares, env => assign shares (Function.update env id (.list l))
  | .missing .. :: shares, env => assign shares env

def unfilled : List Share → List (Nat × Expr)
  | [] => []
  | .missing id (.some expr) :: shares => (id, expr) :: unfilled shares
  | _ :: shares => unfilled shares

section

variable {W : Type}

/-- Defaults are evaluated and assigned in order; `eval` says what an expression can evaluate
to, with the variables and what is around them. -/
inductive Defaulted (eval : Expr → (Nat → Var) × W → Var → (Nat → Var) × W → Prop) :
    List (Nat × Expr) → (Nat → Var) × W → (Nat → Var) × W → Prop
  | nil (s) : Defaulted eval [] s s
  | cons {id : Nat} {e : Expr} {v : Var} {env : Nat → Var} {w : W} {defaults : List (Nat × Expr)}
      {s s' : (Nat → Var) × W} :
      eval e s v (env, w) → Defaulted eval defaults (Function.update env id v, w) s' →
      Defaulted eval ((id, e) :: defaults) s s'

/-! The code. -/

/-- The code of a default: the expression at its place, and where its value is put into the
variable and popped. -/
structure DefaultCode where
  id : Nat
  expr : Expr
  place : Nat
  put : Nat

inductive PutsAt (bc : Bytecodes) (id pc next : Nat) : Prop
  | short (slot : Fin 32) : id = slot → bc.vector[pc]? = some (Opcode.put slot).byte →
      bc.vector[pc + 1]? = some Opcode.pop.byte → next = pc + 2 → PutsAt bc id pc next
  | general (p : Nat) : bc.vector[pc]? = some Opcode.gPut.byte →
      bc.read bc.numbytes.varName (pc + 1) = .ok (id, p) → bc.vector[p]? = some Opcode.pop.byte →
      next = p + 1 → PutsAt bc id pc next

def BlocksAt (bc : Bytecodes) : Nat → List DefaultCode → Nat → Prop
  | place, [], done => place = done
  | place, b :: blocks, done =>
      place = b.place ∧ b.place < b.put ∧ ∃ next, PutsAt bc b.id b.put next ∧ BlocksAt bc next blocks done

inductive OperandsAt (bc : Bytecodes) : Scatter → Nat → Nat → List DefaultCode → Prop
  | nil (pc) : OperandsAt bc .nil pc pc []
  | default {id : Nat} {e : Expr} {next : Scatter} {pc p q stop place put : Nat} {blocks : List DefaultCode} :
      bc.read bc.numbytes.varName pc = .ok (id, p) → bc.read bc.numbytes.label p = .ok (place, q) → 1 < place →
      OperandsAt bc next q stop blocks →
      OperandsAt bc (.cons .optional id (.some e) next) pc stop (⟨id, e, place, put⟩ :: blocks)
  | optional {id : Nat} {next : Scatter} {pc p q stop : Nat} {blocks : List DefaultCode} :
      bc.read bc.numbytes.varName pc = .ok (id, p) → bc.read bc.numbytes.label p = .ok (1, q) →
      OperandsAt bc next q stop blocks → OperandsAt bc (.cons .optional id .none next) pc stop blocks
  | plain {kind : ScatterKind} {id : Nat} {default : Default} {next : Scatter} {pc p q stop : Nat}
      {blocks : List DefaultCode} :
      kind ≠ .optional → bc.read bc.numbytes.varName pc = .ok (id, p) → bc.read bc.numbytes.label p = .ok (0, q) →
      OperandsAt bc next q stop blocks → OperandsAt bc (.cons kind id default next) pc stop blocks

/-- A scattering assignment in a code vector, after its right-hand side. -/
structure ScatterCode where
  pc : Nat
  targets : Scatter
  blocks : List DefaultCode
  start : Nat
  done : Nat

structure ScatterCode.StandsIn (code : ScatterCode) (bc : Bytecodes) : Prop where
  extended : bc.vector[code.pc]? = some Opcode.extended.byte
  scatter : bc.vector[code.pc + 1]? = some ExtendedOpcode.scatter.byte
  nargs : bc.vector[code.pc + 2]? = some (UInt8.ofNat code.targets.count)
  nreq : bc.vector[code.pc + 3]? = some (UInt8.ofNat (code.targets.countKind .required))
  rest : bc.vector[code.pc + 4]? = some (UInt8.ofNat (CodeGen.Scatter.rest code.targets))
  operands : ∃ stop pc, OperandsAt bc code.targets (code.pc + 5) stop code.blocks ∧
    bc.read bc.numbytes.label stop = .ok (code.done, pc)
  defaults : BlocksAt bc code.start code.blocks code.done

/-- A run up to the end of the assignment, with the defaults that it evaluates. -/
inductive Run (bc : Bytecodes) (code : ScatterCode)
    (eval : Expr → (Nat → Var) × W → Var → (Nat → Var) × W → Prop) :
    Activation × W → List Expr → Activation × W → Prop
  | done {a : Activation} {w : W} : a.pc = code.done → Run bc code eval (a, w) [] (a, w)
  | default {a : Activation} {w w' : W} {b : DefaultCode} {v : Var} {env : Nat → Var} {es : List Expr}
      {s : Activation × W} :
      b ∈ code.blocks → a.pc = b.place → eval b.expr (a.env, w) v (env, w') →
      Run bc code eval ({ a with pc := b.put, rts := v :: a.rts, env := env }, w') es s →
      Run bc code eval (a, w) (b.expr :: es) s
  | opcode {a a' : Activation} {w : W} {es : List Expr} {s : Activation × W} :
      a.pc ≠ code.done → (∀ b ∈ code.blocks, a.pc ≠ b.place) → Goes bc a a' →
      Run bc code eval (a', w) es s → Run bc code eval (a, w) es s

def Refuses (bc : Bytecodes) (code : ScatterCode) (a : Activation) (e : Error) (rts : List Var) : Prop :=
  perform bc a = some (.ok (if a.debug then .error e else .ok { a with pc := code.done, rts := .err e :: rts }))

/-- What the code of a scattering assignment is to do with the value on the stack. -/
def Scatters (bc : Bytecodes) (code : ScatterCode)
    (eval : Expr → (Nat → Var) × W → Var → (Nat → Var) × W → Prop) (a : Activation) (w : W) (value : Var)
    (rts : List Var) : Prop :=
  match value with
  | .list l =>
      if l.length < code.targets.countKind .required ∨
          (code.targets.countKind .rest = 0 ∧ code.targets.count < l.length) then Refuses bc code a .eArgs rts
      else ∃ shares a', distributed code.targets l = some shares ∧ shares.flatMap Share.elements = l ∧
        Goes bc a a' ∧ a'.env = assign shares a.env ∧ a'.rts = a.rts ∧
        ∀ es s, Run bc code eval (a', w) es s ↔
          es = (unfilled shares).map Prod.snd ∧ ∃ env w',
            Defaulted eval (unfilled shares) (assign shares a.env, w) (env, w') ∧
              s = ({ a with pc := code.done, env := env }, w')
  | _ => Refuses bc code a .eType rts

end

end LambdaMoo
