import LambdaMoo.Program

/-! The code generator. Every function takes the generator state and returns
the state it leaves; none is a call of `server_panic`. Growing the arrays is not
modelled, and the list of loops has the innermost loop first. -/
namespace LambdaMoo.CodeGen

inductive FixupKind
  | literal | fork | label | varRef | stack
  deriving DecidableEq, Repr

/-- How many fixups of each kind, for computing how far operands spread code. -/
structure Counts where
  literals : Nat := 0
  forks : Nat := 0
  varRefs : Nat := 0
  labels : Nat := 0
  stackRefs : Nat := 0
  deriving DecidableEq, Repr

structure Fixup where
  kind : FixupKind
  pc : Nat
  value : Nat
  prev : Counts
  next : Option Nat
  deriving DecidableEq, Repr

structure GState where
  totalVarRefs : Nat := 0
  literals : List Var := []
  forkVectors : List Bytecodes := []

structure Loop where
  id : Option Nat
  topLabel : Fixup
  topStack : Nat
  bottomLabel : Option Nat
  bottomStack : Nat

/-- The state of one vector's generation. `curStacks` is not in the source: it
records the value `cur_stack` had when each byte was emitted. -/
structure State where
  maxLiteral : Nat := 0
  maxFork : Nat := 0
  maxVarRef : Nat := 0
  num : Counts := {}
  fixups : List Fixup := []
  bytes : List UInt8 := []
  curStack : Nat := 0
  maxStack : Nat := 0
  savedStack : Option Nat := none
  loops : List Loop := []
  gstate : GState
  curStacks : List Nat := []

def initState (gstate : GState) : State := { gstate := gstate }

def emitByte (b : UInt8) (st : State) : State :=
  { st with bytes := st.bytes ++ [b], curStacks := st.curStacks ++ [st.curStack] }

def emitOp (op : Opcode) (st : State) : State := emitByte op.byte st

def emitExtendedByte (eop : ExtendedOpcode) (st : State) : State :=
  emitByte eop.byte (emitOp .extended st)

def addKnownFixup (f : Fixup) (st : State) : Nat × State :=
  (st.fixups.length,
    emitByte 0 { st with fixups := st.fixups ++ [{ f with pc := st.bytes.length }] })

def addLinkedFixup (kind : FixupKind) (value : Nat) (next : Option Nat) (st : State) :
    Nat × State :=
  addKnownFixup { kind := kind, pc := 0, value := value, prev := st.num, next := next } st

def addFixup (kind : FixupKind) (value : Nat) (st : State) : Nat × State :=
  addLinkedFixup kind value none st

def sameLiteral (v literal : Var) : Bool :=
  v.sameType literal && equality true v literal == some true

def internLiteral (v : Var) (literals : List Var) : Nat × List Var :=
  let i := literals.findIdx (sameLiteral v)
  (i, if i = literals.length then literals ++ [v] else literals)

def addLiteral (v : Var) (st : State) : State :=
  let (i, literals) := internLiteral v st.gstate.literals
  let st := (addFixup .literal i { st with gstate := { st.gstate with literals := literals } }).2
  { st with
    num := { st.num with literals := st.num.literals + 1 }
    maxLiteral := max st.maxLiteral i }

def addFork (bc : Bytecodes) (st : State) : State :=
  let i := st.gstate.forkVectors.length
  let gstate := { st.gstate with forkVectors := st.gstate.forkVectors ++ [bc] }
  let st := (addFixup .fork i { st with gstate := gstate }).2
  { st with num := { st.num with forks := st.num.forks + 1 }, maxFork := max st.maxFork i }

def addVarRef (slot : Nat) (st : State) : State :=
  let st := (addFixup .varRef slot st).2
  { st with
    num := { st.num with varRefs := st.num.varRefs + 1 }
    maxVarRef := max st.maxVarRef slot
    gstate := { st.gstate with totalVarRefs := st.gstate.totalVarRefs + 1 } }

def countLabel (st : State) : State :=
  { st with num := { st.num with labels := st.num.labels + 1 } }

def addLinkedLabel (next : Option Nat) (st : State) : Nat × State :=
  let (label, st) := addLinkedFixup .label 0 next st
  (label, countLabel st)

def addLabel (st : State) : Nat × State := addLinkedLabel none st

def addPseudoLabel (value : Nat) (st : State) : State :=
  countLabel (addKnownFixup
    { kind := .label, pc := 0, value := value, prev := {}, next := none } st).2

def addKnownLabel (f : Fixup) (st : State) : State := countLabel (addKnownFixup f st).2

def captureLabel (st : State) : Fixup :=
  { kind := .label, pc := 0, value := st.bytes.length, prev := st.num, next := none }

/-- Give every fixup of a chain the current place as its value. A link leads to
a fixup added earlier, so the number of fixups bounds the walk. -/
def defineChain (value : Nat) (num : Counts) : Nat → Option Nat → List Fixup → List Fixup
  | _, none, fixups => fixups
  | 0, some _, fixups => fixups
  | fuel + 1, some label, fixups =>
      let next := (fixups[label]?).bind (·.next)
      defineChain value num fuel next
        (fixups.modify label fun f => { f with value := value, prev := num })

def defineLabel (label : Option Nat) (st : State) : State :=
  { st with
    fixups := defineChain st.bytes.length st.num st.fixups.length label st.fixups }

def addStackRef (index : Nat) (st : State) : State := (addFixup .stack index st).2

def pushStack (n : Nat) (st : State) : State :=
  { st with curStack := st.curStack + n, maxStack := max st.maxStack (st.curStack + n) }

def popStack (n : Nat) (st : State) : State := { st with curStack := st.curStack - n }

def saveStackTop (st : State) : Option Nat × State :=
  (st.savedStack, { st with savedStack := some (st.curStack - 1) })

def restoreStackTop (old : Option Nat) (st : State) : State := { st with savedStack := old }

def enterLoop (loop : Loop) (st : State) : State := { st with loops := loop :: st.loops }

def exitLoop (st : State) : Option Nat × State :=
  ((st.loops.head?).bind (·.bottomLabel), { st with loops := st.loops.tail })

inductive VarOp
  | put | push
  deriving DecidableEq, Repr

def VarOp.ready : VarOp → Fin 32 → Opcode
  | .put => .put
  | .push => .push

def VarOp.general : VarOp → Opcode
  | .put => .gPut
  | .push => .gPush

def emitVarOp (op : VarOp) (slot : Nat) (st : State) : State :=
  if h : slot < 32 then emitOp (op.ready ⟨slot, h⟩) st
  else addVarRef slot (emitOp op.general st)

def LogicKind.opcode : LogicKind → Opcode
  | .and => .and
  | .or => .or

def UnaryKind.opcode : UnaryKind → Opcode
  | .not => .not
  | .negate => .unaryMinus

def emitBinary : BinaryKind → State → State
  | .eq => emitOp .eq
  | .ne => emitOp .ne
  | .ge => emitOp .ge
  | .gt => emitOp .gt
  | .le => emitOp .le
  | .lt => emitOp .lt
  | .in_ => emitOp .in_
  | .plus => emitOp .add
  | .minus => emitOp .minus
  | .times => emitOp .mult
  | .divide => emitOp .div
  | .mod => emitOp .mod
  | .exp => emitExtendedByte .exp

/-- The place of the first rest target, counted from 1, or one past the end. The
source keeps the last one; the parser admits at most one. -/
def Scatter.rest (targets : Scatter) : Nat :=
  let rec go : Scatter → Nat → Option Nat → Option Nat
    | .nil, _, rest => rest
    | .cons kind _ _ next, nargs, rest =>
        go next (nargs + 1) (if kind = .rest then some (nargs + 1) else rest)
  (go targets 0 none).getD (targets.count + 1)

/-- The operands of the targets; the labels of the targets with a default are
returned in order. -/
def scatterOperands : Scatter → State → List Nat × State
  | .nil, st => ([], st)
  | .cons kind id expr next, st =>
      let st := addVarRef id st
      match kind, expr with
      | .optional, .some _ =>
          let (label, st) := addLabel st
          let (labels, st) := scatterOperands next st
          (label :: labels, st)
      | .optional, .none => scatterOperands next (addPseudoLabel 1 st)
      | _, _ => scatterOperands next (addPseudoLabel 0 st)

def storeLvalue : Expr → State → Option State
  | .range base _ _, st => storeLvalue base (popStack 3 (emitExtendedByte .rangeset st))
  | .index lhs _, st => storeLvalue lhs (popStack 2 (emitOp .indexset st))
  | .id slot, st => some (emitVarOp .put slot st)
  | .prop _ _, st => some (popStack 2 (emitOp .putProp st))
  | _, _ => none

def Expr.isIndexed : Expr → Bool
  | .range .. | .index .. => true
  | _ => false

def generateAny (st : State) : State := pushStack 1 (emitOp (optimNumToOpcode 0) st)

mutual
def generateExpr : Expr → State → Option State
  | .var (.int num), st =>
      if inOptimNumRange num then some (pushStack 1 (emitOp (optimNumToOpcode num) st))
      else some (pushStack 1 (addLiteral (.int num) (emitOp .imm st)))
  | .var v, st => some (pushStack 1 (addLiteral v (emitOp .imm st)))
  | .id slot, st => some (pushStack 1 (emitVarOp .push slot st))
  | .logic kind lhs rhs, st => do
      let st ← generateExpr lhs st
      let (endLabel, st) := addLabel (emitOp (LogicKind.opcode kind) st)
      let st ← generateExpr rhs (popStack 1 st)
      return defineLabel (some endLabel) st
  | .unary kind expr, st => do
      let st ← generateExpr expr st
      return emitOp (UnaryKind.opcode kind) st
  | .binary kind lhs rhs, st => do
      let st ← generateExpr lhs st
      let st ← generateExpr rhs st
      return popStack 1 (emitBinary kind st)
  | .prop lhs rhs, st => do
      let st ← generateExpr lhs st
      let st ← generateExpr rhs st
      return popStack 1 (emitOp .getProp st)
  | .index lhs rhs, st => do
      let st ← generateExpr lhs st
      let (old, st) := saveStackTop st
      let st ← generateExpr rhs st
      return popStack 1 (emitOp .ref (restoreStackTop old st))
  | .range base lower upper, st => do
      let st ← generateExpr base st
      let (old, st) := saveStackTop st
      let st ← generateExpr lower st
      let st ← generateExpr upper st
      return popStack 2 (emitOp .rangeRef (restoreStackTop old st))
  | .length, st =>
      match st.savedStack with
      | some saved => some (pushStack 1 (addStackRef saved (emitExtendedByte .length st)))
      | none => none
  | .list args, st => generateArgList args st
  | .call func args, st => do
      let st ← generateArgList args st
      return emitByte (UInt8.ofNat func) (emitOp .biFuncCall st)
  | .verb obj verb args, st => do
      let st ← generateExpr obj st
      let st ← generateExpr verb st
      let st ← generateArgList args st
      return popStack 2 (emitOp .callVerb st)
  | .cond condition consequent alternate, st => do
      let st ← generateExpr condition st
      let (elseLabel, st) := addLabel (emitOp .ifQues st)
      let st ← generateExpr consequent (popStack 1 st)
      let (endLabel, st) := addLabel (emitOp .jump st)
      let st ← generateExpr alternate (defineLabel (some elseLabel) (popStack 1 st))
      return defineLabel (some endLabel) st
  | .asgn (.scatter targets) rhs, st => do
      let st ← generateExpr rhs st
      let st := emitExtendedByte .scatter st
      let st := emitByte (UInt8.ofNat targets.count) st
      let st := emitByte (UInt8.ofNat (targets.countKind .required)) st
      let st := emitByte (UInt8.ofNat (Scatter.rest targets)) st
      let (labels, st) := scatterOperands targets st
      let (done, st) := addLabel st
      let st ← generateDefaults targets labels st
      return defineLabel (some done) st
  | .asgn lhs rhs, st => do
      let st ← pushLvalue lhs false st
      let st ← generateExpr rhs st
      let st := if Expr.isIndexed lhs then emitOp .putTemp st else st
      let st ← storeLvalue lhs st
      return if Expr.isIndexed lhs then emitOp .pushTemp (emitOp .pop st) else st
  | .catch_ body codes except, st => do
      let st ← (if codes.isNil then some (generateAny st) else generateArgList codes st)
      let (handlerLabel, st) := addLabel (emitExtendedByte .pushLabel st)
      let st := pushStack 1 (emitExtendedByte .catch_ (pushStack 1 st))
      let st ← generateExpr body st
      let (endLabel, st) := addLabel (emitExtendedByte .endCatch st)
      let st := defineLabel (some handlerLabel) (popStack 3 st)
      -- the value on the stack is now the exception tuple
      let st ← generateExcept except st
      return defineLabel (some endLabel) st
  | .scatter _, _ => none
def generateExcept : Default → State → Option State
  | .some expr, st => generateExpr expr (popStack 1 (emitOp .pop st))
  | .none, st => some (emitOp .ref (emitOp (optimNumToOpcode 1) st))
def generateDefaults : Scatter → List Nat → State → Option State
  | .nil, _, st => some st
  | .cons .optional id (.some expr) next, label :: labels, st => do
      let st ← generateExpr expr (defineLabel (some label) st)
      let st := popStack 1 (emitOp .pop (emitVarOp .put id st))
      generateDefaults next labels st
  | .cons _ _ _ next, labels, st => generateDefaults next labels st
def generateArgList : ArgList → State → Option State
  | .nil, st => some (pushStack 1 (emitOp .makeEmptyList st))
  | .cons kind expr next, st => do
      let st ← generateExpr expr st
      let st := emitOp (if kind = .normal then .makeSingletonList else .checkListForSplice) st
      generateArgs next st
def generateArgs : ArgList → State → Option State
  | .nil, st => some st
  | .cons kind expr next, st => do
      let st ← generateExpr expr st
      let st := emitOp (if kind = .normal then .listAddTail else .listAppend) st
      generateArgs next (popStack 1 st)
def pushLvalue : Expr → Bool → State → Option State
  | .range base lower upper, _, st => do
      let st ← pushLvalue base true st
      let (old, st) := saveStackTop st
      let st ← generateExpr lower st
      let st ← generateExpr upper st
      return restoreStackTop old st
  | .index lhs rhs, indexedAbove, st => do
      let st ← pushLvalue lhs true st
      let (old, st) := saveStackTop st
      let st ← generateExpr rhs st
      let st := restoreStackTop old st
      return if indexedAbove then pushStack 1 (emitOp .pushRef st) else st
  | .id slot, indexedAbove, st =>
      some (if indexedAbove then pushStack 1 (emitVarOp .push slot st) else st)
  | .prop lhs rhs, indexedAbove, st => do
      let st ← generateExpr lhs st
      let st ← generateExpr rhs st
      return if indexedAbove then pushStack 1 (emitOp .pushGetProp st) else st
  | _, _, _ => none
end

def generateCodes (codes : ArgList) (st : State) : Option State :=
  if codes.isNil then some (generateAny st) else generateArgList codes st

def refSize (max : Nat) : Nat :=
  if max ≤ 256 then 1 else if max ≤ 256 * 256 then 2 else 4

def operandSize (w : NumBytes) : FixupKind → Nat
  | .literal => w.literal
  | .fork => w.fork
  | .varRef => w.varName
  | .stack => w.stack
  | .label => w.label

/-- What a fixup's operand holds: a label moves by the spread of the operands
counted before the place it names. -/
def operandValue (w : NumBytes) (f : Fixup) : Nat :=
  match f.kind with
  | .label => f.value + f.prev.literals * (w.literal - 1) + f.prev.forks * (w.fork - 1) +
      f.prev.varRefs * (w.varName - 1) + f.prev.labels * (w.label - 1) +
      f.prev.stackRefs * (w.stack - 1)
  | _ => f.value

def writeOperand (size value : Nat) : List UInt8 :=
  match size with
  | 4 => [UInt8.ofNat (value >>> 24), UInt8.ofNat (value >>> 16), UInt8.ofNat (value >>> 8),
      UInt8.ofNat value]
  | 2 => [UInt8.ofNat (value >>> 8), UInt8.ofNat value]
  | _ => [UInt8.ofNat value]

/-- The final loop of `stmt_to_code` from `old_i` on: copy a byte, or replace a
placeholder by its operand. -/
def writeVector (w : NumBytes) : Nat → List UInt8 → List Fixup → List UInt8
  | _, [], _ => []
  | oldI, b :: bytes, [] => b :: writeVector w (oldI + 1) bytes []
  | oldI, b :: bytes, f :: fixups =>
      if f.pc = oldI then
        writeOperand (operandSize w f.kind) (operandValue w f) ++
          writeVector w (oldI + 1) bytes fixups
      else b :: writeVector w (oldI + 1) bytes (f :: fixups)

/-- The vector's size before its labels are widened. The stack operands are not
part of the sum in the source. -/
def sizeBeforeLabels (w : NumBytes) (st : State) : Nat :=
  st.bytes.length + (w.literal - 1) * st.num.literals + (w.fork - 1) * st.num.forks +
    (w.varName - 1) * st.num.varRefs

def labelSize (size labels : Nat) : Nat :=
  if size ≤ 256 then 1 else if size + labels ≤ 256 * 256 then 2 else 4

/-- The maxima with the counts of `gstate` are in the source for the sake of old
program counters. -/
def numBytesOf (st : State) : NumBytes :=
  let w : NumBytes := {
    label := 1
    literal := refSize (max st.maxLiteral st.gstate.literals.length)
    fork := refSize (max st.maxFork st.gstate.forkVectors.length)
    varName := refSize (max st.maxVarRef st.gstate.totalVarRefs)
    stack := refSize st.maxStack }
  { w with label := labelSize (sizeBeforeLabels w st) st.num.labels }

def layout (st : State) : Bytecodes :=
  let w := numBytesOf st
  { numbytes := w
    vector := writeVector w 0 st.bytes st.fixups
    size := sizeBeforeLabels w st + (w.label - 1) * st.num.labels
    maxStack := st.maxStack }

def finishCode (st : State) : Option (Bytecodes × GState) :=
  let st := emitOp .done st
  if st.curStack ≠ 0 then none
  else if st.savedStack.isSome then none
  else some (layout st, st.gstate)

def findLoop (id : Nat) : List Loop → Option Nat
  | [] => none
  | loop :: loops => if loop.id = some id then some 0 else (findLoop id loops).map (· + 1)

def exitTarget (exit : Option Nat) (loops : List Loop) : Option Nat :=
  match exit with
  | none => if loops.isEmpty then none else some 0
  | some id => findLoop id loops

def emitExit (exit : Option Nat) (st : State) : State :=
  match exit with
  | none => emitExtendedByte .exit st
  | some id => addVarRef id (emitExtendedByte .exitId st)

def generateHandlers : ExceptArm → State → Option (List Nat × State)
  | .nil, st => some ([], st)
  | .cons _ codes _ next, st => do
      let st ← generateCodes codes st
      let (label, st) := addLabel (emitExtendedByte .pushLabel st)
      let (labels, st) ← generateHandlers next (pushStack 1 st)
      return (label :: labels, st)

mutual
def generateStmt : Stmt → State → Option State
  | .cond arms otherwise, st => do
      let (endLabel, st) ← generateArms arms .if_ none st
      let st ← generateStmts otherwise st
      return defineLabel endLabel st
  | .list id expr body, st => do
      let st ← generateExpr expr st
      let st := pushStack 1 (emitOp (optimNumToOpcode 1) st)
      let loopTop := captureLabel st
      let (endLabel, st) := addLabel (addVarRef id (emitOp .forList st))
      let st := enterLoop
        { id := some id, topLabel := loopTop, topStack := st.curStack
          bottomLabel := some endLabel, bottomStack := st.curStack - 2 } st
      let st ← generateStmts body st
      let (endLabel, st) := exitLoop st
      let st := addKnownLabel loopTop (emitOp .jump st)
      return popStack 2 (defineLabel endLabel st)
  | .range id lower upper body, st => do
      let st ← generateExpr lower st
      let st ← generateExpr upper st
      let loopTop := captureLabel st
      let (endLabel, st) := addLabel (addVarRef id (emitOp .forRange st))
      let st := enterLoop
        { id := some id, topLabel := loopTop, topStack := st.curStack
          bottomLabel := some endLabel, bottomStack := st.curStack - 2 } st
      let st ← generateStmts body st
      let (endLabel, st) := exitLoop st
      let st := addKnownLabel loopTop (emitOp .jump st)
      return popStack 2 (defineLabel endLabel st)
  | .while_ id condition body, st => do
      let loopTop := captureLabel st
      let st ← generateExpr condition st
      let st := match id with
        | none => emitOp .while_ st
        | some id => addVarRef id (emitExtendedByte .whileId st)
      let (endLabel, st) := addLabel st
      let st := popStack 1 st
      let st := enterLoop
        { id := id, topLabel := loopTop, topStack := st.curStack
          bottomLabel := some endLabel, bottomStack := st.curStack } st
      let st ← generateStmts body st
      let (endLabel, st) := exitLoop st
      let st := addKnownLabel loopTop (emitOp .jump st)
      return defineLabel endLabel st
  | .fork id time body, st => do
      let st ← generateExpr time st
      let st := emitOp (if id.isSome then .forkWithId else .fork) st
      let inner ← generateStmts body (initState st.gstate)
      let (bc, gstate) ← finishCode inner
      let st := addFork bc { st with gstate := gstate }
      let st := match id with
        | none => st
        | some id => addVarRef id st
      return popStack 1 st
  | .expr expr, st => do
      let st ← generateExpr expr st
      return popStack 1 (emitOp .pop st)
  | .return_ (.some expr), st => do
      let st ← generateExpr expr st
      return popStack 1 (emitOp .return_ st)
  | .return_ .none, st => some (emitOp .return0 st)
  | .tryExcept body excepts, st => do
      let (labels, st) ← generateHandlers excepts st
      let st := emitByte (UInt8.ofNat excepts.count) (emitExtendedByte .tryExcept st)
      let st ← generateStmts body (pushStack 1 st)
      let (endLabel, st) := addLabel (emitExtendedByte .endExcept st)
      let st := popStack (2 * excepts.count + 1) st
      let (endLabel, st) ← generateExcepts excepts labels (some endLabel) st
      return defineLabel endLabel st
  | .tryFinally body handler, st => do
      let (handlerLabel, st) := addLabel (emitExtendedByte .tryFinally st)
      let st ← generateStmts body (pushStack 1 st)
      let st := defineLabel (some handlerLabel) (popStack 1 (emitExtendedByte .endFinally st))
      -- the reason and the value the handler will continue with
      let st ← generateStmts handler (pushStack 2 st)
      return popStack 2 (emitExtendedByte .continue_ st)
  | .break_ exit, st => do
      let st := emitExit exit st
      let i ← exitTarget exit st.loops
      let loop ← st.loops[i]?
      let (bottom, st) := addLinkedLabel loop.bottomLabel (addStackRef loop.bottomStack st)
      return { st with loops := st.loops.set i { loop with bottomLabel := some bottom } }
  | .continue_ exit, st => do
      let st := emitExit exit st
      let i ← exitTarget exit st.loops
      let loop ← st.loops[i]?
      return addKnownLabel loop.topLabel (addStackRef loop.topStack st)
def generateStmts : Stmts → State → Option State
  | .nil, st => some st
  | .cons stmt next, st => do
      let st ← generateStmt stmt st
      generateStmts next st
def generateArms : CondArm → Opcode → Option Nat → State → Option (Option Nat × State)
  | .nil, _, endLabel, st => some (endLabel, st)
  | .cons condition stmt next, ifOp, endLabel, st => do
      let st ← generateExpr condition st
      let (elseLabel, st) := addLabel (emitOp ifOp st)
      let st ← generateStmts stmt (popStack 1 st)
      let (endLabel, st) := addLinkedLabel endLabel (emitOp .jump st)
      generateArms next .eif (some endLabel) (defineLabel (some elseLabel) st)
def generateExcepts :
    ExceptArm → List Nat → Option Nat → State → Option (Option Nat × State)
  | .cons id _ stmt next, label :: labels, endLabel, st => do
      let st := pushStack 1 (defineLabel (some label) st)
      let st := match id with
        | none => st
        | some id => emitVarOp .put id st
      let st ← generateStmts stmt (popStack 1 (emitOp .pop st))
      match next with
      | .nil => some (endLabel, st)
      | .cons .. =>
          let (jump, st) := addLinkedLabel endLabel (emitOp .jump st)
          generateExcepts next labels (some jump) st
  | _, _, endLabel, st => some (endLabel, st)
end

def stmtToCode (stmt : Stmts) (gstate : GState) : Option (Bytecodes × GState) := do
  let st ← generateStmts stmt (initState gstate)
  finishCode st

def generateCode (stmt : Stmts) (version : Nat) (varNames : List Str) : Option Program := do
  let (mainVector, gstate) ← stmtToCode stmt {}
  return {
    version := version
    mainVector := mainVector
    literals := gstate.literals
    forkVectors := gstate.forkVectors
    varNames := varNames }

end LambdaMoo.CodeGen
