import LambdaMoo.CodeGen

/-! The code of a tree as a listing: one cell for each byte the generator emits
before operands are widened. A label names the cell it jumps to. Unlike the
generator, which patches labels when it reaches them, a listing is a function of
the tree alone. -/
namespace LambdaMoo.Listing
open CodeGen

/-- What a run-time stack slot holds at some place of the code. -/
inductive Slot
  | value
  | index
  | label (target : Nat)
  | catch_ (arms : Nat)
  | finally_ (target : Nat)
  | reason
  | pending
  deriving DecidableEq, Repr

abbrev Shape := List Slot

inductive Item
  | op (op : Opcode)
  | eop (eop : ExtendedOpcode)
  | byte (n : Nat)
  | literal (v : Var)
  | fork (index : Nat)
  | varRef (slot : Nat)
  | label (target : Nat)
  | stack (index : Nat)

/-- A byte of the listing, with the stack shape its instruction is executed at,
the value of `cur_stack` when it was emitted, and, in the part of a loop that
is run before the loop's own opcode, the place of the jump back. -/
structure Cell where
  item : Item
  shape : Shape
  cur : Nat
  back : Option Nat

structure Ctx where
  pos : Nat := 0
  shape : Shape := []
  saved : Option Nat := none
  back : Option Nat := none

def Ctx.go (c : Ctx) (n : Nat) (shape : Shape) : Ctx :=
  { c with pos := c.pos + n, shape := shape }

def Ctx.item (c : Ctx) (item : Item) : Cell := ⟨item, c.shape, c.shape.length, c.back⟩

def Ctx.op (c : Ctx) (op : Opcode) : Cell := c.item (.op op)

def Ctx.opAt (c : Ctx) (cur : Nat) (op : Opcode) : Cell := ⟨.op op, c.shape, cur, c.back⟩

def Ctx.eop (c : Ctx) (eop : ExtendedOpcode) : List Cell := [c.op .extended, c.item (.eop eop)]

def Ctx.varOp (c : Ctx) (op : VarOp) (slot : Nat) : List Cell :=
  if h : slot < 32 then [c.op (op.ready ⟨slot, h⟩)] else [c.op op.general, c.item (.varRef slot)]

def varOpSize (slot : Nat) : Nat := if slot < 32 then 1 else 2

@[simp] theorem Ctx.varOp_length (c : Ctx) (op : VarOp) (slot : Nat) :
    (c.varOp op slot).length = varOpSize slot := by
  unfold Ctx.varOp varOpSize
  split <;> rfl

def binaryOpcode : BinaryKind → Opcode
  | .eq => .eq | .ne => .ne | .ge => .ge | .gt => .gt | .le => .le | .lt => .lt | .in_ => .in_
  | .plus => .add | .minus => .minus | .times => .mult | .divide => .div | .mod => .mod
  | .exp => .extended

def Ctx.binary (c : Ctx) : BinaryKind → List Cell
  | .exp => c.eop .exp
  | kind => [c.op (binaryOpcode kind)]

def binarySize : BinaryKind → Nat
  | .exp => 2
  | _ => 1

@[simp] theorem Ctx.binary_length (c : Ctx) (kind : BinaryKind) :
    (c.binary kind).length = binarySize kind := by
  cases kind <;> rfl

def optimNum? : Var → Option Opcode
  | .int num => if inOptimNumRange num then some (optimNumToOpcode num) else none
  | _ => none

def literalSize (v : Var) : Nat := if (optimNum? v).isSome then 1 else 2

def Ctx.literal (c : Ctx) (v : Var) : List Cell :=
  match optimNum? v with
  | some op => [c.op op]
  | none => [c.op .imm, c.item (.literal v)]

@[simp] theorem Ctx.literal_length (c : Ctx) (v : Var) : (c.literal v).length = literalSize v := by
  unfold Ctx.literal literalSize
  cases optimNum? v <;> rfl

def storeSize : Expr → Nat
  | .range base _ _ => 2 + storeSize base
  | .index lhs _ => 1 + storeSize lhs
  | .id slot => varOpSize slot
  | _ => 1

def storeCode : Expr → Ctx → List Cell
  | .range base _ _, c =>
      c.eop .rangeset ++ storeCode base (c.go 2 (.value :: c.shape.drop 4))
  | .index lhs _, c => c.op .indexset :: storeCode lhs (c.go 1 (.value :: c.shape.drop 3))
  | .id slot, c => c.varOp .put slot
  | _, c => [c.op .putProp]

def lvalueDepth : Expr → Bool → Nat
  | .range base _ _, _ => lvalueDepth base true + 2
  | .index lhs _, above => lvalueDepth lhs true + 1 + above.toNat
  | .id _, above => above.toNat
  | .prop _ _, above => 2 + above.toNat
  | _, _ => 0

mutual
def exprSize : Expr → Nat
  | .var v => literalSize v
  | .id slot => varOpSize slot
  | .logic _ lhs rhs => exprSize lhs + 2 + exprSize rhs
  | .unary _ expr => exprSize expr + 1
  | .binary kind lhs rhs => exprSize lhs + exprSize rhs + binarySize kind
  | .prop lhs rhs => exprSize lhs + exprSize rhs + 1
  | .index lhs rhs => exprSize lhs + exprSize rhs + 1
  | .range base lower upper => exprSize base + exprSize lower + exprSize upper + 1
  | .length => 3
  | .list args => argListSize args
  | .call _ args => argListSize args + 2
  | .verb obj verb args => exprSize obj + exprSize verb + argListSize args + 1
  | .cond condition consequent alternate =>
      exprSize condition + 2 + exprSize consequent + 2 + exprSize alternate
  | .asgn (.scatter targets) rhs =>
      exprSize rhs + 5 + 2 * targets.count + 1 + defaultsSize targets
  | .asgn lhs rhs =>
      if Expr.isIndexed lhs then lvalueSize lhs false + exprSize rhs + 1 + storeSize lhs + 2
      else lvalueSize lhs false + exprSize rhs + storeSize lhs
  | .catch_ body codes except =>
      (if codes.isNil then 1 else argListSize codes) + 5 + exprSize body + 3 + exceptSize except
  | .scatter _ => 0
def exceptSize : Default → Nat
  | .some expr => 1 + exprSize expr
  | .none => 2
def defaultsSize : Scatter → Nat
  | .nil => 0
  | .cons .optional id (.some expr) next =>
      exprSize expr + varOpSize id + 1 + defaultsSize next
  | .cons _ _ _ next => defaultsSize next
def argListSize : ArgList → Nat
  | .nil => 1
  | .cons _ expr next => exprSize expr + 1 + argsSize next
def argsSize : ArgList → Nat
  | .nil => 0
  | .cons _ expr next => exprSize expr + 1 + argsSize next
def lvalueSize : Expr → Bool → Nat
  | .range base lower upper, _ => lvalueSize base true + exprSize lower + exprSize upper
  | .index lhs rhs, above => lvalueSize lhs true + exprSize rhs + above.toNat
  | .id slot, above => if above then varOpSize slot else 0
  | .prop lhs rhs, above => exprSize lhs + exprSize rhs + above.toNat
  | _, _ => 0
end

def codesSize (codes : ArgList) : Nat := if codes.isNil then 1 else argListSize codes

def scatterCode : Scatter → Nat → Ctx → List Cell
  | .nil, _, _ => []
  | .cons .optional id (.some expr) next, start, c =>
      c.item (.varRef id) :: c.item (.label start) ::
        scatterCode next (start + (exprSize expr + varOpSize id + 1)) c
  | .cons .optional id .none next, start, c =>
      c.item (.varRef id) :: c.item (.label 1) :: scatterCode next start c
  | .cons _ id _ next, start, c =>
      c.item (.varRef id) :: c.item (.label 0) :: scatterCode next start c

@[simp] theorem scatterCode_length (targets : Scatter) (start : Nat) (c : Ctx) :
    (scatterCode targets start c).length = 2 * targets.count := by
  induction targets, start, c using scatterCode.induct <;>
    simp only [scatterCode, Scatter.count, List.length_cons, List.length_nil, *] <;> omega

mutual
def exprCode : Expr → Ctx → List Cell
  | .var v, c => c.literal v
  | .id slot, c => c.varOp .push slot
  | .logic kind lhs rhs, c =>
      let c₁ := c.go (exprSize lhs) (.value :: c.shape)
      exprCode lhs c ++ [c₁.op (LogicKind.opcode kind),
        c₁.item (.label (c₁.pos + 2 + exprSize rhs))] ++ exprCode rhs (c₁.go 2 c.shape)
  | .unary kind expr, c =>
      exprCode expr c ++ [(c.go (exprSize expr) (.value :: c.shape)).op (UnaryKind.opcode kind)]
  | .binary kind lhs rhs, c =>
      let c₁ := c.go (exprSize lhs) (.value :: c.shape)
      exprCode lhs c ++ exprCode rhs c₁ ++
        (c₁.go (exprSize rhs) (.value :: c₁.shape)).binary kind
  | .prop lhs rhs, c =>
      let c₁ := c.go (exprSize lhs) (.value :: c.shape)
      exprCode lhs c ++ exprCode rhs c₁ ++
        [(c₁.go (exprSize rhs) (.value :: c₁.shape)).op .getProp]
  | .index lhs rhs, c =>
      let c₁ := c.go (exprSize lhs) (.value :: c.shape)
      exprCode lhs c ++ exprCode rhs { c₁ with saved := some c.shape.length } ++
        [(c₁.go (exprSize rhs) (.value :: c₁.shape)).op .ref]
  | .range base lower upper, c =>
      let c₁ := c.go (exprSize base) (.value :: c.shape)
      let c₂ := c₁.go (exprSize lower) (.value :: c₁.shape)
      exprCode base c ++ exprCode lower { c₁ with saved := some c.shape.length } ++
        exprCode upper { c₂ with saved := some c.shape.length } ++
        [(c₂.go (exprSize upper) (.value :: c₂.shape)).op .rangeRef]
  | .length, c => c.eop .length ++ [c.item (.stack (c.saved.getD 0))]
  | .list args, c => argListCode args c
  | .call func args, c =>
      let c₁ := c.go (argListSize args) (.value :: c.shape)
      argListCode args c ++ [c₁.op .biFuncCall, c₁.item (.byte func)]
  | .verb obj verb args, c =>
      let c₁ := c.go (exprSize obj) (.value :: c.shape)
      let c₂ := c₁.go (exprSize verb) (.value :: c₁.shape)
      exprCode obj c ++ exprCode verb c₁ ++ argListCode args c₂ ++
        [(c₂.go (argListSize args) (.value :: c₂.shape)).op .callVerb]
  | .cond condition consequent alternate, c =>
      let c₁ := c.go (exprSize condition) (.value :: c.shape)
      let c₂ := c₁.go (2 + exprSize consequent) (.value :: c.shape)
      exprCode condition c ++
        [c₁.op .ifQues, c₁.item (.label (c₂.pos + 2))] ++
        exprCode consequent (c₁.go 2 c.shape) ++
        [c₂.op .jump, c₂.item (.label (c₂.pos + 2 + exprSize alternate))] ++
        exprCode alternate (c₂.go 2 c.shape)
  | .asgn (.scatter targets) rhs, c =>
      let c₁ := c.go (exprSize rhs) (.value :: c.shape)
      let start := c₁.pos + 5 + 2 * targets.count + 1
      exprCode rhs c ++ c₁.eop .scatter ++
        [c₁.item (.byte targets.count), c₁.item (.byte (targets.countKind .required)),
          c₁.item (.byte (Scatter.rest targets))] ++
        scatterCode targets start c₁ ++
        [c₁.item (.label (start + defaultsSize targets))] ++
        defaultsCode targets { c₁ with pos := start }
  | .asgn lhs rhs, c =>
      let d := lvalueDepth lhs false
      let c₁ := c.go (lvalueSize lhs false) (List.replicate d .value ++ c.shape)
      let c₂ := c₁.go (exprSize rhs) (.value :: c₁.shape)
      if Expr.isIndexed lhs then
        let c₃ := c₂.go (1 + storeSize lhs) (.value :: c.shape)
        lvalueCode lhs false c ++ exprCode rhs c₁ ++ [c₂.op .putTemp] ++
          storeCode lhs (c₂.go 1 c₂.shape) ++
          [c₃.op .pop, (c₃.go 1 c.shape).opAt c₃.shape.length .pushTemp]
      else lvalueCode lhs false c ++ exprCode rhs c₁ ++ storeCode lhs c₂
  | .catch_ body codes except, c =>
      let c₁ := c.go (if codes.isNil then 1 else argListSize codes) (.value :: c.shape)
      let handler := c₁.pos + 5 + exprSize body + 3
      let c₂ := c₁.go 3 (.label handler :: c₁.shape)
      let c₃ := c₂.go 2 (.catch_ 1 :: c₂.shape)
      let c₄ := c₃.go (exprSize body) (.value :: c₃.shape)
      (if codes.isNil then [c.op (optimNumToOpcode 0)] else argListCode codes c) ++
        c₁.eop .pushLabel ++ [c₁.item (.label handler)] ++ c₂.eop .catch_ ++
        exprCode body c₃ ++
        c₄.eop .endCatch ++ [c₄.item (.label (handler + exceptSize except))] ++
        exceptCode except (c₄.go 3 (.value :: c.shape)) c.shape
  | .scatter _, _ => []
def exceptCode : Default → Ctx → Shape → List Cell
  | .some expr, c, shape => c.op .pop :: exprCode expr (c.go 1 shape)
  | .none, c, _ =>
      [c.op (optimNumToOpcode 1), (c.go 1 (.value :: c.shape)).opAt c.shape.length .ref]
def defaultsCode : Scatter → Ctx → List Cell
  | .nil, _ => []
  | .cons .optional id (.some expr) next, c =>
      let c₁ := c.go (exprSize expr) (.value :: c.shape)
      exprCode expr c ++ c₁.varOp .put id ++ [c₁.op .pop] ++
        defaultsCode next (c.go (exprSize expr + varOpSize id + 1) c.shape)
  | .cons _ _ _ next, c => defaultsCode next c
def argListCode : ArgList → Ctx → List Cell
  | .nil, c => [c.op .makeEmptyList]
  | .cons kind expr next, c =>
      let c₁ := c.go (exprSize expr) (.value :: c.shape)
      exprCode expr c ++
        [c₁.op (if kind = .normal then .makeSingletonList else .checkListForSplice)] ++
        argsCode next (c₁.go 1 c₁.shape)
def argsCode : ArgList → Ctx → List Cell
  | .nil, _ => []
  | .cons kind expr next, c =>
      let c₁ := c.go (exprSize expr) (.value :: c.shape)
      exprCode expr c ++ [c₁.op (if kind = .normal then .listAddTail else .listAppend)] ++
        argsCode next (c₁.go 1 c.shape)
def lvalueCode : Expr → Bool → Ctx → List Cell
  | .range base lower upper, _, c =>
      let d := lvalueDepth base true
      let c₁ := c.go (lvalueSize base true) (List.replicate d .value ++ c.shape)
      let c₂ := c₁.go (exprSize lower) (.value :: c₁.shape)
      lvalueCode base true c ++
        exprCode lower { c₁ with saved := some (c₁.shape.length - 1) } ++
        exprCode upper { c₂ with saved := some (c₁.shape.length - 1) }
  | .index lhs rhs, above, c =>
      let d := lvalueDepth lhs true
      let c₁ := c.go (lvalueSize lhs true) (List.replicate d .value ++ c.shape)
      lvalueCode lhs true c ++
        exprCode rhs { c₁ with saved := some (c₁.shape.length - 1) } ++
        if above then [(c₁.go (exprSize rhs) (.value :: c₁.shape)).op .pushRef] else []
  | .id slot, above, c => if above then c.varOp .push slot else []
  | .prop lhs rhs, above, c =>
      let c₁ := c.go (exprSize lhs) (.value :: c.shape)
      exprCode lhs c ++ exprCode rhs c₁ ++
        if above then [(c₁.go (exprSize rhs) (.value :: c₁.shape)).op .pushGetProp] else []
  | _, _, _ => []
end

/-- What the code of a loop's body needs to know of the loop. -/
structure LoopCtx where
  id : Option Nat
  top : Nat
  topStack : Nat
  bottom : Nat
  bottomStack : Nat
  deriving DecidableEq

/-- The context of a statement: the loops around it, innermost first, and the
number of fork vectors finished before it. -/
structure StmtCtx where
  pos : Nat := 0
  shape : Shape := []
  loops : List LoopCtx := []
  forks : Nat := 0

def StmtCtx.expr (c : StmtCtx) : Ctx := { pos := c.pos, shape := c.shape }

def StmtCtx.go (c : StmtCtx) (n : Nat) (shape : Shape) : StmtCtx :=
  { c with pos := c.pos + n, shape := shape }

def findLoopCtx (id : Nat) : List LoopCtx → Option LoopCtx
  | [] => none
  | loop :: loops => if loop.id = some id then some loop else findLoopCtx id loops

def exitLoopCtx (exit : Option Nat) (loops : List LoopCtx) : Option LoopCtx :=
  match exit with
  | none => loops.head?
  | some id => findLoopCtx id loops

def exitSize (exit : Option Nat) : Nat := if exit.isSome then 5 else 4

def Ctx.exit (c : Ctx) : Option Nat → List Cell
  | none => c.eop .exit
  | some id => c.eop .exitId ++ [c.item (.varRef id)]

def Ctx.whileOp (c : Ctx) : Option Nat → List Cell
  | none => [c.op .while_]
  | some id => c.eop .whileId ++ [c.item (.varRef id)]

def handlersSize : ExceptArm → Nat
  | .nil => 0
  | .cons _ codes _ next => codesSize codes + 3 + handlersSize next

def codesCode (codes : ArgList) (c : Ctx) : List Cell :=
  if codes.isNil then [c.op (optimNumToOpcode 0)] else argListCode codes c

def bindSize (id : Option Nat) : Nat := (id.elim 0 varOpSize) + 1

def Ctx.bind (c : Ctx) (id : Option Nat) : List Cell :=
  id.elim [] (c.varOp .put) ++ [c.op .pop]

mutual
def stmtSize : Stmt → Nat
  | .cond arms otherwise => armsSize arms + stmtsSize otherwise
  | .list _ expr body => exprSize expr + 1 + 3 + stmtsSize body + 2
  | .range _ lower upper body => exprSize lower + exprSize upper + 3 + stmtsSize body + 2
  | .while_ id condition body =>
      exprSize condition + (if id.isSome then 4 else 2) + stmtsSize body + 2
  | .fork id time _ => exprSize time + 2 + (if id.isSome then 1 else 0)
  | .expr expr => exprSize expr + 1
  | .return_ (.some expr) => exprSize expr + 1
  | .return_ .none => 1
  | .tryExcept body excepts =>
      handlersSize excepts + 3 + stmtsSize body + 3 + exceptsSize excepts
  | .tryFinally body handler => 3 + stmtsSize body + 2 + stmtsSize handler + 2
  | .break_ exit => exitSize exit
  | .continue_ exit => exitSize exit
def stmtsSize : Stmts → Nat
  | .nil => 0
  | .cons stmt next => stmtSize stmt + stmtsSize next
def armsSize : CondArm → Nat
  | .nil => 0
  | .cons condition stmt next => exprSize condition + 2 + stmtsSize stmt + 2 + armsSize next
def exceptsSize : ExceptArm → Nat
  | .nil => 0
  | .cons id _ stmt next =>
      bindSize id + stmtsSize stmt + (match next with | .nil => 0 | .cons .. => 2) +
        exceptsSize next
end

mutual
def stmtForks : Stmt → Nat
  | .cond arms otherwise => armsForks arms + stmtsForks otherwise
  | .list _ _ body => stmtsForks body
  | .range _ _ _ body => stmtsForks body
  | .while_ _ _ body => stmtsForks body
  | .fork _ _ body => stmtsForks body + 1
  | .tryExcept body excepts => stmtsForks body + exceptsForks excepts
  | .tryFinally body handler => stmtsForks body + stmtsForks handler
  | _ => 0
def stmtsForks : Stmts → Nat
  | .nil => 0
  | .cons stmt next => stmtForks stmt + stmtsForks next
def armsForks : CondArm → Nat
  | .nil => 0
  | .cons _ stmt next => stmtsForks stmt + armsForks next
def exceptsForks : ExceptArm → Nat
  | .nil => 0
  | .cons _ _ stmt next => stmtsForks stmt + exceptsForks next
end

def handlersShape : ExceptArm → Nat → Shape → Shape
  | .nil, _, shape => shape
  | .cons id _ stmt next, start, shape =>
      handlersShape next (start + bindSize id + stmtsSize stmt + 2)
        (.label start :: .value :: shape)

/-- The codes and labels of the arms; `start` is the place of the first handler. -/
def handlersCode : ExceptArm → Nat → Ctx → List Cell
  | .nil, _, _ => []
  | .cons id codes stmt next, start, c =>
      let c₁ := c.go (codesSize codes) (.value :: c.shape)
      codesCode codes c ++ c₁.eop .pushLabel ++ [c₁.item (.label start)] ++
        handlersCode next (start + bindSize id + stmtsSize stmt + 2)
          (c₁.go 3 (.label start :: c₁.shape))

mutual
def stmtCode : Stmt → StmtCtx → List Cell
  | .cond arms otherwise, c =>
      let stop := c.pos + armsSize arms + stmtsSize otherwise
      let c₁ := { c.go (armsSize arms) c.shape with forks := c.forks + armsForks arms }
      armsCode arms .if_ stop c ++ stmtsCode otherwise c₁
  | .list id expr body, c =>
      let c₁ := c.go (exprSize expr) (.value :: c.shape)
      let c₂ := c₁.go 1 (.index :: c₁.shape)
      let c₃ := c₂.go 3 c₂.shape
      let back := c₃.pos + stmtsSize body
      let stop := back + 2
      let h := { c₂.expr with back := some back }
      let loop :=
        { id := some id, top := c₂.pos, topStack := c₂.shape.length
          bottom := stop, bottomStack := c.shape.length }
      let c₄ := c₃.go (stmtsSize body) c₃.shape
      exprCode expr c.expr ++ [c₁.expr.op (optimNumToOpcode 1)] ++
        [h.op .forList, h.item (.varRef id), h.item (.label stop)] ++
        stmtsCode body { c₃ with loops := loop :: c.loops } ++
        [c₄.expr.op .jump, c₄.expr.item (.label c₂.pos)]
  | .range id lower upper body, c =>
      let c₁ := c.go (exprSize lower) (.value :: c.shape)
      let c₂ := c₁.go (exprSize upper) (.value :: c₁.shape)
      let c₃ := c₂.go 3 c₂.shape
      let back := c₃.pos + stmtsSize body
      let stop := back + 2
      let h := { c₂.expr with back := some back }
      let loop :=
        { id := some id, top := c₂.pos, topStack := c₂.shape.length
          bottom := stop, bottomStack := c.shape.length }
      let c₄ := c₃.go (stmtsSize body) c₃.shape
      exprCode lower c.expr ++ exprCode upper c₁.expr ++
        [h.op .forRange, h.item (.varRef id), h.item (.label stop)] ++
        stmtsCode body { c₃ with loops := loop :: c.loops } ++
        [c₄.expr.op .jump, c₄.expr.item (.label c₂.pos)]
  | .while_ id condition body, c =>
      let n := exprSize condition + if id.isSome then 4 else 2
      let back := c.pos + n + stmtsSize body
      let stop := back + 2
      let h := { c.expr with back := some back }
      let h₁ := h.go (exprSize condition) (.value :: c.shape)
      let loop :=
        { id := id, top := c.pos, topStack := c.shape.length
          bottom := stop, bottomStack := c.shape.length }
      let c₁ := c.go n c.shape
      let c₂ := c₁.go (stmtsSize body) c.shape
      exprCode condition h ++ h₁.whileOp id ++ [h₁.item (.label stop)] ++
        stmtsCode body { c₁ with loops := loop :: c.loops } ++
        [c₂.expr.op .jump, c₂.expr.item (.label c.pos)]
  | .fork id time body, c =>
      let c₁ := (c.go (exprSize time) (.value :: c.shape)).expr
      exprCode time c.expr ++
        [c₁.op (if id.isSome then .forkWithId else .fork),
          c₁.item (.fork (c.forks + stmtsForks body))] ++
        id.toList.map fun id => c₁.item (.varRef id)
  | .expr expr, c =>
      exprCode expr c.expr ++ [(c.go (exprSize expr) (.value :: c.shape)).expr.op .pop]
  | .return_ (.some expr), c =>
      exprCode expr c.expr ++ [(c.go (exprSize expr) (.value :: c.shape)).expr.op .return_]
  | .return_ .none, c => [c.expr.op .return0]
  | .tryExcept body excepts, c =>
      let n := handlersSize excepts
      let start := c.pos + n + 3 + stmtsSize body + 3
      let stop := start + exceptsSize excepts
      let c₁ := c.go n (handlersShape excepts start c.shape)
      let c₂ := c₁.go 3 (.catch_ excepts.count :: c₁.shape)
      let c₃ := c₂.go (stmtsSize body) c₂.shape
      handlersCode excepts start c.expr ++ c₁.expr.eop .tryExcept ++
        [c₁.expr.item (.byte excepts.count)] ++ stmtsCode body c₂ ++
        c₃.expr.eop .endExcept ++ [c₃.expr.item (.label stop)] ++
        exceptsCode excepts stop
          { c.go (start - c.pos) c.shape with forks := c.forks + stmtsForks body }
  | .tryFinally body handler, c =>
      let start := c.pos + 3 + stmtsSize body + 2
      let c₁ := c.go 3 (.finally_ start :: c.shape)
      let c₂ := c₁.go (stmtsSize body) c₁.shape
      let c₃ :=
        { c₂.go 2 (.pending :: .reason :: c.shape) with forks := c.forks + stmtsForks body }
      let c₄ := c₃.go (stmtsSize handler) c₃.shape
      c.expr.eop .tryFinally ++ [c.expr.item (.label start)] ++ stmtsCode body c₁ ++
        c₂.expr.eop .endFinally ++ stmtsCode handler c₃ ++ c₄.expr.eop .continue_
  | .break_ exit, c =>
      match exitLoopCtx exit c.loops with
      | none => []
      | some loop => c.expr.exit exit ++
          [c.expr.item (.stack loop.bottomStack), c.expr.item (.label loop.bottom)]
  | .continue_ exit, c =>
      match exitLoopCtx exit c.loops with
      | none => []
      | some loop => c.expr.exit exit ++
          [c.expr.item (.stack loop.topStack), c.expr.item (.label loop.top)]
def stmtsCode : Stmts → StmtCtx → List Cell
  | .nil, _ => []
  | .cons stmt next, c =>
      stmtCode stmt c ++
        stmtsCode next { c.go (stmtSize stmt) c.shape with forks := c.forks + stmtForks stmt }
def armsCode : CondArm → Opcode → Nat → StmtCtx → List Cell
  | .nil, _, _, _ => []
  | .cons condition stmt next, ifOp, stop, c =>
      let c₁ := c.go (exprSize condition) (.value :: c.shape)
      let c₂ := c₁.go 2 c.shape
      let c₃ := c₂.go (stmtsSize stmt) c.shape
      exprCode condition c.expr ++
        [c₁.expr.op ifOp, c₁.expr.item (.label (c₃.pos + 2))] ++
        stmtsCode stmt c₂ ++ [c₃.expr.op .jump, c₃.expr.item (.label stop)] ++
        armsCode next .eif stop { c₃.go 2 c.shape with forks := c.forks + stmtsForks stmt }
def exceptsCode : ExceptArm → Nat → StmtCtx → List Cell
  | .nil, _, _ => []
  | .cons id _ stmt next, stop, c =>
      let c₁ := c.go (bindSize id) c.shape
      let c₂ := c₁.go (stmtsSize stmt) c.shape
      (c.go 0 (.value :: c.shape)).expr.bind id ++ stmtsCode stmt c₁ ++
        (match next with
          | .nil => []
          | .cons .. => [c₂.expr.op .jump, c₂.expr.item (.label stop)]) ++
        exceptsCode next stop { c₂.go 2 c.shape with forks := c.forks + stmtsForks stmt }
end

def vectorCode (body : Stmts) (forks : Nat) : List Cell :=
  stmtsCode body { forks := forks } ++ [({} : Ctx).op .done]

end LambdaMoo.Listing
