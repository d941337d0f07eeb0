import LambdaMoo.RunLoop
import LambdaMoo.TagReads

/-! The opcodes of `run`, all of them, on the activation that is running. What another activation
does is seen from here as a call that comes back with what has come of it; the rest of the server is
a parameter. -/
namespace LambdaMoo.Interpreter

/-- What a call comes to in the activation that makes it. -/
inductive CallResult
  | ret (v : Var)
  /-- There was no call, or it could not be suspended. -/
  | error (e : Error)
  /-- `BI_RAISE`: the built-in function raises an error. -/
  | raise (code : Var) (msg : Str) (value : Var)
  /-- An error has been raised in an activation above, and no handler there takes it. -/
  | raised (code : Var) (info : List Var)
  /-- The task has come to an end. -/
  | stops

/-- What `run` asks of the rest of the server, and of the activations below. -/
structure Server (W : Type) where
  around : W → Surroundings
  setPropertyValue : Objid → Str → Var → W → W
  callVerb : Objid → Str → List Var → (Nat → Var) → W → CallResult × W
  callBiFunc : Nat → List Var → (Nat → Var) → W → CallResult × W
  newTaskId : W → Int
  /-- A task has been forked, with the number of its vector, its delay and its variables. -/
  enqueueFt : Nat → Int → (Nat → Var) → W → W
  /-- An activation below has a handler for the code. -/
  handlerBelow : Var → Bool
  unparseError : Error → Str
  /-- The activations down to the handler, as `make_stack_list` gives them for an error at this place. -/
  makeStackList : Nat → W → Var

structure Machine (W : Type) extends Activation where
  temp : Var
  world : W

inductive Next (W : Type)
  | goes (m : Machine W)
  /-- `unwind_stack(why, value)` is called. -/
  | unwinds (why : Reason) (value : Var) (m : Machine W)
  | stops
  /-- The server panics, or C does not say what comes of it. -/
  | breaks

variable {W : Type}

def Machine.push (m : Machine W) (v : Var) : Machine W := { m with rts := v :: m.rts }

def Machine.jump (m : Machine W) (label : Nat) : Machine W := { m with pc := label }

section

variable (S : Server W) (literals : List Var) (bc : Bytecodes) (errorPc : Nat)

/-! Errors. -/

/-- The reason and the value that the stack is unwound with, given the stack where the error was raised. -/
def Server.thrown (rts : List Var) (code : Var) (info : List Var) : Reason × Var :=
  if hasHandler code 0 rts || S.handlerBelow code then (.raise, .list (code :: info)) else (.uncaught, zero)

def propagate (code : Var) (info : List Var) (m : Machine W) : Next W :=
  .unwinds (S.thrown m.rts code info).1 (S.thrown m.rts code info).2 m

def raiseError (code : Var) (msg : Str) (value : Var) (m : Machine W) : Next W :=
  propagate S code [.str msg, value, S.makeStackList errorPc m.world] m

def raiseOr (e : Error) (m m' : Machine W) : Next W :=
  if m.debug then raiseError S errorPc (.err e) (S.unparseError e) zero m else .goes m'

def pushError (e : Error) (m : Machine W) : Next W := raiseOr S errorPc e m (m.push (.err e))

def answered (m : Machine W) : Reads Answer → Next W
  | .ok (.push v) => .goes (m.push v)
  | .ok (.raise e) => pushError S errorPc e m
  | _ => .breaks

def called (m : Machine W) : CallResult × W → Next W
  | (.ret v, w) => .goes { m.push v with world := w }
  | (.error e, w) => pushError S errorPc e { m with world := w }
  | (.raise code msg value, w) =>
      if m.debug then raiseError S errorPc code msg value { m with world := w }
      else .goes { m.push code with world := w }
  | (.raised code info, w) => propagate S code info { m with world := w }
  | (.stops, _) => .stops

/-! Opcodes that pop their operands and push what comes of them. -/

def unaryOp (f : Var → Reads Answer) (m : Machine W) : Next W :=
  match m.rts with
  | arg :: rts => answered S errorPc { m with rts := rts } (f arg)
  | _ => .breaks

def binaryOp (f : Var → Var → Reads Answer) (m : Machine W) : Next W :=
  match m.rts with
  | rhs :: lhs :: rts => answered S errorPc { m with rts := rts } (f lhs rhs)
  | _ => .breaks

def ternaryOp (f : Var → Var → Var → Reads Answer) (m : Machine W) : Next W :=
  match m.rts with
  | c :: b :: a :: rts => answered S errorPc { m with rts := rts } (f a b c)
  | _ => .breaks

def peekOp (f : Var → Var → Reads Answer) (m : Machine W) : Next W :=
  match m.rts with
  | rhs :: lhs :: _ => answered S errorPc m (f lhs rhs)
  | _ => .breaks

/-- What `run` does with an opcode that the loops and scattering assignments are made of. -/
def executed (m : Machine W) : Executed → Next W
  | .ok (.ok a) => .goes { m with toActivation := a }
  | .ok (.error e) => raiseOr S errorPc e m m
  | .error _ => .breaks

/-! The opcodes with operands in the code. -/

def doTest (m : Machine W) : Next W :=
  match m.rts, bc.read bc.numbytes.label m.pc with
  | cond :: rts, .ok (i, pc) =>
      if !cond.isTrue then .goes { m with rts := rts, pc := if i ≠ 0 then i else pc }
      else .goes { m with rts := rts, pc := pc }
  | _, _ => .breaks

def opLogic (short : Bool) (m : Machine W) : Next W :=
  match m.rts, bc.read bc.numbytes.label m.pc with
  | lhs :: rts, .ok (lab, pc) =>
      if lhs.isTrue = short then .goes (m.jump lab) else .goes { m with rts := rts, pc := pc }
  | _, _ => .breaks

def opForListAt (m : Machine W) : Next W :=
  match bc.read bc.numbytes.varName m.pc with
  | .ok (id, pc) =>
      match m.rts, bc.read bc.numbytes.label pc with
      | count :: list :: rts, .ok (lab, pc) =>
          match opForList list count with
          | .ok (.raise e) => raiseOr S errorPc e m { m with rts := rts, pc := lab }
          | .ok .leave => .goes { m with rts := rts, pc := lab }
          | .ok (.assign v next) =>
              .goes { m with env := Function.update m.env id v, rts := next :: list :: rts, pc := pc }
          | _ => .breaks
      | _, _ => .breaks
  | .error _ => .breaks

def opImm (fast : Bool) (m : Machine W) : Next W :=
  if fast && bc.vector[m.pc + bc.numbytes.literal]? == some Opcode.pop.byte then
    .goes (m.jump (m.pc + bc.numbytes.literal + 1))
  else
    match bc.read bc.numbytes.literal m.pc with
    | .ok (slot, pc) =>
        match literals[slot]? with
        | some v => .goes { m.push v with pc := pc }
        | none => .breaks
    | .error _ => .breaks

/-- `OP_PUT + n`. An `OP_POP` that comes behind it is carried out with it. -/
def opPutReady (fast : Bool) (slot : Nat) (m : Machine W) : Next W :=
  if fast then executed S errorPc m (opPut bc slot m.toActivation)
  else
    match m.rts with
    | v :: _ => .goes { m with env := Function.update m.env slot v }
    | [] => .breaks

def opPush (slot : Nat) (m : Machine W) : Next W :=
  match m.env slot with
  | .none => pushError S errorPc .eVarnf m
  | v => .goes (m.push v)

def opGPush (m : Machine W) : Next W :=
  match bc.read bc.numbytes.varName m.pc with
  | .ok (slot, pc) => opPush S errorPc slot { m with pc := pc }
  | .error _ => .breaks

def opPutProp (m : Machine W) : Next W :=
  match m.rts with
  | rhs :: propname :: obj :: rts =>
      match opPutPropReads (S.around m.world) obj propname rhs, obj, propname with
      | .ok (.push v), .obj oid, .str name =>
          .goes { m with rts := v :: rts, world := S.setPropertyValue oid name rhs m.world }
      | .ok (.raise e), _, _ => pushError S errorPc e { m with rts := rts }
      | _, _, _ => .breaks
  | _ => .breaks

/-- The vector `fIndex` is forked, with the variable that gets the number of the task. -/
def forked (fIndex : Nat) (id : Option Nat) (time : Var) (m : Machine W) : Next W :=
  match opFork (S.around m.world) time, time with
  | .ok (.raise e), _ => raiseOr S errorPc e m m
  | .ok .keep, .int n =>
      let env := id.elim m.env fun id => Function.update m.env id (.int (S.newTaskId m.world))
      .goes { m with env := env, world := S.enqueueFt fIndex n env m.world }
  | _, _ => .breaks

def opForkAt (withId : Bool) (m : Machine W) : Next W :=
  match m.rts, bc.read bc.numbytes.fork m.pc with
  | time :: rts, .ok (fIndex, pc) =>
      if withId then
        match bc.read bc.numbytes.varName pc with
        | .ok (id, pc) => forked S errorPc fIndex (some id) time { m with rts := rts, pc := pc }
        | .error _ => .breaks
      else forked S errorPc fIndex none time { m with rts := rts, pc := pc }
  | _, _ => .breaks

def opCallVerbAt (m : Machine W) : Next W :=
  match m.rts with
  | args :: verb :: obj :: rts =>
      let m := { m with rts := rts }
      match obj, verb, args with
      | .obj oid, .str vname, .list l =>
          if !(S.around m.world).valid oid then pushError S errorPc .eInvind m
          else called S errorPc m (S.callVerb oid vname l m.env m.world)
      | _, _, _ => pushError S errorPc .eType m
  | _ => .breaks

def opBiFuncCallAt (m : Machine W) : Next W :=
  match m.rts, bc.read 1 m.pc with
  | args :: rts, .ok (funcId, pc) =>
      let m := { m with rts := rts, pc := pc }
      match args with
      | .list l => called S errorPc m (S.callBiFunc funcId l m.env m.world)
      | _ => pushError S errorPc .eType m
  | _, _ => .breaks

def opReturn (m : Machine W) : Next W :=
  match m.rts with
  | retVal :: rts => .unwinds .return_ retVal { m with rts := rts }
  | [] => .breaks

/-! The extended opcodes. -/

def eopRangesetAt (m : Machine W) : Next W :=
  match m.rts with
  | value :: to' :: from' :: base :: rts =>
      match eopRangeset base from' to' value with
      | .ok (.ok v) => .goes { m with rts := v :: rts }
      | .ok (.error e) => pushError S errorPc e { m with rts := rts }
      | .error _ => .breaks
  | _ => .breaks

def eopLengthAt (m : Machine W) : Next W :=
  match bc.read bc.numbytes.stack m.pc with
  | .ok (i, pc) =>
      match m.rts.reverse[i]? with
      | some item => answered S errorPc { m with pc := pc } (eopLength item)
      | none => .breaks
  | .error _ => .breaks

def eopLabel (v : Nat → Var) (m : Machine W) : Next W :=
  match bc.read bc.numbytes.label m.pc with
  | .ok (i, pc) => .goes { m.push (v i) with pc := pc }
  | .error _ => .breaks

def eopTryExcept (m : Machine W) : Next W :=
  match bc.read 1 m.pc with
  | .ok (n, pc) => .goes { m.push (.catchMarker n) with pc := pc }
  | .error _ => .breaks

def endHandlers (v : Option Var) (m : Machine W) : Next W :=
  match m.rts, bc.read bc.numbytes.label m.pc with
  | .catchMarker n :: rts, .ok (i, pc) =>
      if rts.length < 2 * n then .breaks
      else .goes { m with rts := v.toList ++ rts.drop (2 * n), pc := if i ≠ 0 then i else pc }
  | _, _ => .breaks

def eopEndCatchAt (m : Machine W) : Next W :=
  match m.rts with
  | v :: rts => endHandlers bc (some v) { m with rts := rts }
  | [] => .breaks

def eopEndFinally (m : Machine W) : Next W :=
  match m.rts with
  | .finallyMarker _ :: rts => .goes { m with rts := zero :: .int Reason.fallThru.num :: rts }
  | _ => .breaks

def eopContinueAt (m : Machine W) : Next W :=
  match m.rts with
  | v :: .int n :: rts =>
      match reasonOf n with
      | some .fallThru => .goes { m with rts := rts }
      | some why => .unwinds why v { m with rts := rts }
      | none => .breaks
  | _ => .breaks

def eopWhileId (m : Machine W) : Next W :=
  match m.rts, bc.read bc.numbytes.varName m.pc with
  | v :: _, .ok (id, pc) => doTest bc { m with env := Function.update m.env id v, pc := pc }
  | _, _ => .breaks

def eopExit (m : Machine W) : Next W :=
  match bc.read bc.numbytes.stack m.pc with
  | .ok (goal, pc) =>
      match bc.read bc.numbytes.label pc with
      | .ok (lab, _) => .unwinds .exit (.list [.int goal, .int lab]) m
      | .error _ => .breaks
  | .error _ => .breaks

def eopExitId (m : Machine W) : Next W :=
  match bc.read bc.numbytes.varName m.pc with
  | .ok (_, pc) => eopExit bc { m with pc := pc }
  | .error _ => .breaks

def extendedOpcode (m : Machine W) : ExtendedOpcode → Next W
  | .rangeset => eopRangesetAt S errorPc m
  | .length => eopLengthAt S bc errorPc m
  | .pushLabel => eopLabel bc (fun i => .int i) m
  | .tryFinally => eopLabel bc .finallyMarker m
  | .catch_ => .goes (m.push (.catchMarker 1))
  | .tryExcept => eopTryExcept bc m
  | .endCatch => eopEndCatchAt bc m
  | .endExcept => endHandlers bc none m
  | .endFinally => eopEndFinally m
  | .continue_ => eopContinueAt m
  | .whileId => eopWhileId bc m
  | .exit => eopExit bc m
  | .exitId => eopExitId bc m
  | .scatter => executed S errorPc { m with rts := m.rts.tail } (eopScatter bc m.toActivation)
  | .exp => binaryOp S errorPc (eopExp (S.around m.world).fl) m

def opcode (fast : Bool) (m : Machine W) : Opcode → Next W
  | .if_ | .ifQues | .while_ | .eif => doTest bc m
  | .jump => executed S errorPc m (opJump bc m.toActivation)
  | .forList => opForListAt S bc errorPc m
  | .forRange => executed S errorPc m (opForRange bc m.toActivation)
  | .pop => executed S errorPc m (opPop m.toActivation)
  | .imm => opImm literals bc fast m
  | .makeEmptyList => .goes (m.push (.list []))
  | .listAddTail => binaryOp S errorPc opListAddTail m
  | .listAppend => binaryOp S errorPc opListAppend m
  | .indexset => ternaryOp S errorPc opIndexset m
  | .makeSingletonList => unaryOp S errorPc (fun v => .ok (.push (.list [v]))) m
  | .checkListForSplice =>
      unaryOp S errorPc (fun v => if v.type ≠ .list then .ok (.raise .eType) else .ok (.push v)) m
  | .putTemp =>
      match m.rts with
      | v :: _ => .goes { m with temp := v }
      | [] => .breaks
  | .pushTemp => .goes { m.push m.temp with temp := .none }
  | .eq => binaryOp S errorPc (opEq false) m
  | .ne => binaryOp S errorPc (opEq true) m
  | .gt => binaryOp S errorPc (opCompare (S.around m.world).fl (0 < ·)) m
  | .lt => binaryOp S errorPc (opCompare (S.around m.world).fl (· < 0)) m
  | .ge => binaryOp S errorPc (opCompare (S.around m.world).fl (0 ≤ ·)) m
  | .le => binaryOp S errorPc (opCompare (S.around m.world).fl (· ≤ 0)) m
  | .in_ => binaryOp S errorPc opIn m
  | .mult => binaryOp S errorPc (opArithmetic (simpleBinaryReads (· * ·) (S.around m.world).fl.mul)) m
  | .minus => binaryOp S errorPc (opArithmetic (simpleBinaryReads (· - ·) (S.around m.world).fl.sub)) m
  | .div => binaryOp S errorPc (opArithmetic (divisionOpReads intDiv (S.around m.world).fl.div)) m
  | .mod => binaryOp S errorPc (opArithmetic (divisionOpReads intMod (S.around m.world).fl.fmod)) m
  | .add => binaryOp S errorPc (opAddReads (S.around m.world).fl) m
  | .and => opLogic bc false m
  | .or => opLogic bc true m
  | .not => unaryOp S errorPc (fun v => .ok (.push (.int (if v.isTrue then 0 else 1)))) m
  | .unaryMinus => unaryOp S errorPc (opUnaryMinusReads (S.around m.world).fl) m
  | .ref => binaryOp S errorPc opRefReads m
  | .pushRef => peekOp S errorPc opPushRefReads m
  | .rangeRef => ternaryOp S errorPc opRangeRefReads m
  | .put slot => opPutReady S bc errorPc fast slot m
  | .gPut => executed S errorPc m (opGPut bc m.toActivation)
  | .push slot => opPush S errorPc slot m
  | .gPush => opGPush S bc errorPc m
  | .getProp => binaryOp S errorPc (opGetProp (S.around m.world)) m
  | .pushGetProp => peekOp S errorPc (opGetProp (S.around m.world)) m
  | .putProp => opPutProp S errorPc m
  | .fork => opForkAt S bc errorPc false m
  | .forkWithId => opForkAt S bc errorPc true m
  | .callVerb => opCallVerbAt S errorPc m
  | .biFuncCall => opBiFuncCallAt S bc errorPc m
  | .return_ => opReturn m
  | .return0 | .done => .unwinds .return_ zero m
  | .optimNum index => .goes (m.push (.int (opcodeToOptimNum index)))
  | .extended =>
      match bc.vector[m.pc]?.bind ExtendedOpcode.ofByte with
      | some eop => extendedOpcode S bc errorPc { m with pc := m.pc + 1 } eop
      | none => .breaks

end

/-! The loop. -/

/-- What comes of the activation: it goes on, or it is left. -/
inductive Outcome (W : Type)
  | goes (m : Machine W)
  | leaves (why : Reason) (value : Var) (m : Machine W)
  | stops
  /-- `abort_task` is called: the ticks or the seconds are used up. -/
  | aborts
  | breaks

def Next.settle : Next W → Outcome W
  | .goes m => .goes m
  | .unwinds why value m =>
      match codeOf why value, exitOf why value with
      | some code, some (goal, exitPc) =>
          match unwindRts why code value goal 0 m.rts with
          | some (.handler pc rts) => .goes { m with pc := pc, rts := rts }
          | some (.goal rts) =>
              if why = .exit then .goes { m with pc := exitPc, rts := rts } else .leaves why value { m with rts := rts }
          | none => .breaks
      | _, _ => .breaks
  | .stops => .stops
  | .breaks => .breaks

variable (S : Server W) (literals : List Var) (bc : Bytecodes)

/-- One opcode. The fast paths of `OP_IMM` and `OP_PUT` are taken if `fast` says so. -/
def step (fast : Bool) (m : Machine W) : Next W :=
  match bc.vector[m.pc]? with
  | some b => opcode S literals bc m.pc fast { m with pc := m.pc + 1 } (Opcode.ofByte b)
  | none => .breaks

def advance (fast : Bool) (m : Machine W) : Outcome W := (step S literals bc fast m).settle

/-- One opcode of a task with limits. Only where an opcode counts does `run` look whether it is too `late`. -/
def advanceInTime (fast late : Bool) (m : Machine W) : Outcome W :=
  if late && bc.vector[m.pc]?.any fun b => countTick (Opcode.ofByte b) then .aborts else advance S literals bc fast m

end LambdaMoo.Interpreter
