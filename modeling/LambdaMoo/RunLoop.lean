import LambdaMoo.Unwinding

/-! The loop of `run`, as far as the stack of activations goes and how the interpreter stops. An
instruction stands for an opcode with its operands; those that only work on the activation that is
running are one of them. -/
namespace LambdaMoo

variable {D W : Type}

/-- What `run` works on: the stack, what is around it, and `*result`, which is not set at first. -/
structure RunState (D W : Type) where
  stack : List (StackedActivation D)
  world : W
  result : Option Var

inductive Instruction (D W : Type)
  /-- An opcode that works on the activation on top and on what is around it. -/
  | inside (change : Activation → Activation) (around : W → W)
  /-- `OP_CALL_VERB` or `EOP_PASS`, when there is such a verb. -/
  | callVerb (rts : List Var) (pushed : StackedActivation D) (around : W → W)
  /-- `PUSH_ERROR` in any opcode. -/
  | pushError (e : Error)
  /-- `OP_RETURN`. -/
  | return_
  /-- `OP_RETURN0` or `OP_DONE`. -/
  | return0
  /-- `OP_BI_FUNC_CALL`. -/
  | biFuncCall (id : Nat) (data : D)
  /-- `EOP_END_FINALLY`. -/
  | endFinally
  /-- `EOP_CONTINUE`. -/
  | continue_
  /-- `EOP_EXIT` or `EOP_EXIT_ID`. -/
  | exit (goal pc : Nat)
  /-- The task has run out of ticks or of seconds. -/
  | abort

/-- How an instruction ends: `run` goes on, or it comes back. -/
inductive Round (D W : Type)
  | goes (s : RunState D W)
  | ends (outcome : RunOutcome) (result : Option Var)

def reasonOf (n : Int) : Option Reason :=
  [Reason.fallThru, .raise, .uncaught, .return_, .exit].find? fun why => why.num = n

section

variable (callBiFunc : Invocation D → W → BiPackage D × W) (makeStackList : List (StackedActivation D) → Var)

/-- The stack is unwound; when there is nothing left of it, `run` comes back as `stops` says. -/
def RunState.unwind (fuel : Nat) (s : RunState D W) (why : Reason) (value : Var) (stops : RunOutcome → Round D W) :
    Option (Round D W) :=
  match (unwindStack callBiFunc makeStackList fuel s.stack why value s.world).2 with
  | some (.resumes stack, w) => some (.goes { s with stack := stack, world := w })
  | some (.stops outcome, _) => some (stops outcome)
  | none => none

/-- An error, which is raised in a verb with the debug flag, and else pushed. -/
def RunState.error (fuel : Nat) (s : RunState D W) (code : Var) (msg : Str) (value : Var) : Option (Round D W) :=
  match s.stack with
  | [] => none
  | a :: rest =>
      if a.debug then
        let (why, value) := raised makeStackList s.stack code msg value
        s.unwind callBiFunc makeStackList fuel why value fun _ => .ends .aborted s.result
      else some (.goes { s with stack := a.push code :: rest })

variable (unparseError : Error → Str)

/-- One instruction; none is a stack that is not what the instruction needs. -/
def Instruction.execute (fuel : Nat) (i : Instruction D W) (s : RunState D W) : Option (Round D W) :=
  match s.stack with
  | [] => none
  | a :: rest =>
      let returns (v : Var) (rts : List Var) :=
        RunState.unwind callBiFunc makeStackList fuel { s with stack := { a with rts := rts } :: rest } .return_ v
          fun outcome => .ends outcome (if outcome = .done then some v else s.result)
      match i with
      | inside change around =>
          some (.goes { s with stack := { a with toActivation := change a.toActivation } :: rest, world := around s.world })
      | callVerb rts pushed around =>
          some (.goes { s with stack := { pushed with biFunc := none } :: { a with rts := rts } :: rest, world := around s.world })
      | pushError e => s.error callBiFunc makeStackList fuel (.err e) (unparseError e) zero
      | return_ =>
          match a.rts with
          | v :: rts => returns v rts
          | [] => none
      | return0 => returns zero a.rts
      | biFuncCall id data =>
          match a.rts with
          | .list args :: rts =>
              let (p, w) := callBiFunc ⟨id, .list args, 1, a.progr, data⟩ s.world
              let s := { s with stack := { a with rts := rts } :: rest, world := w }
              match p with
              | .ret v => some (.goes { s with stack := { a with rts := v :: rts } :: rest })
              | .raise code msg value => s.error callBiFunc makeStackList fuel code msg value
              | .call pc data pushed =>
                  let biFunc := if pc = 0 then none else some ⟨id, pc, data⟩
                  some (.goes { s with stack := { pushed with biFunc := biFunc } :: s.stack })
              | .suspend none => some (.ends .blocked s.result)
              | .suspend (some e) => s.error callBiFunc makeStackList fuel (.err e) (unparseError e) zero
              | .kill => some (.ends .aborted s.result)
          | _ :: rts =>
              let s := { s with stack := { a with rts := rts } :: rest }
              s.error callBiFunc makeStackList fuel (.err .eType) (unparseError .eType) zero
          | [] => none
      | endFinally =>
          match a.rts with
          | .finallyMarker _ :: rts =>
              some (.goes { s with stack := { a with rts := zero :: .int Reason.fallThru.num :: rts } :: rest })
          | _ => none
      | continue_ =>
          match a.rts with
          | v :: .int n :: rts =>
              let s := { s with stack := { a with rts := rts } :: rest }
              match reasonOf n with
              | some .fallThru => some (.goes s)
              | some why => s.unwind callBiFunc makeStackList fuel why v fun outcome => .ends outcome s.result
              | none => none
          | _ => none
      | exit goal pc =>
          match s.unwind callBiFunc makeStackList fuel .exit (.list [.int goal, .int pc])
              fun outcome => .ends outcome s.result with
          | some (.goes s) => some (.goes s)
          | _ => none
      | abort => some (.ends .aborted s.result)

def RunState.run (fuel : Nat) : List (Instruction D W) → RunState D W → Option (RunState D W)
  | [], s => some s
  | i :: is, s =>
      match i.execute callBiFunc makeStackList unparseError fuel s with
      | some (.goes s) => RunState.run fuel is s
      | _ => none

end

end LambdaMoo
