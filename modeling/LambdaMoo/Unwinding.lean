import LambdaMoo.RunOpcodes

/-! The stack of activations when it is unwound: a value is returned, an error is raised, a loop
is left, or the task is aborted. Handlers are markers on the stacks of the activations. The
built-in functions are a parameter, and so is what the language sees of the stack. -/
namespace LambdaMoo

/-- `Finally_Reason`. -/
inductive Reason
  | fallThru | raise | uncaught | return_ | abort | exit
  deriving DecidableEq, Repr

def Reason.num : Reason → Int
  | .fallThru => 0
  | .raise => 1
  | .uncaught => 2
  | .return_ => 3
  | .abort => 4
  | .exit => 5

inductive RunOutcome
  | done | aborted | blocked
  deriving DecidableEq, Repr

/-- What an activation keeps of the built-in function that called it: where it goes on, and its data. -/
structure BiFunc (D : Type) where
  id : Nat
  pc : Nat
  data : D

/-- An activation on the stack. None is a `bi_func_pc` of 0. -/
structure StackedActivation (D : Type) extends Activation where
  progr : Objid
  biFunc : Option (BiFunc D)

/-- One call of `call_bi_func`. -/
structure Invocation (D : Type) where
  id : Nat
  value : Var
  pc : Nat
  progr : Objid
  data : D

/-- `package`. A call comes with the activation that has been pushed, and a suspension with the error
that `suspend_task` answers. -/
inductive BiPackage (D : Type)
  | ret (v : Var)
  | raise (code : Var) (msg : Str) (value : Var)
  | call (pc : Nat) (data : D) (pushed : StackedActivation D)
  | suspend (e : Option Error)
  | kill

variable {D W : Type}

def StackedActivation.push (a : StackedActivation D) (v : Var) : StackedActivation D :=
  { a with rts := v :: a.rts }

/-- Whether an arm takes an error: a code that is no list stands for `ANY`. -/
def armTakes (code : Var) : Var → Bool
  | .list codes =>
      match ismember code false codes 1 with
      | .ok i => i ≠ 0
      | .error _ => false
  | _ => true

/-- The arms below a marker, each with its codes and its place; the lowest is first. -/
def armsOf : List Var → List (Var × Var)
  | codes :: pc :: more => (codes, pc) :: armsOf more
  | _ => []

def armsBelow (n : Nat) (below : List Var) : List (Var × Var) := armsOf (below.take (2 * n)).reverse

/-- Where the loop over a stack ends: at a handler, or at its goal. -/
inductive RtsEnd
  | handler (pc : Nat) (rts : List Var)
  | goal (rts : List Var)

/-- The loop of `unwind_stack` over the stack of one activation. None is a place that is no number,
or arms that are not there. The arms that have been looked at are skipped. -/
def unwindRts (why : Reason) (code value : Var) (goal : Nat) : Nat → List Var → Option RtsEnd
  | _, [] => some (.goal [])
  | skip + 1, _ :: rts => unwindRts why code value goal skip rts
  | 0, v :: rts =>
      if rts.length + 1 ≤ goal then some (.goal (v :: rts))
      else
        match v with
        | .finallyMarker pc =>
            if why ≠ .abort then some (.handler pc (value :: .int why.num :: rts))
            else unwindRts why code value goal 0 rts
        | .catchMarker n =>
            if why = .raise then
              if rts.length < 2 * n then none
              else
                match (armsBelow n rts).find? fun arm => armTakes code arm.1 with
                | some (_, .int pc) => some (.handler pc.toNat (value :: rts.drop (2 * n)))
                | some _ => none
                | none => unwindRts why code value goal (2 * n) rts
            else unwindRts why code value goal 0 rts
        | _ => unwindRts why code value goal 0 rts

/-- Whether an activation has a handler for the code, as `find_handler_activ` looks for it. -/
def hasHandler (code : Var) : Nat → List Var → Bool
  | _, [] => false
  | skip + 1, _ :: rts => hasHandler code skip rts
  | 0, .catchMarker n :: rts =>
      (armsBelow n rts).any (fun arm => armTakes code arm.1) || hasHandler code (2 * n) rts
  | 0, _ :: rts => hasHandler code 0 rts

def findHandlerActiv (code : Var) (stack : List (StackedActivation D)) : Option Nat :=
  stack.findIdx? fun a => hasHandler code 0 a.rts

/-- How `unwind_stack` comes back: with the stack that goes on, or with the outcome. -/
inductive Unwound (D : Type)
  | resumes (stack : List (StackedActivation D))
  | stops (outcome : RunOutcome)

/-- A built-in function that goes on, or is made to, when the verb that it called has ended: the
activation of the verb, with what it keeps of the built-in, the activation that called the built-in,
the reason, and the call of `call_bi_func`. -/
structure Resumption (D : Type) where
  ended : StackedActivation D
  caller : StackedActivation D
  why : Reason
  invocation : Invocation D

section

variable (callBiFunc : Invocation D → W → BiPackage D × W) (makeStackList : List (StackedActivation D) → Var)

/-- The loop for a built-in function that the unwinding goes through. The programmer is read from the
slot of the stack that is above the caller's, where the activation is that has ended last. -/
def squelch (caller : StackedActivation D) (why : Reason) :
    Nat → StackedActivation D → BiFunc D → W → List (Resumption D) × Option W
  | 0, _, _, _ => ([], none)
  | fuel + 1, a, bi, w =>
      let inv : Invocation D := ⟨bi.id, zero, bi.pc, a.progr, bi.data⟩
      let done : Resumption D := ⟨{ a with biFunc := some bi }, caller, why, inv⟩
      match callBiFunc inv w with
      | (.call pc data pushed, w) =>
          if pc = 0 then ([done], some w)
          else
            let (more, w) := squelch caller why fuel pushed ⟨bi.id, pc, data⟩ w
            (done :: more, w)
      | (_, w) => ([done], some w)

def raised (stack : List (StackedActivation D)) (code : Var) (msg : Str) (value : Var) : Reason × Var :=
  match findHandlerActiv code stack with
  | some i => (.raise, .list [code, .str msg, value, makeStackList (stack.take (i + 1))])
  | none => (.uncaught, zero)

/-- The code of an error that is raised; none is a value that has none. -/
def codeOf (why : Reason) (value : Var) : Option Var :=
  if why = .raise then
    match value with
    | .list (code :: _) => some code
    | _ => none
  else some zero

/-- The height of the stack and the place that a loop is left to. -/
def exitOf (why : Reason) (value : Var) : Option (Nat × Nat) :=
  match why, value with
  | .exit, .list [.int goal, .int pc] => some (goal.toNat, pc.toNat)
  | .exit, _ => none
  | _, _ => some (0, 0)

/-- What `unwind_stack` does in the activation on top. It goes on there, in a handler or behind a
loop, or it is done with it. -/
def unwindActivation (why : Reason) (value : Var) (a : StackedActivation D) :
    Option (Option (StackedActivation D)) := do
  let code ← codeOf why value
  let (goal, pc) ← exitOf why value
  match ← unwindRts why code value goal 0 a.rts with
  | .handler pc rts => some (some { a with pc := pc, rts := rts })
  | .goal rts => if why = .exit then some (some { a with pc := pc, rts := rts }) else some none

/-- What comes of the activation below: it goes on, or the interpreter stops, or the unwinding goes
on there. -/
inductive Passed (D : Type)
  | resumes (stack : List (StackedActivation D))
  | stops (outcome : RunOutcome)
  | again (why : Reason) (value : Var)

/-- The verb that a built-in function called has returned. None is an error that is taken for the
list of an error that is raised. -/
def resumeBuiltin (caller : StackedActivation D) (rest : List (StackedActivation D)) (id : Nat) :
    BiPackage D → Option (Passed D)
  | .ret v => some (.resumes (caller.push v :: rest))
  | .raise code msg v =>
      if caller.debug then
        some (.again (raised makeStackList (caller :: rest) code msg v).1
          (raised makeStackList (caller :: rest) code msg v).2)
      else some (.resumes (caller.push code :: rest))
  | .suspend none => some (.stops .blocked)
  | .suspend (some _) => none
  | .call pc data pushed =>
      some (.resumes ({ pushed with biFunc := if pc = 0 then none else some ⟨id, pc, data⟩ } :: caller :: rest))
  | .kill => some (.again .abort zero)

/-- An activation has been taken off the stack. None is also a loop over a built-in function that
does not end. -/
def passCaller (fuel : Nat) (a caller : StackedActivation D) (rest : List (StackedActivation D)) (why : Reason)
    (value : Var) (w : W) : List (Resumption D) × Option (Passed D × W) :=
  match a.biFunc with
  | none =>
      ([], some (if why = .return_ then .resumes (caller.push value :: rest) else .again why value, w))
  | some bi =>
      if why = .return_ then
        let inv : Invocation D := ⟨bi.id, value, bi.pc, caller.progr, bi.data⟩
        let (p, w) := callBiFunc inv w
        ([⟨a, caller, why, inv⟩], (resumeBuiltin makeStackList caller rest bi.id p).map (·, w))
      else
        let (squelched, w) := squelch callBiFunc caller why fuel a bi w
        (squelched, w.map (.again why value, ·))

def unwindStack (fuel : Nat) : List (StackedActivation D) → Reason → Var → W →
    List (Resumption D) × Option (Unwound D × W)
  | [], _, _, _ => ([], none)
  | a :: stack, why, value, w =>
      match unwindActivation why value a, stack with
      | none, _ => ([], none)
      | some (some a), stack => ([], some (.resumes (a :: stack), w))
      | some none, [] => ([], some (.stops (if why = .return_ then .done else .aborted), w))
      | some none, caller :: rest =>
          match passCaller callBiFunc makeStackList fuel a caller rest why value w with
          | (passed, none) => (passed, none)
          | (passed, some (.resumes stack, w)) => (passed, some (.resumes stack, w))
          | (passed, some (.stops outcome, w)) => (passed, some (.stops outcome, w))
          | (passed, some (.again why value, w)) =>
              let (more, ended) := unwindStack fuel (caller :: rest) why value w
              (passed ++ more, ended)

end

end LambdaMoo
