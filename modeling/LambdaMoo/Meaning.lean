import LambdaMoo.Listing
import LambdaMoo.Machine
import LambdaMoo.ScatterRuns

/-! What an expression means, without a stack or a code vector: a function of the tree that evaluates
it from the left to the right. A place says where the code of a tree starts; all it is for is the
traceback of an error. -/
namespace LambdaMoo.Interpreter
open Listing

variable {W α : Type}

/-- What an expression can read and change. -/
structure Memory (W : Type) where
  env : Nat → Var
  debug : Bool
  world : W

inductive Interrupt
  | raise (code : Var) (info : List Var)
  /-- The task has come to an end. -/
  | stops
  /-- C does not say what happens, or the server panics. -/
  | undefined
  /-- A loop has not come to its end in the rounds that it was given. -/
  | tires

/-- What a literal means, and whether a `while` whose code stands at a place is gone through again. -/
structure Reading where
  literal : Var → Var
  repeats : Nat → Bool

def asWritten : Reading := ⟨id, fun _ => true⟩

/-- The literal of the table that the compiler takes for equal. It knows no sign of a zero. -/
def literal (literals : List Var) (v : Var) : Var := (literals.find? (CodeGen.sameLiteral v)).getD v

def isZeroFloat : Var → Bool
  | .float fnum => Float64.isZero fnum
  | _ => false

/-- Literals are those of the table, and `OP_JUMP` takes the label 0 for no jump. -/
def asCompiled (literals : List Var) : Reading := ⟨literal literals, (· != 0)⟩

def Eval (W α : Type) := Memory W → Except Interrupt α × Memory W

instance : Monad (Eval W) where
  pure a := fun σ => (.ok a, σ)
  bind x f := fun σ =>
    match x σ with
    | (.ok a, σ) => f a σ
    | (.error i, σ) => (.error i, σ)

theorem bind_ok {β : Type} {x : Eval W α} {f : α → Eval W β} {σ τ : Memory W} {a : α} (h : x σ = (.ok a, τ)) :
    (x >>= f) σ = f a τ := by
  change (match x σ with
    | (.ok a, σ) => f a σ
    | (.error i, σ) => (.error i, σ)) = _
  rw [h]

theorem bind_error {β : Type} {x : Eval W α} {f : α → Eval W β} {σ τ : Memory W} {i : Interrupt}
    (h : x σ = (.error i, τ)) : (x >>= f) σ = (.error i, τ) := by
  change (match x σ with
    | (.ok a, σ) => f a σ
    | (.error i, σ) => (.error i, σ)) = _
  rw [h]

def interrupt (i : Interrupt) : Eval W α := fun σ => (.error i, σ)

def update (f : Memory W → Memory W) : Eval W Unit := fun σ => (.ok (), f σ)

def setVar (slot : Nat) (v : Var) : Eval W Unit :=
  update fun σ => { σ with env := Function.update σ.env slot v }

section

variable (S : Server W) (R : Reading) (place : Nat)

def around : Eval W Surroundings := fun σ => (.ok (S.around σ.world), σ)

theorem around_bind (f : Surroundings → Eval W α) (σ : Memory W) : (around S >>= f) σ = f (S.around σ.world) σ := rfl

/-- An error is raised in a verb with the debug flag; in others it is the value. -/
def fail (e : Error) : Eval W Var := fun σ =>
  if σ.debug then
    (.error (.raise (.err e) [.str (S.unparseError e), zero, S.makeStackList place σ.world]), σ)
  else (.ok (.err e), σ)

def answer : Reads Answer → Eval W Var
  | .ok (.push v) => pure v
  | .ok (.raise e) => fail S place e
  | _ => interrupt .undefined

def calls (call : (Nat → Var) → W → CallResult × W) : Eval W Var := fun σ =>
  match call σ.env σ.world with
  | (.ret v, w) => (.ok v, { σ with world := w })
  | (.error e, w) => fail S place e { σ with world := w }
  | (.raise code msg value, w) =>
      if σ.debug then (.error (.raise code [.str msg, value, S.makeStackList place w]), { σ with world := w })
      else (.ok code, { σ with world := w })
  | (.raised code info, w) => (.error (.raise code info), { σ with world := w })
  | (.stops, w) => (.error .stops, { σ with world := w })

def catching (x : Eval W α) (takes : Var → Bool) (handler : List Var → Eval W α) : Eval W α := fun σ =>
  match x σ with
  | (.error (.raise code info), σ) =>
      if takes code then handler (code :: info) σ else (.error (.raise code info), σ)
  | r => r

def variable_ (slot : Nat) : Eval W Var := fun σ =>
  match σ.env slot with
  | .none => fail S place .eVarnf σ
  | v => (.ok v, σ)

def binary (fl : Doubles) : BinaryKind → Var → Var → Reads Answer
  | .eq => opEq false
  | .ne => opEq true
  | .ge => opCompare fl (0 ≤ ·)
  | .gt => opCompare fl (0 < ·)
  | .le => opCompare fl (· ≤ 0)
  | .lt => opCompare fl (· < 0)
  | .in_ => opIn
  | .plus => opAddReads fl
  | .minus => opArithmetic (simpleBinaryReads (· - ·) fl.sub)
  | .times => opArithmetic (simpleBinaryReads (· * ·) fl.mul)
  | .divide => opArithmetic (divisionOpReads intDiv fl.div)
  | .mod => opArithmetic (divisionOpReads intMod fl.fmod)
  | .exp => eopExp fl

def unary (fl : Doubles) : UnaryKind → Var → Reads Answer
  | .negate, v => opUnaryMinusReads fl v
  | .not, v => .ok (.push (.int (if v.isTrue then 0 else 1)))

def shortCircuit : LogicKind → Bool
  | .and => false
  | .or => true

def verbCall (obj verb args : Var) : Eval W Var :=
  match obj, verb, args with
  | .obj oid, .str vname, .list l => do
      if !(← around S).valid oid then fail S place .eInvind
      else calls S place (S.callVerb oid vname l)
  | _, _, _ => fail S place .eType

def functionCall (func : Nat) (args : Var) : Eval W Var :=
  match args with
  | .list l => calls S place (S.callBiFunc func l)
  | _ => fail S place .eType

def firstArg (kind : ArgKind) (v : Var) : Eval W Var :=
  match kind with
  | .normal => pure (.list [v])
  | .splice => if v.type ≠ .list then fail S place .eType else pure v

def nextArg (kind : ArgKind) (args v : Var) : Eval W Var :=
  match kind with
  | .normal => answer S place (opListAddTail args v)
  | .splice => answer S place (opListAppend args v)

/-! Assignments. -/

/-- The target of an assignment, with the containers it is a part of and its place in them. -/
inductive Target
  | var (slot : Nat)
  | prop (obj propname : Var)
  | index (base : Target) (container index : Var)
  | range (base : Target) (container from' to' : Var)

def fetch : Target → Eval W Var
  | .var slot => variable_ S place slot
  | .prop obj propname => do answer S place (opGetProp (← around S) obj propname)
  | .index _ container index => answer S place (opPushRefReads container index)
  | .range .. => interrupt .undefined

def putProp (obj propname rhs : Var) : Eval W Var := do
  match opPutPropReads (← around S) obj propname rhs, obj, propname with
  | .ok (.push v), .obj oid, .str name =>
      update fun σ => { σ with world := S.setPropertyValue oid name rhs σ.world }
      pure v
  | .ok (.raise e), _, _ => fail S place e
  | _, _, _ => interrupt .undefined

def rangeset (base from' to' value : Var) : Eval W Var :=
  match eopRangeset base from' to' value with
  | .ok (.ok v) => pure v
  | .ok (.error e) => fail S place e
  | .error _ => interrupt .undefined

/-- A value is put into the innermost container, that into the next one, and so on. -/
def store : Target → Nat → Var → Eval W Var
  | .var slot, _, v => do
      setVar slot v
      pure v
  | .prop obj propname, place, v => putProp S place obj propname v
  | .index base container index, place, v => do
      store base (place + 1) (← answer S place (opIndexset container index v))
  | .range base container from' to', place, v => do
      store base (place + 2) (← rangeset S place container from' to' v)

def scatter (targets : Scatter) (v : Var) (defaults : Nat → Eval W Unit) : Eval W Var :=
  match scatterError targets.count (targets.countKind .required) (takesRest targets) v, v with
  | some e, _ => fail S place e
  | none, .list l =>
      match distributed targets l with
      | some shares => do
          if intMax ≤ l.length then interrupt .undefined
          update fun σ => { σ with env := assign shares σ.env }
          defaults (l.length - targets.countKind .required)
          pure v
      | none => interrupt .undefined
  | none, _ => interrupt .undefined

/-! Expressions. `dollar` is what `$` is the length of. -/

mutual
def evalExpr : Expr → Option Var → Nat → Eval W Var
  | .var v, _, _ => pure (R.literal v)
  | .id slot, _, place => variable_ S place slot
  | .logic kind lhs rhs, dollar, place => do
      let v ← evalExpr lhs dollar place
      if v.isTrue = shortCircuit kind then pure v
      else evalExpr rhs dollar (place + exprSize lhs + 2)
  | .unary kind expr, dollar, place => do
      let v ← evalExpr expr dollar place
      answer S (place + exprSize expr) (unary (← around S).fl kind v)
  | .binary kind lhs rhs, dollar, place => do
      let v ← evalExpr lhs dollar place
      let v' ← evalExpr rhs dollar (place + exprSize lhs)
      answer S (place + exprSize lhs + exprSize rhs) (binary (← around S).fl kind v v')
  | .prop lhs rhs, dollar, place => do
      let obj ← evalExpr lhs dollar place
      let propname ← evalExpr rhs dollar (place + exprSize lhs)
      answer S (place + exprSize lhs + exprSize rhs) (opGetProp (← around S) obj propname)
  | .index lhs rhs, dollar, place => do
      let list ← evalExpr lhs dollar place
      let index ← evalExpr rhs (some list) (place + exprSize lhs)
      answer S (place + exprSize lhs + exprSize rhs) (opRefReads list index)
  | .range base lower upper, dollar, place => do
      let list ← evalExpr base dollar place
      let from' ← evalExpr lower (some list) (place + exprSize base)
      let to' ← evalExpr upper (some list) (place + exprSize base + exprSize lower)
      answer S (place + exprSize base + exprSize lower + exprSize upper) (opRangeRefReads list from' to')
  | .length, dollar, place =>
      match dollar with
      | some v => answer S place (eopLength v)
      | none => interrupt .undefined
  | .list args, dollar, place => evalArgList args dollar place
  | .call func args, dollar, place => do
      let v ← evalArgList args dollar place
      functionCall S (place + argListSize args) func v
  | .verb obj verb args, dollar, place => do
      let o ← evalExpr obj dollar place
      let vname ← evalExpr verb dollar (place + exprSize obj)
      let v ← evalArgList args dollar (place + exprSize obj + exprSize verb)
      verbCall S (place + exprSize obj + exprSize verb + argListSize args) o vname v
  | .cond condition consequent alternate, dollar, place => do
      let v ← evalExpr condition dollar place
      if v.isTrue then evalExpr consequent dollar (place + exprSize condition + 2)
      else evalExpr alternate dollar (place + exprSize condition + (2 + exprSize consequent) + 2)
  | .asgn (.scatter targets) rhs, dollar, place => do
      let v ← evalExpr rhs dollar place
      scatter S (place + exprSize rhs) targets v fun avail =>
        evalDefaults targets avail dollar (place + exprSize rhs + 5 + 2 * targets.count + 1)
  | .asgn lhs rhs, dollar, place => do
      let target ← evalTarget lhs dollar place
      let v ← evalExpr rhs dollar (place + lvalueSize lhs false)
      if CodeGen.Expr.isIndexed lhs then do
        let _ ← store S target (place + lvalueSize lhs false + exprSize rhs + 1) v
        pure v
      else store S target (place + lvalueSize lhs false + exprSize rhs) v
  | .catch_ body codes except, dollar, place => do
      let n := if codes.isNil then 1 else argListSize codes
      let cs ← if codes.isNil then pure zero else evalArgList codes dollar place
      catching (evalExpr body dollar (place + n + 3 + 2)) (armTakes · cs) fun tuple =>
        evalExcept except dollar (place + n + 3 + 2 + exprSize body + 3) tuple
  | .scatter _, _, _ => interrupt .undefined
def evalExcept : Default → Option Var → Nat → List Var → Eval W Var
  | .some expr, dollar, place, _ => evalExpr expr dollar (place + 1)
  | .none, _, place, tuple => answer S (place + 1) (opRefReads (.list tuple) (.int 1))
def evalDefaults : Scatter → Nat → Option Var → Nat → Eval W Unit
  | .nil, _, _, _ => pure ()
  | .cons .optional id (.some expr) next, avail, dollar, place => do
      if avail = 0 then do
        let v ← evalExpr expr dollar place
        setVar id v
      evalDefaults next (avail - 1) dollar (place + (exprSize expr + varOpSize id + 1))
  | .cons .optional _ .none next, avail, dollar, place => evalDefaults next (avail - 1) dollar place
  | .cons _ _ _ next, avail, dollar, place => evalDefaults next avail dollar place
def evalArgList : ArgList → Option Var → Nat → Eval W Var
  | .nil, _, _ => pure (.list [])
  | .cons kind expr next, dollar, place => do
      let v ← evalExpr expr dollar place
      let args ← firstArg S (place + exprSize expr) kind v
      evalArgs next dollar (place + exprSize expr + 1) args
def evalArgs : ArgList → Option Var → Nat → Var → Eval W Var
  | .nil, _, _, args => pure args
  | .cons kind expr next, dollar, place, args => do
      let v ← evalExpr expr dollar place
      let args ← nextArg S (place + exprSize expr) kind args v
      evalArgs next dollar (place + exprSize expr + 1) args
def evalTarget : Expr → Option Var → Nat → Eval W Target
  | .id slot, _, _ => pure (.var slot)
  | .prop lhs rhs, dollar, place => do
      let obj ← evalExpr lhs dollar place
      let propname ← evalExpr rhs dollar (place + exprSize lhs)
      pure (.prop obj propname)
  | .index lhs rhs, dollar, place => do
      let base ← evalTarget lhs dollar place
      let container ← fetch S (place + lvalueSize lhs false) base
      let index ← evalExpr rhs (some container) (place + lvalueSize lhs true)
      pure (.index base container index)
  | .range lhs lower upper, dollar, place => do
      let base ← evalTarget lhs dollar place
      let container ← fetch S (place + lvalueSize lhs false) base
      let from' ← evalExpr lower (some container) (place + lvalueSize lhs true)
      let to' ← evalExpr upper (some container) (place + lvalueSize lhs true + exprSize lower)
      pure (.range base container from' to')
  | _, _, _ => interrupt .undefined
end

attribute [simp] evalExpr evalExcept evalDefaults evalArgList evalArgs evalTarget

theorem evalExpr_asgn {lhs : Expr} (rhs : Expr) (dollar : Option Var) (place : Nat) (h : lhs.isScatter = false) :
    evalExpr S R (.asgn lhs rhs) dollar place = (do
      let target ← evalTarget S R lhs dollar place
      let v ← evalExpr S R rhs dollar (place + lvalueSize lhs false)
      if CodeGen.Expr.isIndexed lhs then do
        let _ ← store S target (place + lvalueSize lhs false + exprSize rhs + 1) v
        pure v
      else store S target (place + lvalueSize lhs false + exprSize rhs) v) := by
  cases lhs <;> first | rfl | cases h

end

end LambdaMoo.Interpreter
