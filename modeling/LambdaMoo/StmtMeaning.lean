import LambdaMoo.Meaning

/-! What a statement means. A loop is given a number of rounds; with more rounds, more programs come to
their end. -/
namespace LambdaMoo.Interpreter
open Listing

variable {W α : Type}

inductive Flow
  | falls
  /-- A loop is left, or goes on with its next round; without a name it is the innermost one. -/
  | exits (leave : Bool) (exit : Option Nat)
  | returns (v : Var)

def followed (x y : Eval W Flow) : Eval W Flow := do
  match ← x with
  | .falls => y
  | flow => pure flow

/-- The handler runs in any case, and after it what came first goes on. -/
def finally_ (x handler : Eval W Flow) : Eval W Flow := fun σ =>
  match x σ with
  | (.ok flow, σ) => followed handler (pure flow) σ
  | (.error (.raise code info), σ) => followed handler (interrupt (.raise code info)) σ
  | r => r

def hits (exit id : Option Nat) : Bool := exit.isNone || exit == id

/-- The rounds of a loop. The head says whether there is one more round, and what is behind it. Without
`back`, a round that comes to its end is the last one. -/
def rounds (id : Option Nat) (back : Bool) (head : α → Eval W (Option α)) (body : Eval W Flow) : Nat → α → Eval W Flow
  | 0, _ => interrupt .tires
  | fuel + 1, a => do
      match ← head a with
      | none => pure .falls
      | some a =>
          match ← body with
          | .falls => if back then rounds id back head body fuel a else pure .falls
          | .exits leave exit =>
              if hits exit id then
                if leave then pure .falls else rounds id back head body fuel a
              else pure (.exits leave exit)
          | .returns v => pure (.returns v)

section

variable {x y body : Eval W Flow} {σ τ : Memory W}

theorem followed_falls (h : x σ = (.ok .falls, τ)) : followed x y σ = y τ := bind_ok h

theorem followed_error {i : Interrupt} (h : x σ = (.error i, τ)) : followed x y σ = (.error i, τ) := bind_error h

theorem rounds_tires {id : Option Nat} {head : α → Eval W (Option α)} {a : α} (hhead : head a σ = (.ok (some a), σ))
    (hbody : body σ = (.ok .falls, σ)) : ∀ fuel, rounds id true head body fuel a σ = (.error .tires, σ)
  | 0 => rfl
  | fuel + 1 => by
      rw [rounds, bind_ok hhead]
      dsimp only
      rw [bind_ok hbody]
      exact rounds_tires hhead hbody fuel

end

section

variable (S : Server W) (R : Reading) (fuel : Nat)

def failing (place : Nat) (e : Error) (x : Eval W α) : Eval W α := do
  let _ ← fail S place e
  x

def nextElement (place id : Nat) (r : Reads Answer) (next : Var → α) : Eval W (Option α) :=
  match r with
  | .ok (.assign v w) => do
      setVar id v
      pure (some (next w))
  | .ok .leave => pure none
  | .ok (.raise e) => failing S place e (pure none)
  | _ => interrupt .undefined

def listHead (place id : Nat) (list count : Var) : Eval W (Option Var) :=
  nextElement S place id (opForList list count) fun count => count

def rangeHead (place id : Nat) (to' from' : Var) : Eval W (Option Var) :=
  nextElement S place id (opForRangeReads from' to') fun from' => from'

def setId (id : Option Nat) (v : Var) : Eval W Unit :=
  match id with
  | some id => setVar id v
  | none => pure ()

def whileHead (place : Nat) (id : Option Nat) (condition : Expr) (_ : Unit) : Eval W (Option Unit) := do
  let v ← evalExpr S R condition none place
  setId id v
  pure (if v.isTrue then some () else none)

def fork (place : Nat) (id : Option Nat) (index : Nat) (time : Var) : Eval W Unit := do
  match opFork (← around S) time, time with
  | .ok (.raise e), _ => failing S place e (pure ())
  | .ok .keep, .int n => do
      let task ← fun σ => (.ok (S.newTaskId σ.world), σ)
      setId id (.int task)
      update fun σ => { σ with world := S.enqueueFt index n σ.env σ.world }
  | _, _ => interrupt .undefined

def evalCodes : ExceptArm → Nat → Eval W (List Var)
  | .nil, _ => pure []
  | .cons _ codes _ next, place => do
      let v ← if codes.isNil then pure zero else evalArgList S R codes none place
      let vs ← evalCodes next (place + codesSize codes + 3)
      pure (v :: vs)

mutual
def exec : Stmt → Nat → Nat → Eval W Flow
  | .cond arms otherwise, place, forks =>
      execArms arms place forks (execAll otherwise (place + armsSize arms) (forks + armsForks arms))
  | .list id expr body, place, forks => do
      let top := place + exprSize expr + 1
      let list ← evalExpr S R expr none place
      rounds (some id) true (listHead S top id list) (execAll body (top + 3) forks) fuel (.int 1)
  | .range id lower upper body, place, forks => do
      let top := place + exprSize lower + exprSize upper
      let from' ← evalExpr S R lower none place
      let to' ← evalExpr S R upper none (place + exprSize lower)
      rounds (some id) true (rangeHead S top id to') (execAll body (top + 3) forks) fuel from'
  | .while_ id condition body, place, forks =>
      rounds id (R.repeats place) (whileHead S R place id condition)
        (execAll body (place + (exprSize condition + if id.isSome then 4 else 2)) forks) fuel ()
  | .fork id time body, place, forks => do
      let time' ← evalExpr S R time none place
      fork S (place + exprSize time) id (forks + stmtsForks body) time'
      pure .falls
  | .expr expr, place, _ => do
      let _ ← evalExpr S R expr none place
      pure .falls
  | .return_ (.some expr), place, _ => do
      let v ← evalExpr S R expr none place
      pure (.returns v)
  | .return_ .none, _, _ => pure (.returns zero)
  | .tryExcept body excepts, place, forks => do
      let cs ← evalCodes S R excepts place
      let start := place + handlersSize excepts + 3
      catching (execAll body start forks) (fun code => cs.any (armTakes code))
        (execExcepts excepts cs (start + stmtsSize body + 3) (forks + stmtsForks body))
  | .tryFinally body handler, place, forks =>
      finally_ (execAll body (place + 3) forks)
        (execAll handler (place + 3 + stmtsSize body + 2) (forks + stmtsForks body))
  | .break_ exit, _, _ => pure (.exits true exit)
  | .continue_ exit, _, _ => pure (.exits false exit)
def execAll : Stmts → Nat → Nat → Eval W Flow
  | .nil, _, _ => pure .falls
  | .cons stmt next, place, forks =>
      followed (exec stmt place forks) (execAll next (place + stmtSize stmt) (forks + stmtForks stmt))
def execArms : CondArm → Nat → Nat → Eval W Flow → Eval W Flow
  | .nil, _, _, otherwise => otherwise
  | .cons condition stmt next, place, forks, otherwise => do
      let v ← evalExpr S R condition none place
      if v.isTrue then execAll stmt (place + exprSize condition + 2) forks
      else execArms next (place + exprSize condition + 2 + stmtsSize stmt + 2) (forks + stmtsForks stmt) otherwise
def execExcepts : ExceptArm → List Var → Nat → Nat → List Var → Eval W Flow
  | .cons id _ stmt next, c :: cs, place, forks, tuple =>
      if armTakes (tuple.headD zero) c then do
        setId id (.list tuple)
        execAll stmt (place + bindSize id) forks
      else
        execExcepts next cs (place + bindSize id + stmtsSize stmt + 2) (forks + stmtsForks stmt) tuple
  | _, _, _, _, _ => interrupt .undefined
end

attribute [simp] exec execAll execArms execExcepts

end

end LambdaMoo.Interpreter
