import Mathlib.Data.List.Basic

/-! # Name lookup

The threads of name_lookup.c. A lookup runs the resolver on a detached worker thread while the
main thread waits for it, at most until a deadline; the two share one `lookup_ctx`, which whoever
drops the last of its two references frees. A step is one section under `ctx->mutex`, one atomic
operation on `outstanding_lookups`, or one call between them. -/

namespace LambdaMoo.NameLookup

inductive RequestKind where
  | nameFromAddr
  | addrFromName
  deriving DecidableEq, Repr

inductive Request where
  | nameFromAddr (address : Nat)
  | addrFromName (name : String)
  deriving DecidableEq, Repr

def Request.kind : Request → RequestKind
  | nameFromAddr _ => .nameFromAddr
  | addrFromName _ => .addrFromName

/-- The result field that belongs to the kind of the request. -/
inductive Result where
  | name (nameResult : Option String)
  | addr (addrResult : Nat)
  deriving DecidableEq, Repr

structure LookupCtx where
  refcount : Int
  done : Bool
  kind : RequestKind
  name : Option String
  address : Option Nat
  addrResult : Nat
  nameResult : Option String
  deriving DecidableEq, Repr

def LookupCtx.result (ctx : LookupCtx) : Result :=
  match ctx.kind with
  | .nameFromAddr => .name ctx.nameResult
  | .addrFromName => .addr ctx.addrResult

/-- The write of the resolver's answer; a resolver that fails writes nothing, and leaves the field
with the value that says so. -/
def LookupCtx.store (ctx : LookupCtx) : Option Result → LookupCtx
  | some (.name host) => { ctx with nameResult := host }
  | some (.addr addr) => { ctx with addrResult := addr }
  | none => ctx

def newCtx (kind : RequestKind) : LookupCtx where
  refcount := 2
  done := false
  kind := kind
  name := none
  address := none
  addrResult := 0
  nameResult := none

/-- The two references: the caller's, and the one `run_lookup` consumes or hands to the worker. -/
inductive Party where
  | caller
  | worker
  deriving DecidableEq, Repr

/-- What has happened to one context: a record for the statements only, no step reads it. -/
inductive Event where
  | handed
  | access (party : Party)
  | stored (result : Result)
  | setDone
  | useResult (result : Result)
  | release (party : Party)
  | free
  deriving DecidableEq, Repr

inductive WorkerPc where
  | unstarted
  | resolve
  | store (answer : Option Result)
  | finish
  | uncount
  | release
  | free
  | exited
  deriving DecidableEq, Repr

/-- Where the main thread is in the lookup of one context: the step it takes next. -/
inductive Stage where
  | fill (request : Request)
  | enter
  | overCap
  | create
  | createFailed
  | refuse
  | refuseFree
  | lock
  | wait
  | returned (finished : Bool)
  | release (got : Option Result)
  | free (got : Option Result)
  deriving DecidableEq, Repr

def Stage.inRunLookup : Stage → Bool
  | fill _ | enter | returned _ | release _ | free _ => false
  | _ => true

/-- One context, the worker started for it and its history, the newest event first. -/
structure Lookup where
  ctx : LookupCtx
  worker : WorkerPc
  history : List Event
  deriving Repr

def maxOutstandingLookups : Int := 128

/-- What the outside decides: the next request, whether memory and threads can be had, how a wait
ends, and what the resolver answers. -/
inductive MainInput where
  | call (request : Request)
  | proceed
  | fail
  | timedOut
  deriving Repr

/-- What the resolver answers the worker: `getaddrinfo`'s address, or what `strdup` makes of
`getnameinfo`'s host name; `proceed` is a failure of theirs. -/
inductive WorkerInput where
  | proceed
  | resolved (addr : Nat) (host : Option String)
  deriving Repr

namespace Lookup

def log (events : List Event) (l : Lookup) : Lookup :=
  { l with history := events ++ l.history }

def fresh (kind : RequestKind) : Lookup := ⟨newCtx kind, .unstarted, []⟩

def releaseCtx (party accessor : Party) (l : Lookup) : Bool × Lookup :=
  let refcount := l.ctx.refcount - 1
  (refcount == 0, { l with ctx := { l.ctx with refcount } }.log [.release party, .access accessor])

/-- Taking the mutex and testing `ctx->done`: at the top of the loop and after a wake-up. -/
def lock (l : Lookup) : Stage × Lookup :=
  (if l.ctx.done then .returned true else .wait, l.log [.access .caller])

/-- One step of the main thread in the lookup of `l`: the next stage, or none once the call has
returned. -/
def mainStep (input : MainInput) (stage : Stage) (l : Lookup) (outstanding : Int) :
    Option (Option Stage × Lookup × Int) :=
  match stage, input with
  | .fill (.nameFromAddr address), .proceed =>
    some (some .enter,
      { l with ctx := { l.ctx with address := some address } }.log [.access .caller], outstanding)
  | .fill (.addrFromName name), .proceed =>
    some (some .enter,
      { l with ctx := { l.ctx with name := some name } }.log [.access .caller], outstanding)
  -- strdup() failed: the context was never handed on and is freed as it is.
  | .fill (.addrFromName _), .fail => some (none, l, outstanding)
  | .enter, .proceed =>
    some (some (if maxOutstandingLookups ≤ outstanding then .overCap else .create),
      l.log [.handed], outstanding + 1)
  | .overCap, .proceed => some (some .refuse, l, outstanding - 1)
  | .create, .proceed => some (some .lock, { l with worker := .resolve }, outstanding)
  | .create, .fail => some (some .createFailed, l, outstanding)
  | .createFailed, .proceed => some (some .refuse, l, outstanding - 1)
  | .refuse, .proceed =>
    let (last, l) := l.releaseCtx .worker .caller
    some (some (if last then .refuseFree else .returned false), l, outstanding)
  | .refuseFree, .proceed => some (some (.returned false), l.log [.free], outstanding)
  | .lock, .proceed | .wait, .proceed => some (some l.lock.1, l.lock.2, outstanding)
  | .wait, .timedOut =>
    some (some (.returned l.ctx.done), l.log [.access .caller], outstanding)
  | .returned true, .proceed =>
    some (some (.release (some l.ctx.result)),
      l.log [.useResult l.ctx.result, .access .caller], outstanding)
  | .returned false, .proceed => some (some (.release none), l, outstanding)
  | .release got, .proceed =>
    let (last, l) := l.releaseCtx .caller .caller
    some (if last then some (.free got) else none, l, outstanding)
  | .free _, .proceed => some (none, l.log [.free], outstanding)
  | _, _ => none

def store (answer : Option Result) (l : Lookup) : Lookup :=
  let ctx := l.ctx.store answer
  { l with ctx, worker := .finish }.log [.stored ctx.result, .access .worker]

def workerStep (input : WorkerInput) (l : Lookup) (outstanding : Int) : Option (Lookup × Int) :=
  match l.worker, input with
  | .resolve, .proceed =>
    some ({ l with worker := .store none }.log [.access .worker], outstanding)
  | .resolve, .resolved addr host =>
    let answer := match l.ctx.kind with
      | .addrFromName => .addr addr
      | .nameFromAddr => .name host
    some ({ l with worker := .store (some answer) }.log [.access .worker], outstanding)
  | .store answer, .proceed => some (l.store answer, outstanding)
  | .finish, .proceed =>
    some ({ l with ctx := { l.ctx with done := true }, worker := .uncount }.log
      [.setDone, .access .worker], outstanding)
  | .uncount, .proceed => some ({ l with worker := .release }, outstanding - 1)
  | .release, .proceed =>
    let (last, l) := l.releaseCtx .worker .worker
    some ({ l with worker := if last then .free else .exited }, outstanding)
  | .free, .proceed => some ({ l with worker := .exited }.log [.free], outstanding)
  | _, _ => none

/-- Whether the worker has been started and has yet to take itself off `outstanding_lookups`. -/
def counted (l : Lookup) : Bool :=
  match l.worker with
  | .resolve | .store _ | .finish | .uncount => true
  | _ => false

/-- Whether both parties are through with the context, the main thread being at `stage` of its
lookup, if anywhere. -/
def isOver (stage : Option Stage) (l : Lookup) : Bool :=
  stage.isNone && (l.worker == .unstarted || l.worker == .exited)

end Lookup

/-- The contexts in the order of their allocation, the one the main thread is at, and the shared
counter. -/
structure State where
  main : Option (Nat × Stage)
  lookups : List Lookup
  outstanding : Int
  deriving Repr

inductive Move where
  | main (input : MainInput)
  | worker (ctx : Nat) (input : WorkerInput)
  deriving Repr

namespace State

def start : State := ⟨none, [], 0⟩

def stage (s : State) (c : Nat) : Option Stage :=
  match s.main with
  | some (at', stage) => if at' = c then some stage else none
  | none => none

/-- One step of a thread: `lookup_name_from_addr` and `lookup_addr_from_name` with the
`run_lookup` they call, or a worker's `lookup_worker`. -/
def step (s : State) : Move → Option State
  | .main input =>
    match s.main, input with
    | none, .call request =>
      some { s with
        main := some (s.lookups.length, .fill request)
        lookups := s.lookups ++ [Lookup.fresh request.kind] }
    -- malloc() failed: there is no context.
    | none, .fail => some s
    | none, _ => none
    | some (c, stage), input => do
      let l ← s.lookups[c]?
      let (stage, l, outstanding) ← l.mainStep input stage s.outstanding
      return ⟨stage.map (c, ·), s.lookups.set c l, outstanding⟩
  | .worker c input => do
    let l ← s.lookups[c]?
    let (l, outstanding) ← l.workerStep input s.outstanding
    return { s with lookups := s.lookups.set c l, outstanding }

/-- The states of all runs: any lookups, in any interleaving of the threads. -/
inductive Reachable : State → Prop
  | start : Reachable start
  | step {s s' : State} (move : Move) : Reachable s → s.step move = some s' → Reachable s'

end State

end LambdaMoo.NameLookup
