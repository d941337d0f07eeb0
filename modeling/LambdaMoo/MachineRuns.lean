import LambdaMoo.CompiledCode
import LambdaMoo.DbioValues
import LambdaMoo.Meaning
import LambdaMoo.Raising

/-! Runs of the machine over the code of a tree, compared with what the tree means. The machine is
the plain one here, without the fast paths. -/
namespace LambdaMoo.Interpreter
open Listing CodeGen

variable {W α β : Type}

/-! Values. -/

/-- No value is a marker, however deep. -/
def Plain (v : Var) : Prop := v.every (fun v => !v.isMarker) = true

theorem plain_list {l : List Var} : Plain (.list l) ↔ ∀ v ∈ l, Plain v := by
  rw [Plain, Var.every, Bool.and_eq_true]
  exact (and_iff_right rfl).trans Dbio.everyOf_iff

theorem Plain.isMarker {v : Var} (h : Plain v) : v.isMarker = false := by
  cases v with
  | catchMarker => cases h
  | finallyMarker => cases h
  | _ => rfl

@[simp] theorem plain_int (n : Int) : Plain (.int n) := rfl
@[simp] theorem plain_str (s : Str) : Plain (.str s) := rfl
@[simp] theorem plain_err (e : Error) : Plain (.err e) := rfl
@[simp] theorem plain_obj (oid : Objid) : Plain (.obj oid) := rfl
@[simp] theorem plain_float (d : UInt64) : Plain (.float d) := rfl
@[simp] theorem plain_zero : Plain zero := rfl

def Memory.Plain (σ : Memory W) : Prop := ∀ slot, Interpreter.Plain (σ.env slot)

def CallResult.Plain : CallResult → Prop
  | .ret v => Interpreter.Plain v
  | .raise code _ value => Interpreter.Plain code ∧ Interpreter.Plain value
  | .raised code info => Interpreter.Plain (.list (code :: info))
  | .error _ | .stops => True

/-- What the rest of the server hands to a program are values. -/
structure Server.Behaves (S : Server W) : Prop where
  getProp : ∀ {w oid name v}, (S.around w).getProp oid name = .ok v → Plain v
  callVerb : ∀ oid vname args env w, (S.callVerb oid vname args env w).1.Plain
  callBiFunc : ∀ func args env w, (S.callBiFunc func args env w).1.Plain
  makeStackList : ∀ place w, Plain (S.makeStackList place w)

/-! What the unwinding of a stack passes over. -/

def Passes (why : Reason) (code : Var) (junk : List Var) : Prop :=
  ∀ value goal rts, goal ≤ rts.length →
    unwindRts why code value goal 0 (junk ++ rts) = unwindRts why code value goal 0 rts

/-- An error goes by these. -/
structure Slips (code : Var) (junk : List Var) : Prop where
  handler : ∀ rts, hasHandler code 0 (junk ++ rts) = hasHandler code 0 rts
  raise : Passes .raise code junk
  uncaught : Passes .uncaught zero junk

variable {why : Reason} {code v : Var} {junk junk' : List Var}

theorem Passes.nil (why : Reason) (code : Var) : Passes why code [] := fun _ _ _ _ => rfl

theorem Passes.append (h : Passes why code junk) (h' : Passes why code junk') : Passes why code (junk ++ junk') := by
  intro value goal rts hgoal
  rw [List.append_assoc, h value goal _ (by rw [List.length_append]; omega), h' value goal rts hgoal]

theorem Passes.plain (why : Reason) (code : Var) (hv : v.isMarker = false) : Passes why code [v] := by
  intro value goal rts hgoal
  rw [List.singleton_append, unwindRts.eq_def]
  dsimp only
  rw [if_neg (by omega)]
  cases v with
  | catchMarker => cases hv
  | finallyMarker => cases hv
  | _ => rfl

theorem Passes.plains (why : Reason) (code : Var) {l : List Var} (hl : ∀ v ∈ l, v.isMarker = false) : Passes why code l := by
  induction l with
  | nil => exact .nil why code
  | cons v l ih =>
      exact (Passes.plain why code (hl v List.mem_cons_self)).append (ih fun v hv => hl v (List.mem_cons_of_mem _ hv))

theorem Slips.nil (code : Var) : Slips code [] := ⟨fun _ => rfl, .nil _ _, .nil _ _⟩

theorem Slips.append (h : Slips code junk) (h' : Slips code junk') : Slips code (junk ++ junk') :=
  ⟨fun rts => by rw [List.append_assoc, h.handler, h'.handler], h.raise.append h'.raise, h.uncaught.append h'.uncaught⟩

theorem Slips.plain (code : Var) (hv : v.isMarker = false) : Slips code [v] :=
  ⟨fun rts => hasHandler_plain hv rts, .plain _ _ hv, .plain _ _ hv⟩

theorem Slips.plains (code : Var) {vs : List Var} (hvs : ∀ v ∈ vs, v.isMarker = false) : Slips code vs := by
  induction vs with
  | nil => exact .nil code
  | cons v vs ih =>
      exact (Slips.plain code (hvs v List.mem_cons_self)).append (ih fun v hv => hvs v (List.mem_cons_of_mem _ hv))

/-! Runs. -/

def standsAlone : Opcode → Bool
  | .imm | .put _ | .pop => false
  | _ => true

def Alone (bc : Bytecodes) (m : Machine W) : Prop := ∃ b ∈ bc.vector[m.pc]?, standsAlone (Opcode.ofByte b) = true

section

variable (S : Server W) (literals : List Var) (bc : Bytecodes)

def Goes (fast : Bool) (m m' : Machine W) : Prop := advance S literals bc fast m = .goes m'

def Steps (fast : Bool) : Machine W → Machine W → Prop := Relation.ReflTransGen (Goes S literals bc fast)

/-- An error is raised, over a part of the stack that it goes by. -/
def Raises (m : Machine W) (code : Var) (info base : List Var) (σ : Memory W) : Prop :=
  ∃ n m' junk, Steps S literals bc false m n ∧ step S literals bc false n = propagate S code info m' ∧
    m'.rts = junk ++ base ∧ Slips code junk ∧ m'.env = σ.env ∧ m'.debug = σ.debug ∧ m'.world = σ.world

/-- The machine comes to an opcode that C leaves open, or that the server panics at. In C no list is so long. -/
def Breaks (fast : Bool) (m : Machine W) : Prop :=
  ∃ n, Steps S literals bc fast m n ∧ Alone bc n ∧
    (step S literals bc fast n = .breaks ∨ ∃ l ∈ n.rts.head?, ∃ vs, l = .list vs ∧ intMax ≤ vs.length)

/-- The machine comes to what an evaluation comes to: it goes on with the value, or raises the error. The
values are good, and the stack is not touched below `base`. -/
def Does (m : Machine W) (good : α → Prop) (base : List Var) (next : α → Memory W → Var → Machine W) :
    Except Interrupt α × Memory W → Prop
  | (.ok a, σ) => good a ∧ σ.Plain ∧ ∃ temp, Steps S literals bc false m (next a σ temp)
  | (.error (.raise code info), σ) =>
      Plain (.list (code :: info)) ∧ σ.Plain ∧ Raises S literals bc m code info base σ
  | (.error .stops, _) => ∃ n, Steps S literals bc false m n ∧ step S literals bc false n = .stops
  | (.error .undefined, _) => Breaks S literals bc false m
  | (.error .tires, _) => False

end

variable {S : Server W} {literals : List Var} {bc : Bytecodes} {m n : Machine W} {good : α → Prop}
  {good' : β → Prop} {base : List Var} {next : α → Memory W → Var → Machine W}
  {next' : β → Memory W → Var → Machine W} {x : Eval W α} {f : α → Eval W β} {σ : Memory W}

theorem goes_of_step {m' : Machine W} (h : step S literals bc false m = .goes m') : Goes S literals bc false m m' := by
  rw [Goes, advance, h, Next.settle]

theorem Raises.after {info : List Var} (hs : Steps S literals bc false m n) (h : Raises S literals bc n code info base σ) :
    Raises S literals bc m code info base σ := by
  obtain ⟨k, m', junk, hk, rest⟩ := h
  exact ⟨k, m', junk, hs.trans hk, rest⟩

theorem Raises.below {info more : List Var} (hmore : Slips code more)
    (h : Raises S literals bc m code info (more ++ base) σ) : Raises S literals bc m code info base σ := by
  obtain ⟨k, m', junk, hk, hstep, hrts, hslips, rest⟩ := h
  refine ⟨k, m', junk ++ more, hk, hstep, ?_, hslips.append hmore, rest⟩
  rw [hrts, List.append_assoc]

theorem Breaks.after (hs : Steps S literals bc false m n) (h : Breaks S literals bc false n) : Breaks S literals bc false m := by
  obtain ⟨k, hk, hbreaks⟩ := h
  exact ⟨k, hs.trans hk, hbreaks⟩

namespace Does

theorem pure {a : α} {t : Var} (ha : good a) (hσ : σ.Plain) (h : next a σ t = m) :
    Does S literals bc m good base next (.ok a, σ) :=
  ⟨ha, hσ, t, h ▸ .refl⟩

theorem after {r : Except Interrupt α × Memory W} (hs : Steps S literals bc false m n)
    (h : Does S literals bc n good base next r) : Does S literals bc m good base next r := by
  obtain ⟨r, τ⟩ := r
  cases r with
  | ok a =>
      obtain ⟨ha, hτ, temp, h⟩ := h
      exact ⟨ha, hτ, temp, hs.trans h⟩
  | error i =>
      cases i with
      | raise code info =>
          obtain ⟨hcode, hτ, h⟩ := h
          exact ⟨hcode, hτ, h.after hs⟩
      | stops =>
          obtain ⟨k, hk, hstop⟩ := h
          exact ⟨k, hs.trans hk, hstop⟩
      | undefined => exact Breaks.after hs h
      | tires => exact h

theorem onward {r : Except Interrupt α × Memory W} {next' : α → Memory W → Var → Machine W}
    (h : Does S literals bc m good base next r)
    (hnext : ∀ a τ temp, Steps S literals bc false (next a τ temp) (next' a τ temp)) : Does S literals bc m good base next' r := by
  obtain ⟨r, τ⟩ := r
  cases r with
  | ok a =>
      obtain ⟨ha, hτ, temp, hs⟩ := h
      exact ⟨ha, hτ, temp, hs.trans (hnext a τ temp)⟩
  | error i => cases i <;> exact h

theorem forget {r : Except Interrupt α × Memory W} {t : Var} (h : Does S literals bc m good base (fun a τ _ => next a τ t) r) :
    Does S literals bc m good base next r := by
  obtain ⟨r, τ⟩ := r
  cases r with
  | ok a =>
      obtain ⟨ha, hτ, _, hs⟩ := h
      exact ⟨ha, hτ, t, hs⟩
  | error i => cases i <;> exact h

theorem bind (hx : Does S literals bc m good base next (x σ))
    (hf : ∀ a τ temp, good a → τ.Plain → Does S literals bc (next a τ temp) good' base next' (f a τ)) :
    Does S literals bc m good' base next' ((x >>= f) σ) := by
  cases hr : x σ with
  | mk r τ =>
      rw [hr] at hx
      cases r with
      | ok a =>
          obtain ⟨ha, hτ, temp, hs⟩ := hx
          rw [bind_ok hr]
          exact (hf a τ temp ha hτ).after hs
      | error i =>
          rw [bind_error hr]
          cases i <;> exact hx

theorem below {r : Except Interrupt α × Memory W} {l : List Var} (hl : ∀ v ∈ l, v.isMarker = false)
    (h : Does S literals bc m good (l ++ base) next r) : Does S literals bc m good base next r := by
  obtain ⟨r, τ⟩ := r
  cases r with
  | ok a => exact h
  | error i =>
      cases i with
      | raise code info =>
          obtain ⟨hcode, hτ, h⟩ := h
          exact ⟨hcode, hτ, h.below (.plains code hl)⟩
      | _ => exact h

end Does

end LambdaMoo.Interpreter
