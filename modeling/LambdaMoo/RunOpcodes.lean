import LambdaMoo.ListEdit
import LambdaMoo.Program

/-! Opcodes of loops and of assignments to variables, as `run` carries them out on the
activation that is running. The count of ticks before an opcode, which can only abort the
task, is left out. -/
namespace LambdaMoo

/-- What the opcodes see of an activation. The top of its stack is first. -/
structure Activation where
  pc : Nat
  rts : List Var
  env : Nat → Var
  debug : Bool

def Activation.setVar (a : Activation) (id : Nat) (v : Var) : Activation :=
  { a with env := Function.update a.env id v }

/-- How an opcode ends: in the same activation, or with an error that is raised. -/
abbrev Executed := Except Crash (Except Error Activation)

def Bytecodes.read (bc : Bytecodes) (nb pc : Nat) : Except Crash (Nat × Nat) :=
  match readBytes nb (bc.vector.drop pc) with
  | some (n, _) => .ok (n, pc + nb)
  | none => .error .outside

def opJump (bc : Bytecodes) (a : Activation) : Executed := do
  let (i, pc) ← bc.read bc.numbytes.label a.pc
  return .ok { a with pc := if i ≠ 0 then i else pc }

def opForRange (bc : Bytecodes) (a : Activation) : Executed := do
  let (id, pc) ← bc.read bc.numbytes.varName a.pc
  let (lab, pc) ← bc.read bc.numbytes.label pc
  match a.rts with
  | .int to' :: .int from' :: rts =>
      if to' < from' then return .ok { a with pc := lab, rts := rts }
      else return .ok { a.setVar id (.int from') with pc := pc, rts := .int to' :: .int (wrap32 (from' + 1)) :: rts }
  | .obj to' :: .obj from' :: rts =>
      if to' < from' then return .ok { a with pc := lab, rts := rts }
      else return .ok { a.setVar id (.obj from') with pc := pc, rts := .obj to' :: .obj (wrap32 (from' + 1)) :: rts }
  | _ :: _ :: rts => if a.debug then return .error .eType else return .ok { a with pc := lab, rts := rts }
  | _ => .error .outside

def opPop (a : Activation) : Executed :=
  match a.rts with
  | _ :: rts => .ok (.ok { a with rts := rts })
  | [] => .error .outside

def opPut (bc : Bytecodes) (slot : Nat) (a : Activation) : Executed :=
  match a.rts, bc.vector[a.pc]? with
  | v :: rts, some next =>
      if next = Opcode.pop.byte then .ok (.ok { a.setVar slot v with pc := a.pc + 1, rts := rts })
      else .ok (.ok (a.setVar slot v))
  | _, _ => .error .outside

def opGPut (bc : Bytecodes) (a : Activation) : Executed := do
  let (id, pc) ← bc.read bc.numbytes.varName a.pc
  match a.rts with
  | v :: _ => return .ok { a.setVar id v with pc := pc }
  | [] => .error .outside

/-- The variables of the loop over the targets of `EOP_SCATTER`. -/
structure ScatterState where
  pc : Nat
  env : Nat → Var
  noptAvail : Int
  offset : Int
  where' : Nat

def scatterTarget (bc : Bytecodes) (list : List Var) (rest nrest i : Int) (s : ScatterState) :
    Except Crash ScatterState := do
  let (id, pc) ← bc.read bc.numbytes.varName s.pc
  let (label, pc) ← bc.read bc.numbytes.label pc
  let s : ScatterState := { s with pc := pc }
  if i = rest then
    let v ← sublist list i (i + nrest - 1)
    return { s with env := Function.update s.env id v, offset := s.offset + (nrest - 1) }
  else if label = 0 then
    let v ← element list (i + s.offset)
    return { s with env := Function.update s.env id v }
  else if 0 < s.noptAvail then
    let v ← element list (i + s.offset)
    return { s with env := Function.update s.env id v, noptAvail := s.noptAvail - 1 }
  else return { s with offset := s.offset - 1, where' := if s.where' = 0 ∧ label ≠ 1 then label else s.where' }

def scatterLoop (bc : Bytecodes) (list : List Var) (rest nrest : Int) :
    Nat → Int → ScatterState → Except Crash ScatterState
  | 0, _, s => .ok s
  | count + 1, i, s => do
      let s ← scatterTarget bc list rest nrest i s
      scatterLoop bc list rest nrest count (i + 1) s

def scatterError (nargs nreq : Nat) (haveRest : Bool) : Var → Option Error
  | .list l => if l.length < nreq ∨ (!haveRest ∧ nargs < l.length) then some .eArgs else none
  | _ => some .eType

def eopScatter (bc : Bytecodes) (a : Activation) : Executed := do
  let (nargs, pc) ← bc.read 1 a.pc
  let (nreq, pc) ← bc.read 1 pc
  let (rest, pc) ← bc.read 1 pc
  let haveRest : Bool := !decide (nargs < rest)
  match a.rts with
  | [] => .error .outside
  | value :: rts =>
      match scatterError nargs nreq haveRest value, value with
      | some e, _ =>
          if a.debug then return .error e
          let (done, _) ← bc.read bc.numbytes.label (pc + nargs * (bc.numbytes.varName + bc.numbytes.label))
          return .ok { a with pc := done, rts := .err e :: rts }
      | none, .list l =>
          let len : Int := l.length
          let nrest : Int := if haveRest ∧ nargs ≤ len then len - nargs + 1 else 0
          let s ← scatterLoop bc l rest nrest nargs 1
            { pc := pc, env := a.env, noptAvail := len - nreq, offset := 0, where' := 0 }
          let (done, _) ← bc.read bc.numbytes.label s.pc
          return .ok { a with pc := if s.where' = 0 then done else s.where', env := s.env }
      | none, _ => .error .wild

/-- One opcode at `a.pc`; none where it is one of the others. -/
def perform (bc : Bytecodes) (a : Activation) : Option Executed :=
  match bc.vector[a.pc]? with
  | none => some (.error .outside)
  | some byte =>
      match Opcode.ofByte byte with
      | .jump => some (opJump bc { a with pc := a.pc + 1 })
      | .forRange => some (opForRange bc { a with pc := a.pc + 1 })
      | .pop => some (opPop { a with pc := a.pc + 1 })
      | .put slot => some (opPut bc slot { a with pc := a.pc + 1 })
      | .gPut => some (opGPut bc { a with pc := a.pc + 1 })
      | .extended =>
          match bc.vector[a.pc + 1]?.bind ExtendedOpcode.ofByte with
          | some .scatter => some (eopScatter bc { a with pc := a.pc + 2 })
          | _ => none
      | _ => none

end LambdaMoo
