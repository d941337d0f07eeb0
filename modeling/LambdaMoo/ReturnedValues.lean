import LambdaMoo.RunLoop

/-! What is in `*result` when `run` comes back. -/
namespace LambdaMoo

variable {D W : Type}

def Instruction.isReturn : Instruction D W → Bool
  | return_ => true
  | return0 => true
  | _ => false

/-- What is returned by an opcode: the value on the stack, also when it comes with its reason from
within a `try` statement, or 0. -/
def Instruction.returnValue (i : Instruction D W) (s : RunState D W) : Option Var :=
  match i, s.stack.head?.map fun a => a.rts with
  | return_, some (v :: _) => some v
  | return0, some _ => some zero
  | continue_, some (v :: .int n :: _) => if reasonOf n = some .return_ then some v else none
  | _, _ => none

/-- What a round has to do with `*result`: only an opcode that returns sets it, to what it returns. -/
def Round.Sets (i : Instruction D W) (s : RunState D W) : Round D W → Prop
  | .goes s' => s'.result = s.result
  | .ends .done r =>
      if i.isReturn then ∃ v, i.returnValue s = some v ∧ r = some v else r = s.result
  | .ends _ r => r = s.result

section

variable {callBiFunc : Invocation D → W → BiPackage D × W} {makeStackList : List (StackedActivation D) → Var}
variable {unparseError : Error → Str} {fuel : Nat}

theorem RunState.unwind_cases {s : RunState D W} {why : Reason} {value : Var} {stops : RunOutcome → Round D W} {round : Round D W}
    (h : s.unwind callBiFunc makeStackList fuel why value stops = some round) :
    (∃ stack w, round = .goes { s with stack := stack, world := w }) ∨ ∃ outcome, round = stops outcome := by
  unfold RunState.unwind at h
  split at h
  · next stack w _ => exact .inl ⟨stack, w, (Option.some.inj h).symm⟩
  · next outcome w _ => exact .inr ⟨outcome, (Option.some.inj h).symm⟩
  · cases h

theorem RunState.error_cases {s : RunState D W} {code : Var} {msg : Str} {value : Var} {round : Round D W}
    (h : s.error callBiFunc makeStackList fuel code msg value = some round) :
    (∃ stack w, round = .goes { s with stack := stack, world := w }) ∨ round = .ends .aborted s.result := by
  unfold RunState.error at h
  split at h
  · cases h
  · next a rest _ =>
      split at h
      · obtain hgoes | ⟨-, hends⟩ := RunState.unwind_cases h
        · exact .inl hgoes
        · exact .inr hends
      · exact .inl ⟨_, s.world, (Option.some.inj h).symm⟩

theorem RunState.error_sets {i : Instruction D W} {s s' : RunState D W} {code : Var} {msg : Str} {value : Var}
    {round : Round D W} (h : s'.error callBiFunc makeStackList fuel code msg value = some round)
    (hresult : s'.result = s.result) : round.Sets i s := by
  obtain ⟨stack, w, rfl⟩ | rfl := RunState.error_cases h
  · exact hresult
  · exact hresult

theorem RunState.unwind_sets {i : Instruction D W} {s s' : RunState D W} {why : Reason} {value : Var} {round : Round D W}
    (h : s'.unwind callBiFunc makeStackList fuel why value (fun outcome => .ends outcome s'.result) = some round)
    (hi : i.isReturn = false) (hresult : s'.result = s.result) : round.Sets i s := by
  obtain ⟨stack, w, rfl⟩ | ⟨outcome, rfl⟩ := RunState.unwind_cases h
  · exact hresult
  · cases outcome with
    | done =>
        unfold Round.Sets
        rw [hi]
        exact hresult
    | aborted => exact hresult
    | blocked => exact hresult

theorem RunState.return_sets {i : Instruction D W} {s s' : RunState D W} {v : Var} {round : Round D W}
    (h : s'.unwind callBiFunc makeStackList fuel .return_ v
      (fun outcome => .ends outcome (if outcome = .done then some v else s'.result)) = some round)
    (hi : i.isReturn = true) (hv : i.returnValue s = some v) (hresult : s'.result = s.result) :
    round.Sets i s := by
  obtain ⟨stack, w, rfl⟩ | ⟨outcome, rfl⟩ := RunState.unwind_cases h
  · exact hresult
  · cases outcome with
    | done =>
        unfold Round.Sets
        rw [hi]
        exact ⟨v, hv, rfl⟩
    | aborted => exact hresult
    | blocked => exact hresult

theorem Instruction.execute_sets {i : Instruction D W} {s : RunState D W} {round : Round D W}
    (h : i.execute callBiFunc makeStackList unparseError fuel s = some round) : round.Sets i s := by
  unfold Instruction.execute at h
  split at h
  · cases h
  · next a rest hstack =>
      cases i with
      | inside change around =>
          cases h
          rfl
      | callVerb rts pushed around =>
          cases h
          rfl
      | pushError e => exact RunState.error_sets h rfl
      | return_ =>
          dsimp only at h
          split at h
          · next v rts hrts =>
              refine RunState.return_sets h rfl ?_ rfl
              unfold Instruction.returnValue
              rw [hstack]
              dsimp only [List.head?, Option.map]
              rw [hrts]
          · cases h
      | return0 =>
          refine RunState.return_sets h rfl ?_ rfl
          unfold Instruction.returnValue
          rw [hstack]
          rfl
      | biFuncCall id data =>
          dsimp only at h
          split at h
          · split at h
            · cases h
              rfl
            · exact RunState.error_sets h rfl
            · cases h
              rfl
            · cases h
              rfl
            · exact RunState.error_sets h rfl
            · cases h
              rfl
          · exact RunState.error_sets h rfl
          · cases h
      | endFinally =>
          dsimp only at h
          split at h
          · cases h
            rfl
          · cases h
      | continue_ =>
          dsimp only at h
          split at h
          · split at h
            · cases h
              rfl
            · exact RunState.unwind_sets h rfl rfl
            · cases h
          · cases h
      | exit goal pc =>
          dsimp only at h
          split at h
          · next heq =>
              cases h
              obtain ⟨stack, w, hgoes⟩ | ⟨outcome, hends⟩ := RunState.unwind_cases heq
              · cases hgoes
                rfl
              · cases hends
          · cases h
      | abort =>
          cases h
          rfl

theorem RunState.run_result {before : List (Instruction D W)} {s s' : RunState D W}
    (h : s.run callBiFunc makeStackList unparseError fuel before = some s') : s'.result = s.result := by
  induction before generalizing s with
  | nil =>
      cases h
      rfl
  | cons i before ih =>
      unfold RunState.run at h
      split at h
      · next next_ heq =>
          calc
            s'.result = next_.result := ih h
            _ = s.result := Instruction.execute_sets heq
      · cases h

end

/-- In every run that ends with `OUTCOME_DONE`, the value that is returned is in `*result` just if the
last instruction is the return itself and not the end of a `finally` part. -/
theorem returned_isResult_iff (callBiFunc : Invocation D → W → BiPackage D × W)
    (makeStackList : List (StackedActivation D) → Var) (unparseError : Error → Str) (fuel : Nat)
    (before : List (Instruction D W)) (i : Instruction D W) (s s' : RunState D W) (r : Option Var)
    (hunset : s.result = none) (hrun : s.run callBiFunc makeStackList unparseError fuel before = some s')
    (hend : i.execute callBiFunc makeStackList unparseError fuel s' = some (.ends .done r)) :
    (∃ v, i.returnValue s' = some v ∧ r = some v) ↔ i.isReturn = true := by
  have hsets : (Round.ends .done r).Sets i s' := Instruction.execute_sets hend
  unfold Round.Sets at hsets
  dsimp only at hsets
  constructor
  · rintro ⟨v, -, rfl⟩
    by_contra hi
    rw [if_neg hi, RunState.run_result hrun, hunset] at hsets
    cases hsets
  · intro hi
    rw [if_pos hi] at hsets
    exact hsets

def rootState : RunState Unit Unit where
  stack := [{ pc := 0, rts := [], env := fun _ => .none, debug := true, progr := 3, biFunc := none }]
  world := ()
  result := none

def pushing (v : Var) : Instruction Unit Unit := .inside (fun a => { a with rts := v :: a.rts }) id

theorem direct_isResult :
    ∃ s', rootState.run (fun _ w => (.ret zero, w)) (fun _ => zero) (fun _ => []) 1 [pushing (.int 42)] = some s' ∧
      ∃ v, Instruction.return_.returnValue s' = some v ∧ some (.int 42) = some v := by
  refine ⟨_, rfl, (returned_isResult_iff (fun _ w => (.ret zero, w)) (fun _ => zero) (fun _ => []) 1
    [pushing (.int 42)] .return_ rootState _ _ rfl rfl ?_).mpr rfl⟩
  rfl

/-- `try return 42; finally endtry`, with the `finally` part at 5. -/
theorem inFinally_not_isResult :
    ¬ ∀ (before : List (Instruction Unit Unit)) (i : Instruction Unit Unit) (s' : RunState Unit Unit) (r : Option Var),
      rootState.run (fun _ w => (.ret zero, w)) (fun _ => zero) (fun _ => []) 1 before = some s' →
      i.execute (fun _ w => (.ret zero, w)) (fun _ => zero) (fun _ => []) 1 s' = some (.ends .done r) →
      ∃ v, i.returnValue s' = some v ∧ r = some v := by
  intro h
  obtain ⟨v, -, hv⟩ := h [pushing (.finallyMarker 5), pushing (.int 42), .return_] .continue_ _ none rfl rfl
  cases hv

end LambdaMoo
