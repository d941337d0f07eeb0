import LambdaMoo.RunOpcodes

/-! Loops over ranges. Between the opcode at its head and the jump back to it stands a body
of which nothing is known but that it ends normally. -/
namespace LambdaMoo

/-- The places of a loop's code: its head, its body from `start` up to the jump at `back`,
and what comes behind it. -/
structure RangeLoop where
  top : Nat
  id : Nat
  start : Nat
  back : Nat
  stop : Nat

/-- The code of the loop stands in the vector. -/
structure RangeLoop.StandsIn (loop : RangeLoop) (bc : Bytecodes) : Prop where
  head : bc.vector[loop.top]? = some Opcode.forRange.byte
  operands : ∃ pc, bc.read bc.numbytes.varName (loop.top + 1) = .ok (loop.id, pc) ∧
    bc.read bc.numbytes.label pc = .ok (loop.stop, loop.start)
  jump : bc.vector[loop.back]? = some Opcode.jump.byte
  again : ∃ pc, bc.read bc.numbytes.label (loop.back + 1) = .ok (loop.top, pc)
  notFirst : loop.top ≠ 0
  order : loop.start < loop.stop

def Goes (bc : Bytecodes) (a b : Activation) : Prop := perform bc a = some (.ok (.ok b))

variable {W : Type} {bc : Bytecodes} {loop : RangeLoop} {body : Activation × W → Activation × W → Prop}

/-- The body ends normally, with the stack as it was. What else it changes, in the activation
and around it, is up to it. -/
structure RangeLoop.Completes (loop : RangeLoop) (body : Activation × W → Activation × W → Prop) : Prop where
  ends : ∀ {s t}, body s t → t.1.pc = loop.back ∧ t.1.rts = s.1.rts
  always : ∀ s, s.1.pc = loop.start → ∃ t, body s t

/-- Rounds of a loop, each of them from the head through the body and back, with the
activations that the body has been entered with. -/
inductive Rounds (bc : Bytecodes) (loop : RangeLoop) (body : Activation × W → Activation × W → Prop) :
    Activation × W → List Activation → Activation × W → Prop
  | none (s) : Rounds bc loop body s [] s
  | round {a b t a' : Activation} {w w' : W} {visits : List Activation} {s : Activation × W} :
      Goes bc a b → b.pc = loop.start → body (b, w) (t, w') → Goes bc t a' → Rounds bc loop body (a', w') visits s →
      Rounds bc loop body (a, w) (b :: visits) s

def Loops (bc : Bytecodes) (loop : RangeLoop) (body : Activation × W → Activation × W → Prop)
    (s : Activation × W) (visits : List Activation) (s' : Activation × W) : Prop :=
  ∃ a, Rounds bc loop body s visits (a, s'.2) ∧ Goes bc a s'.1 ∧ s'.1.pc = loop.stop

def bounds : Var → Var → Option ((Int → Var) × Int × Int)
  | .int lower, .int upper => some (.int, lower, upper)
  | .obj lower, .obj upper => some (.obj, lower, upper)
  | _, _ => none

def consecutive (lower upper : Int) : List Int :=
  (List.range (upper - lower + 1).toNat).map fun i : Nat => lower + i

/-- What a loop over a range is to do: a round for each of the numbers, with the variable set
to it, and then to leave the loop with the bounds popped; or no round for what is no range. -/
def Iterates (bc : Bytecodes) (loop : RangeLoop) (body : Activation × W → Activation × W → Prop)
    (a : Activation) (w : W) (lower upper : Var) (rts : List Var) : Prop :=
  match bounds lower upper with
  | some (kind, lower, upper) =>
      (∃ visits s, Loops bc loop body (a, w) visits s) ∧
        ∀ visits s, Loops bc loop body (a, w) visits s →
          visits.map (fun b => b.env loop.id) = (consecutive lower upper).map kind ∧ s.1.rts = rts
  | none => perform bc a = some (.ok (if a.debug then .error .eType else .ok { a with pc := loop.stop, rts := rts }))

/-- The bounds are of the kinds that a range has, and of 32 bits. -/
inductive IsKind : (Int → Var) → Prop
  | int : IsKind .int
  | obj : IsKind .obj

variable {a b : Activation} {w : W} {kind : Int → Var} {lower upper : Int} {rts : List Var}

theorem perform_forRange (hloop : loop.StandsIn bc) (hpc : a.pc = loop.top) :
    perform bc a = some (opForRange bc { a with pc := loop.top + 1 }) := by
  rw [perform, hpc, hloop.head]
  dsimp only
  rw [Opcode.ofByte_byte]

theorem head_leaves (hloop : loop.StandsIn bc) (hkind : IsKind kind) (hpc : a.pc = loop.top)
    (hrts : a.rts = kind upper :: kind lower :: rts) (h : upper < lower) :
    perform bc a = some (.ok (.ok { a with pc := loop.stop, rts := rts })) := by
  obtain ⟨pc, hid, hlab⟩ := hloop.operands
  rw [perform_forRange hloop hpc, opForRange]
  dsimp only
  rw [hid, ok_bind_crash]
  dsimp only
  rw [hlab, ok_bind_crash, hrts]
  cases hkind <;>
  · dsimp only
    rw [if_pos h]
    rfl

theorem head_enters (hloop : loop.StandsIn bc) (hkind : IsKind kind) (hpc : a.pc = loop.top)
    (hrts : a.rts = kind upper :: kind lower :: rts) (h : lower ≤ upper) :
    perform bc a = some (.ok (.ok { a.setVar loop.id (kind lower) with
      pc := loop.start, rts := kind upper :: kind (wrap32 (lower + 1)) :: rts })) := by
  obtain ⟨pc, hid, hlab⟩ := hloop.operands
  rw [perform_forRange hloop hpc, opForRange]
  dsimp only
  rw [hid, ok_bind_crash]
  dsimp only
  rw [hlab, ok_bind_crash, hrts]
  cases hkind <;>
  · dsimp only
    rw [if_neg (Int.not_lt.mpr h)]
    rfl

theorem jump_back (hloop : loop.StandsIn bc) (hpc : a.pc = loop.back) :
    Goes bc a { a with pc := loop.top } := by
  obtain ⟨pc, hagain⟩ := hloop.again
  rw [Goes, perform, hpc, hloop.jump]
  dsimp only
  rw [Opcode.ofByte_byte]
  dsimp only
  rw [opJump, hagain, ok_bind_crash]
  dsimp only
  rw [if_pos hloop.notFirst]
  rfl

theorem goes_unique {b' : Activation} (h : perform bc a = some (.ok (.ok b))) (h' : Goes bc a b') : b' = b := by
  rw [Goes, h] at h'
  cases h'
  rfl

/-- One round: the number is in the variable, and the bounds are behind it by one. -/
theorem round_spec (hloop : loop.StandsIn bc) (hbody : loop.Completes body) (hkind : IsKind kind)
    (hpc : a.pc = loop.top) (hrts : a.rts = kind upper :: kind lower :: rts) (h : lower ≤ upper)
    {t a' : Activation} {w' : W} (hhead : Goes bc a b) (hrun : body (b, w) (t, w')) (hjump : Goes bc t a') :
    b.env loop.id = kind lower ∧ a'.pc = loop.top ∧ a'.rts = kind upper :: kind (wrap32 (lower + 1)) :: rts := by
  obtain rfl := goes_unique (head_enters hloop hkind hpc hrts h) hhead
  obtain ⟨hback, hstack⟩ := hbody.ends hrun
  obtain rfl := goes_unique (jump_back hloop hback) hjump
  exact ⟨Function.update_self .., rfl, hstack⟩

theorem consecutive_of_lt (h : upper < lower) : consecutive lower upper = [] := by
  have hcount : (upper - lower + 1).toNat = 0 := by omega
  rw [consecutive, hcount]
  rfl

theorem consecutive_of_le (h : lower ≤ upper) :
    consecutive lower upper = lower :: consecutive (lower + 1) upper := by
  have hcount : (upper - lower + 1).toNat = (upper - (lower + 1) + 1).toNat + 1 := by omega
  rw [consecutive, consecutive, hcount, List.range_succ_eq_map, List.map_cons, List.map_map]
  refine congrArg₂ List.cons (Int.add_zero _) (List.map_congr_left fun i _ => ?_)
  simp only [Function.comp, Nat.succ_eq_add_one]
  omega

theorem next_lower (hlower : -2147483648 ≤ lower) (hle : lower ≤ upper) (hupper : upper < intMax) :
    wrap32 (lower + 1) = lower + 1 :=
  wrap32_of_fits (by omega) (by omega)

theorem loops_exists (hloop : loop.StandsIn bc) (hbody : loop.Completes body) (hkind : IsKind kind)
    (hlower : -2147483648 ≤ lower) (hupper : upper < intMax ∨ upper < lower) (hpc : a.pc = loop.top)
    (hrts : a.rts = kind upper :: kind lower :: rts) : ∃ visits s, Loops bc loop body (a, w) visits s := by
  generalize hcount : (upper - lower + 1).toNat = count
  induction count generalizing lower a w with
  | zero =>
      have h : upper < lower := by omega
      exact ⟨[], (_, w), a, .none _, head_leaves hloop hkind hpc hrts h, rfl⟩
  | succ count ih =>
      have h : lower ≤ upper := by omega
      have hmax : upper < intMax := by omega
      have hhead := head_enters hloop hkind hpc hrts h
      obtain ⟨⟨t, w'⟩, hrun⟩ := hbody.always (⟨loop.start, _, _, _⟩, w) rfl
      obtain ⟨hback, hstack⟩ := hbody.ends hrun
      have hjump := jump_back hloop hback
      obtain ⟨-, hpc', hrts'⟩ := round_spec hloop hbody hkind hpc hrts h hhead hrun hjump
      rw [next_lower hlower h hmax] at hrts'
      obtain ⟨visits, s, m, hrounds, hleave⟩ := ih (w := w') (by omega) (.inl hmax) hpc' hrts' (by omega)
      exact ⟨_, s, m, .round hhead rfl hrun hjump hrounds, hleave⟩

theorem loops_exact (hloop : loop.StandsIn bc) (hbody : loop.Completes body) (hkind : IsKind kind)
    (hlower : -2147483648 ≤ lower) (hupper : upper < intMax ∨ upper < lower) (hpc : a.pc = loop.top)
    (hrts : a.rts = kind upper :: kind lower :: rts) {visits : List Activation} {s : Activation × W}
    (h : Loops bc loop body (a, w) visits s) :
    visits.map (fun b => b.env loop.id) = (consecutive lower upper).map kind ∧ s.1.rts = rts := by
  obtain ⟨m, hrounds, hleave, hstop⟩ := h
  have horder := hloop.order
  generalize hs : (a, w) = s₀ at hrounds
  generalize hm : (m, s.2) = s₁ at hrounds
  induction hrounds generalizing a w lower with
  | none =>
      obtain ⟨rfl, -⟩ := Prod.mk.inj (hs.trans hm.symm)
      by_cases hle : lower ≤ upper
      · have := goes_unique (head_enters hloop hkind hpc hrts hle) hleave
        rw [this] at hstop
        exact absurd hstop (Nat.ne_of_lt horder)
      · have := goes_unique (head_leaves hloop hkind hpc hrts (Int.not_le.mp hle)) hleave
        rw [this, consecutive_of_lt (Int.not_le.mp hle)]
        exact ⟨rfl, rfl⟩
  | round hhead hstart hrun hjump _ ih =>
      obtain ⟨rfl, rfl⟩ := Prod.mk.inj hs
      by_cases hle : lower ≤ upper
      · obtain ⟨hvar, hpc', hrts'⟩ := round_spec hloop hbody hkind hpc hrts hle hhead hrun hjump
        have hmax : upper < intMax := by omega
        rw [next_lower hlower hle hmax] at hrts'
        obtain ⟨hvisits, hstack⟩ := ih (by omega) (.inl hmax) hpc' hrts' rfl hm
        rw [consecutive_of_le hle, List.map_cons, List.map_cons, hvar, hvisits]
        exact ⟨rfl, hstack⟩
      · have := goes_unique (head_leaves hloop hkind hpc hrts (Int.not_le.mp hle)) hhead
        rw [this] at hstart
        exact absurd hstart (Nat.ne_of_gt horder)

/-- Up to the largest number the loop has no end: the number behind it is the smallest one. -/
theorem loops_not (hloop : loop.StandsIn bc) (hbody : loop.Completes body) (hkind : IsKind kind)
    (hlower : lower ≤ intMax) (hpc : a.pc = loop.top) (hrts : a.rts = kind intMax :: kind lower :: rts)
    (visits : List Activation) (s : Activation × W) : ¬ Loops bc loop body (a, w) visits s := by
  rintro ⟨m, hrounds, hleave, hstop⟩
  have horder := hloop.order
  generalize hs : (a, w) = s₀ at hrounds
  generalize hm : (m, s.2) = s₁ at hrounds
  induction hrounds generalizing a w lower with
  | none =>
      obtain ⟨rfl, -⟩ := Prod.mk.inj (hs.trans hm.symm)
      have := goes_unique (head_enters hloop hkind hpc hrts hlower) hleave
      rw [this] at hstop
      exact absurd hstop (Nat.ne_of_lt horder)
  | round hhead hstart hrun hjump _ ih =>
      obtain ⟨rfl, rfl⟩ := Prod.mk.inj hs
      obtain ⟨-, hpc', hrts'⟩ := round_spec hloop hbody hkind hpc hrts hlower hhead hrun hjump
      exact ih (wrap32_le _) hpc' hrts' rfl hm

theorem no_range (hloop : loop.StandsIn bc) {lower upper : Var} (hbounds : bounds lower upper = none)
    (hpc : a.pc = loop.top) (hrts : a.rts = upper :: lower :: rts) :
    perform bc a = some (.ok (if a.debug then .error .eType else .ok { a with pc := loop.stop, rts := rts })) := by
  obtain ⟨pc, hid, hlab⟩ := hloop.operands
  rw [perform_forRange hloop hpc, opForRange]
  dsimp only
  rw [hid, ok_bind_crash]
  dsimp only
  rw [hlab, ok_bind_crash, hrts]
  split
  · next h =>
      cases h
      cases hbounds
  · next h =>
      cases h
      cases hbounds
  · next h =>
      cases h
      cases a.debug <;> rfl
  · next h => exact (h _ _ _ rfl).elim

/-- The value is a number or an object of 32 bits, or none of the two. -/
def Var.is32 : Var → Prop
  | .int n | .obj n => -2147483648 ≤ n ∧ n ≤ intMax
  | _ => True

def endsAtMax (lower upper : Var) : Prop :=
  match bounds lower upper with
  | some (_, lower, upper) => lower ≤ upper ∧ upper = intMax
  | none => False

theorem bounds_some {lower upper : Var} {l u : Int} (h : bounds lower upper = some (kind, l, u)) :
    IsKind kind ∧ lower = kind l ∧ upper = kind u := by
  unfold bounds at h
  split at h
  · cases h
    exact ⟨.int, rfl, rfl⟩
  · cases h
    exact ⟨.obj, rfl, rfl⟩
  · cases h

theorem is32_kind (hkind : IsKind kind) {n : Int} (h : (kind n).is32) : -2147483648 ≤ n ∧ n ≤ intMax := by
  cases hkind <;> exact h

/-- A loop over a range iterates exactly if its range does not end with the largest number. -/
theorem iterates_iff {lower upper : Var} (hloop : loop.StandsIn bc) (hbody : loop.Completes body)
    (hlower : lower.is32) (hupper : upper.is32) (hpc : a.pc = loop.top) (hrts : a.rts = upper :: lower :: rts) (w : W) :
    Iterates bc loop body a w lower upper rts ↔ ¬ endsAtMax lower upper := by
  unfold Iterates endsAtMax
  cases hbounds : bounds lower upper with
  | none => exact iff_of_true (no_range hloop hbounds hpc hrts) id
  | some range =>
      obtain ⟨kind, l, u⟩ := range
      obtain ⟨hkind, rfl, rfl⟩ := bounds_some hbounds
      obtain ⟨hl, -⟩ := is32_kind hkind hlower
      obtain ⟨-, hu⟩ := is32_kind hkind hupper
      dsimp only
      constructor
      · rintro ⟨⟨visits, s, h⟩, -⟩ ⟨hle, rfl⟩
        exact loops_not hloop hbody hkind hle hpc hrts visits s h
      · intro h
        have hmax : u < intMax ∨ u < l := by omega
        exact ⟨loops_exists hloop hbody hkind hl hmax hpc hrts,
          fun visits s => loops_exact hloop hbody hkind hl hmax hpc hrts⟩

def emptyLoopCode : Bytecodes :=
  { numbytes := ⟨1, 1, 1, 1, 1⟩, vector := [124, 126, 6, 15, 7, 107, 2, 110], size := 8, maxStack := 2 }

def emptyLoop : RangeLoop := ⟨2, 15, 5, 5, 7⟩

def emptyBody (s t : Activation × Unit) : Prop := t = ({ s.1 with pc := 5 }, ())

theorem emptyLoop_standsIn : emptyLoop.StandsIn emptyLoopCode := by
  constructor
  · rfl
  · exact ⟨4, rfl, rfl⟩
  · rfl
  · exact ⟨7, rfl⟩
  · decide
  · decide

theorem emptyLoop_completes : emptyLoop.Completes emptyBody := by
  constructor
  · rintro s t rfl
    exact ⟨rfl, rfl⟩
  · exact fun s _ => ⟨_, rfl⟩

def emptyLoopHead (lower upper : Int) : Activation := ⟨2, [.int upper, .int lower], fun _ => .none, true⟩

theorem emptyLoop_iterates :
    Iterates emptyLoopCode emptyLoop emptyBody (emptyLoopHead 1 3) () (.int 1) (.int 3) [] ↔
      ¬ endsAtMax (.int 1) (.int 3) := by
  have hlower : (Var.int 1).is32 := ⟨by decide, by decide⟩
  have hupper : (Var.int 3).is32 := ⟨by decide, by decide⟩
  exact iterates_iff emptyLoop_standsIn emptyLoop_completes hlower hupper rfl rfl ()

/-- `for x in [2147483647..2147483647] endfor` has no end. -/
theorem emptyLoop_not_iterates :
    ¬ Iterates emptyLoopCode emptyLoop emptyBody (emptyLoopHead intMax intMax) () (.int intMax) (.int intMax) [] := by
  rintro ⟨⟨visits, s, h⟩, -⟩
  exact loops_not emptyLoop_standsIn emptyLoop_completes .int (Int.le_refl _) rfl rfl visits s h

end LambdaMoo
