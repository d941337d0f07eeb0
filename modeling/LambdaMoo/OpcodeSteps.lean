import LambdaMoo.PlainAnswers

/-! The opcodes at the places of a listing: where one of them stands in the vector, the machine does
what the part of the meaning says that it is for. -/
namespace LambdaMoo.Interpreter
open Listing CodeGen

/-- A finished vector with its listing, in a program with these literals. -/
structure Laid (st : State) (cells : List Cell) (literals : List Var) : Prop where
  rep : ∃ c, Rep ∅ st cells c
  correct : LayoutCorrect st
  literals : st.gstate.literals <+: literals

def Sits (cells : List Cell) (place : Nat) (code : List Cell) : Prop :=
  ∃ pre post, cells = pre ++ (code ++ post) ∧ pre.length = place

section

variable {cells code code' : List Cell} {place k : Nat} {item : Item}

theorem Sits.left (h : Sits cells place (code ++ code')) : Sits cells place code := by
  obtain ⟨pre, post, hcells, hpre⟩ := h
  exact ⟨pre, code' ++ post, by rw [hcells, List.append_assoc], hpre⟩

theorem Sits.right (h : Sits cells place (code ++ code')) : Sits cells (place + code.length) code' := by
  obtain ⟨pre, post, hcells, hpre⟩ := h
  exact ⟨pre ++ code, post, by rw [hcells, List.append_assoc, List.append_assoc], by rw [List.length_append, hpre]⟩

theorem Sits.get (h : Sits cells place code) (hitem : code[k]?.map (·.item) = some item) :
    ItemAt cells (place + k) item := by
  obtain ⟨pre, post, hcells, hpre⟩ := h
  exact Listing.itemAt hcells hpre hitem

end

variable {W : Type}

def mach (st : State) (place : Nat) (rts : List Var) (σ : Memory W) (t : Var) : Machine W where
  pc := finalOffset st place
  rts := rts
  env := σ.env
  debug := σ.debug
  temp := t
  world := σ.world

theorem mach_place {st : State} {i j : Nat} {rts : List Var} {σ : Memory W} {t : Var} (h : i = j) :
    mach st i rts σ t = mach st j rts σ t := by rw [h]

/-- The server as the meaning of a tree asks it: by the places of the listing. -/
def Server.located (S : Server W) (st : State) : Server W :=
  { S with makeStackList := fun place => S.makeStackList (finalOffset st place) }

theorem Server.Behaves.located {S : Server W} (h : S.Behaves) (st : State) : (S.located st).Behaves :=
  ⟨h.getProp, h.callVerb, h.callBiFunc, fun _ _ => h.makeStackList _ _⟩

section

variable {S : Server W} {literals : List Var} {st : State} {cells : List Cell} {i j : Nat} {rts : List Var}
  {σ : Memory W} {t v w : Var}

/-! Fetching. -/

theorem Laid.step_op (L : Laid st cells literals) {o : Opcode} (h : ItemAt cells i (.op o)) :
    step S literals (layout st) false (mach st i rts σ t) =
      opcode S literals (layout st) (finalOffset st i) false (mach st (i + 1) rts σ t) o := by
  obtain ⟨c, hrep⟩ := L.rep
  obtain ⟨hbyte, hnext⟩ := hrep.byte_at h rfl
  have hbyte : (layout st).vector[finalOffset st i]? = some o.byte := hbyte
  rw [step]
  dsimp only [mach]
  rw [hbyte]
  dsimp only
  rw [Opcode.ofByte_byte, hnext]

theorem Laid.alone (L : Laid st cells literals) {o : Opcode} (h : ItemAt cells i (.op o)) (ho : standsAlone o = true) :
    Alone (layout st) (mach st i rts σ t) := by
  obtain ⟨c, hrep⟩ := L.rep
  exact ⟨o.byte, (hrep.byte_at h rfl).1, by rw [Opcode.ofByte_byte, ho]⟩

theorem Laid.step_eop (L : Laid st cells literals) {eop : ExtendedOpcode} (h : ItemAt cells i (.op .extended))
    (heop : ItemAt cells (i + 1) (.eop eop)) :
    step S literals (layout st) false (mach st i rts σ t) =
      extendedOpcode S (layout st) (finalOffset st i) (mach st (i + 2) rts σ t) eop := by
  obtain ⟨c, hrep⟩ := L.rep
  obtain ⟨hbyte, hnext⟩ := hrep.byte_at heop rfl
  have hbyte : (layout st).vector[finalOffset st (i + 1)]? = some eop.byte := hbyte
  rw [L.step_op h, opcode]
  dsimp only [mach]
  rw [hbyte, Option.bind_some, ExtendedOpcode.ofByte_byte]
  dsimp only
  rw [← hnext]

theorem Laid.label (L : Laid st cells literals) {target : Nat} (h : ItemAt cells i (.label target)) :
    (layout st).read (layout st).numbytes.label (finalOffset st i) =
      .ok (finalOffset st target, finalOffset st (i + 1)) := by
  obtain ⟨c, hrep⟩ := L.rep
  exact hrep.readLabel_at L.correct h

theorem Laid.varRef (L : Laid st cells literals) {slot : Nat} (h : ItemAt cells i (.varRef slot)) :
    (layout st).read (layout st).numbytes.varName (finalOffset st i) = .ok (slot, finalOffset st (i + 1)) := by
  obtain ⟨c, hrep⟩ := L.rep
  exact hrep.readVar_at L.correct h

theorem Laid.stackRef (L : Laid st cells literals) {index : Nat} (h : ItemAt cells i (.stack index)) :
    (layout st).read (layout st).numbytes.stack (finalOffset st i) = .ok (index, finalOffset st (i + 1)) := by
  obtain ⟨c, hrep⟩ := L.rep
  exact hrep.read_at L.correct h rfl

theorem Laid.forkRef (L : Laid st cells literals) {index : Nat} (h : ItemAt cells i (.fork index)) :
    (layout st).read (layout st).numbytes.fork (finalOffset st i) = .ok (index, finalOffset st (i + 1)) := by
  obtain ⟨c, hrep⟩ := L.rep
  exact hrep.read_at L.correct h rfl

theorem Laid.byte (L : Laid st cells literals) {n : Nat} (h : ItemAt cells i (.byte n)) (hn : n < 256) :
    (layout st).read 1 (finalOffset st i) = .ok (n, finalOffset st (i + 1)) := by
  obtain ⟨c, hrep⟩ := L.rep
  obtain ⟨hbyte, hnext⟩ := hrep.byte_at h rfl
  rw [read_byte hbyte, hnext]
  simp [Item.placeholder, Nat.mod_eq_of_lt hn]

theorem Laid.offset_ne_zero (L : Laid st cells literals) {target : Nat} (h : 0 < target) (hi : i < cells.length) :
    finalOffset st target ≠ 0 := by
  obtain ⟨c, hrep⟩ := L.rep
  have hlt : finalOffset st 0 < finalOffset st target := hrep.offset_lt h (by omega)
  omega

/-! Answers. -/

variable {α : Type} {base : List Var} {n : Machine W}

theorem does_raise {α : Type} {good : α → Prop} {next : α → Memory W → Var → Machine W} (hS : S.Behaves) (hσ : σ.Plain)
    {code value : Var} {msg : Str} (hcode : Plain code) (hvalue : Plain value)
    (h : step S literals (layout st) false n = raiseError S (finalOffset st i) code msg value (mach st j base σ t)) :
    Does S literals (layout st) n good base next
      (.error (.raise code [.str msg, value, (S.located st).makeStackList i σ.world]), σ) := by
  refine ⟨plain_list.mpr ?_, hσ, n, mach st j base σ t, [], .refl, h, rfl, .nil _, rfl, rfl, rfl⟩
  simp only [List.mem_cons, List.not_mem_nil, or_false]
  rintro v (rfl | rfl | rfl | rfl)
  · exact hcode
  · rfl
  · exact hvalue
  · exact hS.makeStackList _ _

theorem does_error (hS : S.Behaves) (hσ : σ.Plain) {e : Error}
    (h : step S literals (layout st) false n = pushError S (finalOffset st i) e (mach st j base σ t)) :
    Does S literals (layout st) n Plain base (fun v τ _ => mach st j (v :: base) τ t)
      (fail (S.located st) i e σ) := by
  rw [pushError, raiseOr] at h
  unfold fail
  change step S literals (layout st) false n = if σ.debug = true then _ else _ at h
  by_cases hdebug : σ.debug = true
  · rw [if_pos hdebug] at h ⊢
    exact does_raise hS hσ rfl rfl h
  · rw [if_neg hdebug] at h ⊢
    exact ⟨rfl, hσ, t, .single (goes_of_step h)⟩

theorem does_answer (hS : S.Behaves) (hσ : σ.Plain) {a : Reads Answer} (ha : Answers a) (hn : Alone (layout st) n)
    (h : step S literals (layout st) false n = answered S (finalOffset st i) (mach st j base σ t) a) :
    Does S literals (layout st) n Plain base (fun v τ _ => mach st j (v :: base) τ t)
      (answer (S.located st) i a σ) := by
  cases a with
  | error => exact ⟨n, .refl, hn, .inl h⟩
  | ok a =>
      cases a with
      | push v => exact ⟨ha _ rfl, hσ, t, .single (goes_of_step h)⟩
      | raise e => exact does_error hS hσ h
      | _ => exact ⟨n, .refl, hn, .inl h⟩

theorem does_call (hS : S.Behaves) (hσ : σ.Plain) {call : (Nat → Var) → W → CallResult × W}
    (hplain : ∀ env w, (call env w).1.Plain)
    (h : step S literals (layout st) false n =
      called S (finalOffset st i) (mach st j base σ t) (call σ.env σ.world)) :
    Does S literals (layout st) n Plain base (fun v τ _ => mach st j (v :: base) τ t)
      (calls (S.located st) i call σ) := by
  have hresult := hplain σ.env σ.world
  unfold calls
  generalize call σ.env σ.world = r at h hresult ⊢
  obtain ⟨r, w⟩ := r
  have hσ : Memory.Plain { σ with world := w } := hσ
  cases r with
  | ret v => exact ⟨hresult, hσ, t, .single (goes_of_step h)⟩
  | error e => exact does_error hS hσ h
  | raise code msg value =>
      change step S literals (layout st) false n = if σ.debug = true then _ else _ at h
      dsimp only
      by_cases hdebug : σ.debug = true
      · rw [if_pos hdebug] at h ⊢
        exact does_raise hS hσ hresult.1 hresult.2 h
      · rw [if_neg hdebug] at h ⊢
        exact ⟨hresult.1, hσ, t, .single (goes_of_step h)⟩
  | raised code info => exact ⟨hresult, hσ, n, _, [], .refl, h, rfl, .nil _, rfl, rfl, rfl⟩
  | stops => exact ⟨n, .refl, h⟩

/-! Opcodes with their operands. -/

theorem Sits.next {code code' : List Cell} {k : Nat} (h : Sits cells i (code ++ code')) (hlength : code.length = k) :
    Sits cells (i + k) code' := hlength ▸ h.right

theorem Memory.Plain.set (hσ : σ.Plain) (hv : Interpreter.Plain v) (slot : Nat) :
    Memory.Plain { σ with env := Function.update σ.env slot v } := by
  intro s
  change Interpreter.Plain (Function.update σ.env slot v s)
  rw [Function.update_apply]
  split
  · exact hv
  · exact hσ s

theorem variable_none (S : Server W) (slot : Nat) (hslot : σ.env slot = .none) :
    variable_ S i slot σ = fail S i .eVarnf σ := by
  unfold variable_
  rw [hslot]

theorem variable_eq (S : Server W) (slot : Nat) (hslot : σ.env slot ≠ .none) :
    variable_ S i slot σ = (.ok (σ.env slot), σ) := by
  unfold variable_
  split
  · next h => exact absurd h hslot
  · rfl

theorem opPush_none {errorPc slot : Nat} {m : Machine W} (hslot : m.env slot = .none) :
    opPush S errorPc slot m = pushError S errorPc .eVarnf m := by
  unfold opPush
  rw [hslot]

theorem opPush_eq {errorPc slot : Nat} {m : Machine W} (hslot : m.env slot ≠ .none) :
    opPush S errorPc slot m = .goes (m.push (m.env slot)) := by
  unfold opPush
  split
  · next h => exact absurd h hslot
  · rfl

theorem does_opPush (hS : S.Behaves) (hσ : σ.Plain) {slot : Nat}
    (h : step S literals (layout st) false n = opPush S (finalOffset st i) slot (mach st j base σ t)) :
    Does S literals (layout st) n Plain base (fun v τ temp => mach st j (v :: base) τ temp)
      (variable_ (S.located st) i slot σ) := by
  by_cases hslot : σ.env slot = .none
  · rw [variable_none _ _ hslot]
    exact (does_error hS hσ (h.trans (opPush_none hslot))).forget
  · rw [variable_eq _ _ hslot]
    exact ⟨hσ slot, hσ, t, .single (goes_of_step (h.trans (opPush_eq hslot)))⟩

theorem push_does (L : Laid st cells literals) (hS : S.Behaves) (hσ : σ.Plain) {c : Ctx} {slot : Nat}
    (h : Sits cells i (c.varOp .push slot)) :
    Does S literals (layout st) (mach st i base σ t) Plain base
      (fun v τ temp => mach st (i + varOpSize slot) (v :: base) τ temp) (variable_ (S.located st) i slot σ) := by
  unfold Ctx.varOp at h
  unfold varOpSize
  by_cases hslot : slot < 32
  · rw [dif_pos hslot] at h
    rw [if_pos hslot]
    exact does_opPush hS hσ (L.step_op (h.get (k := 0) rfl))
  · rw [dif_neg hslot] at h
    rw [if_neg hslot]
    refine does_opPush (t := t) hS hσ ((L.step_op (h.get (k := 0) rfl)).trans ?_)
    change opGPush S (layout st) (finalOffset st i) (mach st (i + 1) base σ t) = _
    unfold opGPush
    rw [show (mach st (i + 1) base σ t).pc = finalOffset st (i + 1) from rfl, L.varRef (h.get (k := 1) rfl)]
    rfl

theorem op_does (L : Laid st cells literals) (hS : S.Behaves) (hσ : σ.Plain) {o : Opcode} (h : ItemAt cells i (.op o))
    (ho : standsAlone o = true) {a : Reads Answer} (ha : Answers a)
    (hopcode : opcode S literals (layout st) (finalOffset st i) false (mach st (i + 1) rts σ t) o =
      answered S (finalOffset st i) (mach st (i + 1) base σ t) a) :
    Does S literals (layout st) (mach st i rts σ t) Plain base (fun v τ _ => mach st (i + 1) (v :: base) τ t)
      (answer (S.located st) i a σ) :=
  does_answer hS hσ ha (L.alone h ho) ((L.step_op h).trans hopcode)

theorem eop_does (L : Laid st cells literals) (hS : S.Behaves) (hσ : σ.Plain) {eop : ExtendedOpcode}
    (h : ItemAt cells i (.op .extended)) (heop : ItemAt cells (i + 1) (.eop eop)) {a : Reads Answer} (ha : Answers a)
    (hopcode : extendedOpcode S (layout st) (finalOffset st i) (mach st (i + 2) rts σ t) eop =
      answered S (finalOffset st i) (mach st j base σ t) a) :
    Does S literals (layout st) (mach st i rts σ t) Plain base (fun v τ _ => mach st j (v :: base) τ t)
      (answer (S.located st) i a σ) :=
  does_answer hS hσ ha (L.alone h rfl) ((L.step_eop h heop).trans hopcode)

theorem functionCall_does (L : Laid st cells literals) (hS : S.Behaves) (hσ : σ.Plain) {func : Nat} (hlt : func < 256)
    (h : ItemAt cells i (.op .biFuncCall)) (hfunc : ItemAt cells (i + 1) (.byte func)) :
    Does S literals (layout st) (mach st i (v :: rts) σ t) Plain rts (fun v τ temp => mach st (i + 2) (v :: rts) τ temp)
      (functionCall (S.located st) i func v σ) := by
  have hstep : step S literals (layout st) false (mach st i (v :: rts) σ t) =
      opBiFuncCallAt S (layout st) (finalOffset st i) (mach st (i + 1) (v :: rts) σ t) := L.step_op h
  unfold opBiFuncCallAt at hstep
  rw [show (mach st (i + 1) (v :: rts) σ t).pc = finalOffset st (i + 1) from rfl, L.byte hfunc hlt] at hstep
  unfold functionCall
  cases v with
  | list l => exact (does_call (t := t) hS hσ (hS.callBiFunc func l) hstep).forget
  | _ => exact (does_error (t := t) hS hσ hstep).forget

theorem verbCall_does (L : Laid st cells literals) (hS : S.Behaves) (hσ : σ.Plain) {obj verb args : Var}
    (h : ItemAt cells i (.op .callVerb)) :
    Does S literals (layout st) (mach st i (args :: verb :: obj :: rts) σ t) Plain rts
      (fun v τ temp => mach st (i + 1) (v :: rts) τ temp) (verbCall (S.located st) i obj verb args σ) := by
  have hstep : step S literals (layout st) false (mach st i (args :: verb :: obj :: rts) σ t) =
      opCallVerbAt S (finalOffset st i) (mach st (i + 1) (args :: verb :: obj :: rts) σ t) := L.step_op h
  unfold opCallVerbAt at hstep
  unfold verbCall
  cases obj with
  | obj oid =>
      cases verb with
      | str vname =>
          cases args with
          | list l =>
              change step S literals (layout st) false _ = if (!(S.around σ.world).valid oid) = true then _ else _ at hstep
              change Does S literals (layout st) _ _ _ _
                ((if (!(S.around σ.world).valid oid) = true then _ else _ : Eval W Var) σ)
              split at hstep
              · next hvalid =>
                  rw [if_pos hvalid]
                  exact (does_error (t := t) hS hσ hstep).forget
              · next hvalid =>
                  rw [if_neg hvalid]
                  exact (does_call (t := t) hS hσ (hS.callVerb oid vname l) hstep).forget
          | _ => exact (does_error (t := t) hS hσ hstep).forget
      | _ => exact (does_error (t := t) hS hσ hstep).forget
  | _ => exact (does_error (t := t) hS hσ hstep).forget

theorem firstArg_does (L : Laid st cells literals) (hS : S.Behaves) (hσ : σ.Plain) (hv : Plain v) {kind : ArgKind}
    (h : ItemAt cells i (.op (if kind = .normal then .makeSingletonList else .checkListForSplice))) :
    Does S literals (layout st) (mach st i (v :: rts) σ t) Plain rts (fun v τ temp => mach st (i + 1) (v :: rts) τ temp)
      (firstArg (S.located st) i kind v σ) := by
  cases kind with
  | normal =>
      have hlist : Answers (.ok (.push (.list [v]))) :=
        .ok (plain_list.mpr fun w hw => List.mem_singleton.mp hw ▸ hv)
      exact (op_does L hS hσ h rfl hlist rfl).forget
  | splice =>
      have hchecked : Answers (if v.type ≠ .list then .ok (.raise .eType) else .ok (.push v)) :=
        .ite (.ok trivial) (.ok hv)
      have hdoes : Does S literals (layout st) (mach st i (v :: rts) σ t) Plain rts
          (fun v τ temp => mach st (i + 1) (v :: rts) τ temp)
          (answer (S.located st) i (if v.type ≠ .list then .ok (.raise .eType) else .ok (.push v)) σ) :=
        (op_does L hS hσ h rfl hchecked rfl).forget
      unfold firstArg
      split at hdoes
      · next hkind =>
          rw [if_pos hkind]
          exact hdoes
      · next hkind =>
          rw [if_neg hkind]
          exact hdoes

theorem nextArg_does (L : Laid st cells literals) (hS : S.Behaves) (hσ : σ.Plain) (hv : Plain v) (hw : Plain w)
    {kind : ArgKind} (h : ItemAt cells i (.op (if kind = .normal then .listAddTail else .listAppend))) :
    Does S literals (layout st) (mach st i (w :: v :: rts) σ t) Plain rts
      (fun v τ temp => mach st (i + 1) (v :: rts) τ temp) (nextArg (S.located st) i kind v w σ) := by
  cases kind with
  | normal => exact (op_does L hS hσ h rfl (opListAddTail_plain hv hw) rfl).forget
  | splice => exact (op_does L hS hσ h rfl (opListAppend_plain hv hw) rfl).forget

theorem put_goes (L : Laid st cells literals) {c : Ctx} {slot : Nat} (h : Sits cells i (c.varOp .put slot)) :
    Goes S literals (layout st) false (mach st i (v :: rts) σ t)
      (mach st (i + varOpSize slot) (v :: rts) { σ with env := Function.update σ.env slot v } t) := by
  unfold Ctx.varOp at h
  unfold varOpSize
  by_cases hslot : slot < 32
  · rw [dif_pos hslot] at h
    rw [if_pos hslot]
    exact goes_of_step (L.step_op (h.get (k := 0) rfl))
  · rw [dif_neg hslot] at h
    rw [if_neg hslot]
    refine goes_of_step ((L.step_op (h.get (k := 0) rfl)).trans ?_)
    change executed S (finalOffset st i) (mach st (i + 1) (v :: rts) σ t)
      (opGPut (layout st) (mach st (i + 1) (v :: rts) σ t).toActivation) = _
    unfold opGPut
    rw [show (mach st (i + 1) (v :: rts) σ t).toActivation.pc = finalOffset st (i + 1) from rfl,
      L.varRef (h.get (k := 1) rfl)]
    rfl

theorem pop_goes (L : Laid st cells literals) (h : ItemAt cells i (.op .pop)) :
    Goes S literals (layout st) false (mach st i (v :: rts) σ t) (mach st (i + 1) rts σ t) :=
  goes_of_step (L.step_op h)

theorem jump_goes (L : Laid st cells literals) {target : Nat} (h : ItemAt cells i (.op .jump))
    (hlabel : ItemAt cells (i + 1) (.label target)) (htarget : 0 < target) :
    Goes S literals (layout st) false (mach st i rts σ t) (mach st target rts σ t) := by
  refine goes_of_step ((L.step_op h).trans ?_)
  change executed S (finalOffset st i) (mach st (i + 1) rts σ t)
    (opJump (layout st) (mach st (i + 1) rts σ t).toActivation) = _
  unfold opJump
  rw [show (mach st (i + 1) rts σ t).toActivation.pc = finalOffset st (i + 1) from rfl, L.label hlabel, ok_bind_crash]
  dsimp only
  rw [if_pos (L.offset_ne_zero htarget (Listing.ItemAt.lt h))]
  rfl

theorem number_goes (L : Laid st cells literals) {num : Int} (hnum : inOptimNumRange num)
    (h : ItemAt cells i (.op (optimNumToOpcode num))) :
    Goes S literals (layout st) false (mach st i rts σ t) (mach st (i + 1) (.int num :: rts) σ t) := by
  refine goes_of_step ((L.step_op h).trans ?_)
  change Next.goes _ = _
  rw [opcodeToOptimNum_optimNumToOpcode hnum]
  rfl

theorem label_goes (L : Laid st cells literals) {f : Nat → Var} {eop : ExtendedOpcode} {target : Nat}
    (heq : extendedOpcode S (layout st) (finalOffset st i) (mach st (i + 2) rts σ t) eop =
      eopLabel (layout st) f (mach st (i + 2) rts σ t))
    (h : ItemAt cells i (.op .extended)) (heop : ItemAt cells (i + 1) (.eop eop)) (hlabel : ItemAt cells (i + 2) (.label target)) :
    Goes S literals (layout st) false (mach st i rts σ t) (mach st (i + 3) (f (finalOffset st target) :: rts) σ t) := by
  refine goes_of_step ((L.step_eop h heop).trans (heq.trans ?_))
  unfold eopLabel
  rw [show (mach st (i + 2) rts σ t).pc = finalOffset st (i + 2) from rfl, L.label hlabel]
  rfl

def IsTest (o : Opcode) : Prop := o = .if_ ∨ o = .ifQues ∨ o = .while_ ∨ o = .eif

theorem doTest_eq (L : Laid st cells literals) {target : Nat} (hlabel : ItemAt cells i (.label target)) (htarget : 0 < target) :
    doTest (layout st) (mach st i (v :: rts) σ t) =
      .goes (mach st (if v.isTrue then i + 1 else target) rts σ t) := by
  unfold doTest
  rw [show (mach st i (v :: rts) σ t).pc = finalOffset st i from rfl, L.label hlabel]
  change (if (!v.isTrue) = true then _ else _) = _
  cases v.isTrue with
  | true => rfl
  | false =>
      rw [if_pos (L.offset_ne_zero htarget (Listing.ItemAt.lt hlabel))]
      rfl

theorem test_goes (L : Laid st cells literals) {o : Opcode} (ho : IsTest o) {target : Nat} (h : ItemAt cells i (.op o))
    (hlabel : ItemAt cells (i + 1) (.label target)) (htarget : 0 < target) :
    Goes S literals (layout st) false (mach st i (v :: rts) σ t)
      (mach st (if v.isTrue then i + 2 else target) rts σ t) := by
  refine goes_of_step ((L.step_op h).trans ((?_ : _ = doTest (layout st) (mach st (i + 1) (v :: rts) σ t)).trans
    (doTest_eq L hlabel htarget)))
  obtain rfl | rfl | rfl | rfl := ho <;> rfl

theorem logic_goes (L : Laid st cells literals) {kind : LogicKind} {target : Nat}
    (h : ItemAt cells i (.op (LogicKind.opcode kind))) (hlabel : ItemAt cells (i + 1) (.label target)) :
    Goes S literals (layout st) false (mach st i (v :: rts) σ t)
      (if v.isTrue = shortCircuit kind then mach st target (v :: rts) σ t else mach st (i + 2) rts σ t) := by
  refine goes_of_step ((L.step_op h).trans ?_)
  have hlogic : opcode S literals (layout st) (finalOffset st i) false (mach st (i + 1) (v :: rts) σ t)
      (LogicKind.opcode kind) = opLogic (layout st) (shortCircuit kind) (mach st (i + 1) (v :: rts) σ t) := by
    cases kind <;> rfl
  rw [hlogic]
  unfold opLogic
  rw [show (mach st (i + 1) (v :: rts) σ t).pc = finalOffset st (i + 1) from rfl, L.label hlabel]
  change (if v.isTrue = shortCircuit kind then _ else _) = _
  split <;> rfl

theorem literal_goes (L : Laid st cells literals) {u : Var} (h : ItemAt cells i (.op .imm))
    (hliteral : ItemAt cells (i + 1) (.literal u)) :
    Goes S literals (layout st) false (mach st i rts σ t) (mach st (i + 2) (literal literals u :: rts) σ t) := by
  obtain ⟨c, hrep⟩ := L.rep
  obtain ⟨cell, hcell, hitem⟩ := id hliteral
  obtain ⟨k, f, hf, hx, -⟩ := hrep.exists_fixup hcell (by simp [hitem, Item.kind?])
  have hname := hrep.names hf hx (Set.notMem_empty k)
  rw [hitem] at hname
  obtain ⟨hindex, hlt⟩ := hname
  obtain ⟨more, hliterals⟩ := L.literals
  have hlt : st.gstate.literals.findIdx (sameLiteral u) < st.gstate.literals.length := hindex ▸ hlt
  have hread := hrep.read_at L.correct hliteral rfl
  have hfind : literals[st.gstate.literals.findIdx (sameLiteral u)]? = some (literal literals u) := by
    rw [literal, ← hliterals, List.getElem?_append_left hlt, List.getElem?_eq_getElem hlt, List.find?_append,
      List.find?_eq_some_iff_getElem.mpr ⟨List.findIdx_getElem, _, hlt, rfl, fun j hj => ?_⟩]
    · rfl
    · simpa using List.not_of_lt_findIdx hj
  refine goes_of_step ((L.step_op h).trans ?_)
  change opImm literals (layout st) false (mach st (i + 1) rts σ t) = _
  unfold opImm
  rw [Bool.false_and, if_neg Bool.false_ne_true,
    show (mach st (i + 1) rts σ t).pc = finalOffset st (i + 1) from rfl,
    show (layout st).read (layout st).numbytes.literal (finalOffset st (i + 1)) = _ from hread]
  dsimp only
  rw [show literals[itemValue (numBytesOf st) st.gstate.literals cells (.literal u)]? = _ from hfind]
  rfl

end

end LambdaMoo.Interpreter
