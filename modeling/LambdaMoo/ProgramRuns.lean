import LambdaMoo.Arithmetic
import LambdaMoo.Clocks
import LambdaMoo.Whiles

/-! The programs that `generate_code` makes: each of their vectors does what the statements mean that it is made of. -/
namespace LambdaMoo.Interpreter
open Listing CodeGen

variable {W : Type} {all : Bool}

def BodyFits (all : Bool) (f : ForkBody) : Prop := f.body.admitted [] = true ∧ fitsAll all f.body = true

mutual
theorem stmtBodies_fit : ∀ (s : Stmt) {loops : List (Option Nat)} (forks refs : Nat), s.admitted loops = true →
    fits all s = true → ∀ f ∈ stmtBodies s forks refs, BodyFits all f
  | .cond arms otherwise, loops, forks, refs, h, hfit => by
      simp only [Stmt.admitted, fits, Bool.and_eq_true] at h hfit
      exact List.forall_mem_append.mpr ⟨armsBodies_fit arms _ _ h.1.2 hfit.1, stmtsBodies_fit otherwise _ _ h.2 hfit.2⟩
  | .list _ _ body, loops, forks, refs, h, hfit => by
      simp only [Stmt.admitted, fits, Bool.and_eq_true] at h hfit
      exact stmtsBodies_fit body _ _ h.2 hfit
  | .range _ _ _ body, loops, forks, refs, h, hfit => by
      simp only [Stmt.admitted, fits, Bool.and_eq_true] at h hfit
      exact stmtsBodies_fit body _ _ h.2 hfit
  | .while_ _ _ body, loops, forks, refs, h, hfit => by
      simp only [Stmt.admitted, fits, Bool.and_eq_true] at h hfit
      exact stmtsBodies_fit body _ _ h.2 hfit.2
  | .fork _ _ body, loops, forks, refs, h, hfit => by
      simp only [Stmt.admitted, fits, Bool.and_eq_true] at h hfit
      exact List.forall_mem_append.mpr ⟨stmtsBodies_fit body _ _ h.2 hfit, List.forall_mem_singleton.mpr ⟨h.2, hfit⟩⟩
  | .tryExcept body excepts, loops, forks, refs, h, hfit => by
      simp only [Stmt.admitted, fits, Bool.and_eq_true] at h hfit
      exact List.forall_mem_append.mpr
        ⟨stmtsBodies_fit body _ _ h.1.1.1 hfit.1.2, exceptsBodies_fit excepts _ _ h.2 hfit.2⟩
  | .tryFinally body handler, loops, forks, refs, h, hfit => by
      simp only [Stmt.admitted, fits, Bool.and_eq_true] at h hfit
      exact List.forall_mem_append.mpr ⟨stmtsBodies_fit body _ _ h.1 hfit.1, stmtsBodies_fit handler _ _ h.2 hfit.2⟩
  | .expr _, _, _, _, _, _ | .return_ _, _, _, _, _, _ | .break_ _, _, _, _, _, _ | .continue_ _, _, _, _, _, _ =>
      fun _ hf => absurd hf List.not_mem_nil
theorem stmtsBodies_fit : ∀ (s : Stmts) {loops : List (Option Nat)} (forks refs : Nat), s.admitted loops = true →
    fitsAll all s = true → ∀ f ∈ stmtsBodies s forks refs, BodyFits all f
  | .nil, _, _, _, _, _ => fun _ hf => absurd hf List.not_mem_nil
  | .cons stmt next, loops, forks, refs, h, hfit => by
      simp only [Stmts.admitted, fitsAll, Bool.and_eq_true] at h hfit
      exact List.forall_mem_append.mpr ⟨stmtBodies_fit stmt _ _ h.1 hfit.1, stmtsBodies_fit next _ _ h.2 hfit.2⟩
theorem armsBodies_fit : ∀ (arms : CondArm) {loops : List (Option Nat)} (forks refs : Nat), arms.admitted loops = true →
    fitsArms all arms = true → ∀ f ∈ armsBodies arms forks refs, BodyFits all f
  | .nil, _, _, _, _, _ => fun _ hf => absurd hf List.not_mem_nil
  | .cons _ stmt next, loops, forks, refs, h, hfit => by
      simp only [CondArm.admitted, fitsArms, Bool.and_eq_true] at h hfit
      exact List.forall_mem_append.mpr ⟨stmtsBodies_fit stmt _ _ h.1.2 hfit.1, armsBodies_fit next _ _ h.2 hfit.2⟩
theorem exceptsBodies_fit : ∀ (excepts : ExceptArm) {loops : List (Option Nat)} (forks refs : Nat),
    excepts.admitted loops = true → fitsExcepts all excepts = true → ∀ f ∈ exceptsBodies excepts forks refs, BodyFits all f
  | .nil, _, _, _, _, _ => fun _ hf => absurd hf List.not_mem_nil
  | .cons _ _ stmt next, loops, forks, refs, h, hfit => by
      simp only [ExceptArm.admitted, fitsExcepts, Bool.and_eq_true] at h hfit
      exact List.forall_mem_append.mpr ⟨stmtsBodies_fit stmt _ _ h.1.2 hfit.1, exceptsBodies_fit next _ _ h.2 hfit.2⟩
end

def programBodies (body : Stmts) : List ForkBody := ⟨body, 0, 0⟩ :: stmtsBodies body 0 0

/-- Every operand of a vector fits the width that the vector has for it. -/
structure VectorFits (bc : Bytecodes) (literals : List Var) (cells : List Cell) : Prop where
  width : numStacks cells = 0 ∨ bc.numbytes.stack = 1
  operands : OperandsFit bc.numbytes literals cells

instance (w : NumBytes) (literals : List Var) (cells : List Cell) : Decidable (OperandsFit w literals cells) :=
  decidable_of_iff (∀ cell ∈ cells, cell.item.kind?.all fun k => decide (itemValue w literals cells cell.item < 256 ^ operandSize w k))
    (forall₂_congr fun cell _ => by cases cell.item.kind? <;> simp)

instance (bc : Bytecodes) (literals : List Var) (cells : List Cell) : Decidable (VectorFits bc literals cells) :=
  decidable_of_iff (_ ∧ _) ⟨fun ⟨hwidth, hoperands⟩ => ⟨hwidth, hoperands⟩, fun ⟨hwidth, hoperands⟩ => ⟨hwidth, hoperands⟩⟩

theorem operandsFit_of_prefix {w : NumBytes} {literals literals' : List Var} {cells : List Cell}
    (h : OperandsFit w literals' cells) (hl : literals <+: literals') : OperandsFit w literals cells := by
  intro cell hcell k hk
  refine Nat.lt_of_le_of_lt ?_ (h cell hcell k hk)
  cases cell.item with
  | literal v => exact hl.findIdx_le
  | _ => exact Nat.le_refl _

theorem VectorFits.laid {st : State} {cells : List Cell} {c : Ctx} {literals : List Var} (h : VectorFits (layout st) literals cells)
    (hrep : Rep ∅ st cells c) (hl : st.gstate.literals <+: literals) : Laid st cells literals :=
  ⟨⟨c, hrep⟩, hrep.layoutCorrect_iff.mpr ⟨h.width, operandsFit_of_prefix h.operands hl⟩, hl⟩

theorem generateCode_laid {body : Stmts} (h : body.admitted [] = true) (hfit : fitsAll all body = true) (version : Nat)
    (varNames : List Str) :
    ∃ program, generateCode body version varNames = some program ∧
      List.Forall₂ (fun bc f => BodyFits all f ∧ ∃ st, bc = layout st ∧
          (VectorFits bc program.literals (vectorCode f.body f.forks) →
            Laid st (vectorCode f.body f.forks) program.literals))
        program.vectors (programBodies body) := by
  obtain ⟨st, _, hcode, hrep, _, _, _, new, hnew, hforks⟩ := stmtToCode_gen h {}
  refine ⟨_, by rw [generateCode, hcode]; rfl, .cons ⟨⟨h, hfit⟩, emitOp .done st, rfl, fun hv =>
    hv.laid hrep (List.prefix_refl _)⟩ ?_⟩
  rw [hnew]
  have hbodies := stmtsBodies_fit body 0 0 h hfit
  refine ((List.forall₂_and_left _ _).mpr ⟨hbodies, hforks.flip⟩).flip.imp ?_
  rintro bc f ⟨hf, st, c, hrep, rfl, _, hl, _⟩
  exact ⟨hf, st, rfl, fun hv => hv.laid hrep hl⟩

/-! The meaning of a vector. -/

def offsetIn (bc : Bytecodes) (cells : List Cell) (place : Nat) : Nat :=
  ((cells.take place).map fun cell => itemSize bc.numbytes cell.item).sum

def Server.tracing (S : Server W) (bc : Bytecodes) (cells : List Cell) : Server W :=
  { S with makeStackList := fun place => S.makeStackList (offsetIn bc cells place) }

theorem located_eq_tracing {st : State} {cells : List Cell} {c : Ctx} (hrep : Rep ∅ st cells c) (S : Server W) :
    S.located st = S.tracing (layout st) cells := by
  have hoffset : ∀ place, finalOffset st place = offsetIn (layout st) cells place := by
    intro place
    rw [hrep.finalOffset_eq, Segments.start, List.length_flatMap]
    simp only [encodeItem_length (numBytesOf_isWidth st)]
    rfl
  unfold Server.located Server.tracing
  congr 1
  funext place
  rw [hoffset]

abbrev Memory.activation (σ : Memory W) (temp : Var) : Machine W := ⟨⟨0, [], σ.env, σ.debug⟩, temp, σ.world⟩

def meaning (S : Server W) (bc : Bytecodes) (f : ForkBody) (fuel : Nat) : Eval W Flow :=
  execAll (S.tracing bc (vectorCode f.body f.forks)) asWritten fuel f.body 0 f.forks

/-- A server without properties, verbs and functions, which counts the tasks that are forked. -/
def bareServer : Server Nat where
  around _ :=
    { fl := noDoubles, valid := fun _ => false, getProp := fun _ _ => .error .ePropnf, handle := fun _ _ => none
      mayWrite := fun _ _ => false, wizard := false, owns := fun _ => false, isUser := fun _ => false
      callVerb2 := fun _ _ _ => .eVerbnf, enqueueForkedTask2 := fun _ => .eNone }
  setPropertyValue _ _ _ w := w
  callVerb _ _ _ _ w := (.error .eVerbnf, w)
  callBiFunc _ _ _ w := (.error .eInvarg, w)
  newTaskId w := w
  enqueueFt _ _ _ w := w + 1
  handlerBelow _ := false
  unparseError _ := []
  makeStackList _ _ := .list []

theorem bareServer_behaves : bareServer.Behaves where
  getProp h := by cases h
  callVerb _ _ _ _ _ := trivial
  callBiFunc _ _ _ _ := trivial
  makeStackList _ _ := rfl

def zeros : Memory Nat := ⟨fun _ => zero, true, 0⟩

theorem zeros_plain : zeros.Plain := fun _ => rfl

/-- The activation of the vector goes on and on, or it comes to its one end. -/
def VectorSettles (literals : List Var) (bc : Bytecodes) (f : ForkBody) : Prop :=
  VectorFits bc literals (vectorCode f.body f.forks) → Verbatim literals f.body →
    ∀ {W : Type} (S : Server W) (clock : Clock) (σ : Memory W) (temp : Var) (fast : Bool), S.Behaves → σ.Plain →
      SettlesInTime S literals bc fast clock (σ.activation temp) fun fuel => meaning S bc f fuel σ

/-- So a program has one end, or none. -/
theorem generateCode_settles {body : Stmts} (h : body.admitted [] = true) (hfit : fitsAll true body = true) (version : Nat)
    (varNames : List Str) :
    ∃ program, generateCode body version varNames = some program ∧
      List.Forall₂ (VectorSettles program.literals) program.vectors (programBodies body) := by
  obtain ⟨program, hprogram, hvectors⟩ := generateCode_laid h hfit version varNames
  refine ⟨program, hprogram, hvectors.imp ?_⟩
  rintro bc f ⟨hf, st, rfl, hlaid⟩ hv hverbatim W S clock σ temp fast hS hσ
  have L := hlaid hv
  obtain ⟨c, hrep⟩ := L.rep
  unfold meaning
  rw [← located_eq_tracing hrep]
  simp only [← execAll_verbatim hf.1 hverbatim]
  exact (vector_settles L hS hf.1 hf.2 hσ temp fast).inTime

/-- `fork (0) s = "c"; endfork while (1) endwhile` -/
def waiting : Stmts :=
  .cons (.fork none (.var (.int 0)) (.cons (.expr (.asgn (.id 18) (.var (.str "c".toList)))) .nil)) <|
  .cons (.while_ none (.var (.int 1)) .nil) .nil

theorem meaning_waiting (bc : Bytecodes) (fuel : Nat) :
    (meaning bareServer bc ⟨waiting, 0, 0⟩ fuel zeros).1 = .error .tires := by
  let S := bareServer.tracing bc (vectorCode waiting 0)
  have hfork : exec S asWritten fuel (.fork none (.var (.int 0)) (.cons (.expr (.asgn (.id 18) (.var (.str "c".toList)))) .nil))
      0 0 zeros = (.ok .falls, { zeros with world := 1 }) := rfl
  have hloop : exec S asWritten fuel (.while_ none (.var (.int 1)) .nil) 2 1 { zeros with world := 1 } =
      (.error .tires, { zeros with world := 1 }) := rounds_tires rfl rfl fuel
  exact congrArg Prod.fst ((followed_falls hfork).trans (followed_error hloop))

theorem generateCode_settles_waiting : ∃ program forked, generateCode waiting 0 [] = some program ∧
    program.forkVectors = [forked] ∧ ∀ (temp : Var) (fast : Bool),
      GoesOn bareServer program.literals program.mainVector fast (fun _ => false) (zeros.activation temp, 0) ∧
      ∃ τ, ∀ (clock : Clock) (fuel : Nat),
        ComesTo bareServer program.literals forked fast clock fuel (zeros.activation temp) (.ok .falls, τ) := by
  obtain ⟨program, hprogram, hvectors⟩ := generateCode_settles (show waiting.admitted [] = true from rfl) rfl 0 []
  have hfits : (generateCode waiting 0 []).all (fun program =>
      (program.vectors.zip (programBodies waiting)).all fun x =>
        decide (VectorFits x.1 program.literals (vectorCode x.2.body x.2.forks))) = true := by decide +kernel
  rw [hprogram, Option.all_some, List.all_eq_true] at hfits
  obtain ⟨forkBody, hbodies, hbody⟩ : ∃ f, programBodies waiting = [⟨waiting, 0, 0⟩, f] ∧
      f.body = .cons (.expr (.asgn (.id 18) (.var (.str "c".toList)))) .nil := ⟨_, rfl, rfl⟩
  rw [hbodies] at hvectors hfits
  rw [Program.vectors, List.forall₂_cons, List.forall₂_cons_right_iff] at hvectors
  obtain ⟨hmain, forked, rest, hforked, hrest, hforkVectors⟩ := hvectors
  obtain rfl := List.forall₂_nil_right_iff.mp hrest
  rw [Program.vectors, hforkVectors] at hfits
  have hmainFits := of_decide_eq_true (hfits (program.mainVector, ⟨waiting, 0, 0⟩) (.head _))
  have hforkedFits := of_decide_eq_true (hfits (forked, forkBody) (.tail _ (.head _)))
  refine ⟨program, forked, hprogram, hforkVectors, fun temp fast => ⟨?_, ?_⟩⟩
  · obtain ⟨-, haborts | hgoesOn⟩ | ⟨r, htires, ⟨enough, henough⟩, -⟩ :=
      hmain hmainFits (verbatim_of rfl rfl) bareServer (fun _ => false) zeros temp fast bareServer_behaves zeros_plain
    · obtain ⟨y, -, hy⟩ := haborts
      exact absurd hy advance_ne_aborts
    · exact hgoesOn
    · rw [← henough enough (Nat.le_refl _), meaning_waiting] at htires
      exact absurd rfl htires
  · obtain ⟨τ, hτ⟩ : ∃ τ, ∀ fuel, meaning bareServer forked forkBody fuel zeros = (.ok .falls, τ) := by
      refine ⟨(meaning bareServer forked forkBody 0 zeros).2, fun fuel => ?_⟩
      rw [meaning, meaning, hbody]
      exact Prod.ext rfl rfl
    refine ⟨τ, fun clock fuel => ?_⟩
    have hverbatim : Verbatim program.literals forkBody.body := hbody ▸ verbatim_of rfl rfl
    obtain ⟨htires, -⟩ | ⟨r, -, ⟨enough, henough⟩, hcomes, -⟩ :=
      hforked hforkedFits hverbatim bareServer clock zeros temp fast bareServer_behaves zeros_plain
    · have hfalls : (meaning bareServer forked forkBody 0 zeros).1 = .error .tires := htires 0
      rw [hτ] at hfalls
      cases hfalls
    · have hr : r = (.ok .falls, τ) := (henough enough (Nat.le_refl _)).symm.trans (hτ enough)
      exact hr ▸ hcomes fuel

/-- The activation of the vector runs out of ticks, if it does not come to an end before. -/
def VectorHalts (literals : List Var) (bc : Bytecodes) (f : ForkBody) : Prop :=
  VectorFits bc literals (vectorCode f.body f.forks) →
    ∀ {W : Type} (S : Server W) (σ : Memory W) (temp : Var) (fast : Bool) (run : Nat → Machine W × Int), S.Behaves →
      σ.Plain → (run 0).1 = σ.activation temp → ListsFit S literals bc fast (σ.activation temp) →
        ¬ ∀ i, Clocked S literals bc fast (run i) (run (i + 1))

/-- A program in which no `while` has a name always comes to an end. -/
theorem generateCode_halts {body : Stmts} (h : body.admitted [] = true) (hfit : fitsAll false body = true) (version : Nat)
    (varNames : List Str) :
    ∃ program, generateCode body version varNames = some program ∧
      List.Forall₂ (VectorHalts program.literals) program.vectors (programBodies body) := by
  obtain ⟨program, hprogram, hvectors⟩ := generateCode_laid h hfit version varNames
  refine ⟨program, hprogram, hvectors.imp ?_⟩
  rintro bc f ⟨hf, st, rfl, hlaid⟩ hv W S σ temp fast run hS hσ hstart hlists
  exact vector_halts (hlaid hv) hS hf.1 hf.2 hσ hstart (hstart ▸ hlists)

theorem waiting_listsFit (literals : List Var) (temp : Var) (fast : Bool) :
    ListsFit bareServer literals ⟨⟨1, 1, 1, 1, 1⟩, [123, 3, 0, 124, 1, 8, 107, 3, 110], 9, 1⟩ fast (zeros.activation temp) := by
  let at' : Nat → List Var → Nat → Machine Nat := fun pc rts world => ⟨⟨pc, rts, zeros.env, true⟩, temp, world⟩
  let kind : Machine Nat → Prop := fun m =>
    m = at' 0 [] 0 ∨ m = at' 1 [.int 0] 0 ∨ m = at' 3 [] 1 ∨ m = at' 4 [.int 1] 1 ∨ m = at' 6 [] 1
  intro m hs l hl vs hvs
  have hm : kind m := by
    refine steps_closed ?_ (.inl rfl) hs
    rintro m (rfl | rfl | rfl | rfl | rfl)
    · exact ⟨_, rfl, .inr (.inl rfl)⟩
    · exact ⟨_, rfl, .inr (.inr (.inl rfl))⟩
    · exact ⟨_, rfl, .inr (.inr (.inr (.inl rfl)))⟩
    · exact ⟨_, rfl, .inr (.inr (.inr (.inr rfl)))⟩
    · exact ⟨_, rfl, .inr (.inr (.inl rfl))⟩
  obtain rfl | rfl | rfl | rfl | rfl := hm <;> cases hl <;> cases hvs

theorem generateCode_halts_waiting : ∃ program, generateCode waiting 0 [] = some program ∧
    ∀ (temp : Var) (fast : Bool) (run : Nat → Machine Nat × Int), (run 0).1 = zeros.activation temp →
      ¬ ∀ i, Clocked bareServer program.literals program.mainVector fast (run i) (run (i + 1)) := by
  obtain ⟨program, hprogram, hvectors⟩ := generateCode_halts (show waiting.admitted [] = true from rfl) rfl 0 []
  have hcode : (generateCode waiting 0 []).all (fun program =>
      decide (program.mainVector = ⟨⟨1, 1, 1, 1, 1⟩, [123, 3, 0, 124, 1, 8, 107, 3, 110], 9, 1⟩ ∧
        VectorFits program.mainVector program.literals (vectorCode waiting 0))) = true := by decide +kernel
  rw [hprogram, Option.all_some, decide_eq_true_eq] at hcode
  refine ⟨program, hprogram, fun temp fast run hstart => ?_⟩
  refine (List.forall₂_cons.mp hvectors).1 hcode.2 bareServer zeros temp fast run bareServer_behaves zeros_plain hstart ?_
  rw [hcode.1]
  exact waiting_listsFit program.literals temp fast

/-! The two kinds of `while` that do not run as others do. -/

section

variable {before : Stmt} {next : Stmts} {id : Nat} {n : Int}

/-- A program that goes on with a `while` that has a name, and a test that is always true. -/
def spinning (before : Stmt) (id : Nat) (n : Int) (next : Stmts) : Stmts :=
  .cons before (.cons (.while_ (some id) (.var (.int n)) .nil) next)

/-- Once it has come to the loop, it does not run out of ticks. -/
theorem generateCode_spins (h : (spinning before id n next).admitted [] = true)
    (hfit : fitsAll true (spinning before id n next) = true) (hzero : n ≠ 0) (version : Nat) (varNames : List Str) :
    ∃ program, generateCode (spinning before id n next) version varNames = some program ∧
      (VectorFits program.mainVector program.literals (vectorCode (spinning before id n next) 0) →
        Verbatim program.literals (.cons before .nil) →
        ∀ {W : Type} (S : Server W) (clock : Clock) (fuel : Nat) (σ τ : Memory W) (temp : Var) (fast : Bool), S.Behaves →
          σ.Plain →
          exec (S.tracing program.mainVector (vectorCode (spinning before id n next) 0)) asWritten fuel before 0 0 σ =
            (.ok .falls, τ) →
          Comes S program.literals program.mainVector fast clock (σ.activation temp, 0) .aborts ∨
            ∃ y, Reaches S program.literals program.mainVector fast clock (σ.activation temp, 0) y ∧
              GoesOn S program.literals program.mainVector fast clock y ∧
              ∀ z, Reaches S program.literals program.mainVector fast clock y z → ¬ Ticks program.mainVector z.1) := by
  obtain ⟨program, hprogram, hvectors⟩ := generateCode_laid h hfit version varNames
  refine ⟨program, hprogram, fun hv hverbatim W S clock fuel σ τ temp fast hS hσ hfalls => ?_⟩
  rw [Program.vectors, programBodies, List.forall₂_cons] at hvectors
  obtain ⟨⟨-, st, hmain, hlaid⟩, -⟩ := hvectors
  dsimp only at hlaid
  have L := hlaid hv
  obtain ⟨c, hrep⟩ := L.rep
  rw [hmain, ← located_eq_tracing hrep] at hfalls
  have hparts := h
  simp only [spinning, Stmts.admitted, Stmt.admitted, Expr.admitted, Bool.and_eq_true] at hparts
  have hsame : Same (asCompiled program.literals) asWritten (stmtLiterals before) := fun v hv =>
    hverbatim.literals v (List.mem_append_left _ hv)
  rw [← exec_same (sameBehind_compiled program.literals) before 0 0 hsame
    (.inr (startsOtherwise_of hparts.1 hverbatim.notWhile))] at hfalls
  obtain ⟨m, hs, hforever, hticks⟩ := vector_spins L ⟨[], _, rfl, rfl⟩ hS h hfit (beq_iff_eq.mp hparts.2.1.1) hzero
    (stmtSize_pos hparts.1) hσ hfalls temp fast
  rw [← hmain] at hs hforever hticks
  refine (aborts_or_reaches hs clock 0).imp_right fun ⟨j, hj⟩ => ⟨(m, j), hj, (hforever.inTime j).resolve_left ?_,
    fun z hz => hticks z.1 hz.steps⟩
  rintro ⟨z, hz, haborts⟩
  exact hticks z.1 hz.steps (ticks_of_aborts haborts)

theorem generateCode_spins_named : ∃ program, generateCode (spinning (.expr (.var (.int 1))) 18 1 .nil) 0 [] = some program ∧
    ∀ (clock : Clock) (temp : Var) (fast : Bool),
      Comes bareServer program.literals program.mainVector fast clock (zeros.activation temp, 0) .aborts ∨
        ∃ y, Reaches bareServer program.literals program.mainVector fast clock (zeros.activation temp, 0) y ∧
          GoesOn bareServer program.literals program.mainVector fast clock y ∧
          ∀ z, Reaches bareServer program.literals program.mainVector fast clock y z → ¬ Ticks program.mainVector z.1 := by
  obtain ⟨program, hprogram, hspins⟩ :=
    generateCode_spins (show (spinning (.expr (.var (.int 1))) 18 1 .nil).admitted [] = true from rfl) rfl Int.one_ne_zero 0 []
  have hfits : (generateCode (spinning (.expr (.var (.int 1))) 18 1 .nil) 0 []).all (fun program =>
      decide (VectorFits program.mainVector program.literals (vectorCode (spinning (.expr (.var (.int 1))) 18 1 .nil) 0))) =
      true := by decide +kernel
  rw [hprogram, Option.all_some, decide_eq_true_eq] at hfits
  exact ⟨program, hprogram, fun clock temp fast => hspins hfits (verbatim_of rfl rfl) bareServer clock 0 zeros zeros temp fast
    bareServer_behaves zeros_plain rfl⟩

variable {name : Option Nat} {condition : Expr} {body : Stmts}

/-- A `while` that a program starts with is an `if`, unless its body goes on with it. -/
theorem generateCode_while_first (h : (Stmts.cons (.while_ name condition body) next).admitted [] = true)
    (hfit : fitsAll true (.cons (.while_ name condition body) next) = true)
    (hname : ∀ exit ∈ exitsOfAll false body, hits exit name = false) (version : Nat) (varNames : List Str) :
    ∃ program, generateCode (.cons (.while_ name condition body) next) version varNames = some program ∧
      (VectorFits program.mainVector program.literals (vectorCode (.cons (.while_ name condition body) next) 0) →
        (∀ v ∈ stmtsLiterals (.cons (.while_ name condition body) next), literal program.literals v = v) →
        ∀ {W : Type} (S : Server W) (clock : Clock) (fuel : Nat) (σ : Memory W) (temp : Var) (fast : Bool), S.Behaves →
          σ.Plain →
          let T := S.tracing program.mainVector (vectorCode (.cons (.while_ name condition body) next) 0)
          ComesTo S program.literals program.mainVector fast clock (fuel + 1) (σ.activation temp)
            (followed
              (once name (whileHead T asWritten 0 name condition)
                (execAll T asWritten (fuel + 1) body (exprSize condition + if name.isSome then 4 else 2) 0) ())
              (execAll T asWritten (fuel + 1) next (stmtSize (.while_ name condition body))
                (stmtForks (.while_ name condition body))) σ)) := by
  obtain ⟨program, hprogram, hvectors⟩ := generateCode_laid h hfit version varNames
  refine ⟨program, hprogram, fun hv hliterals W S clock fuel σ temp fast hS hσ => ?_⟩
  rw [Program.vectors, programBodies, List.forall₂_cons] at hvectors
  obtain ⟨⟨-, st, hmain, hlaid⟩, -⟩ := hvectors
  dsimp only at hlaid
  have L := hlaid hv
  obtain ⟨c, hrep⟩ := L.rep
  have hsame : Same (asCompiled program.literals) asWritten (stmtsLiterals (.cons (.while_ name condition body) next)) :=
    hliterals
  rw [stmtsLiterals, stmtLiterals, same_append, same_append] at hsame
  have hR := sameBehind_compiled program.literals
  have hfirst : (Stmt.while_ name condition body).admitted [] = true := (Bool.and_eq_true_iff.mp h).1
  have hends : Ends S program.literals (layout st) fast true (fuel + 1) _ _ := vector_runs L hS h hfit hσ temp fast
  rw [execAll, exec_while_once (R := asCompiled program.literals) rfl hname] at hends
  simp only [Nat.zero_add] at hends
  rw [whileHead_same hsame.1.1, execAll_same hR body _ _ hsame.1.2 (by split <;> exact Nat.succ_pos _),
    execAll_same hR next _ _ hsame.2 (stmtSize_pos hfirst), located_eq_tracing hrep,
    ← hmain] at hends
  exact hends.inTime

/-- `while (1) n = n + 1; endwhile return n;` -/
def counting : Stmts :=
  .cons (.while_ none (.var (.int 1)) (.cons (.expr (.asgn (.id 18) (.binary .plus (.id 18) (.var (.int 1))))) .nil)) <|
  .cons (.return_ (.some (.id 18))) .nil

theorem generateCode_while_first_counting : ∃ program, generateCode counting 0 [] = some program ∧
    ∀ (clock : Clock) (temp : Var) (fast : Bool), ∃ τ, ComesTo bareServer program.literals program.mainVector fast clock 1
      (zeros.activation temp) (.ok (.returns (.int 1)), τ) := by
  obtain ⟨program, hprogram, hruns⟩ := generateCode_while_first (show counting.admitted [] = true from rfl) rfl
    (fun _ hexit => absurd hexit List.not_mem_nil) 0 []
  have hfits : (generateCode counting 0 []).all (fun program =>
      decide (VectorFits program.mainVector program.literals (vectorCode counting 0))) = true := by decide +kernel
  rw [counting, hprogram, Option.all_some, decide_eq_true_eq] at hfits
  have hliterals : ∀ v ∈ stmtsLiterals counting, literal program.literals v = v := literals_eq_self rfl
  exact ⟨program, hprogram, fun clock temp fast => ⟨_, hruns hfits hliterals bareServer clock 0 zeros temp fast
    bareServer_behaves zeros_plain⟩⟩

end

end LambdaMoo.Interpreter
