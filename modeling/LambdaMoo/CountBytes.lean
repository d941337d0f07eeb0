import LambdaMoo.Layout
import LambdaMoo.GenVector
import Mathlib.Tactic.Tauto

/-! Counts that the code keeps in one byte: the targets of a scattering assignment, and the arms
of a try statement. The parser bounds them, each by a check that lets one more through than fits. -/
namespace LambdaMoo

/-- The place after the last of 255 targets, which stands for a rest target that is missing, does
not fit. -/
def Scatter.restFits (targets : Scatter) : Bool :=
  !(targets.count == 255 && targets.countKind .rest == 0)

mutual
def Expr.countsFit : Expr → Bool
  | .var _ | .id _ | .length | .scatter _ => true
  | .prop lhs rhs | .index lhs rhs | .binary _ lhs rhs | .logic _ lhs rhs =>
      lhs.countsFit && rhs.countsFit
  | .verb obj verb args => obj.countsFit && verb.countsFit && args.countsFit
  | .range base lower upper => base.countsFit && lower.countsFit && upper.countsFit
  | .asgn (.scatter targets) rhs => targets.restFits && targets.countsFit && rhs.countsFit
  | .asgn lhs rhs => lhs.countsFit && rhs.countsFit
  | .call _ args | .list args => args.countsFit
  | .unary _ expr => expr.countsFit
  | .cond condition consequent alternate =>
      condition.countsFit && consequent.countsFit && alternate.countsFit
  | .catch_ body codes except => body.countsFit && codes.countsFit && except.countsFit
def ArgList.countsFit : ArgList → Bool
  | .nil => true
  | .cons _ expr next => expr.countsFit && next.countsFit
def Scatter.countsFit : Scatter → Bool
  | .nil => true
  | .cons _ _ expr next => expr.countsFit && next.countsFit
def Default.countsFit : Default → Bool
  | .none => true
  | .some expr => expr.countsFit
end

mutual
def Stmt.countsFit : Stmt → Bool
  | .cond arms otherwise => arms.countsFit && otherwise.countsFit
  | .list _ expr body => expr.countsFit && body.countsFit
  | .range _ lower upper body => lower.countsFit && upper.countsFit && body.countsFit
  | .while_ _ condition body => condition.countsFit && body.countsFit
  | .fork _ time body => time.countsFit && body.countsFit
  | .expr expr => expr.countsFit
  | .return_ expr => expr.countsFit
  | .tryExcept body excepts => excepts.count != 256 && body.countsFit && excepts.countsFit
  | .tryFinally body handler => body.countsFit && handler.countsFit
  | .break_ _ | .continue_ _ => true
def Stmts.countsFit : Stmts → Bool
  | .nil => true
  | .cons stmt next => stmt.countsFit && next.countsFit
def CondArm.countsFit : CondArm → Bool
  | .nil => true
  | .cons condition stmt next => condition.countsFit && stmt.countsFit && next.countsFit
def ExceptArm.countsFit : ExceptArm → Bool
  | .nil => true
  | .cons _ codes stmt next => codes.countsFit && stmt.countsFit && next.countsFit
end

namespace Listing
open CodeGen

/-! The counts of a listing. -/

def Cell.CountKept (cell : Cell) : Prop :=
  ∀ n, cell.item = .byte n → cell.item.placeholder.toNat = n

def CountsKept (cells : List Cell) : Prop := ∀ cell ∈ cells, cell.CountKept

section simps

variable {c : Ctx} {cell : Cell} {cells cells' : List Cell}

@[simp] theorem countsKept_nil : CountsKept [] := nofun

@[simp] theorem countsKept_cons : CountsKept (cell :: cells) ↔ cell.CountKept ∧ CountsKept cells :=
  List.forall_mem_cons

@[simp] theorem countsKept_append : CountsKept (cells ++ cells') ↔ CountsKept cells ∧ CountsKept cells' :=
  List.forall_mem_append

@[simp] theorem countKept_byte (n : Nat) : (c.item (.byte n)).CountKept ↔ n < 256 := by
  unfold Cell.CountKept Ctx.item Item.placeholder
  simp only [Item.byte.injEq, forall_eq', UInt8.toNat_ofNat']
  omega

@[simp] theorem countKept_op (op : Opcode) : (c.op op).CountKept := nofun

@[simp] theorem countKept_eop (eop : ExtendedOpcode) : (c.item (.eop eop)).CountKept := nofun

@[simp] theorem countKept_opAt (cur : Nat) (op : Opcode) : (c.opAt cur op).CountKept := nofun

@[simp] theorem countKept_label (target : Nat) : (c.item (.label target)).CountKept := nofun

@[simp] theorem countKept_varRef (slot : Nat) : (c.item (.varRef slot)).CountKept := nofun

@[simp] theorem countKept_stack (index : Nat) : (c.item (.stack index)).CountKept := nofun

@[simp] theorem countKept_fork (index : Nat) : (c.item (.fork index)).CountKept := nofun

@[simp] theorem countKept_literal (v : Var) : (c.item (.literal v)).CountKept := nofun

@[simp] theorem countsKept_eop (eop : ExtendedOpcode) : CountsKept (c.eop eop) := by
  simp [Ctx.eop]

@[simp] theorem countsKept_varOp (op : VarOp) (slot : Nat) : CountsKept (c.varOp op slot) := by
  unfold Ctx.varOp
  split <;> simp

@[simp] theorem countsKept_binary (kind : BinaryKind) : CountsKept (c.binary kind) := by
  cases kind <;> simp [Ctx.binary]

@[simp] theorem countsKept_lit (v : Var) : CountsKept (c.literal v) := by
  unfold Ctx.literal
  split <;> simp

@[simp] theorem countsKept_exit (exit : Option Nat) : CountsKept (c.exit exit) := by
  cases exit <;> simp [Ctx.exit]

@[simp] theorem countsKept_whileOp (id : Option Nat) : CountsKept (c.whileOp id) := by
  cases id <;> simp [Ctx.whileOp]

@[simp] theorem countsKept_bind (id : Option Nat) : CountsKept (c.bind id) := by
  cases id <;> simp [Ctx.bind]

end simps

theorem storeCode_kept (lhs : Expr) (c : Ctx) : CountsKept (storeCode lhs c) := by
  induction lhs, c using storeCode.induct <;> simp_all [storeCode]

theorem scatterCode_kept (targets : Scatter) (start : Nat) (c : Ctx) :
    CountsKept (scatterCode targets start c) := by
  induction targets, start, c using scatterCode.induct <;> simp_all [scatterCode]

/-! Scattering assignments. -/

theorem countKind_le (kind : ScatterKind) : ∀ targets : Scatter, targets.countKind kind ≤ targets.count
  | .nil => Nat.le_refl 0
  | .cons k _ _ next => by
      have := countKind_le kind next
      simp only [Scatter.countKind, Scatter.count]
      split <;> omega

/-- The search for a rest target keeps what it has found, or finds one that is there. -/
theorem rest_go : ∀ (targets : Scatter) (nargs : Nat) (rest : Option Nat),
    (targets.countKind .rest = 0 → Scatter.rest.go targets nargs rest = rest) ∧
      (targets.countKind .rest ≠ 0 →
        ∃ k, Scatter.rest.go targets nargs rest = some k ∧ k ≤ nargs + targets.count)
  | .nil, _, _ => ⟨fun _ => rfl, fun h => absurd rfl h⟩
  | .cons kind _ _ next, nargs, rest => by
      simp only [Scatter.countKind, Scatter.rest.go, Scatter.count]
      by_cases hk : kind = .rest
      · simp only [hk, if_true]
        refine ⟨fun h => by omega, fun _ => ?_⟩
        by_cases hnext : next.countKind .rest = 0
        · exact ⟨_, (rest_go next (nargs + 1) _).1 hnext, by omega⟩
        · obtain ⟨k, hgo, hle⟩ := (rest_go next (nargs + 1) (some (nargs + 1))).2 hnext
          exact ⟨k, hgo, by omega⟩
      · simp only [hk, if_false, Nat.zero_add]
        refine ⟨(rest_go next (nargs + 1) rest).1, fun hnext => ?_⟩
        obtain ⟨k, hgo, hle⟩ := (rest_go next (nargs + 1) rest).2 hnext
        exact ⟨k, hgo, by omega⟩

theorem rest_lt_iff {targets : Scatter} (h : vetScatter targets) :
    Scatter.rest targets < 256 ↔ targets.restFits := by
  have hcount : targets.count ≤ 255 := by
    simp only [vetScatter, Bool.and_eq_true, decide_eq_true_eq] at h
    exact h.2
  unfold Scatter.rest Scatter.restFits
  by_cases hrest : targets.countKind .rest = 0
  · rw [(rest_go targets 0 none).1 hrest]
    simp [hrest]
    omega
  · obtain ⟨k, hgo, hle⟩ := (rest_go targets 0 none).2 hrest
    rw [hgo]
    simp [hrest]
    omega

theorem count_lt {targets : Scatter} (h : vetScatter targets) (kind : ScatterKind) :
    targets.count < 256 ∧ targets.countKind kind < 256 := by
  have hle := countKind_le kind targets
  simp only [vetScatter, Bool.and_eq_true, decide_eq_true_eq] at h
  omega

theorem countsFit_asgn {lhs : Expr} (rhs : Expr) (h : lhs.isScatter = false) :
    (Expr.asgn lhs rhs).countsFit = (lhs.countsFit && rhs.countsFit) := by
  cases lhs <;> first | rfl | cases h

/-! Expressions. -/

mutual
theorem exprCode_kept : ∀ (e : Expr) {dollars : Bool} (c : Ctx), e.admitted dollars →
    (CountsKept (exprCode e c) ↔ e.countsFit)
  | .var _, _, _, _ | .id _, _, _, _ | .length, _, _, _ => by simp [exprCode, Expr.countsFit]
  | .logic _ lhs rhs, _, c, h | .binary _ lhs rhs, _, c, h | .prop lhs rhs, _, c, h => by
      simp only [Expr.admitted, Bool.and_eq_true] at h
      simp [exprCode, Expr.countsFit, exprCode_kept lhs _ h.1, exprCode_kept rhs _ h.2]
  | .unary _ expr, _, c, h => by
      simp only [Expr.admitted, Bool.and_eq_true] at h
      simp [exprCode, Expr.countsFit, exprCode_kept expr _ h.2]
  | .index lhs rhs, _, c, h => by
      simp only [Expr.admitted, Bool.and_eq_true] at h
      simp [exprCode, Expr.countsFit, exprCode_kept lhs _ h.1, exprCode_kept rhs _ h.2]
  | .range base lower upper, _, c, h => by
      simp only [Expr.admitted, Bool.and_eq_true] at h
      simp [exprCode, Expr.countsFit, exprCode_kept base _ h.1.1, exprCode_kept lower _ h.1.2,
        exprCode_kept upper _ h.2, and_assoc]
  | .list args, _, c, h => by
      simp only [Expr.admitted] at h
      simp [exprCode, Expr.countsFit, argListCode_kept args _ h]
  | .call func args, _, c, h => by
      simp only [Expr.admitted, Bool.and_eq_true, decide_eq_true_eq] at h
      simp [exprCode, Expr.countsFit, argListCode_kept args _ h.2, h.1]
  | .verb obj verb args, _, c, h => by
      simp only [Expr.admitted, Bool.and_eq_true] at h
      simp [exprCode, Expr.countsFit, exprCode_kept obj _ h.1.1, exprCode_kept verb _ h.1.2,
        argListCode_kept args _ h.2, and_assoc]
  | .cond condition consequent alternate, _, c, h => by
      simp only [Expr.admitted, Bool.and_eq_true] at h
      simp [exprCode, Expr.countsFit, exprCode_kept condition _ h.1.1, exprCode_kept consequent _ h.1.2,
        exprCode_kept alternate _ h.2, and_assoc]
  | .catch_ body codes except, _, c, h => by
      simp only [Expr.admitted, Bool.and_eq_true] at h
      have hcodes : ∀ c, CountsKept (if codes.isNil then [c.op (optimNumToOpcode 0)] else argListCode codes c) ↔
          codes.countsFit := by
        intro c
        cases codes with
        | nil => simp [ArgList.isNil, ArgList.countsFit]
        | cons kind expr next => exact argListCode_kept _ _ h.1.2
      simp only [exprCode, Expr.countsFit, countsKept_append, hcodes, exprCode_kept body _ h.1.1,
        exceptCode_kept except _ _ h.2]
      simp [and_comm, and_left_comm]
  | .asgn lhs rhs, _, c, h => by
      cases hs : lhs.isScatter with
      | false =>
          rw [admitted_asgn hs, Bool.and_eq_true, Bool.and_eq_true] at h
          have hl := fun c => lvalueCode_kept lhs false c h.1.1 h.1.2
          have hr := fun c => exprCode_kept rhs c h.2
          rw [exprCode_asgn rhs c hs, countsFit_asgn rhs hs]
          dsimp only
          split <;> simp [hl, hr, storeCode_kept]
      | true =>
          obtain ⟨targets, rfl⟩ : ∃ targets, lhs = .scatter targets := by
            cases lhs <;> first | exact ⟨_, rfl⟩ | cases hs
          simp only [Expr.admitted, Bool.and_eq_true] at h
          obtain ⟨⟨⟨_, hvet⟩, htargets⟩, hrhs⟩ := h
          have hcount := count_lt hvet .required
          simp [exprCode, Expr.countsFit, hcount, rest_lt_iff hvet, scatterCode_kept,
            exprCode_kept rhs _ hrhs, defaultsCode_kept targets _ htargets, and_comm]
  | .scatter _, _, _, h => by simp [Expr.admitted] at h
theorem exceptCode_kept : ∀ (e : Default) {dollars : Bool} (c : Ctx) (shape : Shape),
    e.admitted dollars → (CountsKept (exceptCode e c shape) ↔ e.countsFit)
  | .some expr, _, c, _, h => by
      simp only [Default.admitted] at h
      simp [exceptCode, Default.countsFit, exprCode_kept expr _ h]
  | .none, _, _, _, _ => by simp [exceptCode, Default.countsFit]
theorem defaultsCode_kept : ∀ (targets : Scatter) {dollars : Bool} (c : Ctx),
    targets.admitted dollars → (CountsKept (defaultsCode targets c) ↔ targets.countsFit)
  | .nil, _, _, _ => by simp [defaultsCode, Scatter.countsFit]
  | .cons .optional id (.some expr) next, _, c, h => by
      simp only [Scatter.admitted, Default.admitted, Bool.and_eq_true] at h
      simp [defaultsCode, Scatter.countsFit, Default.countsFit, exprCode_kept expr _ h.1.2,
        defaultsCode_kept next _ h.2]
  | .cons .optional _ .none next, _, c, h | .cons .required _ .none next, _, c, h
  | .cons .rest _ .none next, _, c, h => by
      simp only [Scatter.admitted, Bool.and_eq_true] at h
      simp [defaultsCode, Scatter.countsFit, Default.countsFit, defaultsCode_kept next _ h.2]
  | .cons .required _ (.some _) _, _, _, h | .cons .rest _ (.some _) _, _, _, h => by
      simp [Scatter.admitted, Default.isNone] at h
theorem argListCode_kept : ∀ (args : ArgList) {dollars : Bool} (c : Ctx),
    args.admitted dollars → (CountsKept (argListCode args c) ↔ args.countsFit)
  | .nil, _, _, _ => by simp [argListCode, ArgList.countsFit]
  | .cons _ expr next, _, c, h => by
      simp only [ArgList.admitted, Bool.and_eq_true] at h
      simp [argListCode, ArgList.countsFit, exprCode_kept expr _ h.1, argsCode_kept next _ h.2]
theorem argsCode_kept : ∀ (args : ArgList) {dollars : Bool} (c : Ctx),
    args.admitted dollars → (CountsKept (argsCode args c) ↔ args.countsFit)
  | .nil, _, _, _ => by simp [argsCode, ArgList.countsFit]
  | .cons _ expr next, _, c, h => by
      simp only [ArgList.admitted, Bool.and_eq_true] at h
      simp [argsCode, ArgList.countsFit, exprCode_kept expr _ h.1, argsCode_kept next _ h.2]
theorem lvalueCode_kept : ∀ (lhs : Expr) {dollars : Bool} (above : Bool) (c : Ctx), lhs.isLvalue →
    lhs.admitted dollars → (CountsKept (lvalueCode lhs above c) ↔ lhs.countsFit)
  | .range base lower upper, _, _, c, hl, h => by
      simp only [Expr.admitted, Bool.and_eq_true] at h
      have hbase := isLvalue_of_isIndexable hl
      simp [lvalueCode, Expr.countsFit, lvalueCode_kept base true _ hbase h.1.1,
        exprCode_kept lower _ h.1.2, exprCode_kept upper _ h.2, and_assoc]
  | .index lhs rhs, _, above, c, hl, h => by
      simp only [Expr.admitted, Bool.and_eq_true] at h
      have hlhs : lhs.isLvalue := isLvalue_of_isIndexable (show lhs.isIndexable from hl)
      cases above <;> simp [lvalueCode, Expr.countsFit, lvalueCode_kept lhs true _ hlhs h.1,
        exprCode_kept rhs _ h.2]
  | .id _, _, above, _, _, _ => by cases above <;> simp [lvalueCode, Expr.countsFit]
  | .prop lhs rhs, _, above, c, _, h => by
      simp only [Expr.admitted, Bool.and_eq_true] at h
      cases above <;> simp [lvalueCode, Expr.countsFit, exprCode_kept lhs _ h.1, exprCode_kept rhs _ h.2]
  | .var _, _, _, _, hl, _ | .logic _ _ _, _, _, _, hl, _ | .unary _ _, _, _, _, hl, _
  | .binary _ _ _, _, _, _, hl, _ | .length, _, _, _, hl, _ | .list _, _, _, _, hl, _
  | .call _ _, _, _, _, hl, _ | .verb _ _ _, _, _, _, hl, _ | .cond _ _ _, _, _, _, hl, _
  | .asgn _ _, _, _, _, hl, _ | .catch_ _ _ _, _, _, _, hl, _ | .scatter _, _, _, _, hl, _ =>
      absurd hl Bool.false_ne_true
end

/-! Statements, with the vectors of the fork statements in them. -/

def BodiesKept (bodies : List ForkBody) : Prop :=
  ∀ f ∈ bodies, CountsKept (vectorCode f.body f.forks)

@[simp] theorem bodiesKept_nil : BodiesKept [] := nofun

@[simp] theorem bodiesKept_append {bodies bodies' : List ForkBody} :
    BodiesKept (bodies ++ bodies') ↔ BodiesKept bodies ∧ BodiesKept bodies' :=
  List.forall_mem_append

@[simp] theorem bodiesKept_singleton {f : ForkBody} :
    BodiesKept [f] ↔ CountsKept (stmtsCode f.body { forks := f.forks }) := by
  simp [BodiesKept, vectorCode]

theorem codesCode_kept {codes : ArgList} {dollars : Bool} (c : Ctx) (h : codes.admitted dollars) :
    CountsKept (codesCode codes c) ↔ codes.countsFit := by
  cases codes with
  | nil => simp [codesCode, ArgList.isNil, ArgList.countsFit]
  | cons kind expr next => exact argListCode_kept _ c h

mutual
theorem stmtCode_kept : ∀ (s : Stmt) {loops : List (Option Nat)} (c : StmtCtx) (forks refs : Nat),
    s.admitted loops →
    (CountsKept (stmtCode s c) ∧ BodiesKept (stmtBodies s forks refs) ↔ s.countsFit)
  | .expr expr, _, c, _, _, h => by
      simp only [Stmt.admitted] at h
      simp [stmtCode, stmtBodies, Stmt.countsFit, exprCode_kept expr _ h]
  | .return_ (.some expr), _, c, _, _, h => by
      simp only [Stmt.admitted, Default.admitted] at h
      simp [stmtCode, stmtBodies, Stmt.countsFit, Default.countsFit, exprCode_kept expr _ h]
  | .return_ .none, _, _, _, _, _ => by
      simp [stmtCode, stmtBodies, Stmt.countsFit, Default.countsFit]
  | .break_ exit, _, c, _, _, _ | .continue_ exit, _, c, _, _, _ => by
      simp only [stmtCode, stmtBodies, Stmt.countsFit]
      split <;> simp
  | .list id expr body, _, c, forks, refs, h => by
      simp only [Stmt.admitted, Bool.and_eq_true] at h
      simp [stmtCode, stmtBodies, Stmt.countsFit]
      exact and_assoc.trans (and_congr (exprCode_kept expr _ h.1) (stmtsCode_kept body _ _ _ h.2))
  | .range id lower upper body, _, c, forks, refs, h => by
      simp only [Stmt.admitted, Bool.and_eq_true] at h
      simp [stmtCode, stmtBodies, Stmt.countsFit]
      exact (and_congr_left' and_assoc.symm).trans <| and_assoc.trans <| and_congr
        (and_congr (exprCode_kept lower _ h.1.1) (exprCode_kept upper _ h.1.2))
        (stmtsCode_kept body _ _ _ h.2)
  | .while_ id condition body, _, c, forks, refs, h => by
      simp only [Stmt.admitted, Bool.and_eq_true] at h
      simp [stmtCode, stmtBodies, Stmt.countsFit]
      exact and_assoc.trans (and_congr (exprCode_kept condition _ h.1) (stmtsCode_kept body _ _ _ h.2))
  | .fork id time body, _, c, forks, refs, h => by
      simp only [Stmt.admitted, Bool.and_eq_true] at h
      have hid : ∀ c : Ctx, CountsKept (id.toList.map fun id => c.item (.varRef id)) := by
        cases id <;> simp
      simp [stmtCode, stmtBodies, Stmt.countsFit, hid]
      exact and_congr (exprCode_kept time _ h.1) (and_comm.trans (stmtsCode_kept body _ _ _ h.2))
  | .cond arms otherwise, _, c, forks, refs, h => by
      simp only [Stmt.admitted, Bool.and_eq_true] at h
      simp [stmtCode, stmtBodies, Stmt.countsFit]
      exact and_and_and_comm.trans
        (and_congr (armsCode_kept arms _ _ _ _ _ h.1.2) (stmtsCode_kept otherwise _ _ _ h.2))
  | .tryFinally body handler, _, c, forks, refs, h => by
      simp only [Stmt.admitted, Bool.and_eq_true] at h
      simp [stmtCode, stmtBodies, Stmt.countsFit]
      exact and_and_and_comm.trans
        (and_congr (stmtsCode_kept body _ _ _ h.1) (stmtsCode_kept handler _ _ _ h.2))
  | .tryExcept body excepts, loops, c, forks, refs, h => by
      simp only [Stmt.admitted, Bool.and_eq_true] at h
      obtain ⟨⟨⟨hbody, _⟩, hvet⟩, hexcepts⟩ := h
      have hcount : excepts.count < 256 ↔ excepts.count ≠ 256 := by
        have := ExceptArm.count_le_of_vet hvet (by decide)
        omega
      simp [stmtCode, stmtBodies, Stmt.countsFit, hcount]
      have hregroup : ∀ {a n b e b' e' : Prop},
          (a ∧ n ∧ b ∧ e) ∧ b' ∧ e' ↔ (n ∧ b ∧ b') ∧ a ∧ e ∧ e' := by
        intros
        tauto
      exact hregroup.trans <| and_congr (and_congr_right' (stmtsCode_kept body _ _ _ hbody))
        (exceptsCode_kept excepts _ _ _ _ _ _ hexcepts)
theorem stmtsCode_kept : ∀ (s : Stmts) {loops : List (Option Nat)} (c : StmtCtx) (forks refs : Nat),
    s.admitted loops →
    (CountsKept (stmtsCode s c) ∧ BodiesKept (stmtsBodies s forks refs) ↔ s.countsFit)
  | .nil, _, _, _, _, _ => by simp [stmtsCode, stmtsBodies, Stmts.countsFit]
  | .cons stmt next, _, c, forks, refs, h => by
      simp only [Stmts.admitted, Bool.and_eq_true] at h
      simp [stmtsCode, stmtsBodies, Stmts.countsFit]
      exact and_and_and_comm.trans
        (and_congr (stmtCode_kept stmt _ _ _ h.1) (stmtsCode_kept next _ _ _ h.2))
theorem armsCode_kept : ∀ (arms : CondArm) {loops : List (Option Nat)} (ifOp : Opcode) (stop : Nat)
    (c : StmtCtx) (forks refs : Nat), arms.admitted loops →
    (CountsKept (armsCode arms ifOp stop c) ∧ BodiesKept (armsBodies arms forks refs) ↔ arms.countsFit)
  | .nil, _, _, _, _, _, _, _ => by simp [armsCode, armsBodies, CondArm.countsFit]
  | .cons condition stmt next, _, ifOp, stop, c, forks, refs, h => by
      simp only [CondArm.admitted, Bool.and_eq_true] at h
      simp [armsCode, armsBodies, CondArm.countsFit]
      exact (and_congr_left' and_assoc.symm).trans <| and_and_and_comm.trans <| and_congr
        (and_assoc.trans (and_congr (exprCode_kept condition _ h.1.1) (stmtsCode_kept stmt _ _ _ h.1.2)))
        (armsCode_kept next _ _ _ _ _ h.2)
theorem exceptsCode_kept : ∀ (excepts : ExceptArm) {loops : List (Option Nat)} (start stop : Nat) (d : Ctx)
    (c : StmtCtx) (forks refs : Nat), excepts.admitted loops →
    (CountsKept (handlersCode excepts start d) ∧ CountsKept (exceptsCode excepts stop c) ∧
      BodiesKept (exceptsBodies excepts forks refs) ↔ excepts.countsFit)
  | .nil, _, _, _, _, _, _, _, _ => by
      simp [handlersCode, exceptsCode, exceptsBodies, ExceptArm.countsFit]
  | .cons id codes stmt next, _, start, stop, d, c, forks, refs, h => by
      simp only [ExceptArm.admitted, Bool.and_eq_true] at h
      have hcode : CountsKept (exceptsCode (.cons id codes stmt next) stop c) ↔
          CountsKept (stmtsCode stmt (c.go (bindSize id) c.shape)) ∧
            CountsKept (exceptsCode next stop
              { (c.go (bindSize id) c.shape).go (stmtsSize stmt) c.shape |>.go 2 c.shape with
                forks := c.forks + stmtsForks stmt }) := by
        cases next <;> simp [exceptsCode]
      rw [hcode]
      simp [handlersCode, exceptsBodies, ExceptArm.countsFit]
      exact (and_congr_right' and_and_and_comm).trans <| and_and_and_comm.trans <| and_congr
        (and_congr (codesCode_kept _ h.1.1) (stmtsCode_kept stmt _ _ _ h.1.2))
        (exceptsCode_kept next _ _ _ _ _ _ h.2)
end

/-- The bytes of a vector are those of a listing, whose literals are the first ones of a program. -/
def Encodes (literals : List Var) (bc : Bytecodes) (cells : List Cell) : Prop :=
  ∃ known, known <+: literals ∧ bc.vector = encodeCells bc.numbytes known cells

theorem Rep.encodes {st : State} {cells : List Cell} {c : Ctx} {literals : List Var}
    (h : Rep ∅ st cells c) (hl : st.gstate.literals <+: literals) : Encodes literals (layout st) cells :=
  ⟨_, hl, h.vector_eq⟩

/-- `generate_code` compiles every tree the parser builds, and each count in the vectors is what its
byte says exactly when the counts of the tree fit. -/
theorem generateCode_countsKept_iff {body : Stmts} (h : body.admitted []) (version : Nat)
    (varNames : List Str) :
    ∃ program, generateCode body version varNames = some program ∧
      Encodes program.literals program.mainVector (vectorCode body 0) ∧
      List.Forall₂ (fun bc f => Encodes program.literals bc (vectorCode f.body f.forks))
        program.forkVectors (stmtsBodies body 0 0) ∧
      (CountsKept (vectorCode body 0) ∧ BodiesKept (stmtsBodies body 0 0) ↔ body.countsFit) := by
  obtain ⟨st, _, hcode, hrep, _, _, _, new, hnew, hforks⟩ := stmtToCode_gen h {}
  refine ⟨_, by rw [generateCode, hcode]; rfl, hrep.encodes (List.prefix_refl _), ?_, ?_⟩
  · rw [hnew]
    refine hforks.imp fun bc f hf => ?_
    obtain ⟨_, _, hf, rfl, _, hl, _⟩ := hf
    exact hf.encodes hl
  · rw [← stmtsCode_kept body { forks := 0 } 0 0 h]
    simp [vectorCode]

def handlers : Nat → ExceptArm
  | 0 => .nil
  | n + 1 => .cons none (.cons .normal (.var (.int 0)) .nil) .nil (handlers n)

def trying (n : Nat) : Stmts :=
  .cons (.tryExcept .nil (handlers n)) .nil

theorem generateCode_countsKept_iff_trying :
    ∃ program, generateCode (trying 2) 0 [] = some program ∧
      Encodes program.literals program.mainVector (vectorCode (trying 2) 0) ∧
      List.Forall₂ (fun bc f => Encodes program.literals bc (vectorCode f.body f.forks))
        program.forkVectors (stmtsBodies (trying 2) 0 0) ∧
      (CountsKept (vectorCode (trying 2) 0) ∧ BodiesKept (stmtsBodies (trying 2) 0 0) ↔
        (trying 2).countsFit) :=
  generateCode_countsKept_iff (by decide) 0 []

theorem handlers_count : ∀ n, (handlers n).count = n
  | 0 => rfl
  | n + 1 => congrArg (· + 1) (handlers_count n)

/-- The count of 256 arms is written as the byte 0. -/
theorem trying_not_countsKept :
    (trying 256).admitted [] ∧ ∃ program, generateCode (trying 256) 0 [] = some program ∧
      Encodes program.literals program.mainVector (vectorCode (trying 256) 0) ∧
      ¬ CountsKept (vectorCode (trying 256) 0) := by
  have hadmitted : (trying 256).admitted [] := by decide +kernel
  obtain ⟨st, _, hcode, hrep, _⟩ := stmtToCode_gen hadmitted {}
  refine ⟨hadmitted, _, by rw [generateCode, hcode]; rfl, hrep.encodes (List.prefix_refl _), ?_⟩
  simp [vectorCode, trying, stmtsCode, stmtCode, handlers_count]

end Listing
end LambdaMoo
