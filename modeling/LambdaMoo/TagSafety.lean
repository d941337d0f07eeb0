import LambdaMoo.Arithmetic
import LambdaMoo.TagReads

/-! Which opcodes look at the tags of their operands in time: all but one. -/
namespace LambdaMoo

section

variable {v : Var}

/-! A value with a tag has the member that the tag says. -/

theorem exists_int (h : v.type = .int) : ∃ n, v = .int n := by
  cases v with
  | int n => exact ⟨n, rfl⟩
  | _ => cases h

theorem exists_obj (h : v.type = .obj) : ∃ o, v = .obj o := by
  cases v with
  | obj o => exact ⟨o, rfl⟩
  | _ => cases h

theorem exists_str (h : v.type = .str) : ∃ s, v = .str s := by
  cases v with
  | str s => exact ⟨s, rfl⟩
  | _ => cases h

theorem exists_err (h : v.type = .err) : ∃ e, v = .err e := by
  cases v with
  | err e => exact ⟨e, rfl⟩
  | _ => cases h

theorem exists_listVar (h : v.type = .list) : ∃ l, v = .list l := by
  cases v with
  | list l => exact ⟨l, rfl⟩
  | _ => cases h

theorem exists_float (h : v.type = .float) : ∃ d, v = .float d := by
  cases v with
  | float d => exact ⟨d, rfl⟩
  | _ => cases h

end

def Reads.Fine {α : Type} (x : Reads α) : Prop := ∃ a, x = .ok a

namespace Reads

variable {α β : Type}

@[simp] theorem ok_bind (a : α) (k : α → Reads β) : ((Except.ok a : Reads α) >>= k) = k a := rfl

@[simp] theorem fine_ok (a : α) : Fine (.ok a) := ⟨a, rfl⟩

@[simp] theorem fine_pure (a : α) : Fine (pure a) := ⟨a, rfl⟩

@[simp] theorem fine_ite {c : Prop} [Decidable c] {x y : Reads α} :
    Fine (if c then x else y) ↔ (c → Fine x) ∧ (¬ c → Fine y) := by
  split
  · next h => simp [h]
  · next h => simp [h]

@[simp] theorem ite_bind {c : Prop} [Decidable c] {x y : Reads α} (k : α → Reads β) :
    ((if c then x else y) >>= k) = if c then x >>= k else y >>= k := by
  split <;> rfl

theorem Fine.bind {x : Reads α} {k : α → Reads β} (hx : Fine x) (hk : ∀ a, Fine (k a)) : Fine (x >>= k) := by
  obtain ⟨a, rfl⟩ := hx
  exact hk a

end Reads

open Reads

attribute [local simp] andAlso anyReads

theorem isTrueReads_fine (v : Var) : Fine v.isTrueReads := by
  cases v <;> exact ⟨_, rfl⟩

theorem doEqualsReads_fine {lhs rhs : Var} (h : lhs.type = .float ∨ rhs.type = .float) : Fine (doEqualsReads lhs rhs) := by
  unfold doEqualsReads
  split
  · exact fine_pure _
  · next hsame =>
      rw [not_not] at hsame
      obtain ⟨a, rfl⟩ := exists_float (show lhs.type = .float by grind)
      obtain ⟨b, rfl⟩ := exists_float (show rhs.type = .float by grind)
      simp

theorem equalityScalars_fine (caseMatters : Bool) (lhs rhs : Var) : Fine (equalityScalars caseMatters lhs rhs) := by
  unfold equalityScalars
  split
  · next h => exact (doEqualsReads_fine h).bind fun _ => fine_pure _
  split
  · exact fine_pure _
  next hsame =>
  rw [not_not] at hsame
  split
  · next h =>
      obtain ⟨a, rfl⟩ := exists_int h
      obtain ⟨b, rfl⟩ := exists_int (hsame.symm.trans h)
      simp
  · next h =>
      obtain ⟨a, rfl⟩ := exists_obj h
      obtain ⟨b, rfl⟩ := exists_obj (hsame.symm.trans h)
      simp
  · next h =>
      obtain ⟨a, rfl⟩ := exists_err h
      obtain ⟨b, rfl⟩ := exists_err (hsame.symm.trans h)
      simp
  · next h =>
      obtain ⟨a, rfl⟩ := exists_str h
      obtain ⟨b, rfl⟩ := exists_str (hsame.symm.trans h)
      simp
  · exact fine_pure _

mutual
theorem equalityReads_fine (caseMatters : Bool) : ∀ lhs rhs : Var, Fine (equalityReads caseMatters lhs rhs)
  | .list l, rhs => by
      rw [equalityReads]
      split
      · next h => exact (doEqualsReads_fine (.inr h)).bind fun _ => fine_pure _
      split
      · exact fine_pure _
      next hsame =>
      rw [not_not] at hsame
      obtain ⟨r, rfl⟩ := exists_listVar hsame.symm
      simp only [readList_list, ok_bind, fine_ite]
      exact ⟨fun _ => fine_pure _, fun _ => equalityListReads_fine caseMatters l r⟩
  | .int _, _ | .obj _, _ | .str _, _ | .err _, _ | .clear, _ | .none, _ | .catchMarker _, _ | .finallyMarker _, _
  | .float _, _ => by
      rw [equalityReads.eq_def]
      exact equalityScalars_fine caseMatters _ _
theorem equalityListReads_fine (caseMatters : Bool) : ∀ as bs : List Var, Fine (equalityListReads caseMatters as bs)
  | a :: as, b :: bs => by
      rw [equalityListReads]
      apply (equalityReads_fine caseMatters a b).bind
      rintro (_ | _ | _)
      · exact fine_pure _
      · exact fine_pure _
      · exact equalityListReads_fine caseMatters as bs
  | [], _ => fine_pure _
  | _ :: _, [] => fine_pure _
end

theorem ismemberReads_fine (caseMatters : Bool) (lhs : Var) (l : List Var) (i : Int) :
    Fine (ismemberReads caseMatters lhs l i) := by
  induction l generalizing i with
  | nil => exact fine_pure _
  | cons v l ih =>
      rw [ismemberReads]
      apply (equalityReads_fine caseMatters lhs v).bind
      rintro (_ | _ | _)
      · exact fine_pure _
      · exact ih (i + 1)
      · exact fine_pure _

/-! Arithmetic, on operands that are numbers. -/

def isNumeric (v : Var) : Prop := v.type = .int ∨ v.type = .float

/-- The answer of an arithmetic function has the error `E_TYPE` if the numbers are not of one type. -/
structure Computes (x : Reads (Option Var)) (a b : Var) : Prop where
  fine : Fine x
  eType : a.type ≠ b.type → x = .ok (some (.err .eType))

theorem simpleBinaryReads_computes (iop : Int → Int → Int) (fop : UInt64 → UInt64 → UInt64) {a b : Var}
    (ha : isNumeric a) : Computes (simpleBinaryReads iop fop a b) a b := by
  unfold simpleBinaryReads
  constructor
  · split
    · exact fine_pure _
    · next hsame =>
        rw [not_not] at hsame
        obtain ha | ha := ha
        · obtain ⟨m, rfl⟩ := exists_int ha
          obtain ⟨n, rfl⟩ := exists_int (hsame.symm.trans ha)
          simp
        · obtain ⟨d, rfl⟩ := exists_float ha
          obtain ⟨e, rfl⟩ := exists_float (hsame.symm.trans ha)
          simp
  · intro hne
    rw [if_pos hne]
    rfl

theorem divisionOpReads_computes (iop : Int → Int → Option Int) (fexpr : UInt64 → UInt64 → UInt64) {a b : Var}
    (ha : isNumeric a) : Computes (divisionOpReads iop fexpr a b) a b := by
  unfold divisionOpReads
  constructor
  · split
    · exact fine_pure _
    · next hsame =>
        rw [not_not] at hsame
        obtain ha | ha := ha
        · obtain ⟨m, rfl⟩ := exists_int ha
          obtain ⟨n, rfl⟩ := exists_int (hsame.symm.trans ha)
          simp
        · obtain ⟨d, rfl⟩ := exists_float ha
          obtain ⟨e, rfl⟩ := exists_float (hsame.symm.trans ha)
          simp
  · intro hne
    rw [if_pos hne]
    rfl

theorem pushAnswer_fine (ans : Option Var) : Fine (pushAnswer ans) := by
  cases ans with
  | none => exact fine_pure _
  | some ans =>
      rw [pushAnswer]
      split
      · next h =>
          obtain ⟨e, rfl⟩ := exists_err h
          simp
      · exact fine_pure _

/-! The opcodes. -/

/-- An opcode reads the members of its operands in time, and those that it is not for are `E_TYPE`. -/
structure Handles (x : Reads Answer) (typed : Prop) : Prop where
  fine : Fine x
  eType : ¬ typed → x = .ok (.raise .eType)

theorem Handles.of_test {c typed : Prop} [Decidable c] {x : Reads Answer} (hc : c ↔ ¬ typed) (hx : typed → Fine x) :
    Handles (if c then pure (.raise .eType) else x) typed := by
  constructor
  · split
    · exact fine_pure _
    · next h => exact hx (not_not.mp (mt hc.mpr h))
  · intro h
    rw [if_pos (hc.mpr h)]
    rfl

theorem Handles.of_fine {x : Reads Answer} (h : Fine x) : Handles x True := ⟨h, fun hno => absurd trivial hno⟩

theorem opForRange_handles (from' to' : Var) :
    Handles (opForRangeReads from' to') (from'.type = to'.type ∧ (to'.type = .int ∨ to'.type = .obj)) := by
  apply Handles.of_test
  · tauto
  · rintro ⟨hsame, hto | hto⟩
    · obtain ⟨n, rfl⟩ := exists_int hto
      obtain ⟨m, rfl⟩ := exists_int hsame
      simp [isPast]
    · obtain ⟨o, rfl⟩ := exists_obj hto
      obtain ⟨p, rfl⟩ := exists_obj hsame
      simp [isPast]

theorem opListAddTail_handles (list tail : Var) : Handles (opListAddTail list tail) (list.type = .list) := by
  apply Handles.of_test Iff.rfl
  intro hlist
  obtain ⟨l, rfl⟩ := exists_listVar hlist
  simp

theorem opListAppend_handles (list tail : Var) :
    Handles (opListAppend list tail) (list.type = .list ∧ tail.type = .list) := by
  apply Handles.of_test
  · tauto
  · rintro ⟨hlist, htail⟩
    obtain ⟨l, rfl⟩ := exists_listVar hlist
    obtain ⟨m, rfl⟩ := exists_listVar htail
    simp

theorem opIndexset_handles (list index value : Var) :
    Handles (opIndexset list index value)
      (index.type = .int ∧ (list.type = .list ∨ list.type = .str ∧ value.type = .str)) := by
  apply Handles.of_test
  · grind
  · rintro ⟨hindex, hlist | ⟨hlist, hvalue⟩⟩
    · obtain ⟨i, rfl⟩ := exists_int hindex
      obtain ⟨l, rfl⟩ := exists_listVar hlist
      simp
    · obtain ⟨i, rfl⟩ := exists_int hindex
      obtain ⟨s, rfl⟩ := exists_str hlist
      obtain ⟨t, rfl⟩ := exists_str hvalue
      simp

theorem opCheckListForSplice_handles (list : Var) : Handles (opCheckListForSplice list) (list.type = .list) :=
  .of_test Iff.rfl fun _ => fine_pure _

theorem opEq_fine (negated : Bool) (lhs rhs : Var) : Fine (opEq negated lhs rhs) := by
  unfold opEq
  apply (equalityReads_fine false rhs lhs).bind
  rintro (_ | b)
  · exact fine_pure _
  · exact fine_pure _

theorem opCompare_handles (fl : Doubles) (holds : Int → Bool) (lhs rhs : Var) :
    Handles (opCompare fl holds lhs rhs) (lhs.type = rhs.type ∧ lhs.type ≠ .list) := by
  unfold opCompare
  split
  · next hnumbers =>
      obtain ⟨hl | hl, hr | hr⟩ := hnumbers
      · obtain ⟨m, rfl⟩ := exists_int hl
        obtain ⟨n, rfl⟩ := exists_int hr
        constructor <;> simp [compareNumbersReads]
      · obtain ⟨m, rfl⟩ := exists_int hl
        obtain ⟨d, rfl⟩ := exists_float hr
        constructor <;> simp [compareNumbersReads]
      · obtain ⟨d, rfl⟩ := exists_float hl
        obtain ⟨n, rfl⟩ := exists_int hr
        constructor <;> simp [compareNumbersReads]
      · obtain ⟨d, rfl⟩ := exists_float hl
        obtain ⟨e, rfl⟩ := exists_float hr
        constructor <;> simp [compareNumbersReads]
  · apply Handles.of_test
    · grind
    · rintro ⟨hsame, -⟩
      split
      · next h =>
          obtain ⟨n, rfl⟩ := exists_int h
          obtain ⟨m, rfl⟩ := exists_int hsame
          simp
      · next h =>
          obtain ⟨n, rfl⟩ := exists_obj h
          obtain ⟨m, rfl⟩ := exists_obj hsame
          simp
      · next h =>
          obtain ⟨n, rfl⟩ := exists_err h
          obtain ⟨m, rfl⟩ := exists_err hsame
          simp
      · next h =>
          obtain ⟨n, rfl⟩ := exists_str h
          obtain ⟨m, rfl⟩ := exists_str hsame
          simp
      · exact fine_pure _

theorem opIn_handles (lhs rhs : Var) : Handles (opIn lhs rhs) (rhs.type = .list) := by
  apply Handles.of_test Iff.rfl
  intro hrhs
  obtain ⟨l, rfl⟩ := exists_listVar hrhs
  rw [readList_list, ok_bind]
  apply (ismemberReads_fine false lhs l 1).bind
  rintro (_ | i)
  · exact fine_pure _
  · exact fine_pure _

theorem Computes.handles {x : Reads (Option Var)} {a b : Var} (h : Computes x a b) (ha : isNumeric a) :
    Handles (x >>= pushAnswer) (sameNumbers a b) := by
  constructor
  · exact h.fine.bind pushAnswer_fine
  · intro hno
    rw [h.eType fun hsame => hno ⟨hsame, ha⟩]
    rfl

theorem opArithmetic_handles {operator : Var → Var → Reads (Option Var)}
    (h : ∀ a b, isNumeric a → Computes (operator a b) a b) (lhs rhs : Var) :
    Handles (opArithmetic operator lhs rhs) (sameNumbers lhs rhs) := by
  unfold opArithmetic
  split
  · next hnumbers => exact (h lhs rhs hnumbers.1).handles hnumbers.1
  · next hno =>
      refine ⟨fine_ok _, fun _ => rfl⟩

theorem opAdd_handles (fl : Doubles) (lhs rhs : Var) :
    Handles (opAddReads fl lhs rhs) (sameNumbers lhs rhs ∨ lhs.type = .str ∧ rhs.type = .str) := by
  unfold opAddReads
  split
  · next hnumbers =>
      have h := (simpleBinaryReads_computes (· + ·) fl.add hnumbers.1).handles (b := rhs) hnumbers.1
      exact ⟨h.fine, fun hno => h.eType fun hsame => hno (.inl hsame)⟩
  · split
    · next hstrings =>
        obtain ⟨s, rfl⟩ := exists_str hstrings.1
        obtain ⟨t, rfl⟩ := exists_str hstrings.2
        exact ⟨fine_ok _, fun hno => absurd (.inr hstrings) hno⟩
    · exact ⟨fine_ok _, fun _ => rfl⟩

theorem opUnaryMinus_handles (fl : Doubles) (arg : Var) :
    Handles (opUnaryMinusReads fl arg) (arg.type = .int ∨ arg.type = .float) := by
  unfold opUnaryMinusReads
  split
  · next h =>
      obtain ⟨n, rfl⟩ := exists_int h
      exact ⟨fine_ok _, fun hno => absurd (.inl h) hno⟩
  · split
    · next h =>
        obtain ⟨d, rfl⟩ := exists_float h
        exact ⟨fine_ok _, fun hno => absurd (.inr h) hno⟩
    · exact ⟨fine_ok _, fun _ => rfl⟩

theorem opRef_handles (list index : Var) :
    Handles (opRefReads list index) (index.type = .int ∧ (list.type = .list ∨ list.type = .str)) := by
  apply Handles.of_test
  · tauto
  · rintro ⟨hindex, hlist | hlist⟩
    · obtain ⟨i, rfl⟩ := exists_int hindex
      obtain ⟨l, rfl⟩ := exists_listVar hlist
      simp
    · obtain ⟨i, rfl⟩ := exists_int hindex
      obtain ⟨s, rfl⟩ := exists_str hlist
      simp

theorem opPushRef_handles (list index : Var) :
    Handles (opPushRefReads list index) (index.type = .int ∧ list.type = .list) := by
  apply Handles.of_test
  · tauto
  · rintro ⟨hindex, hlist⟩
    obtain ⟨i, rfl⟩ := exists_int hindex
    obtain ⟨l, rfl⟩ := exists_listVar hlist
    simp

theorem opRangeRef_handles (base from' to' : Var) :
    Handles (opRangeRefReads base from' to')
      (from'.type = .int ∧ to'.type = .int ∧ (base.type = .list ∨ base.type = .str)) := by
  apply Handles.of_test
  · tauto
  · rintro ⟨hfrom, hto, hbase | hbase⟩
    · obtain ⟨m, rfl⟩ := exists_int hfrom
      obtain ⟨n, rfl⟩ := exists_int hto
      obtain ⟨l, rfl⟩ := exists_listVar hbase
      simp [baseLength]
    · obtain ⟨m, rfl⟩ := exists_int hfrom
      obtain ⟨n, rfl⟩ := exists_int hto
      obtain ⟨s, rfl⟩ := exists_str hbase
      simp [baseLength]

theorem opGetProp_handles (around : Surroundings) (obj propname : Var) :
    Handles (opGetProp around obj propname) (obj.type = .obj ∧ propname.type = .str) := by
  apply Handles.of_test
  · tauto
  · rintro ⟨hobj, hname⟩
    obtain ⟨o, rfl⟩ := exists_obj hobj
    obtain ⟨s, rfl⟩ := exists_str hname
    simp only [readObj_obj, readStr_str, ok_bind, fine_ite]
    refine ⟨fun _ => fine_pure _, fun _ => ?_⟩
    split
    · exact fine_pure _
    · exact fine_pure _

theorem opFork_handles (around : Surroundings) (time : Var) : Handles (opFork around time) (time.type = .int) := by
  apply Handles.of_test Iff.rfl
  intro htime
  obtain ⟨n, rfl⟩ := exists_int htime
  simp

theorem opCallVerb_handles (around : Surroundings) (obj verb args : Var) :
    Handles (opCallVerb around obj verb args) (obj.type = .obj ∧ verb.type = .str ∧ args.type = .list) := by
  unfold opCallVerb callVerbErr
  split
  · exact ⟨fine_ok _, fun _ => rfl⟩
  · next h =>
      obtain ⟨o, rfl⟩ := exists_obj (v := obj) (by tauto)
      obtain ⟨s, rfl⟩ := exists_str (v := verb) (by tauto)
      obtain ⟨l, rfl⟩ := exists_listVar (v := args) (by tauto)
      constructor
      · simp
      · intro hno
        exact absurd ⟨rfl, rfl, rfl⟩ hno

theorem opBiFuncCall_handles (args : Var) : Handles (opBiFuncCall args) (args.type = .list) :=
  .of_test Iff.rfl fun _ => fine_pure _

theorem eopLength_handles (item : Var) : Handles (eopLength item) (item.type = .list ∨ item.type = .str) := by
  unfold eopLength
  split
  · next h =>
      obtain ⟨s, rfl⟩ := exists_str h
      exact ⟨fine_ok _, fun hno => absurd (.inr h) hno⟩
  · split
    · next h =>
        obtain ⟨l, rfl⟩ := exists_listVar h
        exact ⟨fine_ok _, fun hno => absurd (.inl h) hno⟩
    · exact ⟨fine_ok _, fun _ => rfl⟩

theorem eopScatter_handles (nargs nreq : Nat) (haveRest : Bool) (list : Var) :
    Handles (eopScatterReads nargs nreq haveRest list) (list.type = .list) := by
  apply Handles.of_test Iff.rfl
  intro hlist
  obtain ⟨l, rfl⟩ := exists_listVar hlist
  simp

theorem eopEndCatch_fine (marker : Var) : Fine (eopEndCatch marker) := by
  cases marker <;> exact ⟨_, rfl⟩

theorem unwindReads_fine_iff {caught : Bool} {v : Var} {reason : Reason} :
    Fine (unwindReads caught v reason) ↔ v.unwindsBy caught reason := by
  constructor
  · rintro ⟨a, ha⟩
    cases reason with
    | raise =>
        by_contra hlist
        cases v with
        | list l => exact hlist rfl
        | _ => cases ha
    | exit =>
        cases v with
        | list l =>
            refine ⟨l, rfl, ?_, ?_⟩
            · rintro goal hgoal
              cases l with
              | nil => cases hgoal
              | cons first rest =>
                  obtain rfl := Option.some.inj hgoal
                  cases first with
                  | int n => rfl
                  | _ => cases ha
            · rintro rfl pc hpc
              match l with
              | [] | [_] => cases hpc
              | goal :: second :: rest =>
                  obtain rfl := Option.some.inj hpc
                  cases goal with
                  | int n =>
                      cases second with
                      | int m => rfl
                      | _ => cases ha
                  | _ => cases ha
        | _ => cases ha
    | _ => exact trivial
  · intro h
    cases reason with
    | raise =>
        obtain ⟨l, rfl⟩ := exists_listVar h
        cases l with
        | nil => exact ⟨_, rfl⟩
        | cons code rest => exact ⟨_, rfl⟩
    | exit =>
        obtain ⟨l, rfl, hgoal, hpc⟩ := h
        cases l with
        | nil => exact ⟨_, rfl⟩
        | cons goal rest =>
            obtain ⟨n, rfl⟩ := exists_int (hgoal goal rfl)
            cases caught with
            | true => exact ⟨_, rfl⟩
            | false =>
                cases rest with
                | nil => exact ⟨_, rfl⟩
                | cons pc rest =>
                    obtain ⟨m, rfl⟩ := exists_int (hpc rfl pc rfl)
                    exact ⟨_, rfl⟩
    | _ => exact ⟨_, rfl⟩

theorem eopContinue_fine_iff (caught : Bool) (v why : Var) :
    Fine (eopContinue caught v why) ↔
      ∀ n reason, why = .int n → reasonOf n = some reason → v.unwindsBy caught reason := by
  cases why with
  | int n =>
      have hint : ¬ (Var.int n).type ≠ .int := not_not_intro rfl
      have hwhy : (Var.int n).readNum = .ok n := rfl
      cases hreason : reasonOf n with
      | none =>
          have hread : eopContinue caught v (.int n) = .ok .breaks := by
            rw [eopContinue, if_neg hint, hwhy, Reads.ok_bind, hreason]
            rfl
          rw [hread]
          refine ⟨fun _ m reason hm hr => ?_, fun _ => ⟨_, rfl⟩⟩
          cases hm
          rw [hreason] at hr
          cases hr
      | some reason =>
          have hread : eopContinue caught v (.int n) = unwindReads caught v reason := by
            rw [eopContinue, if_neg hint, hwhy, Reads.ok_bind, hreason]
          rw [hread, unwindReads_fine_iff]
          refine ⟨fun h m reason' hm hr => ?_, fun h => h n reason rfl hreason⟩
          cases hm
          rwa [← Option.some.inj (hreason.symm.trans hr)]
  | _ => exact ⟨fun _ m _ hm => (by cases hm), fun _ => ⟨_, rfl⟩⟩

theorem eopExp_handles (fl : Doubles) (lhs rhs : Var) :
    Handles (eopExp fl lhs rhs) (sameNumbers lhs rhs ∨ lhs.type = .float ∧ rhs.type = .int) := by
  have hfine : Fine (doPowerReads fl lhs rhs) ∧
      (¬ (sameNumbers lhs rhs ∨ lhs.type = .float ∧ rhs.type = .int) →
        doPowerReads fl lhs rhs = .ok (.err .eType)) := by
    unfold doPowerReads
    split
    · next hl =>
        obtain ⟨m, rfl⟩ := exists_int hl
        by_cases hr : rhs.type = .int
        · obtain ⟨n, rfl⟩ := exists_int hr
          exact ⟨fine_ok _, fun hno => absurd (.inl ⟨rfl, .inl rfl⟩) hno⟩
        · simp only [readNum_int, ok_bind, ne_eq, hr, not_false_eq_true, if_true]
          exact ⟨fine_pure _, fun _ => rfl⟩
    · split
      · next hl =>
          obtain ⟨d, rfl⟩ := exists_float hl
          split
          · next hr =>
              obtain ⟨n, rfl⟩ := exists_int hr
              exact ⟨fine_ok _, fun hno => absurd (.inr ⟨rfl, rfl⟩) hno⟩
          · split
            · next hr =>
                obtain ⟨e, rfl⟩ := exists_float hr
                exact ⟨fine_ok _, fun hno => absurd (.inl ⟨rfl, .inr rfl⟩) hno⟩
            · exact ⟨fine_pure _, fun _ => rfl⟩
      · exact ⟨fine_pure _, fun _ => rfl⟩
  constructor
  · exact hfine.1.bind fun ans => pushAnswer_fine (some ans)
  · intro hno
    rw [eopExp, hfine.2 hno]
    rfl

/-! `OP_PUT_PROP`. -/

theorem putPropErr_fine (around : Surroundings) (oid : Objid) (name : Str) (rhs : Var) (builtIn : Option BiProp) :
    Fine (putPropErr around oid name rhs builtIn) := by
  unfold putPropErr
  split
  · exact fine_pure _
  · simp
  · simp
  · exact fine_pure _
  · simp only [fine_ite]
    exact ⟨fun _ => fine_pure _, fun _ => (isTrueReads_fine rhs).bind fun _ => fine_pure _⟩
  · exact fine_pure _
  · exact fine_pure _
  · exact fine_pure _
  · exact fine_pure _
  · exact fine_pure _

theorem putPropErr_eType (around : Surroundings) (oid : Objid) (name : Str) {rhs : Var} {builtIn : Option BiProp}
    (h : ¬ suits rhs builtIn) : putPropErr around oid name rhs builtIn = .ok .eType := by
  rw [suits.eq_def] at h
  split at h
  · rw [putPropErr, if_pos h]
    rfl
  · rw [putPropErr, if_pos h]
    rfl
  · exact absurd trivial h

theorem setPropertyValueReads_fine (value : Var) (builtIn : Option BiProp) :
    Fine (setPropertyValueReads value builtIn) := by
  unfold setPropertyValueReads
  split
  · exact fine_pure _
  · split
    · exact fine_pure _
    · next h =>
        obtain ⟨s, rfl⟩ := exists_str (not_not.mp h)
        simp
  · split
    · exact fine_pure _
    · next h =>
        obtain ⟨o, rfl⟩ := exists_obj (not_not.mp h)
        simp
  · exact fine_pure _
  · exact fine_pure _
  · exact (isTrueReads_fine value).bind fun _ => fine_pure _
  · exact (isTrueReads_fine value).bind fun _ => fine_pure _
  · exact (isTrueReads_fine value).bind fun _ => fine_pure _
  · exact (isTrueReads_fine value).bind fun _ => fine_pure _
  · exact (isTrueReads_fine value).bind fun _ => fine_pure _

theorem opPutProp_handles (around : Surroundings) (obj propname rhs : Var) :
    Handles (opPutPropReads around obj propname rhs)
      (∃ oid name, obj = .obj oid ∧ propname = .str name ∧
        (around.valid oid = true → ∀ builtIn, around.handle oid name = some builtIn → suits rhs builtIn)) := by
  unfold opPutPropReads
  split
  · exact ⟨fine_ok _, fun _ => rfl⟩
  · next htypes =>
      obtain ⟨oid, rfl⟩ := exists_obj (v := obj) (by tauto)
      obtain ⟨name, rfl⟩ := exists_str (v := propname) (by tauto)
      simp only [readObj_obj, readStr_str, ok_bind]
      constructor
      · simp only [fine_ite]
        refine ⟨fun _ => fine_pure _, fun _ => ?_⟩
        split
        · exact fine_pure _
        · next builtIn _ =>
            apply (putPropErr_fine around oid name rhs builtIn).bind
            intro err
            simp only [fine_ite]
            exact ⟨fun _ => setPropertyValueReads_fine rhs builtIn, fun _ => fine_pure _⟩
      · intro hno
        obtain ⟨hvalid, builtIn, hhandle, hsuits⟩ : around.valid oid = true ∧
            ∃ builtIn, around.handle oid name = some builtIn ∧ ¬ suits rhs builtIn := by
          by_contra hc
          apply hno
          refine ⟨oid, name, rfl, rfl, fun hvalid builtIn hhandle => ?_⟩
          by_contra hsuits
          exact hc ⟨hvalid, builtIn, hhandle, hsuits⟩
        rw [hvalid, hhandle, Bool.not_true, if_neg Bool.false_ne_true]
        dsimp only
        rw [putPropErr_eType around oid name hsuits]
        rfl

/-! The two that do not look in time. -/

theorem eopRangeset_handles {base : Var} (hbase : base.type = .str) (from' to' value : Var) :
    Handles (eopRangesetReads base from' to' value)
      (from'.type = .int ∧ to'.type = .int ∧ base.type = value.type ∧ (base.type = .list ∨ base.type = .str)) := by
  obtain ⟨s, rfl⟩ := exists_str hbase
  apply Handles.of_test
  · grind
  · rintro ⟨hfrom, hto, hvalue, -⟩
    obtain ⟨m, rfl⟩ := exists_int hfrom
    obtain ⟨n, rfl⟩ := exists_int hto
    obtain ⟨t, rfl⟩ := exists_str hvalue.symm
    simp [rangesetLast]

theorem eopRangeset_misreads {base : Var} (hbase : base.type ≠ .str) (from' to' value : Var) :
    eopRangesetReads base from' to' value = .error ⟨base, .str⟩ := by
  cases base with
  | str s => exact absurd rfl hbase
  | _ => rfl

theorem opForList_handles {list count : Var} (hcount : list.type = .list → count.type = .int) :
    Handles (opForList list count) (list.type = .list) := by
  apply Handles.of_test Iff.rfl
  intro hlist
  obtain ⟨n, rfl⟩ := exists_int (hcount hlist)
  obtain ⟨l, rfl⟩ := exists_listVar hlist
  simp only [readList_list, readNum_int, ok_bind, fine_ite]
  refine ⟨fun _ => fine_pure _, fun _ => ?_⟩
  split
  · exact fine_pure _
  · exact fine_pure _

theorem opForList_misreads {list count : Var} (hlist : list.type = .list) (hcount : count.type ≠ .int) :
    opForList list count = .error ⟨count, .int⟩ := by
  obtain ⟨l, rfl⟩ := exists_listVar hlist
  cases count with
  | int n => exact absurd rfl hcount
  | _ => rfl

/-! On values the opcodes of lists and strings do what they do in the model of these. -/

def Answer.valued : Except Crash (Except Error Var) → Answer
  | .ok (.ok v) => .push v
  | .ok (.error e) => .raise e
  | .error _ => .breaks

theorem valued_ite {c : Prop} [Decidable c] (e : Error) (x : Except Crash Var) :
    Answer.valued (if c then pure (.error e) else x >>= fun v => pure (.ok v)) = if c then .raise e else .made x := by
  split
  · rfl
  · cases x <;> rfl

theorem opRefReads_eq (list index : Var) : opRefReads list index = .ok (.valued (opRef list index)) := by
  by_cases htyped : index.type = .int ∧ (list.type = .list ∨ list.type = .str)
  · obtain ⟨hindex, hlist | hlist⟩ := htyped
    · obtain ⟨i, rfl⟩ := exists_int hindex
      obtain ⟨l, rfl⟩ := exists_listVar hlist
      rw [opRef, valued_ite]
      by_cases hlow : i ≤ 0
      · simp [opRefReads, hlow]
        rfl
      · by_cases hhigh : (l.length : Int) < i
        · simp [opRefReads, hlow, hhigh]
          rfl
        · simp [opRefReads, hlow, hhigh]
    · obtain ⟨i, rfl⟩ := exists_int hindex
      obtain ⟨s, rfl⟩ := exists_str hlist
      rw [opRef, valued_ite]
      by_cases hlow : i ≤ 0
      · simp [opRefReads, hlow]
        rfl
      · by_cases hhigh : intLength s < i
        · simp [opRefReads, hlow, hhigh]
          rfl
        · simp [opRefReads, hlow, hhigh]
  · rw [(opRef_handles list index).eType htyped]
    unfold opRef
    split
    · exact absurd ⟨rfl, .inl rfl⟩ htyped
    · exact absurd ⟨rfl, .inr rfl⟩ htyped
    · rfl

theorem opPushRefReads_eq (list index : Var) : opPushRefReads list index = .ok (.valued (opPushRef list index)) := by
  by_cases htyped : index.type = .int ∧ list.type = .list
  · obtain ⟨i, rfl⟩ := exists_int htyped.1
    obtain ⟨l, rfl⟩ := exists_listVar htyped.2
    rw [opPushRef, valued_ite]
    by_cases hlow : i ≤ 0
    · simp [opPushRefReads, hlow]
      rfl
    · by_cases hhigh : (l.length : Int) < i
      · simp [opPushRefReads, hlow, hhigh]
        rfl
      · simp [opPushRefReads, hlow, hhigh]
  · rw [(opPushRef_handles list index).eType htyped]
    unfold opPushRef
    split
    · exact absurd ⟨rfl, rfl⟩ htyped
    · rfl

theorem opRangeRefReads_eq (base from' to' : Var) :
    opRangeRefReads base from' to' = .ok (.valued (opRangeRef base from' to')) := by
  by_cases htyped : from'.type = .int ∧ to'.type = .int ∧ (base.type = .list ∨ base.type = .str)
  · obtain ⟨hfrom, hto, hbase | hbase⟩ := htyped
    · obtain ⟨m, rfl⟩ := exists_int hfrom
      obtain ⟨n, rfl⟩ := exists_int hto
      obtain ⟨l, rfl⟩ := exists_listVar hbase
      rw [opRangeRef, valued_ite]
      by_cases hrange : outOfRange l.length m n
      · simp [opRangeRefReads, baseLength, hrange]
        rfl
      · simp [opRangeRefReads, baseLength, hrange]
    · obtain ⟨m, rfl⟩ := exists_int hfrom
      obtain ⟨n, rfl⟩ := exists_int hto
      obtain ⟨s, rfl⟩ := exists_str hbase
      rw [opRangeRef, valued_ite]
      by_cases hrange : outOfRange (intLength s) m n
      · simp [opRangeRefReads, baseLength, hrange]
        rfl
      · simp [opRangeRefReads, baseLength, hrange]
  · rw [(opRangeRef_handles base from' to').eType htyped]
    unfold opRangeRef
    split
    · exact absurd ⟨rfl, rfl, .inl rfl⟩ htyped
    · exact absurd ⟨rfl, rfl, .inr rfl⟩ htyped
    · rfl

theorem eopRangesetReads_eq (s : Str) (from' to' value : Var) :
    eopRangesetReads (.str s) from' to' value = .ok (.valued (eopRangeset (.str s) from' to' value)) := by
  by_cases htyped : from'.type = .int ∧ to'.type = .int ∧ value.type = .str
  · obtain ⟨m, rfl⟩ := exists_int htyped.1
    obtain ⟨n, rfl⟩ := exists_int htyped.2.1
    obtain ⟨t, rfl⟩ := exists_str htyped.2.2
    rw [eopRangeset, strlenAnyway, ok_bind_crash]
    dsimp only
    rw [valued_ite]
    by_cases hrange : rangesetCheck (min (s.length : Int) intMax) m n = true
    · simp [eopRangesetReads, rangesetLast, hrange]
      rfl
    · simp [eopRangesetReads, rangesetLast, hrange]
  · rw [(@eopRangeset_handles (.str s) rfl from' to' value).eType fun h => htyped ⟨h.1, h.2.1, h.2.2.1.symm⟩]
    unfold eopRangeset
    rw [strlenAnyway, ok_bind_crash]
    split
    · cases ‹Var.str s = Var.list _›
    · exact absurd ⟨rfl, rfl, rfl⟩ htyped
    · rfl

/-! All of them. -/

theorem OperandOp.handles (around : Surroundings) {op : OperandOp} (h : op.TagsInTime) :
    Handles (op.run around) (op.WellTyped around) := by
  cases op with
  | test cond => exact .of_fine ((isTrueReads_fine cond).bind fun _ => fine_pure _)
  | forList list count => exact opForList_handles h
  | forRange from' to' => exact opForRange_handles from' to'
  | listAddTail list tail => exact opListAddTail_handles list tail
  | listAppend list tail => exact opListAppend_handles list tail
  | indexset list index value => exact opIndexset_handles list index value
  | checkListForSplice list => exact opCheckListForSplice_handles list
  | eq negated lhs rhs => exact .of_fine (opEq_fine negated lhs rhs)
  | compare holds lhs rhs => exact opCompare_handles around.fl holds lhs rhs
  | in_ lhs rhs => exact opIn_handles lhs rhs
  | mult lhs rhs => exact opArithmetic_handles (fun _ _ => simpleBinaryReads_computes _ _) lhs rhs
  | minus lhs rhs => exact opArithmetic_handles (fun _ _ => simpleBinaryReads_computes _ _) lhs rhs
  | div lhs rhs => exact opArithmetic_handles (fun _ _ => divisionOpReads_computes _ _) lhs rhs
  | mod lhs rhs => exact opArithmetic_handles (fun _ _ => divisionOpReads_computes _ _) lhs rhs
  | add lhs rhs => exact opAdd_handles around.fl lhs rhs
  | unaryMinus arg => exact opUnaryMinus_handles around.fl arg
  | ref list index => exact opRef_handles list index
  | pushRef list index => exact opPushRef_handles list index
  | rangeRef base from' to' => exact opRangeRef_handles base from' to'
  | getProp obj propname => exact opGetProp_handles around obj propname
  | putProp obj propname rhs => exact opPutProp_handles around obj propname rhs
  | fork time => exact opFork_handles around time
  | callVerb obj verb args => exact opCallVerb_handles around obj verb args
  | biFuncCall args => exact opBiFuncCall_handles args
  | rangeset base from' to' value => exact eopRangeset_handles h from' to' value
  | length item => exact eopLength_handles item
  | exp lhs rhs => exact eopExp_handles around.fl lhs rhs
  | scatter nargs nreq haveRest list => exact eopScatter_handles nargs nreq haveRest list
  | endCatch marker => exact .of_fine (eopEndCatch_fine marker)
  | continue_ caught v why => exact .of_fine ((eopContinue_fine_iff caught v why).mpr h)

/-- Whatever the operands are, an opcode reads the members that are there, and refuses other types with
`E_TYPE`, just if it looks at the tags in time. -/
theorem tagSafe_iff (around : Surroundings) (op : OperandOp) : op.TagSafe around ↔ op.TagsInTime := by
  constructor
  · rintro ⟨⟨a, ha⟩, -⟩
    cases op with
    | rangeset base from' to' value =>
        by_contra hbase
        have h : eopRangesetReads base from' to' value = .ok a := ha
        rw [eopRangeset_misreads hbase] at h
        cases h
    | forList list count =>
        intro hlist
        by_contra hcount
        have h : opForList list count = .ok a := ha
        rw [opForList_misreads hlist hcount] at h
        cases h
    | continue_ caught v why => exact (eopContinue_fine_iff caught v why).mp ⟨a, ha⟩
    | _ => exact trivial
  · intro h
    obtain ⟨hfine, heType⟩ := op.handles around h
    exact ⟨hfine, heType⟩

/-- The elements of `{1, 2}` from the first to the first are assigned `{3}`; the list is taken for a
string at first. -/
theorem rangeset_not_tagSafe : ¬ ∀ (around : Surroundings) (op : OperandOp), op.TagSafe around := by
  intro h
  have hsafe := h
    { fl := noDoubles, valid := fun _ => false, getProp := fun _ _ => .error .ePropnf, handle := fun _ _ => none
      mayWrite := fun _ _ => false, wizard := false, owns := fun _ => false, isUser := fun _ => false
      callVerb2 := fun _ _ _ => .eNone, enqueueForkedTask2 := fun _ => .eNone }
    (.rangeset (.list [.int 1, .int 2]) (.int 1) (.int 1) (.list [.int 3]))
  obtain ⟨⟨a, ha⟩, -⟩ := hsafe
  cases ha

end LambdaMoo
