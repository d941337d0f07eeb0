import LambdaMoo.MachineRuns
import LambdaMoo.TagSafety

/-! The opcodes make values of values. -/
namespace LambdaMoo.Interpreter

variable {ε α β : Type} {p : α → Prop} {q : β → Prop}

def Yields (p : α → Prop) (x : Except ε α) : Prop := ∀ a, x = .ok a → p a

namespace Yields

theorem ok {a : α} (h : p a) : Yields p (.ok a : Except ε α) := by
  intro b hb
  cases hb
  exact h

theorem error {e : ε} : Yields p (.error e) := by
  intro b hb
  cases hb

theorem bind {x : Except ε β} {f : β → Except ε α} (hx : Yields q x) (hf : ∀ b, q b → Yields p (f b)) :
    Yields p (x >>= f) := by
  cases x with
  | error e => exact error
  | ok b => exact hf b (hx b rfl)

theorem any (x : Except ε β) : Yields (fun _ => True) x := fun _ _ => trivial

theorem after {x : Except ε β} {f : β → Except ε α} (hf : ∀ b, Yields p (f b)) : Yields p (x >>= f) :=
  (any x).bind fun b _ => hf b

theorem ite {c : Prop} [Decidable c] {x y : Except ε α} (hx : Yields p x) (hy : Yields p y) :
    Yields p (if c then x else y) := by
  split
  · exact hx
  · exact hy

end Yields

def PlainAnswer : Answer → Prop
  | .push v => Plain v
  | .assign v next => Plain v ∧ Plain next
  | _ => True

abbrev Answers (x : Reads Answer) : Prop := Yields PlainAnswer x

variable {l : List Var} {v w c list index base from' to' value : Var}

theorem plain_checkedFloat (d : UInt64) : Plain (checkedFloat d) := by
  unfold checkedFloat
  split <;> rfl

/-! Elements and parts of lists. -/

theorem element_plain (hl : ∀ v ∈ l, Plain v) (i : Int) : Yields Plain (element l i) := by
  unfold element
  split
  · split
    · next v hv => exact .ok (hl v (List.mem_of_getElem? hv))
    · exact .error
  · exact .error

def PlainCells (r : Cells) : Prop := ∀ v, some v ∈ r → Plain v

theorem newList_plain (size : Int) : Yields PlainCells (newList size) := by
  unfold newList
  refine .ite .error (.ok fun v hv => ?_)
  cases (List.mem_replicate.mp hv).2

theorem store_plain {r : Cells} (hr : PlainCells r) (hv : Plain v) (i : Int) : Yields PlainCells (r.store i v) := by
  unfold Cells.store Cells.put
  split
  · next r' h =>
      split at h
      · cases h
        refine .ok fun w hw => ?_
        obtain hw | hw := List.mem_or_eq_of_mem_set hw
        · exact hr w hw
        · cases hw
          exact hv
      · cases h
  · exact .error

theorem eq_map_of_mapM {r : Cells} (h : r.mapM id = some l) : r = l.map some := by
  induction r generalizing l with
  | nil =>
      cases h
      rfl
  | cons cell r ih =>
      simp only [List.mapM_cons, id, Option.bind_eq_bind, Option.bind_eq_some_iff, Option.pure_def,
        Option.some.injEq] at h
      obtain ⟨v, rfl, l', hl', rfl⟩ := h
      rw [ih hl', List.map_cons]

theorem finish_plain {r : Cells} (hr : PlainCells r) : Yields Plain r.finish := by
  unfold Cells.finish Cells.value
  split
  · next v h =>
      obtain ⟨l, hl, rfl⟩ := Option.map_eq_some_iff.mp h
      refine .ok (plain_list.mpr fun v hv => hr v ?_)
      rw [eq_map_of_mapM hl]
      exact List.mem_map_of_mem hv
  · exact .error

theorem copyElements_plain (hl : ∀ v ∈ l, Plain v) (count : Nat) (i j : Int) {r : Cells} (hr : PlainCells r) :
    Yields PlainCells (copyElements l count i j r) := by
  induction count generalizing i j r with
  | zero => exact .ok hr
  | succ count ih =>
      rw [copyElements]
      exact (element_plain hl i).bind fun v hv => (store_plain hr hv j).bind fun r hr => ih (i + 1) (j + 1) hr

theorem sublist_plain (hl : ∀ v ∈ l, Plain v) (lower upper : Int) : Yields Plain (sublist l lower upper) := by
  unfold sublist
  refine .ite (.ok (plain_list.mpr fun v hv => absurd hv List.not_mem_nil)) ?_
  exact (newList_plain _).bind fun r hr => (copyElements_plain hl _ _ _ hr).bind fun r hr => finish_plain hr

theorem listrangeset_plain {l' : List Var} (hl : ∀ v ∈ l, Plain v) (hl' : ∀ v ∈ l', Plain v) (m n : Int) :
    Yields Plain (listrangeset l m n l') := by
  unfold listrangeset
  exact (newList_plain _).bind fun r hr => (copyElements_plain hl _ _ _ hr).bind fun r hr =>
    (copyElements_plain hl' _ _ _ hr).bind fun r hr => (copyElements_plain hl _ _ _ hr).bind fun r hr => finish_plain hr

/-! Strings. -/

theorem allocated_plain (size : Int) (s : Str) : Yields Plain (allocated size s) := by
  unfold allocated
  exact .ite .error (.ite .error (.ok rfl))

theorem substr_plain (s : Str) (lower upper : Int) : Yields Plain (substr s lower upper) := by
  unfold substr
  exact .ite (.ok rfl) (.after fun _ => allocated_plain _ _)

theorem strrangeset_plain (s : Str) (m n : Int) (t : Str) : Yields Plain (strrangeset s m n t) := by
  unfold strrangeset
  exact .after fun _ => .after fun _ => .after fun _ => allocated_plain _ _

theorem strget_plain (s : Str) (i : Int) : Yields Plain (strget s i) := .after fun _ => .ok rfl

/-! The opcodes. -/

theorem readList_plain (hv : Plain v) : Yields (fun l => ∀ w ∈ l, Plain w) v.readList := by
  cases v with
  | list l => exact .ok (plain_list.mp hv)
  | _ => exact .error

theorem valued_plain {x : Except Crash (Except Error Var)} (h : Yields (Yields Plain) x) : PlainAnswer (.valued x) := by
  match x, h with
  | .ok (.ok v), h => exact h _ rfl v rfl
  | .ok (.error _), _ => trivial
  | .error _, _ => trivial

theorem opListAddTail_plain (hlist : Plain list) (hv : Plain v) : Answers (opListAddTail list v) := by
  unfold opListAddTail
  refine .ite (.ok trivial) ((readList_plain hlist).bind fun l hl => .ok (plain_list.mpr fun w hw => ?_))
  obtain hw | hw := List.mem_append.mp hw
  · exact hl w hw
  · exact List.mem_singleton.mp hw ▸ hv

theorem opListAppend_plain (hlist : Plain list) (hv : Plain v) : Answers (opListAppend list v) := by
  unfold opListAppend
  refine .ite (.ok trivial) ((readList_plain hlist).bind fun l hl =>
    (readList_plain hv).bind fun l' hl' => .ok (plain_list.mpr fun w hw => ?_))
  obtain hw | hw := List.mem_append.mp hw
  · exact hl w hw
  · exact hl' w hw

theorem opIndexset_plain (hlist : Plain list) (hv : Plain v) : Answers (opIndexset list index v) := by
  unfold opIndexset
  refine .ite (.ok trivial) (.after fun _ => .ite (.ok trivial) (.after fun _ => .ite (.ok trivial) (.ite ?_ ?_)))
  · refine (readList_plain hlist).bind fun l hl => .after fun i => .ok (plain_list.mpr fun w hw => ?_)
    obtain hw | rfl := List.mem_or_eq_of_mem_set hw
    · exact hl w hw
    · exact hv
  · exact .after fun _ => .after fun _ => .after fun _ => .ok rfl

theorem opEq_plain (negated : Bool) : Answers (opEq negated v w) := by
  refine .after fun b => ?_
  cases b with
  | none => exact .ok trivial
  | some b => exact .ok rfl

theorem opCompare_plain (fl : Doubles) (holds : Int → Bool) : Answers (opCompare fl holds v w) := by
  have hfinish (n : Int) : Answers (.ok (opCompare.finish holds n)) := .ok rfl
  unfold opCompare
  refine .ite (.after fun _ => .ite (.after fun _ => .ok trivial) (.after fun n => hfinish n)) (.ite (.ok trivial) ?_)
  split
  · exact .after fun _ => .after fun _ => hfinish _
  · exact .after fun _ => .after fun _ => hfinish _
  · exact .after fun _ => .after fun _ => hfinish _
  · exact .after fun _ => .after fun _ => hfinish _
  · exact hfinish 0

theorem opIn_plain : Answers (opIn v w) := by
  unfold opIn
  refine .ite (.ok trivial) (.after fun _ => .after fun i => ?_)
  cases i with
  | none => exact .ok trivial
  | some i => exact .ok rfl

abbrev Computed (x : Reads (Option Var)) : Prop := Yields (fun ans => ∀ v ∈ ans, Plain v) x

theorem pushAnswer_plain {ans : Option Var} (h : ∀ v ∈ ans, Plain v) : Answers (pushAnswer ans) := by
  cases ans with
  | none => exact .ok trivial
  | some v => exact .ite (.after fun _ => .ok trivial) (.ok (h v rfl))

theorem opArithmetic_plain {operator : Var → Var → Reads (Option Var)} (h : Computed (operator v w)) :
    Answers (opArithmetic operator v w) := by
  unfold opArithmetic
  exact .ite (h.bind fun _ hans => pushAnswer_plain hans) (pushAnswer_plain fun _ h => by cases h; rfl)

theorem some_plain (hv : Plain v) : ∀ w ∈ some v, Plain w := by
  intro w hw
  cases hw
  exact hv

theorem simpleBinary_plain (iop : Int → Int → Int) (fop : UInt64 → UInt64 → UInt64) :
    Computed (simpleBinaryReads iop fop v w) := by
  unfold simpleBinaryReads
  exact .ite (.ok (some_plain rfl)) (.ite (.after fun _ => .after fun _ => .ok (some_plain rfl))
    (.after fun _ => .after fun _ => .ok (some_plain (plain_checkedFloat _))))

theorem divisionOp_plain (iop : Int → Int → Option Int) (fexpr : UInt64 → UInt64 → UInt64) :
    Computed (divisionOpReads iop fexpr v w) := by
  unfold divisionOpReads
  refine .ite (.ok (some_plain rfl)) (.after fun _ => .ite (.after fun _ => .after fun _ => .ok fun a ha => ?_)
    (.after fun _ => .ite (.after fun _ => .after fun _ => .ok (some_plain (plain_checkedFloat _)))
      (.ok (some_plain rfl))))
  obtain ⟨n, -, rfl⟩ := Option.map_eq_some_iff.mp ha
  rfl

theorem opAdd_plain (fl : Doubles) : Answers (opAddReads fl v w) := by
  unfold opAddReads
  exact .ite ((simpleBinary_plain _ _).bind fun _ hans => pushAnswer_plain hans)
    (.ite (.after fun _ => .after fun _ => pushAnswer_plain (some_plain rfl)) (pushAnswer_plain (some_plain rfl)))

theorem opUnaryMinus_plain (fl : Doubles) : Answers (opUnaryMinusReads fl v) := by
  unfold opUnaryMinusReads
  exact .ite (.after fun _ => .ok rfl) (.ite (.after fun _ => .ok rfl) (.ok trivial))

theorem doPower_plain (fl : Doubles) : Plain (doPower fl v w) := by
  unfold doPower
  split
  · split_ifs <;> rfl
  · unfold doPower.power
    split
    · rfl
    · exact plain_checkedFloat _
  · unfold doPower.power
    split
    · rfl
    · exact plain_checkedFloat _
  · rfl

theorem eopExp_plain (fl : Doubles) : Answers (eopExp fl v w) := by
  have hpower : Yields Plain (doPowerReads fl v w) := by
    unfold doPowerReads
    refine .ite (.after fun _ => .ite (.ok rfl) (.after fun _ => .ok (doPower_plain fl)))
      (.ite (.ite (.after fun _ => .after fun _ => .ok (doPower_plain fl))
        (.ite (.after fun _ => .after fun _ => .ok (doPower_plain fl)) (.ok rfl))) (.ok rfl))
  exact hpower.bind fun _ hv => pushAnswer_plain (some_plain hv)

theorem opRef_plain (hlist : Plain list) : Answers (opRefReads list index) := by
  rw [opRefReads_eq]
  refine .ok (valued_plain ?_)
  unfold opRef
  split
  · exact .ite (.ok .error) ((element_plain (plain_list.mp hlist) _).bind fun _ hv => .ok (.ok hv))
  · exact .ite (.ok .error) ((strget_plain _ _).bind fun _ hv => .ok (.ok hv))
  · exact .ok .error

theorem opPushRef_plain (hlist : Plain list) : Answers (opPushRefReads list index) := by
  rw [opPushRefReads_eq]
  refine .ok (valued_plain ?_)
  unfold opPushRef
  split
  · exact .ite (.ok .error) ((element_plain (plain_list.mp hlist) _).bind fun _ hv => .ok (.ok hv))
  · exact .ok .error

theorem opRangeRef_plain (hbase : Plain base) : Answers (opRangeRefReads base from' to') := by
  rw [opRangeRefReads_eq]
  refine .ok (valued_plain ?_)
  unfold opRangeRef
  split
  · exact .ite (.ok .error) ((sublist_plain (plain_list.mp hbase) _ _).bind fun _ hv => .ok (.ok hv))
  · exact .ite (.ok .error) ((substr_plain _ _ _).bind fun _ hv => .ok (.ok hv))
  · exact .ok .error

theorem eopRangeset_plain (hbase : Plain base) (hv : Plain v) : Yields (Yields Plain) (eopRangeset base from' to' v) := by
  unfold eopRangeset
  refine .after fun len => ?_
  split
  · exact .ite (.ok .error) ((listrangeset_plain (plain_list.mp hbase) (plain_list.mp hv) _ _).bind
      fun _ hv => .ok (.ok hv))
  · exact .ite (.ok .error) ((strrangeset_plain _ _ _ _).bind fun _ hv => .ok (.ok hv))
  · exact .ok .error

theorem eopLength_plain : Answers (eopLength v) := by
  unfold eopLength
  exact .ite (.after fun _ => .ok rfl) (.ite (.after fun _ => .ok rfl) (.ok trivial))

theorem opGetProp_plain {W : Type} {S : Server W} (hS : S.Behaves) (world : W) : Answers (opGetProp (S.around world) v w) := by
  unfold opGetProp
  refine .ite (.ok trivial) (.after fun _ => .ite (.ok trivial) (.after fun _ => .after fun _ => ?_))
  split
  · next h => exact .ok (hS.getProp h)
  · exact .ok trivial

theorem opPutProp_plain {W : Type} {S : Server W} (world : W) {obj : Var} (hv : Plain v) : Answers (opPutPropReads (S.around world) obj w v) := by
  unfold opPutPropReads
  refine .ite (.ok trivial) (.after fun _ => .ite (.ok trivial) (.after fun _ => .after fun _ => ?_))
  split
  · exact .ok trivial
  · refine .after fun _ => .after fun _ => .after fun _ => .ite ?_ (.ok trivial)
    unfold setPropertyValueReads
    split
    · exact .ok hv
    · exact .ite (.ok trivial) (.after fun _ => .ok hv)
    · exact .ite (.ok trivial) (.after fun _ => .ok hv)
    · exact .ok trivial
    · exact .ok trivial
    all_goals exact .after fun _ => .ok hv

theorem opForList_plain (hlist : Plain list) : Answers (opForList list v) := by
  unfold opForList
  refine .ite (.ok trivial) (.after fun _ => (readList_plain hlist).bind fun l hl => .ite (.ok trivial)
    ((readList_plain hlist).bind fun l hl => .after fun n => ?_))
  cases helement : element l n with
  | error => exact .ok trivial
  | ok w => exact .after fun _ => .ok ⟨element_plain hl n w helement, rfl⟩

theorem opForRange_plain (hfrom : Plain from') : Answers (opForRangeReads from' to') := by
  unfold opForRangeReads
  exact .ite (.ok trivial) (.after fun _ => .ite (.ok trivial) (.ite (.after fun _ => .ok ⟨hfrom, rfl⟩)
    (.after fun _ => .ok ⟨hfrom, rfl⟩)))

theorem binary_plain (fl : Doubles) (kind : BinaryKind) : Answers (binary fl kind v w) := by
  cases kind with
  | eq => exact opEq_plain false
  | ne => exact opEq_plain true
  | ge | gt | le | lt => exact opCompare_plain fl _
  | in_ => exact opIn_plain
  | plus => exact opAdd_plain fl
  | minus | times => exact opArithmetic_plain (simpleBinary_plain _ _)
  | divide | mod => exact opArithmetic_plain (divisionOp_plain _ _)
  | exp => exact eopExp_plain fl

theorem unary_plain (fl : Doubles) (kind : UnaryKind) : Answers (unary fl kind v) := by
  cases kind with
  | negate => exact opUnaryMinus_plain fl
  | not => exact .ok rfl

end LambdaMoo.Interpreter
