import LambdaMoo.Editing

/-! Lookups in lists of lists. The index that is passed is held against the length of every
element, but only two of the three functions hold it against 1. -/
namespace LambdaMoo

def initListToZero (r : Cells) : Cells := r.map fun _ => some zero

/-- The index, which is 1 where none is passed. -/
def indexArg : List Var → Except Crash Int
  | [] => .ok 1
  | [.int c] => .ok c
  | _ => .error .wild

def sliceLoop (c : Int) : List Var → Int → Cells → Except Crash (Except Error Cells)
  | [], _, ret => .ok (.ok ret)
  | .list l :: list, i, ret =>
      if l.length < c then .ok (.error .eInvarg)
      else do
        let ret ← ret.store i (← element l c)
        sliceLoop c list (i + 1) ret
  | _ :: _, _, _ => .ok (.error .eInvarg)

def bfSlice : List Var → Except Crash (Except Error Var)
  | .list list :: index => do
      let n : Int := list.length
      if n < 0 then return .error .eInvarg
      let ret := initListToZero (← newList n)
      let c ← indexArg index
      match ← sliceLoop c list 1 ret with
      | .error e => return .error e
      | .ok ret => return .ok (← ret.finish)
  | _ => .error .wild

def assocElement (vtarget : Var) (vindex : Int) : Var → Except Crash Bool
  | .list l =>
      if vindex ≤ l.length then do
        match equality false (← element l vindex) vtarget with
        | some found => return found
        | none => .error .panic
      else .ok false
  | _ => .ok false

def listAssoc (vtarget : Var) (vindex : Int) : List Var → Except Crash Var
  | [] => .ok (.list [])
  | v :: vlist => do
      if ← assocElement vtarget vindex v then return v
      listAssoc vtarget vindex vlist

def listIassoc (vtarget : Var) (vindex : Int) : List Var → Int → Except Crash Int
  | [], _ => .ok 0
  | v :: vlist, i => do
      if ← assocElement vtarget vindex v then return i
      listIassoc vtarget vindex vlist (i + 1)

def bfIassoc : List Var → Except Crash (Except Error Var)
  | vtarget :: .list vlist :: index => do
      let index ← indexArg index
      if index < 1 then return .error .eRange
      return .ok (.int (← listIassoc vtarget index vlist 1))
  | _ => .error .wild

def bfAssoc : List Var → Except Crash (Except Error Var)
  | vtarget :: .list vlist :: index => do
      let index ← indexArg index
      if index < 1 then return .error .eRange
      return .ok (← listAssoc vtarget index vlist)
  | _ => .error .wild

/-- A call of one of the three functions. -/
inductive Query
  | slice (args : List Operand)
  | iassoc (args : List Operand)
  | assoc (args : List Operand)

def Query.run : Query → Except Crash (Except Error Var)
  | .slice args => checked 1 [Var.isList, Var.isInt] args bfSlice
  | .iassoc args => checked 2 [any, Var.isList, Var.isInt] args bfIassoc
  | .assoc args => checked 2 [any, Var.isList, Var.isInt] args bfAssoc

/-! What the functions are for. -/

/-- The element at a place of a value that is a list and has one there. -/
def itemAt (c : Int) : Var → Option Var
  | .list l => nth l c
  | _ => none

def column (l : List Var) (c : Int) : Option Var :=
  if 1 ≤ c then (l.mapM (itemAt c)).map .list else none

def holdsAt (t : Var) (c : Int) (v : Var) : Bool := (itemAt c v).any fun x => same x t

/-- The first place with a list that has the target at its place, or 0. -/
def firstPlace (t : Var) (c : Int) (l : List Var) : Nat := (l.findIdx? (holdsAt t c)).elim 0 (· + 1)

def firstList (t : Var) (c : Int) (l : List Var) : Var := (nth l (firstPlace t c l)).getD (.list [])

/-- The value that a call is to return; none is an error. -/
def Query.answer : Query → Option Var
  | .slice args =>
      match values args with
      | [.list l] => column l 1
      | [.list l, .int c] => column l c
      | _ => none
  | .iassoc args =>
      match values args with
      | [t, .list l] => some (.int (firstPlace t 1 l))
      | [t, .list l, .int c] => if 1 ≤ c then some (.int (firstPlace t c l)) else none
      | _ => none
  | .assoc args =>
      match values args with
      | [t, .list l] => some (firstList t 1 l)
      | [t, .list l, .int c] => if 1 ≤ c then some (firstList t c l) else none
      | _ => none

/-- The end of a call without a crash, with a value or an error. -/
def Returns (r : Except Crash (Except Error Var)) : Option Var → Prop
  | some v => r = .ok (.ok v)
  | none => ∃ e, r = .ok (.error e)

def Query.Meets (q : Query) : Prop := Returns q.run q.answer

/-- The index is a place, or `slice` comes upon no list before it looks there. -/
def Query.indexed : Query → Prop
  | .slice args => ∀ l c, values args = [.list l, .int c] →
      1 ≤ c ∨ ∃ v rest, l = v :: rest ∧ v.isList = false
  | _ => True

variable {t v : Var} {c : Int} {l index : List Var}

theorem element_nth {m : List Var} (hc : 1 ≤ c) (hm : c ≤ m.length) :
    ∃ x ∈ m, nth m c = some x ∧ element m c = .ok x := by
  obtain ⟨k, rfl⟩ : ∃ k : Nat, c = k + 1 := ⟨(c - 1).toNat, by omega⟩
  have hk : k < m.length := by omega
  exact ⟨m[k], List.getElem_mem hk, nth_eq_some hk, element_eq hk⟩

/-! `slice`. -/

theorem store_next {done : List Var} {i : Int} (hi : i = done.length + 1) (old : Option Var)
    (rest : Cells) (v : Var) :
    Cells.store (done.map some ++ old :: rest) i v = .ok ((done ++ [v]).map some ++ rest) := by
  have hindex : i.toNat = done.length + 1 := by omega
  rw [Cells.store, hindex, Cells.put, if_pos (by simp)]
  simp

theorem sliceLoop_eq (hc : 1 ≤ c) {done : List Var} {i : Int} (hi : i = done.length + 1) (ret : Cells)
    (hret : ret.length = l.length) : sliceLoop c l i (done.map some ++ ret) =
      .ok (match l.mapM (itemAt c) with
        | some col => .ok ((done ++ col).map some)
        | none => .error .eInvarg) := by
  induction l generalizing done i ret with
  | nil =>
      obtain rfl := List.length_eq_zero_iff.mp hret
      simp [sliceLoop]
  | cons v l ih =>
      obtain ⟨old, ret, rfl⟩ := List.exists_cons_of_length_eq_add_one hret
      have hret' : ret.length = l.length := by simpa using hret
      cases v with
      | list m =>
          rw [sliceLoop, List.mapM_cons]
          by_cases hm : m.length < c
          · have hitem : itemAt c (.list m) = none := nth_eq_none (.inr hm)
            rw [if_pos hm, hitem]
            rfl
          · obtain ⟨x, -, hx, helement⟩ := element_nth hc (Int.not_lt.mp hm)
            have hitem : itemAt c (.list m) = some x := hx
            have hnext : i + 1 = (done ++ [x]).length + 1 := by
              rw [List.length_append, List.length_singleton, hi]
              push_cast
              rfl
            rw [if_neg hm, helement, ok_bind_crash, store_next hi, ok_bind_crash, ih hnext ret hret', hitem]
            cases l.mapM (itemAt c) <;> simp
      | _ =>
          rw [List.mapM_cons]
          rfl

theorem bfSlice_eq (hfits : (l.length : Int) < intMax) (hc : 1 ≤ c) (hindex : indexArg index = .ok c) :
    bfSlice (.list l :: index) = .ok (match column l c with
      | some v => .ok v
      | none => .error .eInvarg) := by
  have hloop := @sliceLoop_eq c l hc [] 1 rfl (initListToZero (partly [] l.length))
    (by simp [initListToZero, partly])
  rw [List.map_nil, List.nil_append] at hloop
  unfold bfSlice
  dsimp only
  rw [if_neg (by omega), newList_eq hfits, ok_bind_crash, hindex, ok_bind_crash, hloop, ok_bind_crash, column,
    if_pos hc]
  cases l.mapM (itemAt c) with
  | none => rfl
  | some col =>
      have hcells : col.map some = partly col 0 := by simp [partly]
      simp only [Option.map_some, List.nil_append, hcells, finish_partly]
      rfl

theorem bfSlice_outside (hfits : ((v :: l).length : Int) < intMax) (hc : c ≤ 0) :
    bfSlice [.list (v :: l), .int c] = if v.isList then .error .outside else .ok (.error .eInvarg) := by
  unfold bfSlice
  dsimp only
  rw [if_neg (by omega), newList_eq hfits, ok_bind_crash, indexArg, ok_bind_crash]
  cases v with
  | list m =>
      have helement : element m c = .error .outside := by rw [element, if_neg (by omega)]
      rw [sliceLoop, if_neg (by omega), helement]
      rfl
  | _ => rfl

/-! `iassoc` and `assoc`. -/

theorem areValues_mem {m : List Var} {x : Var} (hm : Var.areValues m = true) (hx : x ∈ m) : x.isValue = true := by
  induction m with
  | nil => cases hx
  | cons y m ih =>
      obtain ⟨hy, hm⟩ := Bool.and_eq_true_iff.mp hm
      obtain rfl | hx := List.mem_cons.mp hx
      · exact hy
      · exact ih hm hx

theorem assocElement_eq (ht : t.isValue = true) (hv : v.isValue = true) (hc : 1 ≤ c) :
    assocElement t c v = .ok (holdsAt t c v) := by
  cases v with
  | list m =>
      rw [assocElement, holdsAt, itemAt]
      by_cases hm : c ≤ m.length
      · obtain ⟨x, hmem, hx, helement⟩ := element_nth hc hm
        have hxv : x.isValue = true := areValues_mem hv hmem
        obtain ⟨found, hfound⟩ := Option.isSome_iff_exists.mp (equality_isSome (c := false) hxv ht)
        rw [if_pos hm, helement, ok_bind_crash, hfound, hx, Option.any_some, same, hfound]
        cases found <;> rfl
      · rw [if_neg hm, nth_eq_none (.inr (Int.not_le.mp hm))]
        rfl
  | _ => rfl

theorem listAssoc_eq (ht : t.isValue = true) (hl : Var.areValues l = true) (hc : 1 ≤ c) :
    listAssoc t c l = .ok ((l.find? (holdsAt t c)).getD (.list [])) := by
  induction l with
  | nil => rfl
  | cons v l ih =>
      obtain ⟨hv, hl⟩ := Bool.and_eq_true_iff.mp hl
      rw [listAssoc, assocElement_eq ht hv hc, ok_bind_crash, List.find?_cons, ih hl]
      cases holdsAt t c v <;> rfl

theorem listIassoc_eq (ht : t.isValue = true) (hl : Var.areValues l = true) (hc : 1 ≤ c) (i : Nat) :
    listIassoc t c l (i + 1) =
      .ok ((l.findIdx? (holdsAt t c)).elim 0 fun k => ((i + k : Nat) : Int) + 1) := by
  induction l generalizing i with
  | nil => rfl
  | cons v l ih =>
      obtain ⟨hv, hl⟩ := Bool.and_eq_true_iff.mp hl
      have hrest := ih hl (i + 1)
      push_cast at hrest
      rw [listIassoc, assocElement_eq ht hv hc, ok_bind_crash, List.findIdx?_cons, hrest]
      cases holdsAt t c v with
      | true => rfl
      | false =>
          cases l.findIdx? (holdsAt t c) with
          | none => rfl
          | some k =>
              simp only [Bool.false_eq_true, if_false, Option.map_some, Option.elim_some, Except.ok.injEq]
              push_cast
              omega

theorem find?_firstList (t : Var) (c : Int) (l : List Var) :
    (l.find? (holdsAt t c)).getD (.list []) = firstList t c l := by
  rw [firstList, firstPlace, List.find?_eq_bind_findIdx?_getElem?]
  cases hfind : l.findIdx? (holdsAt t c) with
  | none => rfl
  | some k =>
      obtain ⟨hk, -⟩ := List.findIdx?_eq_some_iff_getElem.mp hfind
      have hplace : nth l ((k + 1 : Nat) : Int) = some l[k] := nth_eq_some hk
      rw [Option.elim_some, hplace, Option.bind_some, List.getElem?_eq_getElem hk]

theorem bfIassoc_eq (ht : t.isValue = true) (hl : Var.areValues l = true) (hindex : indexArg index = .ok c) :
    bfIassoc (t :: .list l :: index) =
      .ok (if 1 ≤ c then .ok (.int (firstPlace t c l)) else .error .eRange) := by
  unfold bfIassoc
  dsimp only
  rw [hindex, ok_bind_crash]
  by_cases hc : 1 ≤ c
  · rw [if_neg (Int.not_lt.mpr hc), if_pos hc]
    have hloop := listIassoc_eq ht hl hc 0
    rw [Int.natCast_zero, Int.zero_add] at hloop
    rw [hloop, firstPlace]
    cases l.findIdx? (holdsAt t c) with
    | none => rfl
    | some k =>
        rw [Option.elim_some, Option.elim_some, Nat.zero_add]
        push_cast
        rfl
  · rw [if_pos (Int.not_le.mp hc), if_neg hc]
    rfl

theorem bfAssoc_eq (ht : t.isValue = true) (hl : Var.areValues l = true) (hindex : indexArg index = .ok c) :
    bfAssoc (t :: .list l :: index) =
      .ok (if 1 ≤ c then .ok (firstList t c l) else .error .eRange) := by
  unfold bfAssoc
  dsimp only
  rw [hindex, ok_bind_crash]
  by_cases hc : 1 ≤ c
  · rw [if_neg (Int.not_lt.mpr hc), if_pos hc, listAssoc_eq ht hl hc, find?_firstList]
    rfl
  · rw [if_pos (Int.not_le.mp hc), if_neg hc]
    rfl

/-! The calls. -/

theorem checkArgs_slice {args : List Var} (h : checkArgs 1 [Var.isList, Var.isInt] args = none) :
    (∃ l, args = [.list l]) ∨ ∃ l c, args = [.list l, .int c] := by
  obtain ⟨hmin, hmax, htypes⟩ := checkArgs_none h
  match args with
  | [] => simp at hmin
  | [a] =>
      obtain ⟨l, rfl⟩ := (isList_iff a).mp (htypes (a, Var.isList) (by simp))
      exact .inl ⟨l, rfl⟩
  | [a, b] =>
      obtain ⟨l, rfl⟩ := (isList_iff a).mp (htypes (a, Var.isList) (by simp))
      obtain ⟨c, rfl⟩ := (isInt_iff b).mp (htypes (b, Var.isInt) (by simp))
      exact .inr ⟨l, c, rfl⟩
  | _ :: _ :: _ :: _ =>
      simp only [List.length_cons, List.length_nil] at hmax
      omega

theorem checkArgs_assoc {args : List Var} (h : checkArgs 2 [any, Var.isList, Var.isInt] args = none) :
    (∃ t l, args = [t, .list l]) ∨ ∃ t l c, args = [t, .list l, .int c] := by
  obtain ⟨hmin, hmax, htypes⟩ := checkArgs_none h
  match args with
  | [] | [_] => simp at hmin
  | [t, a] =>
      obtain ⟨l, rfl⟩ := (isList_iff a).mp (htypes (a, Var.isList) (by simp))
      exact .inl ⟨t, l, rfl⟩
  | [t, a, b] =>
      obtain ⟨l, rfl⟩ := (isList_iff a).mp (htypes (a, Var.isList) (by simp))
      obtain ⟨c, rfl⟩ := (isInt_iff b).mp (htypes (b, Var.isInt) (by simp))
      exact .inr ⟨t, l, c, rfl⟩
  | _ :: _ :: _ :: _ :: _ =>
      simp only [List.length_cons, List.length_nil] at hmax
      omega

theorem checked_of_none {minargs : Nat} {prototype : List (Var → Bool)} {args : List Operand}
    {f : List Var → Except Crash (Except Error Var)} (h : checkArgs minargs prototype (values args) = none) :
    checked minargs prototype args f = f (values args) := by
  rw [checked, h]

theorem checked_of_some {minargs : Nat} {prototype : List (Var → Bool)} {args : List Operand}
    {f : List Var → Except Crash (Except Error Var)} (h : checkArgs minargs prototype (values args) ≠ none) :
    ∃ e, checked minargs prototype args f = .ok (.error e) := by
  obtain ⟨e, he⟩ := Option.ne_none_iff_exists'.mp h
  exact ⟨e, by rw [checked, he]; rfl⟩

theorem values_pair {args : List Operand} {rest : List Var} (h : values args = t :: .list l :: rest) :
    t.isValue = true ∧ Var.areValues l = true :=
  ⟨(values_spec args (v := t) (by simp [h])).1, (values_spec args (v := .list l) (by simp [h])).1⟩

theorem meets_of_refused {q : Query} (hrun : ∃ e, q.run = .ok (.error e)) (hanswer : q.answer = none) : q.Meets := by
  unfold Query.Meets
  rw [hanswer]
  exact hrun

theorem slice_returns (hfits : (l.length : Int) < intMax) (hc : 1 ≤ c) (hindex : indexArg index = .ok c) :
    Returns (bfSlice (.list l :: index)) (column l c) := by
  rw [bfSlice_eq hfits hc hindex]
  cases column l c with
  | none => exact ⟨_, rfl⟩
  | some v => rfl

theorem slice_returns_iff (hfits : (l.length : Int) < intMax) (hc : c ≤ 0) :
    Returns (bfSlice [.list l, .int c]) (column l c) ↔ ∃ v rest, l = v :: rest ∧ v.isList = false := by
  rw [column, if_neg (by omega)]
  cases l with
  | nil =>
      refine iff_of_false ?_ fun ⟨v, rest, h, _⟩ => List.cons_ne_nil v rest h.symm
      rintro ⟨e, h⟩
      cases h
  | cons v l =>
      rw [bfSlice_outside hfits hc]
      cases hv : v.isList with
      | true =>
          refine iff_of_false ?_ ?_
          · rintro ⟨e, h⟩
            cases h
          · rintro ⟨w, rest, h, hw⟩
            cases h
            rw [hv] at hw
            cases hw
      | false => exact iff_of_true ⟨_, rfl⟩ ⟨v, l, rfl, hv⟩

theorem slice_meets_iff (args : List Operand) : (Query.slice args).Meets ↔ (Query.slice args).indexed := by
  by_cases hcheck : checkArgs 1 [Var.isList, Var.isInt] (values args) = none
  · have hrun : (Query.slice args).run = bfSlice (values args) := checked_of_none hcheck
    unfold Query.Meets Query.indexed
    rw [hrun]
    obtain ⟨l, h⟩ | ⟨l, c, h⟩ := checkArgs_slice hcheck
    · simp only [Query.answer, h]
      refine iff_of_true (slice_returns (values_list h).2 (Int.le_refl 1) rfl) fun l' c' h' => ?_
      cases h'
    · simp only [Query.answer, h]
      have hindexed : (∀ l' c', [Var.list l, Var.int c] = [.list l', .int c'] →
          1 ≤ c' ∨ ∃ v rest, l' = v :: rest ∧ v.isList = false) ↔
          1 ≤ c ∨ ∃ v rest, l = v :: rest ∧ v.isList = false := by
        refine ⟨fun hall => hall l c rfl, fun hex l' c' h' => ?_⟩
        cases h'
        exact hex
      rw [hindexed]
      by_cases hc : 1 ≤ c
      · exact iff_of_true (slice_returns (values_list h).2 hc rfl) (.inl hc)
      · rw [slice_returns_iff (values_list h).2 (by omega), or_iff_right hc]
  · refine iff_of_true (meets_of_refused (checked_of_some hcheck) ?_) fun l c h => absurd (by rw [h]; rfl) hcheck
    simp only [Query.answer]
    split
    · next l h => exact absurd (by rw [h]; rfl) hcheck
    · next l c h => exact absurd (by rw [h]; rfl) hcheck
    · rfl

theorem returns_ite {p : Prop} [Decidable p] {v : Var} {e : Error} :
    Returns (.ok (if p then .ok v else .error e)) (if p then some v else none) := by
  split
  · rfl
  · exact ⟨e, rfl⟩

/-- A function that looks for a target at an index is right for every argument list, when it is for
those that it is called with. -/
theorem search_meets {q : Query} {args : List Operand} {f : List Var → Except Crash (Except Error Var)}
    {value : Var → Int → List Var → Var} (hrun : q.run = checked 2 [any, Var.isList, Var.isInt] args f)
    (heq : ∀ {t l index c}, t.isValue = true → Var.areValues l = true → indexArg index = .ok c →
      f (t :: .list l :: index) = .ok (if 1 ≤ c then .ok (value t c l) else .error .eRange))
    (hanswer : q.answer = match values args with
      | [t, .list l] => some (value t 1 l)
      | [t, .list l, .int c] => if 1 ≤ c then some (value t c l) else none
      | _ => none) : q.Meets := by
  by_cases hcheck : checkArgs 2 [any, Var.isList, Var.isInt] (values args) = none
  · unfold Query.Meets
    rw [hanswer, hrun.trans (checked_of_none hcheck)]
    obtain ⟨t, l, h⟩ | ⟨t, l, c, h⟩ := checkArgs_assoc hcheck
    all_goals
      obtain ⟨ht, hl⟩ := values_pair h
      simp only [h]
      rw [heq ht hl rfl]
    · rfl
    · exact returns_ite
  · refine meets_of_refused (by rw [hrun]; exact checked_of_some hcheck) ?_
    rw [hanswer]
    split
    · next t l h => exact absurd (by rw [h]; rfl) hcheck
    · next t l c h => exact absurd (by rw [h]; rfl) hcheck
    · rfl

theorem iassoc_meets (args : List Operand) : (Query.iassoc args).Meets :=
  @search_meets _ args bfIassoc (fun t c l => .int (firstPlace t c l)) rfl bfIassoc_eq rfl

theorem assoc_meets (args : List Operand) : (Query.assoc args).Meets :=
  @search_meets _ args bfAssoc firstList rfl bfAssoc_eq rfl

/-- Only `slice` takes an index below 1 for a place. -/
theorem query_meets_iff (q : Query) : q.Meets ↔ q.indexed := by
  cases q with
  | slice args => exact slice_meets_iff args
  | iassoc args => exact iff_of_true (iassoc_meets args) trivial
  | assoc args => exact iff_of_true (assoc_meets args) trivial

/-- `slice({{1}}, 0)` reads the cell with the length. -/
theorem slice_zero : ¬ (Query.slice [⟨.list [.list [.int 1]], rfl, rfl⟩, ⟨.int 0, rfl, rfl⟩]).Meets := by
  rw [slice_meets_iff]
  intro h
  obtain hc | ⟨v, rest, hl, hv⟩ := h _ _ rfl
  · exact absurd hc (by decide)
  · cases hl
    cases hv

end LambdaMoo
