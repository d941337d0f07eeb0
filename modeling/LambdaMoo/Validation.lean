import Mathlib.Data.Fintype.Card
import LambdaMoo.StoreInvariant
import LambdaMoo.ValidateHierarchies

/-! What `validate_hierarchies` makes of a table, whatever its links are: it comes to an end, it
lets only sound tables through, and it lets every sound one through. -/
namespace LambdaMoo

namespace Db

variable {db db' : Db} {h : Hier} {oid a : Objid} {o : Object} {l : List Objid}
  {field : Object → Objid} {n : Nat}

/-- Every object has the number it is found under; its links may be anything. -/
structure Numbered (db : Db) : Prop where
  numObjects_nonneg : 0 ≤ db.numObjects
  ids : ∀ {i o}, db.objects i = some o → o.id = i ∧ 0 ≤ i ∧ i < db.numObjects

def follow (db : Db) (field : Object → Objid) (oid : Objid) : Objid :=
  (db.objects oid).elim nothing field

theorem follow_of (ho : db.objects oid = some o) : db.follow field oid = field o := by
  simp [follow, ho]

def Leads (db : Db) (field : Object → Objid) : Prop :=
  ∀ i o, db.objects i = some o → field o = nothing ∨ field o ∈ db.dom

theorem Leads.mem (hf : db.Leads field) (ho : oid ∈ db.dom) :
    db.follow field oid = nothing ∨ db.follow field oid ∈ db.dom := by
  obtain ⟨o, ho⟩ := mem_dom.mp ho
  rw [follow_of ho]
  exact hf oid o ho

theorem Leads.subset (hf : db.Leads field) (hl : Chain (db.follow field) nothing a l)
    (ha : a = nothing ∨ a ∈ db.dom) : ∀ z ∈ l, z ∈ db.dom := by
  induction hl with
  | nil => simp
  | @cons c cs hne _ ih =>
      have hc := ha.resolve_left hne
      intro z hz
      obtain rfl | hz := List.mem_cons.mp hz
      · exact hc
      · exact ih (hf.mem hc) z hz

namespace Numbered

variable (hn : Numbered db)
include hn

theorem nothing_notMem : nothing ∉ db.dom := by
  intro hd
  obtain ⟨o, ho⟩ := mem_dom.mp hd
  exact absurd (hn.ids ho).2.1 (by decide)

theorem find_eq (oid : Objid) : db.find oid = db.objects oid := by
  unfold find
  split
  · next hout =>
      cases ho : db.objects oid with
      | none => rfl
      | some o =>
          have := (hn.ids ho).2
          lia
  · rfl

theorem mem_oids (ho : db.objects oid = some o) : oid ∈ db.oids := by
  have hrange := (hn.ids ho).2
  refine List.mem_map.mpr ⟨oid.toNat, ?_, Int.toNat_of_nonneg hrange.1⟩
  rw [List.mem_range]
  lia

theorem length_le (hl : l.Nodup) (hsub : ∀ z ∈ l, z ∈ db.dom) : l.length ≤ db.numObjects.toNat := by
  have hoids : l ⊆ db.oids := fun z hz => by
    obtain ⟨o, ho⟩ := mem_dom.mp (hsub z hz)
    exact hn.mem_oids ho
  have hlen := (hl.subperm hoids).length_le
  rwa [oids, List.length_map, List.length_range] at hlen

end Numbered

/-! Phase 1. -/

def mended (db : Db) (oid : Objid) : Objid :=
  if oid ≠ nothing ∧ (db.find oid).isNone then nothing else oid

theorem mended_spec (db : Db) (oid : Objid) : db.mended oid = nothing ∨ (db.find (db.mended oid)).isSome := by
  unfold mended
  split
  · exact .inl rfl
  · next hok =>
      by_cases hne : oid = nothing
      · exact .inl hne
      · exact .inr (Option.isSome_iff_ne_none.mpr fun hnone => hok ⟨hne, by rw [hnone]; rfl⟩)

theorem mended_of (hok : oid = nothing ∨ (db.find oid).isSome) : db.mended oid = oid := by
  unfold mended
  rw [if_neg]
  rintro ⟨hne, hnone⟩
  rw [Option.isNone_iff_eq_none.mp hnone] at hok
  exact hne (hok.resolve_right nofun)

theorem checkField_eq {put : Objid → Object → Object} (hput : put (field o) o = o) :
    db.checkField field put o = put (db.mended (field o)) o := by
  unfold checkField mended
  split
  · rfl
  · exact hput.symm

theorem checkLinks_eq (db : Db) (o : Object) : db.checkLinks o =
    { o with
      parent := db.mended o.parent
      child := db.mended o.child
      sibling := db.mended o.sibling
      location := db.mended o.location
      contents := db.mended o.contents
      next := db.mended (if o.location = nothing then nothing else o.next) } := by
  have hnext : (if o.location = nothing ∧ o.next ≠ nothing then { o with next := nothing } else o) =
      { o with next := if o.location = nothing then nothing else o.next } := by
    by_cases hl : o.location = nothing
    · by_cases hx : o.next = nothing
      · rw [if_neg (by simp [hx]), if_pos hl, ← hx]
      · rw [if_pos ⟨hl, hx⟩, if_pos hl]
    · rw [if_neg (by simp [hl]), if_neg hl]
  unfold checkLinks
  rw [hnext]
  dsimp only
  rw [checkField_eq rfl, checkField_eq rfl, checkField_eq rfl, checkField_eq rfl, checkField_eq rfl,
    checkField_eq rfl]

theorem checkLinks_congr (hv : ∀ i, (db'.find i).isNone = (db.find i).isNone) :
    db'.checkLinks = db.checkLinks := by
  funext o
  have hm : db'.mended = db.mended := by
    funext i
    simp only [mended, hv]
  rw [checkLinks_eq, checkLinks_eq, hm]

theorem checkInvalid_loop (hn : Numbered db) :
    ∀ (l : List Objid) (d : Db), l.Nodup → d = { db with objects := d.objects } →
    (∀ i ∈ l, d.objects i = db.objects i) → (∀ i, (d.find i).isNone = (db.find i).isNone) →
    l.foldl (fun db oid => match db.find oid with
      | none => db
      | some o => db.set oid (db.checkLinks o)) d =
      { db with objects := fun i => if i ∈ l then (db.objects i).map db.checkLinks else d.objects i } := by
  intro l
  induction l with
  | nil =>
      intro d _ hd _ _
      simpa using hd
  | cons i is ih =>
      intro d hnodup hd hsame hv
      obtain ⟨hi, his⟩ := List.nodup_cons.mp hnodup
      have hnum : d.numObjects = db.numObjects := by rw [hd]
      have hfind : d.find i = db.objects i := by
        rw [← hn.find_eq, find, find, hnum, hsame i List.mem_cons_self]
      rw [List.foldl_cons, hfind]
      cases ho : db.objects i with
      | none =>
          dsimp only
          rw [ih d his hd (fun j hj => hsame j (List.mem_cons_of_mem i hj)) hv]
          congr 1
          funext j
          by_cases hj : j = i
          · subst hj
            simp [hi, hsame j, ho]
          · simp [hj]
      | some o =>
          dsimp only
          rw [checkLinks_congr hv, ih _ his]
          · congr 1
            funext j
            by_cases hj : j = i
            · subst hj
              simp [hi, set, ho]
            · simp [hj, set]
          · rw [set, hd]
          · intro j hj
            have hne : j ≠ i := fun heq => hi (heq ▸ hj)
            rw [set_objects, Function.update_of_ne hne, hsame j (List.mem_cons_of_mem i hj)]
          · intro j
            rw [← hv j]
            by_cases hj : j = i
            · subst hj
              rw [find, set, hfind, ho]
              dsimp only
              rw [hnum, if_neg (by have := (hn.ids ho).2; lia), Function.update_self]
              rfl
            · rw [find, set, find]
              dsimp only
              rw [Function.update_of_ne hj]

theorem checkInvalid_eq (hn : Numbered db) : db.checkInvalid =
    { db with objects := fun i => (db.objects i).map db.checkLinks } := by
  have hnodup : db.oids.Nodup := List.nodup_range.map Int.ofNat_injective
  refine (checkInvalid_loop hn db.oids db hnodup rfl (fun _ _ => rfl) fun _ => rfl).trans ?_
  congr 1
  funext i
  cases ho : db.objects i with
  | none => simp
  | some o => rw [if_pos (hn.mem_oids ho)]

/-! Phases 2 and 3. -/

/-- A check that gets an answer, always the same: nothing is broken exactly if `P`. -/
def Tells {ι : Type} (c : ι → Option Bool) (P : Prop) : Prop :=
  ∃ b, (∀ x, c x = some b) ∧ (b = false ↔ P)

namespace Tells

variable {ι : Type} {c c₁ c₂ c₃ c₄ : ι → Option Bool} {P Q P₁ P₂ P₃ P₄ : Prop}

theorem congr (hc : Tells c P) (hP : P ↔ Q) : Tells c Q := propext hP ▸ hc

theorem four (h₁ : Tells c₁ P₁) (h₂ : Tells c₂ P₂) (h₃ : Tells c₃ P₃) (h₄ : Tells c₄ P₄) :
    Tells (fun x => do
      let b₁ ← c₁ x
      let b₂ ← c₂ x
      let b₃ ← c₃ x
      let b₄ ← c₄ x
      return b₁ || b₂ || b₃ || b₄) (P₁ ∧ P₂ ∧ P₃ ∧ P₄) := by
  obtain ⟨b₁, hb₁, h₁⟩ := h₁
  obtain ⟨b₂, hb₂, h₂⟩ := h₂
  obtain ⟨b₃, hb₃, h₃⟩ := h₃
  obtain ⟨b₄, hb₄, h₄⟩ := h₄
  refine ⟨b₁ || b₂ || b₃ || b₄, fun x => ?_, ?_⟩
  · dsimp only
    rw [hb₁, hb₂, hb₃, hb₄]
    rfl
  · rw [Bool.or_eq_false_iff, Bool.or_eq_false_iff, Bool.or_eq_false_iff, h₁, h₂, h₃, h₄, and_assoc,
      and_assoc]

theorem anyObject_loop (hn : Numbered db) {check : ι → Objid → Object → Option Bool}
    {P : Objid → Object → Prop} (hc : ∀ i o, db.objects i = some o → Tells (fun x => check x i o) (P i o)) :
    ∀ (l : List Objid) (b₀ : Bool), ∃ b,
    (∀ x, l.foldlM (fun broken oid => match db.find oid with
      | none => return broken
      | some o => return broken || (← check x oid o)) b₀ = some b) ∧
    (b = false ↔ b₀ = false ∧ ∀ i ∈ l, ∀ o, db.objects i = some o → P i o) := by
  intro l
  induction l with
  | nil => exact fun b₀ => ⟨b₀, fun _ => rfl, by simp⟩
  | cons i is ih =>
      intro b₀
      cases ho : db.objects i with
      | none =>
          obtain ⟨b, hb, hiff⟩ := ih b₀
          refine ⟨b, fun x => ?_, hiff.trans (and_congr_right fun _ => ?_)⟩
          · rw [List.foldlM_cons, hn.find_eq, ho]
            exact hb x
          · simp [ho]
      | some o =>
          obtain ⟨c, hco, hciff⟩ := hc i o ho
          obtain ⟨b, hb, hiff⟩ := ih (b₀ || c)
          refine ⟨b, fun x => ?_, hiff.trans ?_⟩
          · rw [List.foldlM_cons, hn.find_eq, ho]
            have hcheck : check x i o = some c := hco x
            dsimp only
            rw [hcheck]
            exact hb x
          · simp only [Bool.or_eq_false_iff, List.forall_mem_cons, ho, Option.some.injEq,
              forall_eq', hciff, and_assoc]

theorem anyObject (hn : Numbered db) {check : ι → Objid → Object → Option Bool} {P : Objid → Object → Prop}
    (hc : ∀ i o, db.objects i = some o → Tells (fun x => check x i o) (P i o)) :
    Tells (fun x => db.anyObject (check x)) (∀ i o, db.objects i = some o → P i o) := by
  obtain ⟨b, hb, hiff⟩ := anyObject_loop hn hc db.oids false
  refine ⟨b, hb, hiff.trans ?_⟩
  simp only [true_and]
  exact ⟨fun hall i o ho => hall i (hn.mem_oids ho) o ho, fun hall i _ o ho => hall i o ho⟩

end Tells

theorem isCycle_spec (hn : Numbered db) (hf : db.Leads field) (ha : a = nothing ∨ a ∈ db.dom) :
    ∃ b, db.isCycle field n a = some b ∧
      (b = false ↔ ∃ l, Chain (db.follow field) nothing a l ∧ l.length ≤ n) := by
  induction n generalizing a with
  | zero =>
      refine ⟨decide (a ≠ nothing), rfl, ?_⟩
      simp
  | succ n ih =>
      unfold isCycle
      by_cases hne : a = nothing
      · rw [if_pos hne]
        exact ⟨false, rfl, iff_of_true rfl ⟨[], hne ▸ .nil, Nat.zero_le _⟩⟩
      · obtain ⟨o, ho⟩ := mem_dom.mp (ha.resolve_left hne)
        obtain ⟨b, hb, hiff⟩ := ih (hf a o ho)
        rw [if_neg hne, hn.find_eq, ho]
        refine ⟨b, hb, hiff.trans ?_⟩
        rw [show field o = db.follow field a from (follow_of ho).symm]
        constructor
        · rintro ⟨l, hl, hlen⟩
          exact ⟨a :: l, .cons hne hl, Nat.succ_le_succ hlen⟩
        · rintro ⟨l, hl, hlen⟩
          cases hl with
          | nil => exact absurd rfl hne
          | cons _ hl => exact ⟨_, hl, Nat.le_of_succ_le_succ hlen⟩

structure Closed (db : Db) : Prop where
  up : ∀ h, db.Leads (Object.up h)
  head : ∀ h, db.Leads (Object.head h)
  next : ∀ h, db.Leads (Object.nextIn h)

/-- Following the links of an object upwards, and through its list, comes to an end. -/
def Ending (db : Db) (h : Hier) (o : Object) : Prop :=
  (∃ l, Chain (db.upOf h) nothing (o.up h) l) ∧ ∃ l, Chain (db.nextOf h) nothing (o.head h) l

theorem isCycle_size (hn : Numbered db) (hf : db.Leads field) (ha : a = nothing ∨ a ∈ db.dom) :
    Tells (fun _ : Unit => db.isCycle field db.numObjects.toNat a)
      (∃ l, Chain (db.follow field) nothing a l) := by
  obtain ⟨b, hb, hiff⟩ := isCycle_spec (n := db.numObjects.toNat) hn hf ha
  refine ⟨b, fun _ => hb, hiff.trans (exists_congr fun l => and_iff_left_of_imp fun hl => ?_)⟩
  exact hn.length_le hl.nodup (hf.subset hl ha)

theorem checkCycles_spec (hn : Numbered db) (hc : Closed db) :
    Tells (fun _ : Unit => db.checkCycles) (∀ i o, db.objects i = some o → ∀ h, db.Ending h o) := by
  refine Tells.anyObject hn fun i o ho => ?_
  have hparent := isCycle_size hn (hc.up .family) (hc.up .family i o ho)
  have hchild := isCycle_size hn (hc.next .family) (hc.head .family i o ho)
  have hlocation := isCycle_size hn (hc.up .place) (hc.up .place i o ho)
  have hcontents := isCycle_size hn (hc.next .place) (hc.head .place i o ho)
  refine (hparent.four hchild hlocation hcontents).congr ⟨fun hall h => ?_, fun hall => ?_⟩
  · cases h with
    | family => exact ⟨hall.1, hall.2.1⟩
    | place => exact hall.2.2
  · exact ⟨(hall .family).1, (hall .family).2, hall .place⟩

theorem isOnList_eq (hn : Numbered db) (hl : Chain (db.nextOf h) nothing a l) (hsub : ∀ z ∈ l, z ∈ db.dom)
    (hfuel : l.length < n) : db.isOnList (Object.nextIn h) oid n a = some (decide (oid ∈ l)) := by
  induction hl generalizing n with
  | nil =>
      obtain ⟨n, rfl⟩ := Nat.exists_eq_succ_of_ne_zero (Nat.ne_zero_of_lt hfuel)
      simp [isOnList]
  | @cons x xs hne _ ih =>
      obtain ⟨n, rfl⟩ := Nat.exists_eq_succ_of_ne_zero (Nat.ne_zero_of_lt hfuel)
      obtain ⟨o, ho⟩ := mem_dom.mp (hsub x List.mem_cons_self)
      have hrest := ih (fun z hz => hsub z (List.mem_cons_of_mem x hz)) (Nat.lt_of_succ_lt_succ hfuel)
      rw [nextOf_of ho] at hrest
      unfold isOnList
      rw [if_neg hne]
      by_cases hx : x = oid
      · simp [hx]
      · rw [if_neg hx, hn.find_eq, ho]
        simp only [Option.bind_eq_bind, Option.bind_some, hrest, List.mem_cons, Ne.symm hx, false_or]

theorem hasStray_eq (hn : Numbered db) (hl : Chain (db.nextOf h) nothing a l) (hsub : ∀ z ∈ l, z ∈ db.dom)
    (hfuel : l.length < n) :
    db.hasStray h oid n a = some (l.any fun z => decide (db.upOf h z ≠ oid)) := by
  induction hl generalizing n with
  | nil =>
      obtain ⟨n, rfl⟩ := Nat.exists_eq_succ_of_ne_zero (Nat.ne_zero_of_lt hfuel)
      simp [hasStray]
  | @cons x xs hne _ ih =>
      obtain ⟨n, rfl⟩ := Nat.exists_eq_succ_of_ne_zero (Nat.ne_zero_of_lt hfuel)
      obtain ⟨o, ho⟩ := mem_dom.mp (hsub x List.mem_cons_self)
      have hrest := ih (fun z hz => hsub z (List.mem_cons_of_mem x hz)) (Nat.lt_of_succ_lt_succ hfuel)
      rw [nextOf_of ho] at hrest
      unfold hasStray
      rw [if_neg hne, hn.find_eq, ho, List.any_cons, upOf_of ho]
      simp only [Option.bind_eq_bind, Option.bind_some, hrest]
      rfl

/-! What the phases come to. -/

def Listed (db : Db) (h : Hier) (i : Objid) (o : Object) : Prop :=
  (∀ l, o.up h ∈ db.dom → Chain (db.nextOf h) nothing (db.headOf h (o.up h)) l → i ∈ l) ∧
    ∀ l, Chain (db.nextOf h) nothing (o.head h) l → ∀ z ∈ l, db.upOf h z = i

theorem exists_list (hn : Numbered db) (hc : Closed db) (hend : db.Ending h o) (ho : db.objects oid = some o) :
    ∃ l, Chain (db.nextOf h) nothing (o.head h) l ∧ (∀ z ∈ l, z ∈ db.dom) ∧
      l.length ≤ db.numObjects.toNat := by
  obtain ⟨l, hl⟩ := hend.2
  have hsub := (hc.next h).subset hl (hc.head h oid o ho)
  exact ⟨l, hl, hsub, hn.length_le hl.nodup hsub⟩

abbrev Enough (db : Db) : Type := { n : Nat // db.numObjects.toNat < n }

theorem isMissing_tells (hn : Numbered db) (hc : Closed db)
    (hend : ∀ i o, db.objects i = some o → ∀ h, db.Ending h o) (ho : db.objects oid = some o) (h : Hier) :
    Tells (fun n : db.Enough => db.isMissing n.1 h oid o)
      (∀ l, o.up h ∈ db.dom → Chain (db.nextOf h) nothing (db.headOf h (o.up h)) l → oid ∈ l) := by
  unfold isMissing
  by_cases hup : o.up h = nothing
  · refine ⟨false, fun n => if_pos hup, iff_of_true rfl fun l hd _ => ?_⟩
    exact absurd (hup ▸ hd) hn.nothing_notMem
  · obtain ⟨w, hw⟩ := mem_dom.mp ((hc.up h oid o ho).resolve_left hup)
    obtain ⟨l, hl, hsub, hlen⟩ := exists_list hn hc (hend _ w hw h) hw
    refine ⟨!decide (oid ∈ l), fun n => ?_, ?_⟩
    · dsimp only
      rw [if_neg hup, hn.find_eq, hw]
      simp only [Option.bind_eq_bind, Option.bind_some,
        isOnList_eq hn hl hsub (Nat.lt_of_le_of_lt hlen n.2)]
      rfl
    · rw [Bool.not_eq_false', decide_eq_true_eq, headOf_of hw]
      constructor
      · intro hi l' _ hl'
        rwa [hl'.unique hl]
      · exact fun hall => hall l (mem_dom_of hw) hl

theorem hasStray_tells (hn : Numbered db) (hc : Closed db)
    (hend : ∀ i o, db.objects i = some o → ∀ h, db.Ending h o) (ho : db.objects oid = some o) (h : Hier) :
    Tells (fun n : db.Enough => db.hasStray h oid n.1 (o.head h))
      (∀ l, Chain (db.nextOf h) nothing (o.head h) l → ∀ z ∈ l, db.upOf h z = oid) := by
  obtain ⟨l, hl, hsub, hlen⟩ := exists_list hn hc (hend _ o ho h) ho
  refine ⟨_, fun n => hasStray_eq hn hl hsub (Nat.lt_of_le_of_lt hlen n.2), ?_⟩
  rw [List.any_eq_false]
  constructor
  · intro hany l' hl' z hz
    rw [hl'.unique hl] at hz
    by_contra hne
    exact hany z hz (decide_eq_true hne)
  · exact fun hall z hz => by simp [hall l hl z hz]

theorem checkLists_spec (hn : Numbered db) (hc : Closed db)
    (hend : ∀ i o, db.objects i = some o → ∀ h, db.Ending h o) :
    Tells (fun n : db.Enough => db.checkLists n.1) (∀ i o, db.objects i = some o → ∀ h, db.Listed h i o) := by
  refine Tells.anyObject hn fun i o ho => ?_
  have hmissing := isMissing_tells hn hc hend ho
  have hstray := hasStray_tells hn hc hend ho
  refine ((hmissing .family).four (hmissing .place) (hstray .family) (hstray .place)).congr
    ⟨fun hall h => ?_, fun hall => ?_⟩
  · cases h with
    | family => exact ⟨hall.1, hall.2.2.1⟩
    | place => exact ⟨hall.2.1, hall.2.2.2⟩
  · exact ⟨(hall .family).1, (hall .place).1, (hall .family).2, (hall .place).2⟩

/-! Sound tables, and only they, pass. -/

theorem linked_iff (hn : Numbered db) (hc : Closed db) : (∀ h, db.Linked h) ↔
    (∀ i o, db.objects i = some o → ∀ h, db.Ending h o) ∧
      ∀ i o, db.objects i = some o → ∀ h, db.Listed h i o := by
  constructor
  · intro hl
    constructor
    · intro i o ho h
      have hi := mem_dom_of ho
      constructor
      · obtain hnil | hup := hc.up h i o ho
        · exact ⟨[], hnil ▸ .nil⟩
        · exact (hl h).rooted hup
      · obtain ⟨l, hl, _⟩ := (hl h).members i hi
        exact ⟨l, headOf_of (h := h) ho ▸ hl⟩
    · intro i o ho h
      have hi := mem_dom_of ho
      constructor
      · intro l hd hchain
        obtain ⟨l', hl', hm⟩ := (hl h).members _ hd
        rw [hchain.unique hl', hm]
        exact ⟨hi, upOf_of ho⟩
      · intro l hchain z hz
        obtain ⟨l', hl', hm⟩ := (hl h).members i hi
        rw [headOf_of ho] at hl'
        rw [hchain.unique hl'] at hz
        exact ((hm z).mp hz).2
  · rintro ⟨hend, hlisted⟩ h
    refine ⟨hn.nothing_notMem, (hc.up h).mem, fun y hy => ?_, fun {x} hx => ?_⟩
    · obtain ⟨o, ho⟩ := mem_dom.mp hy
      obtain ⟨l, hl, hsub, _⟩ := exists_list hn hc (hend y o ho h) ho
      refine ⟨l, by rwa [headOf_of ho], fun z => ⟨fun hz => ?_, ?_⟩⟩
      · exact ⟨hsub z hz, (hlisted y o ho h).2 l hl z hz⟩
      · rintro ⟨hz, rfl⟩
        obtain ⟨w, hw⟩ := mem_dom.mp hz
        rw [upOf_of hw] at hy ho
        exact (hlisted z w hw h).1 l hy (by rwa [headOf_of ho])
    · obtain ⟨o, ho⟩ := mem_dom.mp hx
      obtain ⟨l, hl⟩ := (hend x o ho h).1
      rw [← upOf_of ho] at hl
      refine ⟨x :: l, .cons ?_ hl⟩
      rintro rfl
      exact hn.nothing_notMem hx

/-! Phase 1 mends the links. -/

theorem objects_checkInvalid (hn : Numbered db) (oid : Objid) :
    db.checkInvalid.objects oid = (db.objects oid).map db.checkLinks := by
  rw [checkInvalid_eq hn]

theorem dom_checkInvalid (hn : Numbered db) : db.checkInvalid.dom = db.dom := by
  ext i
  simp [dom, objects_checkInvalid hn]

theorem numObjects_checkInvalid (hn : Numbered db) : db.checkInvalid.numObjects = db.numObjects := by
  rw [checkInvalid_eq hn]

theorem Numbered.checkInvalid (hn : Numbered db) : Numbered db.checkInvalid := by
  refine ⟨numObjects_checkInvalid hn ▸ hn.numObjects_nonneg, fun {i o'} ho' => ?_⟩
  rw [objects_checkInvalid hn, Option.map_eq_some_iff] at ho'
  obtain ⟨o, ho, rfl⟩ := ho'
  have hids := hn.ids ho
  rw [numObjects_checkInvalid hn, checkLinks_eq]
  exact hids

theorem leads_checkInvalid (hn : Numbered db) (hf : ∀ o, ∃ x, field (db.checkLinks o) = db.mended x) :
    db.checkInvalid.Leads field := by
  intro i o' ho'
  rw [objects_checkInvalid hn, Option.map_eq_some_iff] at ho'
  obtain ⟨o, -, rfl⟩ := ho'
  obtain ⟨x, hx⟩ := hf o
  rw [hx, dom_checkInvalid hn]
  have hspec := db.mended_spec x
  rwa [hn.find_eq] at hspec

theorem closed_checkInvalid (hn : Numbered db) : Closed db.checkInvalid := by
  refine ⟨fun h => leads_checkInvalid hn fun o => ?_, fun h => leads_checkInvalid hn fun o => ?_,
    fun h => leads_checkInvalid hn fun o => ?_⟩ <;> rw [checkLinks_eq] <;> cases h <;> exact ⟨_, rfl⟩

theorem validateHierarchies_tells (hn : Numbered db) :
    ∃ b, (∀ n, db.numObjects.toNat < n → db.validateHierarchies n = some (b, db.checkInvalid)) ∧
      (b = true ↔ ∀ h, db.checkInvalid.Linked h) := by
  have hn' := hn.checkInvalid
  have hc := closed_checkInvalid hn
  have hnum := numObjects_checkInvalid hn
  obtain ⟨b, hb, hbiff⟩ := checkCycles_spec hn' hc
  have hcycles : db.checkInvalid.checkCycles = some b := hb ()
  rw [linked_iff hn' hc]
  cases b with
  | true =>
      refine ⟨false, fun n _ => ?_, iff_of_false nofun fun hall => ?_⟩
      · unfold validateHierarchies
        dsimp only
        rw [hcycles]
        rfl
      · exact absurd (hbiff.mpr hall.1) nofun
  | false =>
      have hend := hbiff.mp rfl
      obtain ⟨b', hb', hbiff'⟩ := checkLists_spec hn' hc hend
      refine ⟨!b', fun n hlt => ?_, ?_⟩
      · have hlists : db.checkInvalid.checkLists n = some b' := hb' ⟨n, hnum ▸ hlt⟩
        unfold validateHierarchies
        dsimp only
        rw [hcycles]
        change (db.checkInvalid.checkLists n).bind _ = _
        rw [hlists]
        rfl
      · rw [Bool.not_eq_true', hbiff', and_iff_right hend]

/-! A sound table. -/

theorem WellLinked.rooted (hn : Numbered db) (hw : WellLinked db) (hx : oid ∈ db.dom) :
    ∃ l, Chain (db.upOf h) nothing oid l := by
  have hfinite : db.dom.Finite := (List.finite_toSet db.oids).subset fun z hz => by
    obtain ⟨o, ho⟩ := mem_dom.mp hz
    exact hn.mem_oids ho
  have := hfinite.to_subtype
  let above (x y : db.dom) : Prop := Relation.TransGen (db.HangsUnder h) y x
  have htrans : IsTrans db.dom above := ⟨fun _ _ _ hxy hyz => hyz.trans hxy⟩
  have hirrefl : Std.Irrefl above := ⟨fun x => hw.acyclic h x⟩
  have hwf : WellFounded above := Finite.wellFounded_of_trans_of_irrefl above
  have hall : ∀ x : db.dom, ∃ l, Chain (db.upOf h) nothing x.1 l := by
    intro x
    induction x using hwf.induction with | _ x ih
    obtain ⟨o, ho⟩ := mem_dom.mp x.2
    have hne : x.1 ≠ nothing := fun heq => hn.nothing_notMem (heq ▸ x.2)
    obtain hnil | hup := hw.up h x o ho
    · refine ⟨[x.1], .cons hne ?_⟩
      rw [upOf_of ho, hnil]
      exact .nil
    · have hne' : o.up h ≠ nothing := fun heq => hn.nothing_notMem (heq ▸ hup)
      obtain ⟨l, hl⟩ := ih ⟨o.up h, hup⟩ (.single ⟨o, ho, rfl, hne'⟩)
      refine ⟨x.1 :: l, .cons hne ?_⟩
      rwa [upOf_of ho]
  exact hall ⟨oid, hx⟩

theorem WellLinked.linked (hn : Numbered db) (hw : WellLinked db) (h : Hier) : db.Linked h := by
  refine ⟨hn.nothing_notMem, fun {x} hx => ?_, fun y hy => ?_, fun hx => hw.rooted hn hx⟩
  · obtain ⟨o, ho⟩ := mem_dom.mp hx
    rw [upOf_of ho]
    exact hw.up h x o ho
  · obtain ⟨o, ho⟩ := mem_dom.mp hy
    obtain ⟨l, hl, -, hm⟩ := hw.lists h y o ho
    refine ⟨l, by rwa [headOf_of ho], fun z => (hm z).trans ?_⟩
    constructor
    · rintro ⟨o', ho', hup⟩
      exact ⟨mem_dom_of ho', by rwa [upOf_of ho']⟩
    · rintro ⟨hz, hup⟩
      obtain ⟨o', ho'⟩ := mem_dom.mp hz
      exact ⟨o', ho', by rwa [upOf_of ho'] at hup⟩

/-- The only links that differ are those to a next object, in objects that are on no list. -/
def LooseLinksOnly (db db' : Db) : Prop :=
  db' = { db with objects := db'.objects } ∧ (∀ i, db.objects i = none → db'.objects i = none) ∧
    ∀ i o, db.objects i = some o → ∃ next sibling, db'.objects i = some { o with next, sibling } ∧
      (o.location ≠ nothing → next = o.next) ∧ (o.parent ≠ nothing → sibling = o.sibling)

theorem WellLinked.looseLinksOnly (hn : Numbered db) (hw : WellLinked db) :
    LooseLinksOnly db db.checkInvalid := by
  refine ⟨by rw [checkInvalid_eq hn], fun i ho => by rw [objects_checkInvalid hn, ho]; rfl,
    fun i o ho => ?_⟩
  have hkeep : ∀ {x}, x = nothing ∨ x ∈ db.dom → db.mended x = x := fun hx =>
    mended_of (by rwa [hn.find_eq])
  refine ⟨db.mended (if o.location = nothing then nothing else o.next), db.mended o.sibling, ?_,
    fun hne => ?_, fun hne => hkeep (hw.next .family i o ho hne)⟩
  · have hparent : db.mended o.parent = o.parent := hkeep (hw.up .family i o ho)
    have hchild : db.mended o.child = o.child := hkeep (hw.head .family i o ho)
    have hlocation : db.mended o.location = o.location := hkeep (hw.up .place i o ho)
    have hcontents : db.mended o.contents = o.contents := hkeep (hw.head .place i o ho)
    rw [objects_checkInvalid hn, ho, Option.map_some, checkLinks_eq, hparent, hchild, hlocation, hcontents]
  · rw [if_neg hne]
    exact hkeep (hw.next .place i o ho hne)

theorem LooseLinksOnly.linked (hloose : LooseLinksOnly db db') (hl : db.Linked h) : db'.Linked h := by
  obtain ⟨-, hnone, hsome⟩ := hloose
  have hdom : db'.dom = db.dom := by
    ext i
    cases ho : db.objects i with
    | none => simp [dom, ho, hnone i ho]
    | some o =>
        obtain ⟨next, sibling, ho', -⟩ := hsome i o ho
        simp [dom, ho, ho']
  unfold Linked
  rw [hdom]
  refine hl.congr (fun z hz => ?_) (fun z hz => ?_) fun z hz hup => ?_
  · obtain ⟨o, ho⟩ := mem_dom.mp hz
    obtain ⟨next, sibling, ho', -⟩ := hsome z o ho
    rw [upOf_of ho, upOf_of ho']
    cases h <;> rfl
  · obtain ⟨o, ho⟩ := mem_dom.mp hz
    obtain ⟨next, sibling, ho', -⟩ := hsome z o ho
    rw [headOf_of ho, headOf_of ho']
    cases h <;> rfl
  · obtain ⟨o, ho⟩ := mem_dom.mp hz
    obtain ⟨next, sibling, ho', hnext, hsibling⟩ := hsome z o ho
    have hne : o.up h ≠ nothing := by
      rw [upOf_of ho] at hup
      exact hl.ne_nil hup
    rw [nextOf_of ho, nextOf_of ho']
    cases h with
    | family => exact hsibling hne
    | place => exact hnext hne

/-- `validate_hierarchies` comes to an end on every table. It lets only sound tables through, and
every table that is sound, of which it changes nothing but links that mean nothing. -/
theorem validateHierarchies_correct (hn : Numbered db) :
    (∃ b db', (∀ n, db.numObjects.toNat < n → db.validateHierarchies n = some (b, db')) ∧
      (b = true → WellLinked db')) ∧
    (WellLinked db → ∃ db',
      (∀ n, db.numObjects.toNat < n → db.validateHierarchies n = some (true, db')) ∧
        LooseLinksOnly db db') := by
  obtain ⟨b, hb, hiff⟩ := validateHierarchies_tells hn
  refine ⟨⟨b, _, hb, fun hb => ?_⟩, fun hw => ?_⟩
  · have hs : Sound db.checkInvalid :=
      ⟨hn.checkInvalid.numObjects_nonneg, hn.checkInvalid.ids, hiff.mp hb⟩
    exact hs.wellLinked
  · have hloose := hw.looseLinksOnly hn
    obtain rfl : b = true := hiff.mpr fun h => hloose.linked (hw.linked hn h)
    exact ⟨_, hb, hloose⟩

def torn : Db := (house.modify (fun o => { o with location := 3 }) 4).getD empty

theorem torn_numbered : Numbered torn := by
  have hsome : (house.modify (fun o => { o with location := 3 }) 4).isSome = true := by decide +kernel
  obtain ⟨db, hdb⟩ := Option.isSome_iff_exists.mp hsome
  have ha : Agree Object.id house db := Agree.modify hdb fun _ => rfl
  have hs := house_intact.sound
  rw [torn, hdb]
  refine ⟨ha.numObjects ▸ hs.numObjects_nonneg, fun {i o} ho => ?_⟩
  obtain ⟨o', ho', hid⟩ := ha.symm.of_objects ho
  have hids := hs.ids ho'
  rwa [hid, ← ha.numObjects] at hids

theorem validateHierarchies_correct_house :
    (∃ db', (∀ n, 7 < n → house.validateHierarchies n = some (true, db')) ∧ LooseLinksOnly house db') ∧
    ∃ db', ∀ n, 7 < n → torn.validateHierarchies n = some (false, db') := by
  have hs := house_intact.sound
  have hnum : house.numObjects.toNat = 7 := by decide +kernel
  have hnum' : torn.numObjects.toNat = 7 := by decide +kernel
  obtain ⟨db', hyes, hloose⟩ := (validateHierarchies_correct ⟨hs.numObjects_nonneg, hs.ids⟩).2 hs.wellLinked
  obtain ⟨⟨b, db₁, htorn, -⟩, -⟩ := validateHierarchies_correct torn_numbered
  rw [hnum] at hyes
  rw [hnum'] at htorn
  refine ⟨⟨db', hyes, hloose⟩, db₁, ?_⟩
  have hno : (torn.validateHierarchies 8).map Prod.fst = some false := by decide +kernel
  rw [htorn 8 (by decide)] at hno
  obtain rfl : b = false := Option.some.inj hno
  exact htorn

end Db
end LambdaMoo
