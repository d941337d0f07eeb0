import Mathlib.Data.Int.Interval
import LambdaMoo.Lib.Hierarchy
import LambdaMoo.Db

/-! What holds of the object table between operations, and what its loops compute
then. Two tables agree on an observation of objects when no object is told apart from
its namesake by it. -/
namespace LambdaMoo

namespace Db

variable {db db' db'' : Db} {h : Hier} {oid a : Objid} {o : Object} {l : List Objid}

def dom (db : Db) : Set Objid := { oid | (db.objects oid).isSome }

def upOf (db : Db) (h : Hier) (oid : Objid) : Objid := (db.objects oid).elim nothing (Object.up h)

def headOf (db : Db) (h : Hier) (oid : Objid) : Objid :=
  (db.objects oid).elim nothing (Object.head h)

def nextOf (db : Db) (h : Hier) (oid : Objid) : Objid :=
  (db.objects oid).elim nothing (Object.nextIn h)

/-- One of the two hierarchies is threaded as it should be. -/
def Linked (db : Db) (h : Hier) : Prop :=
  Hierarchy db.dom nothing (db.upOf h) (db.headOf h) (db.nextOf h)

/-- Every object has the number it is found under, and both hierarchies are threaded
as they should be. -/
structure Sound (db : Db) : Prop where
  numObjects_nonneg : 0 ≤ db.numObjects
  ids : ∀ {i o}, db.objects i = some o → o.id = i ∧ 0 ≤ i ∧ i < db.numObjects
  linked : ∀ h, db.Linked h

def chain (db : Db) (h : Hier) (oid : Objid) : List Objid := (db.walkUp h db.fuel oid).getD []

theorem mem_dom : oid ∈ db.dom ↔ ∃ o, db.objects oid = some o := Option.isSome_iff_exists

theorem mem_dom_of (ho : db.objects oid = some o) : oid ∈ db.dom := mem_dom.mpr ⟨o, ho⟩

@[simp] theorem upOf_of (ho : db.objects oid = some o) : db.upOf h oid = o.up h := by
  simp [upOf, ho]

@[simp] theorem headOf_of (ho : db.objects oid = some o) : db.headOf h oid = o.head h := by
  simp [headOf, ho]

@[simp] theorem nextOf_of (ho : db.objects oid = some o) : db.nextOf h oid = o.nextIn h := by
  simp [nextOf, ho]

/-! Loops over lists and upwards. -/

theorem listFrom_eq (hl : Chain (db.nextOf h) nothing a l) (hsub : ∀ z ∈ l, z ∈ db.dom)
    {fuel : Nat} (hfuel : l.length < fuel) : db.listFrom h fuel a = some l := by
  induction hl generalizing fuel with
  | nil =>
      obtain ⟨n, rfl⟩ := Nat.exists_eq_succ_of_ne_zero (Nat.ne_of_gt hfuel)
      simp [listFrom]
  | @cons x xs hne _ ih =>
      obtain ⟨n, rfl⟩ := Nat.exists_eq_succ_of_ne_zero (Nat.ne_zero_of_lt hfuel)
      obtain ⟨o, ho⟩ := mem_dom.mp (hsub x (by simp))
      have hlen : xs.length < n := by simpa using hfuel
      have hxs := ih (fun z hz => hsub z (by simp [hz])) hlen
      rw [nextOf_of ho] at hxs
      simp [listFrom, hne, ho, hxs]

theorem walkUp_eq (hl : Chain (db.upOf h) nothing a l) (hsub : ∀ z ∈ l, z ∈ db.dom)
    {fuel : Nat} (hfuel : l.length < fuel) : db.walkUp h fuel a = some l := by
  induction hl generalizing fuel with
  | nil =>
      obtain ⟨n, rfl⟩ := Nat.exists_eq_succ_of_ne_zero (Nat.ne_of_gt hfuel)
      simp [walkUp]
  | @cons x xs hne _ ih =>
      obtain ⟨n, rfl⟩ := Nat.exists_eq_succ_of_ne_zero (Nat.ne_zero_of_lt hfuel)
      obtain ⟨o, ho⟩ := mem_dom.mp (hsub x (by simp))
      have hlen : xs.length < n := by simpa using hfuel
      have hxs := ih (fun z hz => hsub z (by simp [hz])) hlen
      rw [upOf_of ho] at hxs
      simp [walkUp, hne, ho, hxs]

theorem walkUp_chain {fuel : Nat} (hl : db.walkUp h fuel a = some l) :
    Chain (db.upOf h) nothing a l ∧ ∀ z ∈ l, z ∈ db.dom := by
  induction fuel generalizing a l with
  | zero => cases hl
  | succ n ih =>
      by_cases ha : a = nothing
      · simp only [walkUp, ha, if_pos, Option.some.injEq] at hl
        subst hl
        simpa using ha
      · simp only [walkUp, ha, if_false, Option.bind_eq_bind, Option.bind_eq_some_iff,
          Option.pure_def, Option.some.injEq] at hl
        obtain ⟨o, ho, xs, hxs, rfl⟩ := hl
        obtain ⟨hchain, hsub⟩ := ih hxs
        refine ⟨.cons ha ?_, ?_⟩
        · rwa [upOf_of ho]
        · intro z hz
          obtain rfl | hz := List.mem_cons.mp hz
          · exact mem_dom_of ho
          · exact hsub z hz

namespace Sound

variable (hs : Sound db)
include hs

theorem range (ho : oid ∈ db.dom) : 0 ≤ oid ∧ oid < db.numObjects := by
  obtain ⟨o, ho⟩ := mem_dom.mp ho
  exact (hs.ids ho).2

theorem nothing_notMem : nothing ∉ db.dom := (hs.linked .family).nil_notMem

theorem ne_nothing (ho : oid ∈ db.dom) : oid ≠ nothing := (hs.linked .family).ne_nil ho

theorem find_eq (oid : Objid) : db.find oid = db.objects oid := by
  unfold find
  split
  · next hout =>
      cases ho : db.objects oid with
      | none => rfl
      | some o =>
          have := (hs.ids ho).2
          lia
  · rfl

theorem valid_iff : db.valid oid = true ↔ oid ∈ db.dom := by
  rw [valid, hs.find_eq]
  rfl

theorem length_le (hl : l.Nodup) (hsub : ∀ z ∈ l, z ∈ db.dom) : l.length ≤ db.numObjects.toNat := by
  have hico : l.toFinset ⊆ Finset.Ico 0 db.numObjects := by
    intro z hz
    have := hs.range (hsub z (List.mem_toFinset.mp hz))
    exact Finset.mem_Ico.mpr this
  have hcard := Finset.card_le_card hico
  rw [List.toFinset_card_of_nodup hl, Int.card_Ico] at hcard
  simpa using hcard

theorem length_lt_fuel (hl : l.Nodup) (hsub : ∀ z ∈ l, z ∈ db.dom) : l.length < db.fuel := by
  have := hs.length_le hl hsub
  unfold fuel
  omega

theorem up_mem (ho : oid ∈ db.dom) : db.upOf h oid = nothing ∨ db.upOf h oid ∈ db.dom :=
  (hs.linked h).up_mem ho

theorem walkUp_fuel (ha : a = nothing ∨ a ∈ db.dom) :
    db.walkUp h db.fuel a = some (db.chain h a) := by
  obtain ⟨l, hl⟩ : ∃ l, Chain (db.upOf h) nothing a l := by
    obtain rfl | ha := ha
    · exact ⟨[], .nil⟩
    · exact (hs.linked h).rooted ha
  have hsub := (hs.linked h).chain_subset hl ha
  have hwalk := walkUp_eq hl hsub (hs.length_lt_fuel hl.nodup hsub)
  simp [chain, hwalk]

theorem chain_spec (ha : a = nothing ∨ a ∈ db.dom) :
    Chain (db.upOf h) nothing a (db.chain h a) ∧ ∀ z ∈ db.chain h a, z ∈ db.dom :=
  walkUp_chain (hs.walkUp_fuel ha)

theorem chain_eq (ha : a = nothing ∨ a ∈ db.dom) (hl : Chain (db.upOf h) nothing a l) :
    db.chain h a = l :=
  (hs.chain_spec ha).1.unique hl

@[simp] theorem chain_nothing : db.chain h nothing = [] := hs.chain_eq (.inl rfl) .nil

theorem chain_cons (ha : a ∈ db.dom) : db.chain h a = a :: db.chain h (db.upOf h a) :=
  hs.chain_eq (.inr ha) (.cons (hs.ne_nothing ha) (hs.chain_spec (hs.up_mem ha)).1)

theorem chain_length_le (ha : a = nothing ∨ a ∈ db.dom) :
    (db.chain h a).length ≤ db.numObjects.toNat :=
  hs.length_le (hs.chain_spec ha).1.nodup (hs.chain_spec ha).2

theorem chain_suffix (ha : a = nothing ∨ a ∈ db.dom) (hz : oid ∈ db.chain h a) :
    ∃ p, db.chain h a = p ++ db.chain h oid := by
  obtain ⟨ys, zs, heq, hc⟩ := (hs.chain_spec ha).1.of_mem hz
  have hoid := (hs.chain_spec ha).2 oid hz
  exact ⟨ys, by rw [heq, hs.chain_eq (.inr hoid) hc]⟩

theorem listFrom_fuel (ha : a ∈ db.dom) :
    ∃ l, db.listFrom h db.fuel (db.headOf h a) = some l ∧ Chain (db.nextOf h) nothing (db.headOf h a) l ∧
      ∀ z, z ∈ l ↔ z ∈ db.dom ∧ db.upOf h z = a := by
  obtain ⟨l, hl, hm⟩ := (hs.linked h).members a ha
  have hsub : ∀ z ∈ l, z ∈ db.dom := fun z hz => ((hm z).mp hz).1
  exact ⟨l, listFrom_eq hl hsub (hs.length_lt_fuel hl.nodup hsub), hl, hm⟩

theorem membersOf_eq (ho : db.objects oid = some o) :
    ∃ l, db.membersOf h oid = some l ∧ l.Nodup ∧ ∀ z, z ∈ l ↔ z ∈ db.dom ∧ db.upOf h z = oid := by
  obtain ⟨l, hl, hc, hm⟩ := hs.listFrom_fuel (h := h) (mem_dom_of ho)
  rw [headOf_of ho] at hl
  exact ⟨l, by simp [membersOf, ho, hl], hc.nodup, hm⟩

theorem lineage_eq (ha : a = nothing ∨ a ∈ db.dom) {fuel : Nat}
    (hfuel : (db.chain .family a).length < fuel) :
    db.lineage fuel a = some ((db.chain .family a).filterMap db.objects) := by
  have hl := hs.chain_spec (h := .family) ha
  generalize db.chain .family a = l at hl hfuel
  obtain ⟨hl, hsub⟩ := hl
  induction hl generalizing fuel with
  | nil =>
      obtain ⟨n, rfl⟩ := Nat.exists_eq_succ_of_ne_zero (Nat.ne_of_gt hfuel)
      simp [lineage, find, nothing]
  | @cons x xs hne hxs ih =>
      obtain ⟨n, rfl⟩ := Nat.exists_eq_succ_of_ne_zero (Nat.ne_zero_of_lt hfuel)
      have hx := hsub x (by simp)
      obtain ⟨o, ho⟩ := mem_dom.mp hx
      have hlen : xs.length < n := by simpa using hfuel
      have hrest := ih (hs.up_mem hx) hlen
        fun z hz => hsub z (by simp [hz])
      rw [upOf_of ho, Object.up] at hrest
      simp [lineage, hs.find_eq, ho, hrest]

theorem ancestry_eq (ha : a = nothing ∨ a ∈ db.dom) :
    db.ancestry a = some ((db.chain .family a).filterMap db.objects) := by
  refine hs.lineage_eq ha ?_
  have := hs.chain_length_le (h := .family) ha
  unfold fuel
  omega

end Sound

theorem walkUp_of_objects (hobj : db'.objects = db.objects) (fuel : Nat) (a : Objid) :
    db'.walkUp h fuel a = db.walkUp h fuel a := by
  induction fuel generalizing a with
  | zero => rfl
  | succ n ih => simp only [walkUp, hobj, ih]

theorem chain_of_objects (hobj : db'.objects = db.objects) (hnum : db'.numObjects = db.numObjects) :
    db'.chain h = db.chain h := by
  funext a
  rw [chain, chain, walkUp_of_objects hobj, fuel, fuel, hnum]

/-! Observations. -/

/-- Nothing but objects has changed, and `f` sees no difference in these. -/
structure Agree {β : Type*} (f : Object → β) (db db' : Db) : Prop where
  rest : db' = { db with objects := db'.objects }
  objects : ∀ i, (db'.objects i).map f = (db.objects i).map f

namespace Agree

variable {β γ : Type*} {f : Object → β} {g : Object → γ} {k : Hier}

theorem refl (f : Object → β) (db : Db) : Agree f db db := ⟨rfl, fun _ => rfl⟩

theorem trans (h₁ : Agree f db db') (h₂ : Agree f db' db'') : Agree f db db'' := by
  refine ⟨?_, fun i => (h₂.objects i).trans (h₁.objects i)⟩
  rw [h₂.rest, h₁.rest]

theorem symm (h : Agree f db db') : Agree f db' db := by
  refine ⟨?_, fun i => (h.objects i).symm⟩
  rw [h.rest]

theorem numObjects (h : Agree f db db') : db'.numObjects = db.numObjects := by rw [h.rest]

theorem vcTable (h : Agree f db db') : db'.vcTable = db.vcTable := by rw [h.rest]

theorem allUsers (h : Agree f db db') : db'.allUsers = db.allUsers := by rw [h.rest]

theorem nextTag (h : Agree f db db') : db'.nextTag = db.nextTag := by rw [h.rest]

theorem fuel (h : Agree f db db') : db'.fuel = db.fuel := by rw [Db.fuel, Db.fuel, h.numObjects]

theorem mono (h : Agree f db db') (hg : ∀ {o o'}, f o = f o' → g o = g o') : Agree g db db' := by
  refine ⟨h.rest, fun i => ?_⟩
  have hi := h.objects i
  cases ho : db.objects i with
  | none => simpa [ho] using hi
  | some o =>
      cases ho' : db'.objects i with
      | none => simp [ho, ho'] at hi
      | some o' =>
          simp only [ho, ho', Option.map_some, Option.some.injEq] at hi ⊢
          exact hg hi

theorem of_objects (h : Agree f db db') (ho : db.objects oid = some o) :
    ∃ o', db'.objects oid = some o' ∧ f o' = f o := by
  have hi := h.objects oid
  rw [ho, Option.map_some, Option.map_eq_some_iff] at hi
  exact hi

theorem dom (h : Agree f db db') : db'.dom = db.dom := by
  ext i
  have hi := congrArg Option.isSome (h.objects i)
  simp only [Option.isSome_map] at hi
  simp [Db.dom, hi]

theorem set {u : Object} (ho : db.objects oid = some o) (hf : f u = f o) :
    Agree f db (db.set oid u) := by
  refine ⟨rfl, fun i => ?_⟩
  obtain rfl | hi := eq_or_ne i oid
  · simp [Db.set, ho, hf]
  · simp [Db.set, Function.update_of_ne hi]

theorem modify {m : Object → Object} (hm : db.modify m oid = some db') (hf : ∀ o, f (m o) = f o) :
    Agree f db db' := by
  obtain ⟨o, ho, rfl⟩ := Option.map_eq_some_iff.mp hm
  exact set ho (hf o)

theorem elim (h : Agree f db db') (d : β) (i : Objid) :
    (db'.objects i).elim d f = (db.objects i).elim d f := by
  have hi := h.objects i
  cases ho : db.objects i with
  | none =>
      rw [ho, Option.map_none, Option.map_eq_none_iff] at hi
      rw [hi]
  | some o =>
      rw [ho, Option.map_some, Option.map_eq_some_iff] at hi
      obtain ⟨o', ho', hf⟩ := hi
      simpa [ho'] using hf

theorem linked (h : Agree (Object.linksIn k) db db') (hl : db.Linked k) : db'.Linked k := by
  have hup : db'.upOf k = db.upOf k := by
    funext i
    exact (h.mono (g := Object.up k) fun he => congrArg (·.2.1) he).elim nothing i
  have hhead : db'.headOf k = db.headOf k := by
    funext i
    exact (h.mono (g := Object.head k) fun he => congrArg (·.2.2.1) he).elim nothing i
  have hnext : db'.nextOf k = db.nextOf k := by
    funext i
    exact (h.mono (g := Object.nextIn k) fun he => congrArg (·.2.2.2) he).elim nothing i
  rw [Linked, h.dom, hup, hhead, hnext]
  exact hl

theorem ids (h : Agree Object.id db db')
    (hids : ∀ {i o}, db.objects i = some o → o.id = i ∧ 0 ≤ i ∧ i < db.numObjects) {i : Objid}
    {o : Object} (ho : db'.objects i = some o) : o.id = i ∧ 0 ≤ i ∧ i < db'.numObjects := by
  obtain ⟨o', ho', hid⟩ := h.symm.of_objects ho
  rw [h.numObjects, ← hid]
  exact hids ho'

end Agree

theorem Sound.of_agree (hs : Sound db) (h : Agree (fun o h => o.linksIn h) db db') : Sound db' where
  numObjects_nonneg := by
    rw [h.numObjects]
    exact hs.numObjects_nonneg
  ids := (h.mono fun he => congrArg (·.1) (congrFun he .family)).ids hs.ids
  linked := fun k => (h.mono fun he => congrFun he k).linked (hs.linked k)

theorem Sound.of_objects (hs : Sound db) (hobj : db'.objects = db.objects)
    (hnum : db'.numObjects = db.numObjects) : Sound db' where
  numObjects_nonneg := hnum ▸ hs.numObjects_nonneg
  ids := fun ho => by
    rw [hobj] at ho
    rw [hnum]
    exact hs.ids ho
  linked := fun k => by
    have hk := hs.linked k
    have hdom : db'.dom = db.dom := by rw [dom, dom, hobj]
    have hup : db'.upOf k = db.upOf k := by funext i; rw [upOf, upOf, hobj]
    have hhead : db'.headOf k = db.headOf k := by funext i; rw [headOf, headOf, hobj]
    have hnext : db'.nextOf k = db.nextOf k := by funext i; rw [nextOf, nextOf, hobj]
    rw [Linked, hdom, hup, hhead, hnext]
    exact hk

theorem Sound.affected (hs : Sound db) : Sound db.affectedCallableVerbLookup :=
  hs.of_objects rfl rfl

/-! The table after an entry is set. -/

theorem set_objects (o' : Object) : (db.set oid o').objects = Function.update db.objects oid (some o') :=
  rfl

theorem upOf_set (o' : Object) :
    (db.set oid o').upOf h = Function.update (db.upOf h) oid (o'.up h) := by
  funext i
  obtain rfl | hi := eq_or_ne i oid
  · simp [upOf, set_objects]
  · simp [upOf, set_objects, Function.update_of_ne hi]

theorem headOf_set (o' : Object) :
    (db.set oid o').headOf h = Function.update (db.headOf h) oid (o'.head h) := by
  funext i
  obtain rfl | hi := eq_or_ne i oid
  · simp [headOf, set_objects]
  · simp [headOf, set_objects, Function.update_of_ne hi]

theorem nextOf_set (o' : Object) :
    (db.set oid o').nextOf h = Function.update (db.nextOf h) oid (o'.nextIn h) := by
  funext i
  obtain rfl | hi := eq_or_ne i oid
  · simp [nextOf, set_objects]
  · simp [nextOf, set_objects, Function.update_of_ne hi]

theorem modify_of (k : Object → Object) (ho : db.objects oid = some o) :
    db.modify k oid = some (db.set oid (k o)) := by
  simp [modify, ho]

end Db
end LambdaMoo
