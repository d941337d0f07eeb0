import LambdaMoo.DefinitionArrays
import LambdaMoo.PropertyLookup

/-! What adding, renaming and deleting a definition leaves as it is: all but that one
property, on every object. -/
namespace LambdaMoo

namespace Db

open Labelled

variable {db db' : Db} {r x y z : Objid} {o : Object} {d e newdef : Propdef} {n tag : Nat} {name : CStr}

/-- All but the property with a tag is as it was: the other fields of every object, the other
definitions, and the other slots with their values or clear marks, owners and permissions. -/
structure SameBut (db : Db) (tag : Nat) (db' : Db) : Prop where
  rest : db' = { db with objects := db'.objects, nextTag := db'.nextTag }
  objects : ∀ y, (db'.objects y).map Object.withoutProps = (db.objects y).map Object.withoutProps
  defs : ∀ y, (db'.defsOf y).filter (fun d => d.tag ≠ tag) = (db.defsOf y).filter fun d => d.tag ≠ tag
  slots : ∀ y, (db'.slotsOf y).filter (fun p => p.tag ≠ tag) = (db.slotsOf y).filter fun p => p.tag ≠ tag

/-- The name is that of a built-in property, or of one defined on an ancestor, on the object or
on a descendant. -/
def NameTaken (db : Db) (r : Objid) (name : Str) : Prop :=
  (∃ e ∈ ptable, nameMatches e.1 name = true) ∨
    ∃ z d, (z ∈ db.chain .family r ∨ db.Below r z) ∧ d ∈ db.defsOf z ∧ nameMatches d.name name = true

theorem listFrom_congr {h : Hier} (hobj : ∀ y, (db'.objects y).map (Object.nextIn h) = (db.objects y).map (Object.nextIn h))
    (fuel : Nat) (y : Objid) : db'.listFrom h fuel y = db.listFrom h fuel y := by
  induction fuel generalizing y with
  | zero => rfl
  | succ n ih =>
      unfold listFrom
      split
      · rfl
      · have hy := hobj y
        cases ho : db.objects y with
        | none =>
            rw [ho, Option.map_none, Option.map_eq_none_iff] at hy
            rw [hy]
            rfl
        | some o =>
            rw [ho, Option.map_some, Option.map_eq_some_iff] at hy
            obtain ⟨o', ho', hnext⟩ := hy
            simp only [ho', Option.bind_eq_bind, Option.bind_some, hnext, ih]

namespace SameBut

variable (h : SameBut db tag db')
include h

theorem dom : db'.dom = db.dom := by
  ext y
  have hy := congrArg Option.isSome (h.objects y)
  rw [Option.isSome_map, Option.isSome_map] at hy
  change (db'.objects y).isSome = true ↔ (db.objects y).isSome = true
  rw [hy]

theorem agree : Agree Object.withoutProps { db with nextTag := db'.nextTag } db' := ⟨h.rest, h.objects⟩

theorem chain : db'.chain .family = db.chain .family := by
  have hup : Agree (Object.up .family) { db with nextTag := db'.nextTag } db' := h.agree.mono fun he => by
    have := congrArg Object.parent he
    exact this
  rw [hup.chain]
  exact chain_of_objects rfl rfl

theorem below : db'.Below = db.Below := by
  funext r y
  rw [Below, Below, h.dom, h.chain]

theorem getBiValue (y : Objid) (prop : BiProp) : db'.getBiValue y prop = db.getBiValue y prop := by
  have hy := h.objects y
  cases ho : db.objects y with
  | none =>
      rw [ho, Option.map_none, Option.map_eq_none_iff] at hy
      cases prop <;> simp [Db.getBiValue, membersOf, ho, hy]
  | some o =>
      rw [ho, Option.map_some, Option.map_eq_some_iff] at hy
      obtain ⟨o', ho', he⟩ := hy
      have hname := congrArg Object.name he
      have howner := congrArg Object.owner he
      have hflags := congrArg Object.flags he
      have hplace := congrArg Object.location he
      have hcontents := congrArg Object.contents he
      have hnext : ∀ y, (db'.objects y).map (Object.nextIn .place) = (db.objects y).map (Object.nextIn .place) := by
        intro y
        have := congrArg (Option.map (Object.nextIn .place)) (h.objects y)
        rwa [Option.map_map, Option.map_map] at this
      have hfuel : db'.fuel = db.fuel := by rw [h.rest, Db.fuel, Db.fuel]
      simp only [Object.withoutProps] at hname howner hflags hplace hcontents
      cases prop <;>
        simp only [Db.getBiValue, membersOf, Object.head, ho, ho', hname, howner, hflags, hplace, hcontents,
          hfuel, listFrom_congr hnext, Option.bind_eq_bind, Option.bind_some]

theorem slotFor (hd : d.tag ≠ tag) (y : Objid) : db'.slotFor y d = db.slotFor y d := by
  unfold Db.slotFor
  rw [← lookup_filter_ne hd, h.slots y, lookup_filter_ne hd]

theorem mem_defsOf (hd : d.tag ≠ tag) (y : Objid) : d ∈ db'.defsOf y ↔ d ∈ db.defsOf y := by
  have hmem : ∀ l : List Propdef, d ∈ l ↔ d ∈ l.filter fun d => d.tag ≠ tag := by
    intro l
    simp [hd]
  rw [hmem, h.defs y, ← hmem]

theorem valueFor (hd : d.tag ≠ tag) (y : Objid) : db'.valueFor y d = db.valueFor y d := by
  unfold Db.valueFor
  rw [h.chain]
  simp only [h.slotFor hd]

/-- A name that the property has neither before nor after is looked up to the same. -/
theorem lookup (hi : Intact db) (hi' : Intact db') (hy : y ∈ db.dom)
    (hno : ∀ z ∈ db.chain .family y, ∀ d, d.tag = tag → d ∈ db.defsOf z ∨ d ∈ db'.defsOf z →
      nameMatches d.name name = false) : db'.lookup y name = db.lookup y name := by
  have hy' : y ∈ db'.dom := h.dom ▸ hy
  by_cases hex : ∃ z ∈ db.chain .family y, ∃ d ∈ db.defsOf z, nameMatches d.name name = true
  · obtain ⟨z, hz, d, hd, hm⟩ := hex
    have hne : d.tag ≠ tag := by
      intro heq
      rw [hno z hz d heq (.inl hd)] at hm
      cases hm
    obtain ⟨pval, v, hpval, hv, hlookup⟩ := hi.lookup_slot name hy hz hd hm
    obtain ⟨pval', v', hpval', hv', hlookup'⟩ :=
      hi'.lookup_slot name hy' (h.chain ▸ hz) ((h.mem_defsOf hne z).mpr hd) hm
    rw [h.slotFor hne, hpval] at hpval'
    rw [h.valueFor hne, hv] at hv'
    obtain rfl := Option.some.inj hpval'
    obtain rfl := Option.some.inj hv'
    rw [hlookup, hlookup']
  · have hnone : ∀ d ∈ db.allDefs y, nameMatches d.name name = false := by
      intro d hd
      obtain ⟨z, hz, hdz⟩ := List.mem_flatMap.mp hd
      by_contra hm
      exact hex ⟨z, hz, d, hdz, by simpa using hm⟩
    have hnone' : ∀ d ∈ db'.allDefs y, nameMatches d.name name = false := by
      intro d hd
      obtain ⟨z, hz, hdz⟩ := List.mem_flatMap.mp hd
      rw [h.chain] at hz
      by_cases heq : d.tag = tag
      · exact hno z hz d heq (.inr hdz)
      · exact hnone d (List.mem_flatMap.mpr ⟨z, hz, (h.mem_defsOf heq z).mp hdz⟩)
    rw [hi.lookup_other hy hnone, hi'.lookup_other hy' hnone']
    simp only [h.getBiValue]

end SameBut

theorem filter_insert {α : Type*} {p : α → Bool} {as bs : List α} {a : α} (ha : p a = false) :
    (as ++ a :: bs).filter p = (as ++ bs).filter p := by
  rw [List.filter_append, List.filter_append, List.filter_cons_of_neg (by simp [ha])]

/-- What an object looks up is what it was, but for one name, below one object. -/
def LooksUpBut (db : Db) (r : Objid) (pname : Str) (db' : Db) : Prop :=
  ∀ y ∈ db.dom, ∀ name : CStr, ¬ (db.Below r y ∧ nameMatches pname name = true) →
    db'.lookup y name = db.lookup y name

/-- What `db_add_propdef` does when it does something: the object gets the definition, at the end,
and it and each of its descendants a slot, which has the value on the object itself and is clear on
the others. -/
structure AddsExactly (db : Db) (r : Objid) (newdef : Propdef) (value : Var) (owner : Objid)
    (perms : PropPerms) (db' : Db) : Prop where
  same : SameBut db newdef.tag db'
  outside : ∀ y, ¬ db.Below r y → db'.objects y = db.objects y
  fresh : ∀ y, (∀ d ∈ db.defsOf y, d.tag ≠ newdef.tag) ∧ db.slotFor y newdef = none
  self : db'.defsOf r = db.defsOf r ++ [newdef]
  others : ∀ y, y ≠ r → db'.defsOf y = db.defsOf y
  array : ∀ props : Proplist, props.Holds (db.defsOf r) →
    ∃ props', props.add newdef = some props' ∧ props'.Holds (db'.defsOf r)
  slots : ∀ y o, db.Below r y → db.objects y = some o → ∃ before after pval,
    db.slotsOf y = before ++ after ∧ db'.slotsOf y = before ++ pval :: after ∧
    db'.slotFor y newdef = some pval ∧
    pval = { var := if y = r then value else .clear, owner := if perms.chown then o.owner else owner
             perms, tag := newdef.tag }
  before : ∀ y name, db.Below r y → nameMatches newdef.name name = true → Terminated name →
    db.lookup y name = some .absent
  after : ∀ y name, db.Below r y → nameMatches newdef.name name = true → Terminated name →
    ∃ pval, db'.slotFor y newdef = some pval ∧ db'.lookup y name = some (.slot r pval value)
  elsewhere : LooksUpBut db r newdef.name db'

/-- What `db_delete_propdef` does when it does something: the definition is gone from the object,
and its slot from it and each of its descendants. -/
structure DeletesExactly (db : Db) (r : Objid) (d : Propdef) (db' : Db) : Prop where
  same : SameBut db d.tag db'
  outside : ∀ y, ¬ db.Below r y → db'.objects y = db.objects y
  self : ∃ as bs, db.defsOf r = as ++ d :: bs ∧ db'.defsOf r = as ++ bs ∧
    ∀ props : Proplist, props.Holds (db.defsOf r) →
      ∃ props', props.delete as.length = some props' ∧ props'.Holds (db'.defsOf r)
  others : ∀ y, y ≠ r → db'.defsOf y = db.defsOf y
  slots : ∀ y, db.Below r y → ∃ before pval after, db.slotsOf y = before ++ pval :: after ∧
    pval.tag = d.tag ∧ db'.slotsOf y = before ++ after ∧ db'.slotFor y d = none
  before : ∀ y name, db.Below r y → nameMatches d.name name = true → Terminated name →
    ∃ pval v, db.slotFor y d = some pval ∧ db.lookup y name = some (.slot r pval v)
  after : ∀ y name, db.Below r y → nameMatches d.name name = true → Terminated name →
    db'.lookup y name = some .absent
  elsewhere : LooksUpBut db r d.name db'

/-- What `db_rename_propdef` does when it does something: the definition has the new name, and
every slot is what it was. -/
structure RenamesExactly (db : Db) (r : Objid) (d : Propdef) (new : Str) (db' : Db) : Prop where
  same : SameBut db d.tag db'
  outside : ∀ y, y ≠ r → db'.objects y = db.objects y
  self : ∃ as bs, db.defsOf r = as ++ d :: bs ∧ db'.defsOf r = as ++ { d with name := new } :: bs
  slots : ∀ y, db'.slotsOf y = db.slotsOf y
  before : ∀ y name, db.Below r y → nameMatches new name = true → Terminated name →
    nameMatches d.name name = false → db.lookup y name = some .absent
  after : ∀ y name old, db.Below r y → nameMatches new name = true → Terminated name →
    nameMatches d.name old = true → Terminated old → db'.lookup y name = db.lookup y old
  gone : ∀ y name, db.Below r y → nameMatches d.name name = true → Terminated name →
    nameMatches new name = false → db'.lookup y name = some .absent
  elsewhere : ∀ y ∈ db.dom, ∀ name : CStr,
    ¬ (db.Below r y ∧ (nameMatches d.name name = true ∨ nameMatches new name = true)) →
    db'.lookup y name = db.lookup y name

theorem nameMatches_congr {s t u : Str} (hs : Terminated s) (ht : Terminated t) (hu : Terminated u)
    (h : nameMatches t u = true) : nameMatches s t = nameMatches s u := by
  rw [nameMatches_eq hs ht, nameMatches_eq hs hu, sameName_congr hs ht hu (lowered_eq_of_nameMatches ht hu h)]

theorem Sound.nameTaken_iff (hs : Sound db) (hr : r ∈ db.dom) (name : Str) :
    ∃ found b, db.findProperty r name = some found ∧ db.propertyDefinedAtOrBelow name r = some b ∧
      (NameTaken db r name ↔ found.isSome = true ∨ b = true) := by
  obtain ⟨b, hb⟩ : ∃ b, db.propertyDefinedAtOrBelow name r = some b :=
    Option.isSome_iff_exists.mp (hs.propertyDefinedAtOrBelow_isSome hr)
  obtain ⟨e, he, hm, hf⟩ | ⟨hno, ⟨hf, habove⟩ | ⟨n, q, hf, hat⟩⟩ := findProperty_spec hs hr name
  · refine ⟨_, b, hf, hb, ?_⟩
    simp only [Option.isSome_some, true_or, iff_true]
    exact .inl ⟨e, he, hm⟩
  · refine ⟨_, b, hf, hb, ?_⟩
    simp only [Option.isSome_none, Bool.false_eq_true, false_or]
    constructor
    · rintro (⟨e, he, hm⟩ | ⟨z, d, hz, hd, hm⟩)
      · rw [hno e he] at hm
        cases hm
      · obtain hz | hz := hz
        · rw [habove d (List.mem_flatMap.mpr ⟨z, hz, hd⟩)] at hm
          cases hm
        · cases b with
          | true => rfl
          | false =>
              rw [hs.propertyDefinedAtOrBelow_false hb hz d hd] at hm
              cases hm
    · rintro rfl
      obtain ⟨z, o, hz, ho, hany⟩ := hs.anyBelow_true hr hb
      obtain ⟨d, hd, hm⟩ := List.any_eq_true.mp (Option.some.inj hany)
      exact .inr ⟨z, d, .inr hz, by rwa [defsOf_of ho], hm⟩
  · refine ⟨_, b, hf, hb, ?_⟩
    obtain ⟨d, hd, -, hm⟩ := hat.getElem
    simp only [Option.isSome_some, true_or, iff_true]
    exact .inr ⟨q, d, .inl hat.mem, hd, hm⟩

theorem Defined.eq_of_tag (h : Defined db) (he : e ∈ db.defsOf z) (hd : d ∈ db.defsOf r) (heq : e.tag = d.tag) :
    z = r ∧ e = d := by
  obtain rfl := h.tag_inj z r e he d hd heq
  exact ⟨rfl, List.inj_on_of_nodup_map (h.tag_nodup z) he hd heq⟩

theorem Intact.slotFor_none (hi : Intact db) (hno : ∀ z, ∀ e ∈ db.defsOf z, e.tag ≠ d.tag) (y : Objid) :
    db.slotFor y d = none := by
  by_cases hy : y ∈ db.dom
  · rw [← Option.not_isSome_iff_eq_none, slotFor_isSome hi hy]
    rintro ⟨e, he, heq⟩
    obtain ⟨z, -, hz⟩ := List.mem_flatMap.mp he
    exact hno z e hz heq
  · rw [slotFor, slotsOf_nothing hy]
    rfl

theorem Intact.lookup_absent (hi : Intact db) (name : CStr) (hy : y ∈ db.dom) (hres : ∀ e ∈ ptable, nameMatches e.1 name = false)
    (hno : ∀ d ∈ db.allDefs y, nameMatches d.name name = false) : db.lookup y name = some .absent := by
  have hfind : (ptable.find? fun e => nameMatches e.1 name) = none := by
    rw [List.find?_eq_none]
    intro e he
    rw [hres e he]
    exact Bool.false_ne_true
  rw [hi.lookup_other hy hno, hfind]

theorem Defined.reserved_matches (h : Defined db) (name : CStr) (hd : d ∈ db.defsOf z) (hm : nameMatches d.name name = true) :
    ∀ e ∈ ptable, nameMatches e.1 name = false := by
  intro e he
  have hterm := h.terminated z d hd
  rw [← nameMatches_congr (ptable_terminated e he) hterm name.property hm,
    nameMatches_eq (ptable_terminated e he) hterm]
  exact h.reserved z d hd e he

/-- What is met on the way up from a descendant is a descendant or met on the way up from the
object. -/
theorem Sound.mem_chain_below (hs : Sound db) (hb : db.Below r y) (hz : z ∈ db.chain .family y) :
    z ∈ db.chain .family r ∨ db.Below r z := by
  rw [hs.chain_between hb, List.mem_append] at hz
  obtain hz | hz := hz
  · exact .inr (hs.mem_between hb hz).1
  · exact .inl hz

theorem Intact.lookup_free {pname : Str} (hi : Intact db) (name : CStr) (ht : Terminated pname) (hfree : ¬ NameTaken db r pname)
    (hb : db.Below r y) (hm : nameMatches pname name = true) : db.lookup y name = some .absent := by
  apply hi.lookup_absent name hb.1
  · intro e he
    rw [← nameMatches_congr (ptable_terminated e he) ht name.property hm, ← Bool.not_eq_true]
    intro h
    exact hfree (.inl ⟨e, he, h⟩)
  · intro d hd
    obtain ⟨z, hz, hdz⟩ := List.mem_flatMap.mp hd
    rw [← nameMatches_congr (hi.slotted.terminated z d hdz) ht name.property hm, ← Bool.not_eq_true]
    intro h
    exact hfree (.inr ⟨z, d, hi.sound.mem_chain_below hb hz, hdz, h⟩)

/-! The three operations. -/

/-- A new property is clear on all but the object that defines it, and has its value there. -/
theorem Sound.valueFor_new {pval : Pval} (hs : Sound db) (hb : db.Below r y)
    (hself : db.slotFor r d = some pval) (hvar : pval.var ≠ .clear)
    (hclear : ∀ z, db.Below r z → z ≠ r → ∃ pz, db.slotFor z d = some pz ∧ pz.var = .clear) :
    db.valueFor y d = some pval.var := by
  have hnone : (db.between r y).findSome? (fun z => (db.slotFor z d).bind Pval.value?) = none := by
    rw [List.findSome?_eq_none_iff]
    intro z hz
    obtain ⟨hbz, hne⟩ := hs.mem_between hb hz
    obtain ⟨pz, hpz, hpc⟩ := hclear z hbz hne
    rw [hpz]
    exact Pval.value?_clear hpc
  rw [valueFor, hs.chain_between hb, List.findSome?_append, hnone, Option.none_or,
    hs.chain_cons (hs.below_mem hb), List.findSome?_cons, hself, Option.bind_some, Pval.value?_of_ne hvar]

theorem Added.exactly {pv : Pval} (hi : Intact db) (hi' : Intact db') (hr : r ∈ db.dom)
    (h : Added db r newdef pv db') (hdef : newdef.tag = db.nextTag) (hpv : pv.tag = newdef.tag)
    (hvar : pv.var ≠ .clear) (hfree : ¬ NameTaken db r newdef.name) (hterm : Terminated newdef.name) :
    AddsExactly db r newdef pv.var pv.owner pv.perms db' := by
  have hfresh : ∀ y, ∀ d ∈ db.defsOf y, d.tag ≠ newdef.tag := by
    intro y d hd
    have := hi.slotted.tag_lt y d hd
    omega
  have hunset := hi.slotFor_none hfresh
  have hslots : ∀ y o, db.Below r y → db.objects y = some o → ∃ before after pval,
      db.slotsOf y = before ++ after ∧ db'.slotsOf y = before ++ pval :: after ∧
      db'.slotFor y newdef = some pval ∧
      pval = { var := if y = r then pv.var else .clear
               owner := if pv.perms.chown then o.owner else pv.owner
               perms := pv.perms, tag := newdef.tag } := by
    intro y o hb ho
    have hs' := h.slots y o hb ho
    set pos := (db.localDefs r y).length + (db.defsOf r).length
    refine ⟨o.propval.take pos, o.propval.drop pos, _, ?_, hs', ?_, ?_⟩
    · rw [slotsOf_of ho, List.take_append_drop]
    · have hnew := lookup_eq_none.mp (hunset y)
      have htake : newdef.tag ∉ (o.propval.take pos).map Pval.tag := by
        intro hmem
        apply hnew
        rw [slotsOf_of ho]
        exact List.map_subset _ (List.take_subset _ _) hmem
      rw [slotFor, hs', withInserted, lookup_right htake]
      have htag : (insertedSlot (if y = r then pv else { pv with var := .clear }) o.owner).tag = newdef.tag := by
        split <;> exact hpv
      rw [← htag, lookup_cons_self]
    · split <;> simp [insertedSlot, hpv]
  have hsame : SameBut db newdef.tag db' := by
    refine ⟨?_, h.agree.objects, fun y => ?_, fun y => ?_⟩
    · have hrest := h.agree.rest
      rw [hrest]
    · obtain rfl | hne := eq_or_ne y r
      · rw [h.redefined.self, filter_insert (by simp), List.append_nil]
      · rw [h.redefined.other y hne]
    · by_cases hb : db.Below r y
      · obtain ⟨o, ho⟩ := mem_dom.mp hb.1
        obtain ⟨before, after, pval, hold, hnew, -, rfl⟩ := hslots y o hb ho
        rw [hold, hnew, filter_insert (by simp)]
      · rw [slotsOf, slotsOf, h.outside y hb]
  have hself : newdef ∈ db'.defsOf r := by
    rw [h.redefined.self]
    simp
  have hnew : ∀ z, db.Below r z → ∃ pval, db'.slotFor z newdef = some pval ∧
      pval.var = if z = r then pv.var else .clear := by
    intro z hz
    obtain ⟨o, ho⟩ := mem_dom.mp hz.1
    obtain ⟨-, -, pval, -, -, hpval, rfl⟩ := hslots z o hz ho
    exact ⟨_, hpval, rfl⟩
  refine ⟨hsame, h.outside, fun y => ⟨hfresh y, hunset y⟩, h.redefined.self, h.redefined.other,
    fun props hprops => ?_, hslots, fun y name hb hm ht => ?_, fun y name hb hm ht => ?_,
    fun y hy name hno => ?_⟩
  · rw [h.redefined.self]
    exact hprops.add newdef
  · exact hi.lookup_free ⟨name, ht⟩ hterm hfree hb hm
  · have hb' : db'.Below r y := hsame.below ▸ hb
    obtain ⟨pval, v, hpval, hv, hlookup⟩ :=
      hi'.lookup_slot ⟨name, ht⟩ hb'.1 hb'.2 hself hm
    obtain ⟨own, hown, hownv⟩ := hnew r (hi.sound.below_self hr)
    rw [if_pos rfl] at hownv
    have hvalue := hi'.sound.valueFor_new hb' hown (hownv ▸ hvar) fun z hz hne => by
      obtain ⟨pz, hpz, hclear⟩ := hnew z (hsame.below ▸ hz)
      rw [if_neg hne] at hclear
      exact ⟨pz, hpz, hclear⟩
    rw [hv, hownv] at hvalue
    obtain rfl := Option.some.inj hvalue
    exact ⟨pval, hpval, hlookup⟩
  · apply hsame.lookup hi hi' hy
    intro z hz d htag hd
    obtain hd | hd := hd
    · exact absurd htag (hfresh z d hd)
    · obtain ⟨rfl, rfl⟩ := hi'.slotted.eq_of_tag hd hself htag
      rw [← Bool.not_eq_true]
      exact fun hm => hno ⟨⟨hy, hz⟩, hm⟩

theorem Deleted.exactly {as bs : List Propdef} (hi : Intact db) (hi' : Intact db') (hr : r ∈ db.dom)
    (hsplit : db.defsOf r = as ++ d :: bs) (h : Deleted db r as.length db') : DeletesExactly db r d db' := by
  have hd : d ∈ db.defsOf r := by simp [hsplit]
  have hself : db'.defsOf r = as ++ bs := by
    rw [h.redefined.self, hsplit, List.eraseIdx_append_of_length_le (Nat.le_refl _), Nat.sub_self]
    rfl
  have hgone : ∀ z, ∀ e ∈ db'.defsOf z, e.tag ≠ d.tag := by
    intro z e he heq
    obtain rfl | hne := eq_or_ne z r
    · have hnodup := hi.slotted.tag_nodup z
      rw [hsplit, List.map_append, List.map_cons, List.nodup_middle, List.nodup_cons] at hnodup
      apply hnodup.1
      rw [← List.map_append, ← hself, ← heq]
      exact List.mem_map_of_mem he
    · rw [h.redefined.other z hne] at he
      exact hne (hi.slotted.tag_inj z r e he d hd heq)
  have hslots : ∀ y, db.Below r y → ∃ before pval after, db.slotsOf y = before ++ pval :: after ∧
      pval.tag = d.tag ∧ db'.slotsOf y = before ++ after := by
    intro y hb
    obtain ⟨o, ho⟩ := mem_dom.mp hb.1
    set pos := (db.localDefs r y).length + as.length
    have hat : (db.allDefs y)[pos]? = some d := by
      rw [hi.sound.allDefs_below hb, hi.sound.allDefs_cons hr, hsplit,
        List.getElem?_append_right (by omega), Nat.add_sub_cancel_left]
      simp
    have hlt : pos < (db.slotsOf y).length := by
      rw [slotsOf_of ho, hi.slotted.length ho]
      exact (List.getElem?_eq_some_iff.mp hat).1
    refine ⟨(db.slotsOf y).take pos, (db.slotsOf y)[pos], (db.slotsOf y).drop (pos + 1), ?_, ?_, ?_⟩
    · rw [List.getElem_cons_drop, List.take_append_drop]
    · have htags := congrArg (fun l => l[pos]?) (hi.slotted.tags y hb.1)
      simp only [List.getElem?_map, hat, List.getElem?_eq_getElem hlt, Option.map_some] at htags
      exact Option.some.inj htags
    · rw [h.slots y o hb ho, slotsOf_of ho, List.eraseIdx_eq_take_drop_succ]
  have hsame : SameBut db d.tag db' := by
    refine ⟨?_, h.agree.objects, fun y => ?_, fun y => ?_⟩
    · have hrest := h.agree.rest
      rw [hrest]
    · obtain rfl | hne := eq_or_ne y r
      · rw [hself, hsplit, filter_insert (by simp)]
      · rw [h.redefined.other y hne]
    · by_cases hb : db.Below r y
      · obtain ⟨before, pval, after, hold, htag, hnew⟩ := hslots y hb
        rw [hold, hnew, filter_insert (by simp [htag])]
      · rw [slotsOf, slotsOf, h.outside y hb]
  refine ⟨hsame, h.outside, ⟨as, bs, hsplit, hself, fun props hprops => ?_⟩, h.redefined.other, fun y hb => ?_,
    fun y name hb hm ht => ?_, fun y name hb hm ht => ?_, fun y hy name hno => ?_⟩
  · rw [h.redefined.self]
    exact hprops.delete h.lt
  · obtain ⟨before, pval, after, hold, htag, hnew⟩ := hslots y hb
    exact ⟨before, pval, after, hold, htag, hnew, hi'.slotFor_none hgone y⟩
  · obtain ⟨pval, v, hpval, -, hlookup⟩ := hi.lookup_slot ⟨name, ht⟩ hb.1 hb.2 hd hm
    exact ⟨pval, v, hpval, hlookup⟩
  · apply hi'.lookup_absent ⟨name, ht⟩ (hsame.dom ▸ hb.1)
    · exact hi.slotted.reserved_matches ⟨name, ht⟩ hd hm
    · intro e he
      obtain ⟨z, hz, hez⟩ := List.mem_flatMap.mp he
      have hne := hgone z e hez
      rw [← Bool.not_eq_true]
      intro hem
      rw [hsame.chain] at hz
      have heall : e ∈ db.allDefs y := List.mem_flatMap.mpr ⟨z, hz, (hsame.mem_defsOf hne z).mp hez⟩
      have hdall : d ∈ db.allDefs y := List.mem_flatMap.mpr ⟨r, hb.2, hd⟩
      exact hne (congrArg Propdef.tag (hi.def_unique ⟨name, ht⟩ hb.1 heall hdall hem hm))
  · apply hsame.lookup hi hi' hy
    intro z hz e htag he
    obtain he | he := he
    · obtain ⟨rfl, rfl⟩ := hi.slotted.eq_of_tag he hd htag
      rw [← Bool.not_eq_true]
      exact fun hm => hno ⟨⟨hy, hz⟩, hm⟩
    · exact absurd htag (hgone z e he)

theorem renamePropdef_cases (hs : Sound db) (hr : r ∈ db.dom) (old new : Str) :
    db.renamePropdef r old new = some (false, db) ∧
        ((∀ d ∈ db.defsOf r, nameMatches d.name old = false) ∨
          sameName old new = false ∧ NameTaken db r new) ∨
      ∃ o as d bs, db.objects r = some o ∧ db.defsOf r = as ++ d :: bs ∧ nameMatches d.name old = true ∧
        (sameName old new = true ∨ ¬ NameTaken db r new) ∧ db.renamePropdef r old new =
          some (true, db.set r { o with propdefs := as ++ { d with name := new } :: bs }) := by
  obtain ⟨o, ho⟩ := mem_dom.mp hr
  unfold renamePropdef
  simp only [hs.find_eq, ho, Option.bind_eq_bind, Option.bind_some]
  cases hk : o.propdefs.findIdx? fun p => nameMatches p.name old with
  | none =>
      refine .inl ⟨rfl, .inl ?_⟩
      rw [defsOf_of ho]
      exact List.findIdx?_eq_none_iff.mp hk
  | some k =>
      obtain ⟨as, d, bs, hsplit, rfl, hm⟩ := mem_of_findIdx? hk
      have hmod : o.propdefs.modify as.length (fun p => { p with name := new }) =
          as ++ { d with name := new } :: bs := by rw [hsplit, modify_append_cons]
      obtain ⟨found, b, hfound, hbelow, htaken⟩ := hs.nameTaken_iff hr new
      cases hcase : sameName old new with
      | true =>
          refine .inr ⟨o, as, d, bs, rfl, by rw [defsOf_of ho, hsplit], hm, .inl rfl, ?_⟩
          rw [← hmod]
          rfl
      | false =>
          cases found with
          | some h =>
              refine .inl ⟨?_, .inr ⟨rfl, htaken.mpr (.inl rfl)⟩⟩
              simp [hfound]
          | none =>
              cases b with
              | true =>
                  refine .inl ⟨?_, .inr ⟨rfl, htaken.mpr (.inr rfl)⟩⟩
                  simp [hfound, hbelow]
              | false =>
                  refine .inr ⟨o, as, d, bs, rfl, by rw [defsOf_of ho, hsplit], hm, .inr ?_, ?_⟩
                  · rw [htaken]
                    simp
                  · rw [← hmod]
                    simp [hfound, hbelow]

theorem renamed_exactly {as bs : List Propdef} {old new : CStr} (hi : Intact db)
    (ho : db.objects r = some o) (hsplit : db.defsOf r = as ++ d :: bs) (hold : nameMatches d.name old = true)
    (hok : sameName old new = true ∨ ¬ NameTaken db r new)
    (hi' : Intact (db.set r { o with propdefs := as ++ { d with name := new.val } :: bs })) :
    RenamesExactly db r d new (db.set r { o with propdefs := as ++ { d with name := new.val } :: bs }) := by
  set db' := db.set r { o with propdefs := as ++ { d with name := new.val } :: bs } with hdb'
  have hd : d ∈ db.defsOf r := by simp [hsplit]
  have hterm := hi.slotted.terminated r d hd
  have hred : Redefined db r (as ++ { d with name := new.val } :: bs) db' := redefined_set ho
  have hd' : { d with name := new.val } ∈ db'.defsOf r := by
    rw [hred.self]
    simp
  have hslots : ∀ y, db'.slotsOf y = db.slotsOf y := by
    intro y
    have ha : Agree Object.propval db db' := Agree.set ho rfl
    exact ha.elim [] y
  have hsame : SameBut db d.tag db' := by
    have ha : Agree Object.withoutProps db db' := Agree.set ho rfl
    refine ⟨rfl, ha.objects, fun y => ?_, fun y => by rw [hslots]⟩
    obtain rfl | hne := eq_or_ne y r
    · rw [hred.self, hsplit, filter_insert (by simp), filter_insert (by simp)]
    · rw [hred.other y hne]
  have hslotFor : ∀ y, db'.slotFor y { d with name := new.val } = db.slotFor y d := by
    intro y
    rw [slotFor, slotFor, hslots]
  refine ⟨hsame, fun y hy => Function.update_of_ne hy _ _, ⟨as, bs, hsplit, hred.self⟩, hslots,
    fun y name hb hm ht hother => ?_, fun y name old' hb hm ht hold' ht' => ?_, fun y name hb hm ht hother => ?_,
    fun y hy name hno => ?_⟩
  · obtain hcase | hfree := hok
    · -- the same name but for its case
      have hlow := (sameName_iff old.property new.property).mp hcase
      have hdn : lowered d.name = lowered name := by
        rw [lowered_eq_of_nameMatches hterm old.property hold, hlow,
          lowered_eq_of_nameMatches new.property ht hm]
      rw [nameMatches_of_lowered hdn] at hother
      cases hother
    · exact hi.lookup_free ⟨name, ht⟩ new.property hfree hb hm
  · obtain ⟨pval, v, hpval, hv, hlookup⟩ := hi.lookup_slot ⟨old', ht'⟩ hb.1 hb.2 hd hold'
    obtain ⟨pval', v', hpval', hv', hlookup'⟩ :=
      hi'.lookup_slot ⟨name, ht⟩ (hsame.dom ▸ hb.1) (hsame.chain ▸ hb.2) hd' hm
    have hvalue : db'.valueFor y { d with name := new.val } = db.valueFor y d := by
      unfold valueFor
      rw [hsame.chain]
      simp only [hslotFor]
    rw [hslotFor, hpval] at hpval'
    rw [hvalue, hv] at hv'
    obtain rfl := Option.some.inj hpval'
    obtain rfl := Option.some.inj hv'
    rw [hlookup, hlookup']
  · apply hi'.lookup_absent ⟨name, ht⟩ (hsame.dom ▸ hb.1)
    · exact hi.slotted.reserved_matches ⟨name, ht⟩ hd hm
    · intro e he
      obtain ⟨z, hz, hez⟩ := List.mem_flatMap.mp he
      rw [hsame.chain] at hz
      by_cases htag : e.tag = d.tag
      · obtain ⟨-, rfl⟩ := hi'.slotted.eq_of_tag hez hd' htag
        exact hother
      · rw [← Bool.not_eq_true]
        intro hem
        have heall : e ∈ db.allDefs y := List.mem_flatMap.mpr ⟨z, hz, (hsame.mem_defsOf htag z).mp hez⟩
        have hdall : d ∈ db.allDefs y := List.mem_flatMap.mpr ⟨r, hb.2, hd⟩
        exact htag (congrArg Propdef.tag (hi.def_unique ⟨name, ht⟩ hb.1 heall hdall hem hm))
  · apply hsame.lookup hi hi' hy
    intro z hz e htag he
    rw [← Bool.not_eq_true]
    intro hm
    obtain he | he := he
    · obtain ⟨rfl, rfl⟩ := hi.slotted.eq_of_tag he hd htag
      exact hno ⟨⟨hy, hz⟩, .inl hm⟩
    · obtain ⟨rfl, rfl⟩ := hi'.slotted.eq_of_tag he hd' htag
      exact hno ⟨⟨hy, hz⟩, .inr hm⟩

theorem addPropdef_cases {value : Var} (owner : Objid) (perms : PropPerms) (hi : Intact db) (hr : r ∈ db.dom)
    (pname : CStr) (hvar : value ≠ .clear) :
    db.addPropdef r pname value owner perms = some (false, db) ∧ NameTaken db r pname ∨
      ∃ db', db.addPropdef r pname value owner perms = some (true, db') ∧ ¬ NameTaken db r pname ∧ Intact db' ∧
        AddsExactly db r { name := pname, tag := db.nextTag } value owner perms db' := by
  obtain ⟨found, b, hfound, hbelow, htaken⟩ := hi.sound.nameTaken_iff hr pname
  obtain ⟨o, ho⟩ := mem_dom.mp hr
  obtain hno | ⟨db', hyes, hs', hp', hadded⟩ :=
    addPropdef_spec owner perms hi.sound hi.slotted hr pname.property hvar
  · refine .inl ⟨hno, ?_⟩
    rw [htaken]
    by_contra hfree
    simp only [not_or, Bool.not_eq_true, Option.isSome_eq_false_iff, Option.isNone_iff_eq_none] at hfree
    obtain ⟨rfl, rfl⟩ := hfree
    simp only [addPropdef, hfound, hbelow, hi.sound.find_eq, ho, Option.bind_eq_bind, Option.bind_some,
      Option.isSome_none, Bool.false_eq_true, if_false] at hno
    obtain ⟨db₁, -, h⟩ := Option.bind_eq_some_iff.mp hno
    cases h
  · have hfree : ¬ NameTaken db r pname := by
      rw [htaken]
      intro h
      cases found with
      | some e => simp [addPropdef, hfound] at hyes
      | none =>
          cases b with
          | true => simp [addPropdef, hfound, hbelow] at hyes
          | false => simp at h
    have hi' : Intact db' := ⟨hs', hp'⟩
    exact .inr ⟨db', hyes, hfree, hi', hadded.exactly hi hi' hr rfl rfl hvar hfree pname.property⟩

theorem deletePropdef_cases (hi : Intact db) (hr : r ∈ db.dom) (pname : Str) :
    db.deletePropdef r pname = some (false, db) ∧ (∀ d ∈ db.defsOf r, nameMatches d.name pname = false) ∨
      ∃ d db', db.deletePropdef r pname = some (true, db') ∧ d ∈ db.defsOf r ∧ nameMatches d.name pname = true ∧
        Intact db' ∧ DeletesExactly db r d db' := by
  obtain ⟨o, ho⟩ := mem_dom.mp hr
  obtain hno | ⟨k, db', hk, hyes, hs', hp', hdeleted⟩ := deletePropdef_spec pname hi.sound hi.slotted hr
  · refine .inl ⟨hno, ?_⟩
    rw [defsOf_of ho, ← List.findIdx?_eq_none_iff]
    cases hk : o.propdefs.findIdx? fun p => nameMatches p.name pname with
    | none => rfl
    | some k =>
        simp only [deletePropdef, hi.sound.find_eq, ho, hk, Option.bind_eq_bind, Option.bind_some] at hno
        obtain ⟨db₁, -, h⟩ := Option.bind_eq_some_iff.mp hno
        cases h
  · obtain ⟨as, d, bs, hsplit, rfl, hm⟩ := mem_of_findIdx? hk
    have hi' : Intact db' := ⟨hs', hp'⟩
    exact .inr ⟨d, db', hyes, by simp [hsplit], hm, hi', hdeleted.exactly hi hi' hr hsplit⟩

/-- Adding, deleting and renaming a property changes that one property, on the object and all
that is below it, or nothing at all; and it changes nothing just when the name is taken, or when
the object does not define the property. -/
theorem propdefs_exactly (hi : Intact db) (hr : r ∈ db.dom) :
    (∀ (pname : CStr) (value : Value) (owner : Objid) (perms : PropPerms),
      db.addPropdef r pname value owner perms = some (false, db) ∧ NameTaken db r pname ∨
      ∃ db', db.addPropdef r pname value owner perms = some (true, db') ∧ ¬ NameTaken db r pname ∧ Intact db' ∧
        AddsExactly db r { name := pname, tag := db.nextTag } value owner perms db') ∧
    (∀ pname : CStr,
      db.deletePropdef r pname = some (false, db) ∧ (∀ d ∈ db.defsOf r, nameMatches d.name pname = false) ∨
      ∃ d db', db.deletePropdef r pname = some (true, db') ∧ d ∈ db.defsOf r ∧
        nameMatches d.name pname = true ∧ Intact db' ∧ DeletesExactly db r d db') ∧
    ∀ old new : CStr,
      db.renamePropdef r old new = some (false, db) ∧
        ((∀ d ∈ db.defsOf r, nameMatches d.name old = false) ∨ sameName old new = false ∧ NameTaken db r new) ∨
      ∃ d db', db.renamePropdef r old new = some (true, db') ∧ d ∈ db.defsOf r ∧
        nameMatches d.name old = true ∧ (sameName old new = true ∨ ¬ NameTaken db r new) ∧ Intact db' ∧
        RenamesExactly db r d new db' := by
  refine ⟨fun pname value owner perms => ?_, fun pname => deletePropdef_cases hi hr pname, fun old new => ?_⟩
  · exact addPropdef_cases owner perms hi hr pname (value_ne_clear value)
  · obtain hno | ⟨o, as, d, bs, ho, hsplit, hm, hok, hyes⟩ := renamePropdef_cases hi.sound hr old.val new.val
    · exact .inl hno
    · have hi' := hi.renamePropdef hr old.property new.property hyes
      exact .inr ⟨d, _, hyes, by simp [hsplit], hm, hok, hi', renamed_exactly hi ho hsplit hm hok hi'⟩

theorem propdefs_exactly_house : ∃ added renamed deleted d d',
    house.addPropdef 0 "weight".toList (.int 1) 0 {} = some (true, added) ∧
    AddsExactly house 0 { name := "weight".toList, tag := house.nextTag } (.int 1) 0 {} added ∧
    house.addPropdef 0 "aliases".toList (.int 1) 0 {} = some (false, house) ∧
    house.renamePropdef 0 "aliases".toList "names".toList = some (true, renamed) ∧
    RenamesExactly house 0 d "names".toList renamed ∧
    house.deletePropdef 0 "aliases".toList = some (true, deleted) ∧ DeletesExactly house 0 d' deleted := by
  have hvalid : house.valid 0 = true := by decide +kernel
  obtain ⟨hadd, hdelete, hrename⟩ := propdefs_exactly house_intact (house_intact.sound.valid_iff.mp hvalid)
  have hcan : (house.addPropdef 0 "weight".toList (.int 1) 0 {}).map Prod.fst = some true ∧
      (house.addPropdef 0 "aliases".toList (.int 1) 0 {}).map Prod.fst = some false ∧
      (house.renamePropdef 0 "aliases".toList "names".toList).map Prod.fst = some true ∧
      (house.deletePropdef 0 "aliases".toList).map Prod.fst = some true := by decide +kernel
  obtain ⟨hcanAdd, hcannot, hcanRename, hcanDelete⟩ := hcan
  obtain ⟨hno, -⟩ | ⟨added, hadded, -, -, hadds⟩ := hadd ⟨"weight".toList, by decide⟩ ⟨.int 1, rfl⟩ 0 {}
  · rw [hno] at hcanAdd
    cases hcanAdd
  obtain ⟨htaken, -⟩ | ⟨_, hyes, -⟩ := hadd ⟨"aliases".toList, by decide⟩ ⟨.int 1, rfl⟩ 0 {}
  swap
  · rw [hyes] at hcannot
    cases hcannot
  obtain ⟨hno, -⟩ | ⟨d, renamed, hrenamed, -, -, -, -, hrenames⟩ :=
    hrename ⟨"aliases".toList, by decide⟩ ⟨"names".toList, by decide⟩
  · rw [hno] at hcanRename
    cases hcanRename
  obtain ⟨hno, -⟩ | ⟨d', deleted, hdeleted, -, -, -, hdeletes⟩ := hdelete ⟨"aliases".toList, by decide⟩
  · rw [hno] at hcanDelete
    cases hcanDelete
  exact ⟨added, renamed, deleted, d, d', hadded, hadds, htaken, hrenamed, hrenames, hdeleted, hdeletes⟩

end Db
end LambdaMoo
