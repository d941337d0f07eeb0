import LambdaMoo.Inheritance

/-! What a lookup of a property tells, by the definition that is found and not by the number
of its slot. -/
namespace LambdaMoo

/-- What `db_find_property` tells of a name: a built-in property and its value, or who defines
the property, the slot of the object, and the value, which may be one from further up. -/
inductive Lookup
  | absent
  | builtIn (prop : BiProp) (value : Var)
  | slot (definer : Objid) (pval : Pval) (value : Var)

def Pval.value? (pval : Pval) : Option Var :=
  match pval.var with
  | .clear => none
  | v => some v

theorem lowered_eq_of_nameMatches {s t : Str} (hs : Terminated s) (ht : Terminated t)
    (h : nameMatches s t = true) : lowered s = lowered t :=
  (sameName_iff hs ht).mp ((nameMatches_iff hs ht).mp h)

namespace Db

open Labelled

variable {db db' : Db} {x y z : Objid} {o : Object} {d e : Propdef} {n : Nat} {name : CStr}

def lookup (db : Db) (oid : Objid) (name : Str) : Option Lookup := do
  match ← db.findPropertyValue oid name with
  | none => return .absent
  | some (.builtIn prop _, value) => return .builtIn prop value
  | some (.slot oid n definer, value) => return .slot definer (← db.slotOf (.slot oid n definer)) value

/-- The value of a property on an object: that of the nearest object upwards which has one. -/
def valueFor (db : Db) (y : Objid) (d : Propdef) : Option Var :=
  (db.chain .family y).findSome? fun z => (db.slotFor z d).bind Pval.value?

theorem Pval.value?_clear {pval : Pval} (h : pval.var = .clear) : pval.value? = none := by
  rw [Pval.value?, h]

theorem Pval.value?_of_ne {pval : Pval} (h : pval.var ≠ .clear) : pval.value? = some pval.var := by
  unfold Pval.value?
  split
  · contradiction
  · rfl

theorem Intact.slotFor_eq (hi : Intact db) (hy : y ∈ db.dom) (hn : (db.allDefs y)[n]? = some d) :
    db.slotFor y d = (db.slotsOf y)[n]? := by
  have htags := hi.slotted.tags y hy
  unfold slotFor
  apply lookup_getElem?
  · rw [htags]
    exact hi.slotted.allDefs_nodup hi.sound hy
  · rw [htags, List.getElem?_map, hn]
    rfl

theorem Intact.slotFor_up {p rest : List Objid} {j : Nat} (hi : Intact db) (hy : y ∈ db.dom)
    (hc : db.chain .family y = p ++ z :: rest) (hn : (db.allDefs y)[(p.flatMap db.defsOf).length + j]? = some d) :
    db.slotFor z d = (db.slotsOf z)[j]? := by
  have hs := hi.sound
  have hchain := hs.chain_spec (h := .family) (.inr hy)
  have hzd : z ∈ db.dom := hchain.2 z (by simp [hc])
  have hup : db.chain .family z = z :: rest := by
    rw [hc] at hchain
    exact hs.chain_eq (.inr hzd) hchain.1.tail
  apply hi.slotFor_eq hzd
  rw [← hn, allDefs, allDefs, hup, hc, List.flatMap_append, List.getElem?_append_right (by omega),
    Nat.add_sub_cancel_left]

theorem ValueAt.valueFor_eq {v : Var} (hi : Intact db) (hy : y ∈ db.dom)
    (hn : (db.allDefs y)[n]? = some d) (hv : ValueAt db n y x v) : db.valueFor y d = some v := by
  obtain ⟨p, rest, m, pv, hc, rfl, hpv, hvar, hne, hbefore⟩ := hv
  have hslot := hi.slotFor_up hy hc hn
  have hnone : p.findSome? (fun z => (db.slotFor z d).bind Pval.value?) = none := by
    rw [List.findSome?_eq_none_iff]
    intro z hz
    obtain ⟨p₁, p₂, rfl⟩ := List.append_of_mem hz
    -- the place counted from `z` on
    have hj : ((p₁ ++ z :: p₂).flatMap db.defsOf).length + m =
        (p₁.flatMap db.defsOf).length + (((z :: p₂).flatMap db.defsOf).length + m) := by
      rw [List.flatMap_append, List.length_append]
      omega
    obtain ⟨pz, hpz, hclear⟩ := hbefore p₁ z p₂ rfl _ hj
    have hslotz : db.slotFor z d = some pz := by
      rw [hj] at hn
      have hc₁ : db.chain .family y = p₁ ++ z :: (p₂ ++ x :: rest) := by
        rw [hc, List.append_assoc]
        rfl
      rw [hi.slotFor_up hy hc₁ hn, hpz]
    rw [hslotz]
    exact Pval.value?_clear hclear
  rw [valueFor, hc, List.findSome?_append, hnone, Option.none_or, List.findSome?_cons, hslot, hpv]
  rw [Option.bind_some, Pval.value?_of_ne (hvar ▸ hne), hvar]

theorem Intact.def_unique (hi : Intact db) (name : CStr) (hy : y ∈ db.dom) (hd : d ∈ db.allDefs y) (he : e ∈ db.allDefs y)
    (hdn : nameMatches d.name name = true) (hen : nameMatches e.name name = true) : d = e := by
  have hlow : ∀ f ∈ db.allDefs y, nameMatches f.name name = true → lowered f.name = lowered name := by
    intro f hf hm
    obtain ⟨q, -, hq⟩ := List.mem_flatMap.mp hf
    exact lowered_eq_of_nameMatches (hi.slotted.terminated q f hq) name.property hm
  have hnodup : ((db.allDefs y).map fun f => lowered f.name).Nodup := by
    rw [List.Nodup, List.pairwise_map]
    apply (hi.slotted.names y hy).imp
    intro f g hfg heq
    rw [sameName_of_lowered heq] at hfg
    cases hfg
  apply List.inj_on_of_nodup_map hnodup hd he
  rw [hlow d hd hdn, hlow e he hen]

/-- A name of a definition that is met on the way up is looked up to it. -/
theorem Intact.lookup_slot (hi : Intact db) (name : CStr) (hy : y ∈ db.dom) (hz : z ∈ db.chain .family y)
    (hd : d ∈ db.defsOf z) (hm : nameMatches d.name name = true) :
    ∃ pval v, db.slotFor y d = some pval ∧ db.valueFor y d = some v ∧
      db.lookup y name = some (.slot z pval v) := by
  have hterm := hi.slotted.terminated z d hd
  have hall : d ∈ db.allDefs y := List.mem_flatMap.mpr ⟨z, hz, hd⟩
  obtain ⟨b, hb, hbm, -⟩ | ⟨-, ⟨-, hno⟩ | ⟨n, q, v, x, hat, hvalue, hfind⟩⟩ := hi.finds hy name.val
  · -- built-in properties have other names
    have hbi : sameName b.1 name = true := (nameMatches_iff (ptable_terminated b hb) name.property).mp hbm
    have hlow := lowered_eq_of_nameMatches hterm name.property hm
    rw [← sameName_congr (ptable_terminated b hb) hterm name.property hlow,
      hi.slotted.reserved z d hd b hb] at hbi
    cases hbi
  · rw [hno d hall] at hm
    cases hm
  · obtain ⟨e, he, hn, hen⟩ := hat.getElem
    have heall : e ∈ db.allDefs y := List.mem_of_getElem? hn
    obtain rfl := hi.def_unique name hy hall heall hm hen
    obtain rfl := hi.slotted.tag_inj q z d he d hd rfl
    have hslot := hi.slotFor_eq hy hn
    obtain ⟨o, ho⟩ := mem_dom.mp hy
    obtain ⟨pval, hpval⟩ : ∃ pval, db.slotFor y d = some pval := by
      apply Option.isSome_iff_exists.mp
      exact (slotFor_isSome hi hy).mpr ⟨d, hall, rfl⟩
    refine ⟨pval, v, hpval, hvalue.valueFor_eq hi hy hn, ?_⟩
    have hget : o.propval[n]? = some pval := by
      rw [← slotsOf_of ho, ← hslot, hpval]
    simp only [lookup, hfind, slotOf, ho, Option.bind_eq_bind, Option.bind_some, hget, Option.pure_def]

/-- A name of nothing that is defined there is that of a built-in property or of none. -/
theorem Intact.lookup_other (hi : Intact db) (hy : y ∈ db.dom)
    (hno : ∀ d ∈ db.allDefs y, nameMatches d.name name = false) :
    db.lookup y name = match ptable.find? fun e => nameMatches e.1 name with
      | some e => (db.getBiValue y e.2).map (.builtIn e.2)
      | none => some .absent := by
  have hfuel : (db.chain .family y).length < db.fuel := by
    have := hi.sound.chain_length_le (h := .family) (.inr hy)
    unfold fuel
    omega
  obtain ⟨hfind, -⟩ | ⟨k, q, -, hat⟩ := @findPropdef_spec db y name.val hi.sound (.inr hy) 0 _ hfuel
  · unfold lookup findPropertyValue findProperty
    cases hb : ptable.find? fun e => nameMatches e.1 name with
    | none => simp [hfind]
    | some e =>
        cases hv : db.getBiValue y e.2 with
        | none => simp [hv]
        | some v => simp [hv]
  · obtain ⟨e, -, hn, hen⟩ := hat.getElem
    rw [hno e (List.mem_of_getElem? hn)] at hen
    cases hen

end Db
end LambdaMoo
