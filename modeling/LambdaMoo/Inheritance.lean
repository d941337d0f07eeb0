import LambdaMoo.Lib.Labelled
import LambdaMoo.StoreInvariant

/-! What becomes of the slots when an object gets another parent, told by the definitions
they are for and not by where they stand. -/
namespace LambdaMoo

namespace Db

open Labelled

variable {db db' : Db} {x p y z : Objid} {o : Object} {d : Propdef} {name : Str}

def slotFor (db : Db) (y : Objid) (d : Propdef) : Option Pval := lookup Pval.tag (db.slotsOf y) d.tag

/-- What `db_find_property` is to return for a name: a built-in property, a slot with
the value that the nearest object upwards has for it, or nothing. -/
def Finds (db : Db) (y : Objid) (name : Str) : Prop :=
  (∃ e ∈ ptable, nameMatches e.1 name = true ∧
      db.findProperty y name = some (some (.builtIn e.2 y))) ∨
    (∀ e ∈ ptable, nameMatches e.1 name = false) ∧
      ((db.findPropertyValue y name = some none ∧ ∀ d ∈ db.allDefs y, nameMatches d.name name = false) ∨
        ∃ n definer v source, FoundAt db name y n definer ∧ ValueAt db n y source v ∧
          db.findPropertyValue y name = some (some (.slot y n definer, v)))

theorem Intact.finds (hi : Intact db) (hy : y ∈ db.dom) (name : Str) : Finds db y name := by
  obtain ⟨o, ho⟩ := mem_dom.mp hy
  obtain hbi | ⟨hno, ⟨hfind, hall⟩ | ⟨n, definer, hfind, hat⟩⟩ := findProperty_spec hi.sound hy name
  · exact .inl hbi
  · exact .inr ⟨hno, .inl ⟨by simp [findPropertyValue, hfind], hall⟩⟩
  · refine .inr ⟨hno, .inr ?_⟩
    have hat' := hat
    have hfuel : (db.chain .family y).length ≤ db.fuel := by
      have := hi.sound.chain_length_le (h := .family) (.inr hy)
      unfold fuel
      omega
    obtain ⟨q, rest, i, hc, hn, hidx, -⟩ := hat
    obtain ⟨hlt, -⟩ := List.findIdx?_eq_some_iff_getElem.mp hidx
    obtain ⟨v, source, hv, hvalue⟩ := followClear_spec hi.sound hi.slotted ho hc hn hlt hfuel
    refine ⟨n, definer, v, source, hat', hvalue, ?_⟩
    simp [findPropertyValue, hfind, hi.sound.find_eq, ho, hv]

/-- What a change of the parent of `x` to `p` leaves, brings and takes: by objects `y` at or
below `x`, and definitions `d` on objects `z`. -/
structure Inherits (db : Db) (x p : Objid) (db' : Db) : Prop where
  kept : ∀ y z d, db.Below x y → d ∈ db.defsOf z →
    (db.Below x z ∧ db.Below z y ∨ z ∈ db.chain .family (db.upOf .family x) ∧ z ∈ db.chain .family p) →
    (db.slotFor y d).isSome ∧ db'.slotFor y d = db.slotFor y d
  gained : ∀ y o z d, db.Below x y → db.objects y = some o → d ∈ db.defsOf z →
    z ∈ db.chain .family p → z ∉ db.chain .family (db.upOf .family x) →
    ∃ pv, db'.slotFor (db'.upOf .family y) d = some pv ∧
      db'.slotFor y d = some (inheritedSlot o.owner pv)
  lost : ∀ y z d, db.Below x y → d ∈ db.defsOf z →
    z ∈ db.chain .family (db.upOf .family x) → z ∉ db.chain .family p →
    (db.slotFor y d).isSome ∧ db'.slotFor y d = none
  exact : ∀ y, db.Below x y → ∀ pv ∈ db'.slotsOf y, ∃ z d, d ∈ db.defsOf z ∧ d.tag = pv.tag ∧
    (db.Below x z ∧ db.Below z y ∨ z ∈ db.chain .family p)
  outside : ∀ y, ¬ db.Below x y → (db'.objects y).map (Object.withoutLists .family) =
    (db.objects y).map (Object.withoutLists .family)
  finds : ∀ y name, y ∈ db'.dom → Finds db' y name

section

variable {newOnly oldOnly common : List Objid} (hi : Intact db) (hi' : Intact db')
  (hsh : Shares db p (db.upOf .family x) newOnly oldOnly common)
include hsh

theorem Shares.mem_common (hold : z ∈ db.chain .family (db.upOf .family x)) (hnew : z ∈ db.chain .family p) :
    z ∈ common := by
  rw [hsh.left, List.mem_append] at hnew
  exact hnew.resolve_left fun h => hsh.apart z h hold

theorem Shares.mem_newOnly (hold : z ∉ db.chain .family (db.upOf .family x)) (hnew : z ∈ db.chain .family p) :
    z ∈ newOnly := by
  rw [hsh.left, List.mem_append] at hnew
  refine hnew.resolve_right fun h => hold ?_
  rw [hsh.right]
  exact List.mem_append_right _ h

end

theorem Reparented.moved (hi : Intact db) (hi' : Intact db') (hx : x ∈ db.dom)
    (hp : p = nothing ∨ p ∈ db.dom) (hacyc : x ∉ db.chain .family p) (hre : Reparented db x p db') :
    Moved db x p db' := by
  have hdefs : db'.defsOf = db.defsOf := by
    have := Agree.defsOf (hre.agree.mono fun he => by
      have := congrArg Object.propdefs he
      exact this)
    exact this
  exact ⟨hi.sound, hi'.sound, hx, hp, hacyc, hre.agree.dom, hre.up, hdefs⟩

theorem Sound.mem_pathDefs (hs : Sound db) (hb : db.Below x y) :
    d ∈ db.pathDefs x y ↔ ∃ z, db.Below x z ∧ db.Below z y ∧ d ∈ db.defsOf z := by
  rw [pathDefs, List.mem_append, localDefs, List.mem_flatMap]
  constructor
  · rintro (⟨z, hz, hd⟩ | hd)
    · have hzy : z ∈ db.chain .family y := by
        rw [hs.chain_between hb]
        exact List.mem_append_left _ hz
      exact ⟨z, (hs.mem_between hb hz).1, ⟨hb.1, hzy⟩, hd⟩
    · exact ⟨x, hs.below_self (hs.below_mem hb), hb, hd⟩
  · rintro ⟨z, hxz, hzy, hd⟩
    have hx := hs.below_mem hb
    have hmem := hzy.2
    rw [hs.chain_between hb, hs.chain_cons hx, List.mem_append, List.mem_cons] at hmem
    obtain hmem | rfl | hmem := hmem
    · exact .inl ⟨z, hmem, hd⟩
    · exact .inr hd
    · -- above `x` nothing is below it
      obtain ⟨l, hl⟩ := hs.chain_suffix (hs.up_mem hx) hmem
      refine absurd ?_ (hs.up_notMem (h := .family) hx)
      rw [hl]
      exact List.mem_append_right _ hxz.2

theorem slotFor_isSome (hi : Intact db) (hy : y ∈ db.dom) : (db.slotFor y d).isSome ↔
    ∃ e ∈ db.allDefs y, e.tag = d.tag := by
  rw [slotFor, lookup_isSome, hi.slotted.tags y hy, List.mem_map]

/-- The slots of an object of the subtree, before and after: those for the definitions on the
way up to `x`, those that only one side has, and those for the ancestors that are shared. -/
theorem Moved.exists_parts {newOnly oldOnly common : List Objid} (hi : Intact db) (hi' : Intact db')
    (m : Moved db x p db') (hsh : Shares db p (db.upOf .family x) newOnly oldOnly common)
    (hb : db.Below x y) (ho : db.objects y = some o)
    (hin : db'.slotsOf y = db.fixedSlots x (oldOnly.flatMap db.defsOf).length
      (newOnly.flatMap db.defsOf).length (db'.slotsOf (db'.upOf .family y)) y o) :
    ∃ A B M E : List Pval, db.slotsOf y = A ++ B ++ E ∧ db'.slotsOf y = A ++ M ++ E ∧
      A.map Pval.tag = (db.pathDefs x y).map Propdef.tag ∧
      B.map Pval.tag = (oldOnly.flatMap db.defsOf).map Propdef.tag ∧
      M.map Pval.tag = (newOnly.flatMap db.defsOf).map Propdef.tag ∧
      E.map Pval.tag = (common.flatMap db.defsOf).map Propdef.tag ∧
      M = (((db'.slotsOf (db'.upOf .family y)).drop
        ((db.pathDefs x y).length - (db.defsOf y).length)).take
          (newOnly.flatMap db.defsOf).length).map (inheritedSlot o.owner) := by
  have hs := hi.sound
  have htags : (db.slotsOf y).map Pval.tag = ((db.pathDefs x y ++ oldOnly.flatMap db.defsOf) ++
      common.flatMap db.defsOf).map Propdef.tag := by
    rw [hi.slotted.tags y hb.1, hs.allDefs_path hb, allDefs, hsh.right, List.flatMap_append,
      List.append_assoc]
  obtain ⟨AB, E, hS, hAB, hE⟩ := exists_split htags
  obtain ⟨A, B, rfl, hA, hB⟩ := exists_split hAB
  have hlenA := congrArg List.length hA
  have hlenB := congrArg List.length hB
  simp only [List.length_map] at hlenA hlenB
  rw [slotsOf_of ho] at hS
  set M := (((db'.slotsOf (db'.upOf .family y)).drop
    ((db.pathDefs x y).length - (db.defsOf y).length)).take
      (newOnly.flatMap db.defsOf).length).map (inheritedSlot o.owner) with hMdef
  have hS' : db'.slotsOf y = A ++ M ++ E := by
    have htake : o.propval.take (db.pathDefs x y).length = A := by
      rw [hS, List.append_assoc, ← hlenA, List.take_left]
    have hdrop : o.propval.drop ((db.pathDefs x y).length + (oldOnly.flatMap db.defsOf).length) = E := by
      rw [hS, ← hlenA, ← hlenB, ← List.length_append, List.drop_left]
    rw [hin, fixedSlots]
    simp only [htake, hdrop]
    rfl
  refine ⟨A, B, M, E, by rw [slotsOf_of ho, hS], hS', hA, hB, ?_, hE, rfl⟩
  have htags' : (db'.slotsOf y).map Pval.tag = ((db.pathDefs x y ++ newOnly.flatMap db.defsOf) ++
      common.flatMap db.defsOf).map Propdef.tag := by
    rw [hi'.slotted.tags y (m.dom ▸ hb.1), m.allDefs_path hb, allDefs, hsh.left, List.flatMap_append,
      List.append_assoc]
  rw [hS', List.map_append, List.map_append, List.map_append, List.map_append, hA, hE] at htags'
  exact List.append_cancel_left (List.append_cancel_right htags')

section

variable (hi : Intact db) (hi' : Intact db') (m : Moved db x p db') (hre : Reparented db x p db')

include hi m in
/-- The definitions that were on the old way up only are on the way up of no object below. -/
theorem Moved.tag_lost (hb : db.Below x y) (hd : d ∈ db.defsOf z) (hzu : z ∈ db.chain .family (db.upOf .family x))
    (hzp : z ∉ db.chain .family p) {e : Propdef} (he : e ∈ db'.allDefs y) : e.tag ≠ d.tag := by
  have hs := hi.sound
  have hx := m.mem
  have hup := hs.up_mem (h := .family) hx
  intro heq
  obtain ⟨z', hz', he'⟩ := List.mem_flatMap.mp he
  rw [m.defs] at he'
  obtain rfl := hi.slotted.tag_inj z' z e he' d hd heq
  rw [m.chain_below hb, List.mem_append, List.mem_cons] at hz'
  obtain hz' | rfl | hz' := hz'
  · obtain ⟨hxz, hne⟩ := hs.mem_between hb hz'
    obtain ⟨l, hl⟩ := hs.chain_suffix hup hzu
    refine hs.up_notMem (h := .family) hx ?_
    rw [hl]
    exact List.mem_append_right _ hxz.2
  · exact hs.up_notMem hx hzu
  · exact hzp hz'

include hi hi' m hre

theorem Reparented.kept (hb : db.Below x y) (hd : d ∈ db.defsOf z)
    (hz : db.Below x z ∧ db.Below z y ∨ z ∈ db.chain .family (db.upOf .family x) ∧ z ∈ db.chain .family p) :
    (db.slotFor y d).isSome ∧ db'.slotFor y d = db.slotFor y d := by
  have hs := hi.sound
  obtain ⟨newOnly, oldOnly, common, hsh, hin⟩ := hre.inside
  obtain ⟨o, ho⟩ := mem_dom.mp hb.1
  obtain ⟨A, B, M, E, hS, hS', hA, hB, hM, hE, -⟩ := m.exists_parts hi hi' hsh hb ho (hin y o hb ho)
  obtain ⟨hxz, hzy⟩ | ⟨hzu, hzp⟩ := hz
  · have hdA : d.tag ∈ A.map Pval.tag := by
      rw [hA]
      exact List.mem_map_of_mem ((hs.mem_pathDefs hb).mpr ⟨z, hxz, hzy, hd⟩)
    have hin : ∀ R, lookup Pval.tag (A ++ R ++ E) d.tag = lookup Pval.tag A d.tag := fun R => by
      rw [List.append_assoc, lookup_left hdA]
    rw [slotFor, slotFor, hS, hS', hin, hin]
    exact ⟨lookup_isSome.mpr hdA, rfl⟩
  · have hdE : d.tag ∈ E.map Pval.tag := by
      rw [hE]
      exact List.mem_map_of_mem (List.mem_flatMap.mpr ⟨z, hsh.mem_common hzu hzp, hd⟩)
    have hnot : ∀ R, ((A ++ R ++ E).map Pval.tag).Nodup →
        lookup Pval.tag (A ++ R ++ E) d.tag = lookup Pval.tag E d.tag := by
      intro R hR
      refine lookup_right fun hmem => ?_
      rw [List.map_append, List.nodup_append] at hR
      exact hR.2.2 _ hmem _ hdE rfl
    rw [slotFor, slotFor, hS, hS', hnot B, hnot M]
    · exact ⟨lookup_isSome.mpr hdE, rfl⟩
    · rw [← hS', hi'.slotted.tags y (m.dom ▸ hb.1)]
      exact hi'.slotted.allDefs_nodup hi'.sound (m.dom ▸ hb.1)
    · rw [← hS, hi.slotted.tags y hb.1]
      exact hi.slotted.allDefs_nodup hs hb.1

theorem Reparented.gained (hb : db.Below x y) (ho : db.objects y = some o) (hd : d ∈ db.defsOf z)
    (hzp : z ∈ db.chain .family p) (hzu : z ∉ db.chain .family (db.upOf .family x)) :
    ∃ pv, db'.slotFor (db'.upOf .family y) d = some pv ∧ db'.slotFor y d = some (inheritedSlot o.owner pv) := by
  have hs := hi.sound
  obtain ⟨newOnly, oldOnly, common, hsh, hin⟩ := hre.inside
  obtain ⟨A, B, M, E, -, hS', hA, -, hM, -, hMeq⟩ := m.exists_parts hi hi' hsh hb ho (hin y o hb ho)
  have hdN : d ∈ newOnly.flatMap db.defsOf := List.mem_flatMap.mpr ⟨z, hsh.mem_newOnly hzu hzp, hd⟩
  have hdM : d.tag ∈ M.map Pval.tag := by
    rw [hM]
    exact List.mem_map_of_mem hdN
  have hnodup : ((db'.slotsOf y).map Pval.tag).Nodup := by
    rw [hi'.slotted.tags y (m.dom ▸ hb.1)]
    exact hi'.slotted.allDefs_nodup hi'.sound (m.dom ▸ hb.1)
  have hfound : db'.slotFor y d = lookup Pval.tag M d.tag := by
    rw [hS', List.append_assoc, List.map_append, List.nodup_append] at hnodup
    rw [slotFor, hS', List.append_assoc, lookup_right, lookup_left hdM]
    intro hmem
    exact hnodup.2.2 _ hmem _ (by simp [List.mem_map.mp hdM]) rfl
  -- the parent has the slots that are taken over behind those for its own way up
  obtain ⟨Pre, hup', hpath⟩ := m.allDefs_up hb
  have hu : db'.upOf .family y ∈ db'.dom := by
    refine (hi'.sound.up_mem (m.dom ▸ hb.1)).resolve_left fun hn => ?_
    rw [hn, hi'.sound.allDefs_nothing, allDefs, hsh.left, List.flatMap_append] at hup'
    simp [List.append_eq_nil_iff.mp (List.append_eq_nil_iff.mp hup'.symm).2] at hdN
  have hlabels : (db'.slotsOf (db'.upOf .family y)).map Pval.tag =
      ((Pre ++ newOnly.flatMap db.defsOf) ++ common.flatMap db.defsOf).map Propdef.tag := by
    rw [hi'.slotted.tags _ hu, hup', allDefs, hsh.left, List.flatMap_append, List.append_assoc]
  obtain ⟨Q, Q₃, hQ, hQ₁₂, -⟩ := exists_split hlabels
  obtain ⟨Q₁, Q₂, rfl, hQ₁, hQ₂⟩ := exists_split hQ₁₂
  have hlen₁ : (db.pathDefs x y).length - (db.defsOf y).length = Q₁.length := by
    have := congrArg List.length hQ₁
    simp only [List.length_map] at this
    rw [this, hpath, List.length_append, Nat.add_sub_cancel_left]
  have hlen₂ : (newOnly.flatMap db.defsOf).length = Q₂.length := by
    have := congrArg List.length hQ₂
    simpa using this.symm
  have hM₂ : M = Q₂.map (inheritedSlot o.owner) := by
    rw [hMeq, hlen₁, hlen₂, hQ, List.append_assoc, List.drop_left, List.take_left]
  have hdQ : d.tag ∈ Q₂.map Pval.tag := by
    rw [hQ₂]
    exact List.mem_map_of_mem hdN
  have hnodupQ : ((Q₁ ++ Q₂ ++ Q₃).map Pval.tag).Nodup := by
    rw [← hQ, hi'.slotted.tags _ hu]
    exact hi'.slotted.allDefs_nodup hi'.sound hu
  have hparent : db'.slotFor (db'.upOf .family y) d = lookup Pval.tag Q₂ d.tag := by
    rw [List.append_assoc, List.map_append, List.nodup_append] at hnodupQ
    rw [slotFor, hQ, List.append_assoc, lookup_right, lookup_left hdQ]
    intro hmem
    exact hnodupQ.2.2 _ hmem _ (by simp [List.mem_map.mp hdQ]) rfl
  obtain ⟨pv, hpv⟩ := Option.isSome_iff_exists.mp (lookup_isSome.mpr hdQ)
  refine ⟨pv, hparent.trans hpv, ?_⟩
  rw [hfound, hM₂, lookup_map (f := inheritedSlot o.owner) fun _ => rfl, hpv]
  rfl

omit hi' in
/-- Nothing but the lists of the hierarchy may be different there. -/
theorem Reparented.alike_outside (hb : ¬ db.Below x y) :
    (db'.objects y).map (Object.withoutLists .family) = (db.objects y).map (Object.withoutLists .family) := by
  have hs := hi.sound
  have hx := m.mem
  have hobj : (db'.objects y).map (fun o => (o.withoutLinks .family).withoutSlots) =
      (db.objects y).map fun o => (o.withoutLinks .family).withoutSlots := hre.agree.objects y
  have hslots := hre.outside y hb
  have hup' : db'.upOf .family y = db.upOf .family y := by
    refine m.upOf_ne ?_
    rintro rfl
    exact hb (hs.below_self hx)
  cases ho : db.objects y with
  | none =>
      rw [ho, Option.map_none, Option.map_eq_none_iff] at hobj
      rw [hobj]
  | some o =>
      rw [ho, Option.map_some, Option.map_eq_some_iff] at hobj
      obtain ⟨o', ho', he⟩ := hobj
      rw [slotsOf_of ho, slotsOf_of ho'] at hslots
      rw [upOf_of ho, upOf_of ho'] at hup'
      rw [ho', Option.map_some, Option.map_some]
      cases o
      cases o'
      simp_all [Object.withoutLinks, Object.withoutLists, Object.withoutSlots, Object.setUp,
        Object.setHead, Object.setNextIn, Object.up]

end

theorem changeParent_inherits (hi : Intact db) (hx : x ∈ db.dom) (hp : p = nothing ∨ p ∈ db.dom)
    (hacyc : x ∉ db.chain .family p) (hdo : db.changeParent x p = some (true, db')) :
    Inherits db x p db' := by
  obtain ⟨hno, -⟩ | ⟨-, -, hi', hre⟩ := changeParent_cases hi hx hp hacyc hdo
  · cases hno
  have hs := hi.sound
  have m := hre.moved hi hi' hx hp hacyc
  refine ⟨fun y z d hb hd hz => hre.kept hi hi' m hb hd hz, fun y o z d hb ho hd hzp hzu => hre.gained hi hi' m hb ho hd hzp hzu,
    fun y z d hb hd hzu hzp => ⟨?_, ?_⟩, fun y hb pv hpv => ?_, fun y hb => hre.alike_outside hi m hb,
    fun y name hy => hi'.finds hy name⟩
  · rw [slotFor_isSome hi hb.1]
    refine ⟨d, ?_, rfl⟩
    rw [hs.allDefs_path hb]
    exact List.mem_append_right _ (List.mem_flatMap.mpr ⟨z, hzu, hd⟩)
  · rw [← Option.not_isSome_iff_eq_none, slotFor_isSome hi' (m.dom ▸ hb.1)]
    rintro ⟨e, he, heq⟩
    exact m.tag_lost hi hb hd hzu hzp he heq
  · have htag := List.mem_map_of_mem (f := Pval.tag) hpv
    rw [hi'.slotted.tags y (m.dom ▸ hb.1), m.allDefs_path hb, List.map_append, List.mem_append] at htag
    obtain htag | htag := htag
    · obtain ⟨d, hd, heq⟩ := List.mem_map.mp htag
      obtain ⟨z, hxz, hzy, hd⟩ := (hs.mem_pathDefs hb).mp hd
      exact ⟨z, d, hd, heq, .inl ⟨hxz, hzy⟩⟩
    · obtain ⟨d, hd, heq⟩ := List.mem_map.mp htag
      obtain ⟨z, hz, hd⟩ := List.mem_flatMap.mp hd
      exact ⟨z, d, hd, heq, .inr hz⟩

theorem changeParent_inherits_created : ∃ db db', empty.createObject.2.createObject.2.addPropdef 0
      ['k', 'e', 'y'] (.int 1) 0 {} = some (true, db) ∧
    db.changeParent 1 0 = some (true, db') ∧ (db'.slotsOf 1).length = 1 ∧ Inherits db 1 0 db' := by
  have hi := createObject_intact (createObject_intact empty_intact)
  have ht : Terminated ['k', 'e', 'y'] := by decide
  have hv : Var.int 1 ≠ .clear := fun h => by cases h
  have hadd : empty.createObject.2.createObject.2.addPropdef 0 ['k', 'e', 'y'] (.int 1) 0 {} =
    some (true, _) := rfl
  exact ⟨_, _, hadd, rfl, rfl, changeParent_inherits (hi.addPropdef (mem_dom_of rfl) ht hv hadd)
    (mem_dom_of rfl) (.inr (mem_dom_of rfl)) (by decide) rfl⟩

end Db
end LambdaMoo
