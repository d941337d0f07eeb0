import LambdaMoo.StoreInvariant

/-! Renumbering as a map of the whole table: what `db_set_object_number` makes of a table
that its callers may give it. -/
namespace LambdaMoo

namespace Var

mutual
def holdsUsers (users : List Objid) (here : List Nat → Bool) : Var → Bool
  | .list l => here [] && areObjs l users || holdsUsersFrom users here 0 l
  | _ => false
def holdsUsersFrom (users : List Objid) (here : List Nat → Bool) (i : Nat) : List Var → Bool
  | [] => false
  | v :: vs => holdsUsers users (fun path => here (i :: path)) v || holdsUsersFrom users here (i + 1) vs
end

theorem eq_map_of_areObjs {l : List Var} {users : List Objid} (h : areObjs l users = true) :
    l = users.map .obj := by
  fun_induction areObjs l users with
  | case1 => rfl
  | case2 x vs y ys ih =>
    obtain ⟨hx, hvs⟩ := Bool.and_eq_true_iff.mp h
    rw [beq_iff_eq.mp hx, ih hvs, List.map_cons]
  | case3 => cases h

mutual
theorem withUsers_eq_self_iff (users users' : List Objid) : ∀ (here : List Nat → Bool) (v : Var),
    v.withUsers users users' here = v ↔ users' = users ∨ v.holdsUsers users here = false
  | here, .list l => by
      rw [withUsers, holdsUsers]
      by_cases hl : (here [] && areObjs l users) = true
      · rw [if_pos hl, hl, Bool.true_or]
        rw [Bool.and_eq_true] at hl
        have hinj : Function.Injective Var.obj := fun _ _ h => Var.obj.inj h
        rw [eq_map_of_areObjs hl.2, Var.list.injEq, (List.map_injective_iff.mpr hinj).eq_iff]
        simp
      · rw [if_neg hl, Bool.eq_false_of_not_eq_true hl, Bool.false_or, Var.list.injEq]
        exact withUsersFrom_eq_self_iff users users' here 0 l
  | _, .int _ | _, .obj _ | _, .str _ | _, .err _ | _, .clear | _, .none | _, .catchMarker _ | _, .finallyMarker _
  | _, .float _ => by simp [withUsers, holdsUsers]
theorem withUsersFrom_eq_self_iff (users users' : List Objid) : ∀ (here : List Nat → Bool) (i : Nat) (l : List Var),
    withUsersFrom users users' here i l = l ↔ users' = users ∨ holdsUsersFrom users here i l = false
  | _, _, [] => by simp [withUsersFrom, holdsUsersFrom]
  | here, i, v :: vs => by
      rw [withUsersFrom, holdsUsersFrom, List.cons.injEq, Bool.or_eq_false_iff, withUsers_eq_self_iff users users' _ v,
        withUsersFrom_eq_self_iff users users' here (i + 1) vs, ← or_and_left]
end

mutual
theorem holdsUsers_nowhere (users : List Objid) : ∀ v : Var, v.holdsUsers users (fun _ => false) = false
  | .list l => holdsUsersFrom_nowhere users 0 l
  | .int _ | .obj _ | .str _ | .err _ | .clear | .none | .catchMarker _ | .finallyMarker _ | .float _ => rfl
theorem holdsUsersFrom_nowhere (users : List Objid) :
    ∀ (i : Nat) (l : List Var), holdsUsersFrom users (fun _ => false) i l = false
  | _, [] => rfl
  | i, v :: vs => by
      rw [holdsUsersFrom, holdsUsers_nowhere users v, holdsUsersFrom_nowhere users (i + 1) vs, Bool.or_false]
end

end Var

namespace Object

/-- An object with every mention of `old` made one of `new`. One that hangs under no other is on
no list: there is no link to a next one in it. -/
def renumbered (old new : Objid) (o : Object) : Object :=
  { o.withOwners old new with
    id := Db.renumbered old new o.id
    location := Db.renumbered old new o.location
    contents := Db.renumbered old new o.contents
    next := if o.location = nothing then o.next else Db.renumbered old new o.next
    parent := Db.renumbered old new o.parent
    child := Db.renumbered old new o.child
    sibling := if o.parent = nothing then o.sibling else Db.renumbered old new o.sibling }

theorem ext_links {o o' : Object} (hid : o'.id = o.id) (hup : ∀ h, o'.up h = o.up h)
    (hhead : ∀ h, o'.head h = o.head h) (hnext : ∀ h, o'.nextIn h = o.nextIn h)
    (hbody : o'.body = o.body) : o' = o := by
  have hparent := hup .family
  have hlocation := hup .place
  have hchild := hhead .family
  have hcontents := hhead .place
  have hsibling := hnext .family
  have hnext' := hnext .place
  cases o
  cases o'
  simp_all [body, withoutLinks, withoutLists, setUp, setHead, setNextIn, up, head, nextIn]

end Object

namespace Db

variable {db db' p : Db} {old new : Objid}

/-- The same table, `old` being `new` everywhere. The lookup cache is no part of it. -/
structure Isomorphic (db : Db) (old new : Objid) (db' : Db) : Prop where
  numObjects : db'.numObjects = db.numObjects
  nextTag : db'.nextTag = db.nextTag
  dom : db'.dom = renumbered old new '' db.dom
  objects : ∀ z ∈ db.dom, db'.objects (renumbered old new z) =
    (db.objects z).map (Object.renumbered old new)
  allUsers : db.allUsers.Nodup → (∀ z ∈ db.allUsers, db.isUser z = true) →
    db'.allUsers = db.allUsers.map (renumbered old new)

theorem map_renumbered_of_notMem {l : List Objid} (hl : old ∉ l) :
    l.map (renumbered old new) = l := by
  have hself : l.map (renumbered old new) = l.map id := by
    apply List.map_congr_left
    intro z hz
    exact renumbered_ne fun heq => hl (heq ▸ hz)
  rw [hself, List.map_id]

theorem replace_eq_map {l : List Objid} (hl : l.Nodup) :
    l.replace old new = l.map (renumbered old new) := by
  induction l with
  | nil => rfl
  | cons x xs ih =>
    obtain ⟨hx, hxs⟩ := List.nodup_cons.mp hl
    rw [List.map_cons]
    by_cases heq : x = old
    · subst heq
      rw [map_renumbered_of_notMem hx]
      simp
    · have hbeq : (old == x) = false := by simpa using Ne.symm heq
      simp [List.replace_cons, renumbered_ne heq, hbeq, ih hxs]

theorem Renumbered.object {o : Object} {z : Objid} (hs : Sound db) (hs' : Sound db')
    (r : Renumbered db old new db') (c : Carried db old new db') (ho : db.objects z = some o) :
    db'.objects (renumbered old new z) = some (o.renumbered old new) := by
  have hz := mem_dom_of ho
  have hb := r.body z hz
  rw [ho, Option.map_some, Option.map_eq_some_iff] at hb
  obtain ⟨o', ho', hbody⟩ := hb
  have hup : ∀ h, o'.up h = renumbered old new (o.up h) := by
    intro h
    have hu := r.up h z hz
    rwa [upOf_of ho, upOf_of ho'] at hu
  have hhead : ∀ h, o'.head h = renumbered old new (o.head h) := by
    intro h
    have hh := c.head h z hz
    rwa [headOf_of ho, headOf_of ho'] at hh
  have hnext : ∀ h, o'.nextIn h =
      if o.up h = nothing then o.nextIn h else renumbered old new (o.nextIn h) := by
    intro h
    rw [← nextOf_of ho', ← nextOf_of ho, ← upOf_of ho]
    split
    · exact c.loose h z hz ‹_›
    · exact c.next h z hz ((hs.up_mem hz).resolve_left ‹_›)
  have hid : o'.id = renumbered old new o.id := by
    rw [(hs'.ids ho').1, (hs.ids ho).1]
  rw [ho', Option.some.injEq]
  refine Object.ext_links hid (fun h => ?_) (fun h => ?_) (fun h => ?_) hbody
  · rw [hup]
    cases h <;> rfl
  · rw [hhead]
    cases h <;> rfl
  · rw [hnext]
    cases h <;> rfl

theorem flagged_of_isUser {z : Objid} (h : db.isUser z = true) :
    (db.objects z).elim false (fun o => o.flags .user) = true := by
  unfold isUser hasFlag at h
  split at h
  · contradiction
  · rename_i o ho
    unfold find at ho
    split at ho
    · contradiction
    · simpa [ho] using h

theorem Renumbered.isomorphic {dp : Db} (hs : Sound dp) (hs' : Sound db')
    (r : Renumbered dp old new db') (c : Carried dp old new db') (hobj : p.objects = dp.objects)
    (husers : p.allUsers = dp.allUsers) (htag : p.nextTag = dp.nextTag)
    (hnum : db'.numObjects = p.numObjects) : Isomorphic p old new db' := by
  have hdom : p.dom = dp.dom := by rw [Db.dom, Db.dom, hobj]
  refine ⟨hnum, r.nextTag.trans htag.symm, ?_, fun z hz => ?_, fun hnodup hall => ?_⟩
  · rw [hdom, r.dom]
  · obtain ⟨o, ho⟩ := mem_dom.mp hz
    rw [ho]
    exact r.object hs hs' c (hobj ▸ ho)
  · rw [c.users, ← hobj, ← husers]
    split
    · exact replace_eq_map hnodup
    · rename_i hnot
      have hold : old ∉ p.allUsers := fun hmem => hnot (flagged_of_isUser (hall old hmem))
      exact (map_renumbered_of_notMem hold).symm

/-- What the callers of `db_set_object_number` give it: a table with an object that exists, or with
one just placed at `num_objects`, and a number that is not in use. -/
inductive Renumbers (db : Db) : Db → Objid → Objid → Prop
  /-- `db_renumber_object`, called for an object of the table. -/
  | lower {old new : Objid} : old ∈ db.dom → 0 ≤ new → new < old → new ∉ db.dom →
      Renumbers db db old new
  /-- `db_create_object_and_renum` and `db_create_object_with_num`. -/
  | placed {new : Objid} : 0 ≤ new → new ≤ db.numObjects → db.valid new = false →
      Renumbers db (db.set db.numObjects (newObject db.numObjects)) db.numObjects new

/-- The entry of an object that is to have its own number is emptied before it is written to. -/
theorem setObjectNumber_self (shared : Sharing) (n : Objid) (hn : db.numObjects ≤ n) :
    db.setObjectNumber shared n n = none := by
  have hfind : db.affectedCallableVerbLookup.valid n = false := by
    have hrange : n < 0 ∨ db.numObjects ≤ n := .inr hn
    simp [valid, find, affectedCallableVerbLookup, hrange]
  unfold setObjectNumber
  simp only [hfind, Bool.false_eq_true, if_false, Option.bind_eq_bind]
  cases db.affectedCallableVerbLookup.objects n with
  | none => rfl
  | some o => simp [modify]

/-- The list of the users is overwritten, and a property holds that list. -/
def SharesUsers (db : Db) (shared : Sharing) (old : Objid) : Prop :=
  (db.objects old).elim false (fun o => o.flags .user) = true ∧ old ∈ db.allUsers ∧
    ∃ oid o n, ∃ p : Pval, db.objects oid = some o ∧ o.propval[n]? = some p ∧
      p.var.holdsUsers db.allUsers (shared oid n) = true

theorem Isomorphic.objects_eq {db'' : Db} (h : Isomorphic db old new db') (h' : Isomorphic db old new db'') :
    db''.objects = db'.objects := by
  funext i
  by_cases hi : i ∈ db'.dom
  · obtain ⟨z, hz, rfl⟩ := h.dom ▸ hi
    rw [h.objects z hz, h'.objects z hz]
  · have hi' : i ∉ db''.dom := by rwa [h'.dom, ← h.dom]
    rw [Option.eq_none_iff_forall_ne_some.mpr fun o ho => hi (mem_dom_of ho),
      Option.eq_none_iff_forall_ne_some.mpr fun o ho => hi' (mem_dom_of ho)]

theorem Isomorphic.of_objects {db'' : Db} (h : Isomorphic db old new db') (hobj : db''.objects = db'.objects)
    (hrest : db'' = { db' with objects := db''.objects }) : Isomorphic db old new db'' := by
  rw [hobj] at hrest
  rwa [hrest]

theorem moved_renumbered {shared : Sharing} {z : Objid} (hz : z ≠ new) :
    shared.moved old new (renumbered old new z) = shared z := by
  unfold Sharing.moved
  obtain rfl | hne := eq_or_ne z old
  · rw [renumbered_old, if_pos rfl]
  · rw [renumbered_ne hne, if_neg hz]

theorem renumbered_withUsers_iff {users users' : List Objid} {here : Nat → List Nat → Bool} {o : Object} :
    (o.renumbered old new).withUsers users users' here = o.renumbered old new ↔
      ∀ n (p : Pval), o.propval[n]? = some p → users' = users ∨ p.var.holdsUsers users (here n) = false := by
  have hslots : ∀ n : Nat, ((o.renumbered old new).withUsers users users' here).propval[n]? =
      (o.propval[n]?).map fun p : Pval =>
        { p with owner := renumberedOwner old new p.owner, var := p.var.withUsers users users' (here n) } := by
    intro n
    simp [Object.withUsers, Object.renumbered, Object.withOwners, Option.map_map, Function.comp_def]
  have hold : ∀ n : Nat, (o.renumbered old new).propval[n]? =
      (o.propval[n]?).map fun p : Pval => { p with owner := renumberedOwner old new p.owner } := by
    intro n
    simp [Object.renumbered, Object.withOwners]
  constructor
  · intro h n p hp
    have hn := hslots n
    rw [h, hold, hp, Option.map_some, Option.map_some, Option.some.injEq] at hn
    exact (Var.withUsers_eq_self_iff users users' (here n) p.var).mp (congrArg Pval.var hn).symm
  · intro h
    have heq : ((o.renumbered old new).withUsers users users' here).propval = (o.renumbered old new).propval := by
      refine List.ext_getElem? fun n => ?_
      rw [hslots, hold]
      refine Option.map_congr fun p hp => ?_
      rw [(Var.withUsers_eq_self_iff users users' (here n) p.var).mpr (h n p hp)]
    exact congrArg (fun slots => { o.renumbered old new with propval := slots }) heq

/-- With the list of the users overwritten wherever it stands, the table is still the same but for the
number only when it stands in no property. -/
theorem Isomorphic.withUsers_iff {users users' : List Objid} {shared : Sharing} (h : Isomorphic db old new db')
    (hnew : new ∉ db.dom) : Isomorphic db old new (db'.withUsers users users' (shared.moved old new)) ↔
      ∀ oid o n (p : Pval), db.objects oid = some o → o.propval[n]? = some p →
        users' = users ∨ p.var.holdsUsers users (shared oid n) = false := by
  constructor
  · intro h' oid o n p ho hp
    have hne : oid ≠ new := fun heq => hnew (heq ▸ mem_dom_of ho)
    have hrow : (db'.objects (renumbered old new oid)).map (Object.withUsers users users' _) =
        db'.objects (renumbered old new oid) := congrFun (h.objects_eq h') (renumbered old new oid)
    rw [h.objects oid (mem_dom_of ho), ho, Option.map_some, Option.map_some, Option.some.injEq,
      moved_renumbered hne] at hrow
    exact renumbered_withUsers_iff.mp hrow n p hp
  · intro hfree
    refine h.of_objects (funext fun i => ?_) rfl
    change (db'.objects i).map _ = _
    by_cases hi : i ∈ db'.dom
    · obtain ⟨z, hz, rfl⟩ := h.dom ▸ hi
      obtain ⟨o, ho⟩ := mem_dom.mp hz
      have hne : z ≠ new := fun heq => hnew (heq ▸ hz)
      rw [h.objects z hz, ho, Option.map_some, Option.map_some, moved_renumbered hne]
      exact congrArg some (renumbered_withUsers_iff.mpr fun n p => hfree z o n p ho)
    · rw [Option.eq_none_iff_forall_ne_some.mpr fun o ho => hi (mem_dom_of ho), Option.map_none]

theorem replace_eq_self_iff {l : List Objid} (hne : new ≠ old) : l.replace old new = l ↔ old ∉ l := by
  induction l with
  | nil => simp
  | cons x xs ih =>
    obtain rfl | hx := eq_or_ne x old
    · simp [hne]
    · have hbeq : (old == x) = false := by simpa using Ne.symm hx
      simp [List.replace_cons, hbeq, ih, Ne.symm hx]

theorem Renumberable.isomorphic_iff {dp : Db} (g : Renumberable dp p old new) (shared : Sharing)
    (husers : p.allUsers = dp.allUsers) :
    (∃ db', p.setObjectNumber shared old new = some db' ∧ Isomorphic p old new db') ↔ ¬ p.SharesUsers shared old := by
  obtain ⟨db', hdb', hs', -, hnum, r, c⟩ := setObjectNumber_spec g
  have hiso : Isomorphic p old new db' := r.isomorphic g.sound hs' (c husers) g.objects husers g.nextTag hnum
  have hdom : p.dom = dp.dom := by rw [Db.dom, Db.dom, g.objects]
  have hne : new ≠ old := fun heq => g.new_notMem (heq ▸ g.old_mem)
  have hends : (∃ db', p.setObjectNumber shared old new = some db' ∧ Isomorphic p old new db') ↔
      Isomorphic p old new (if (p.objects old).elim false (fun o => o.flags .user) then
        db'.withUsers p.allUsers (p.allUsers.replace old new) (shared.moved old new) else db') := by
    rw [hdb' shared, g.objects]
    simp
  rw [hends, SharesUsers]
  by_cases huser : (p.objects old).elim false (fun o => o.flags .user) = true
  · rw [if_pos huser, hiso.withUsers_iff (hdom ▸ g.new_notMem)]
    simp only [replace_eq_self_iff hne, huser, true_and, not_and, not_exists, Bool.not_eq_true]
    exact ⟨fun h hmem oid o n slot ho hp => (h oid o n slot ho hp).resolve_left (not_not_intro hmem),
      fun h oid o n slot ho hp => or_iff_not_imp_left.mpr fun hmem => h (not_not.mp hmem) oid o n slot ho hp⟩
  · rw [if_neg huser]
    exact iff_of_true hiso fun h => huser h.1

/-- Renumbering survives, and is an isomorphism, but when the new number is the one of the object
that has just been placed, and when the list of the users is overwritten in a property too. -/
theorem setObjectNumber_isomorphic_iff (shared : Sharing) (hi : Intact db) (hc : Renumbers db p old new) :
    (∃ db', p.setObjectNumber shared old new = some db' ∧ Isomorphic p old new db') ↔
      new ≠ old ∧ ¬ p.SharesUsers shared old := by
  cases hc with
  | lower hold hpos hlt hnew =>
    have hrange := hi.sound.range hold
    have g : Renumberable db db old new :=
      ⟨hi.sound, hi.slotted, rfl, rfl, .inl rfl, hold, hnew, hpos, by lia⟩
    rw [g.isomorphic_iff shared rfl]
    exact (and_iff_right (Int.ne_of_lt hlt)).symm
  | placed hpos hle hfree =>
    have hi' := createObject_intact hi
    have hnotMem : new ∉ db.dom := by
      intro hd
      simp [hi.sound.valid_iff.mpr hd] at hfree
    obtain rfl | hne := eq_or_ne new db.numObjects
    · refine iff_of_false ?_ fun h => h.1 rfl
      rintro ⟨db', hdb', -⟩
      have hnone : (db.set db.numObjects (newObject db.numObjects)).setObjectNumber shared
          db.numObjects db.numObjects = none := setObjectNumber_self shared _ (Int.le_refl db.numObjects)
      rw [hnone] at hdb'
      contradiction
    · have hnew : new ∉ db.createObject.2.dom := by
        intro hd
        obtain ⟨o, ho⟩ := mem_dom.mp hd
        refine hnotMem (mem_dom_of (o := o) ?_)
        change Function.update db.objects db.numObjects _ new = some o at ho
        rwa [Function.update_of_ne hne] at ho
      have g : Renumberable db.createObject.2 (db.set db.numObjects (newObject db.numObjects)) db.numObjects new :=
        ⟨hi'.sound, hi'.slotted, rfl, rfl, .inr ⟨rfl, rfl⟩, createObject_mem db, hnew, hpos, lt_of_le_of_ne hle hne⟩
      rw [g.isomorphic_iff shared rfl]
      exact (and_iff_right hne).symm

theorem Intact.setObjectFlag {f : ObjectFlag} {on : Bool} {oid : Objid} (hi : Intact db)
    (hdo : db.setObjectFlag oid f on = some db') : Intact db' := by
  obtain ⟨db₁, h₁, hdo⟩ := Option.bind_eq_some_iff.mp hdo
  have hi₁ : Intact db₁ := by
    refine hi.of_agree (Agree.modify h₁ fun o => ?_)
    refine Prod.ext (funext fun h => ?_) rfl
    cases h <;> rfl
  split at hdo
  · obtain rfl := Option.some.inj hdo
    exact hi₁.of_objects rfl rfl rfl
  · obtain rfl := Option.some.inj hdo
    exact hi₁

/-- The boxer `#5` gets the ring, under it and in it, a verb, and an object of its own; `#0` keeps a list
with the list of a player in it; the gloves `#4` are gone. -/
def settled : List Call :=
  [.chparent 0 6 5, .moveAccepted 0 6 5 true, .addVerb 0 5 (verbInfo 0 "wave".toList) verbArgs,
    .create 5 0 none, .putProp 0 (objOf 0) (strOf "aliases".toList) (listOf [listOf [objOf 5]]),
    .recycle 0 4]

def peopled : Db :=
  ((performAll (calmly settled) house).bind fun db => db.setObjectFlag 5 .user true).getD empty

theorem peopled_intact : Intact peopled := by
  have hsome : ((performAll (calmly settled) house).bind fun db => db.setObjectFlag 5 .user true).isSome = true := by
    decide +kernel
  obtain ⟨db', hdb'⟩ := Option.isSome_iff_exists.mp hsome
  rw [peopled, hdb', Option.getD_some]
  obtain ⟨db, hdb, hflag⟩ := Option.bind_eq_some_iff.mp hdb'
  have hrun : Run (fun _ _ _ => True) house db := performAll_run (calmly settled) (fun _ _ _ => trivial) hdb
  exact (hrun.intact house_intact).setObjectFlag hflag

attribute [irreducible] peopled

theorem setObjectNumber_isomorphic_iff_peopled :
    (peopled.objects 5).map (fun o => (o.parent, o.child, o.location, o.contents)) = some (3, 6, 1, 6) ∧
    (∃ db', peopled.setObjectNumber (fun _ _ _ => false) 5 4 = some db' ∧ Isomorphic peopled 5 4 db') ∧
    ¬ ∃ db', peopled.setObjectNumber (fun oid n path => oid == 0 && n == 0 && path == [0]) 5 4 = some db' ∧
      Isomorphic peopled 5 4 db' := by
  have hvalid : peopled.valid 5 = true ∧ peopled.valid 4 = false := by decide +kernel
  have hs := peopled_intact.sound
  have hc : Renumbers peopled peopled 5 4 := .lower (hs.valid_iff.mp hvalid.1) (by decide) (by decide)
    fun h => by simp [hs.valid_iff.mpr h] at hvalid
  refine ⟨by decide +kernel, (setObjectNumber_isomorphic_iff _ peopled_intact hc).mpr ⟨by decide, ?_⟩,
    fun h => ((setObjectNumber_isomorphic_iff _ peopled_intact hc).mp h).2 ?_⟩
  · rintro ⟨-, -, oid, o, n, p, -, -, hheld⟩
    rw [Var.holdsUsers_nowhere] at hheld
    cases hheld
  · have hplayer : (peopled.objects 5).elim false (fun o => o.flags .user) = true ∧ 5 ∈ peopled.allUsers := by
      decide +kernel
    have hheld : (peopled.objects 0).any (fun o => o.propval[0]?.any fun p =>
        p.var.holdsUsers peopled.allUsers fun path => path == [0]) = true := by decide +kernel
    obtain ⟨o, ho, hslot⟩ := (Option.any_eq_true ..).mp hheld
    obtain ⟨p, hp, hheld⟩ := (Option.any_eq_true ..).mp hslot
    exact ⟨hplayer.1, hplayer.2, 0, o, 0, p, ho, hp, hheld⟩

/-- `create_with_id` with the first number past the last object. -/
theorem setObjectNumber_not_isomorphic : ∃ (db p : Db) (old new : Objid) (shared : Sharing), Intact db ∧
    Renumbers db p old new ∧ ¬ ∃ db', p.setObjectNumber shared old new = some db' ∧ Isomorphic p old new db' := by
  refine ⟨empty.createObject.2, _, 1, 1, fun _ _ _ => false, createObject_intact empty_intact,
    .placed Int.one_nonneg (Int.le_refl 1) rfl, ?_⟩
  rintro ⟨db', hdb', -⟩
  rw [setObjectNumber_self _ _ (Int.le_refl 1)] at hdb'
  contradiction

end Db
end LambdaMoo
