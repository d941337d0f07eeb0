import LambdaMoo.Renumber
import LambdaMoo.Reparent

/-! Objects that come, go and get another number, and objects that move. -/
namespace LambdaMoo
namespace Db

variable {db db' : Db} {oid old p : Objid} {o : Object}

/-- The table, its lists and its slots are as they should be. -/
structure Intact (db : Db) : Prop where
  sound : Sound db
  slotted : Slotted db

theorem Slotted.of_shape (hp : Slotted db) (ha : Agree (fun o => (o.parent, o.propdefs, o.propval.map Pval.tag)) db db')
    (hclear : ∀ i, ∀ p ∈ (db'.slotsOf i).take (db.defsOf i).length, p.var ≠ .clear) : Slotted db' := by
  have hchain : db'.chain .family = db.chain .family := Agree.chain (ha.mono fun he => congrArg (·.1) he)
  have hdefs : db'.defsOf = db.defsOf := Agree.defsOf (ha.mono fun he => congrArg (·.2.1) he)
  have hall : db'.allDefs = db.allDefs := by
    funext i
    rw [allDefs, allDefs, hchain, hdefs]
  have htags : ∀ i, (db'.slotsOf i).map Pval.tag = (db.slotsOf i).map Pval.tag := by
    intro i
    have := (ha.mono (g := fun o => o.propval.map Pval.tag) fun he => congrArg (·.2.2) he).elim [] i
    cases ho : db.objects i <;> cases ho' : db'.objects i <;> simp_all [slotsOf]
  refine ⟨⟨?_, ?_, ?_, ?_, ?_, ?_⟩, ?_, ?_⟩ <;> simp only [hdefs, hall, ha.dom, ha.nextTag, htags]
  · exact hp.tag_lt
  · exact hp.tag_nodup
  · exact hp.tag_inj
  · exact hp.terminated
  · exact hp.names
  · exact hp.reserved
  · exact hp.tags
  · exact hclear

theorem Slotted.of_props (hp : Slotted db)
    (ha : Agree (fun o => (o.parent, o.propdefs, o.propval)) db db') : Slotted db' := by
  refine hp.of_shape (ha.mono fun he => ?_) fun i => ?_
  · simp only [Prod.mk.injEq] at he ⊢
    exact ⟨he.1, he.2.1, by rw [he.2.2]⟩
  · have hslots : db'.slotsOf i = db.slotsOf i :=
      (ha.mono (g := Object.propval) fun he => congrArg (·.2.2) he).elim [] i
    rw [hslots]
    exact hp.notClear i

theorem Slotted.of_objects (hp : Slotted db) (hobj : db'.objects = db.objects)
    (hnum : db'.numObjects = db.numObjects) (htag : db'.nextTag = db.nextTag) : Slotted db' := by
  have hchain : db'.chain .family = db.chain .family := chain_of_objects hobj hnum
  have hdefs : db'.defsOf = db.defsOf := by funext i; rw [defsOf, defsOf, hobj]
  have hslots : db'.slotsOf = db.slotsOf := by funext i; rw [slotsOf, slotsOf, hobj]
  have hdom : db'.dom = db.dom := by rw [dom, dom, hobj]
  have hall : db'.allDefs = db.allDefs := by
    funext i
    rw [allDefs, allDefs, hchain, hdefs]
  refine ⟨⟨?_, ?_, ?_, ?_, ?_, ?_⟩, ?_, ?_⟩ <;> simp only [hdefs, hall, hdom, htag, hslots]
  · exact hp.tag_lt
  · exact hp.tag_nodup
  · exact hp.tag_inj
  · exact hp.terminated
  · exact hp.names
  · exact hp.reserved
  · exact hp.tags
  · exact hp.notClear

theorem Intact.of_objects (hi : Intact db) (hobj : db'.objects = db.objects)
    (hnum : db'.numObjects = db.numObjects) (htag : db'.nextTag = db.nextTag) : Intact db' :=
  ⟨hi.sound.of_objects hobj hnum, hi.slotted.of_objects hobj hnum htag⟩

theorem Intact.of_agree (hi : Intact db)
    (ha : Agree (fun o => ((fun h => o.linksIn h : Hier → _), o.propdefs, o.propval)) db db') : Intact db' := by
  refine ⟨hi.sound.of_agree (ha.mono fun he => congrArg (·.1) he), hi.slotted.of_props (ha.mono fun he => ?_)⟩
  have hparent := congrArg (fun s => (s.1 .family).2.1) he
  simp only [Prod.mk.injEq] at he ⊢
  exact ⟨hparent, he.2⟩

theorem Intact.modify {f : Object → Object} (hi : Intact db) (ho : oid ∈ db.dom)
    (hf : ∀ o, ((fun h => (f o).linksIn h : Hier → _), (f o).propdefs, (f o).propval) =
      ((fun h => o.linksIn h : Hier → _), o.propdefs, o.propval)) :
    ∃ db', db.modify f oid = some db' ∧ Intact db' := by
  obtain ⟨o, ho⟩ := mem_dom.mp ho
  exact ⟨_, modify_of f ho, hi.of_agree (Agree.set ho (hf o))⟩

/-! Making an object. -/

theorem createObject_intact (hi : Intact db) : Intact db.createObject.2 := by
  have hs := hi.sound
  have hp := hi.slotted
  set n := db.numObjects with hn
  set db' := db.createObject.2 with hdb'
  have hnd : n ∉ db.dom := fun h => absurd (hs.range h).2 (Int.lt_irrefl _)
  have hnn : n ≠ nothing := by
    have := hs.numObjects_nonneg
    unfold nothing
    lia
  have hobj : db'.objects = Function.update db.objects n (some (newObject n)) := rfl
  have hnew : db'.objects n = some (newObject n) := by rw [hobj, Function.update_self]
  have hold : ∀ z ∈ db.dom, db'.objects z = db.objects z := fun z hz => by
    rw [hobj, Function.update_of_ne]
    rintro rfl
    exact hnd hz
  have hdom : db'.dom = insert n db.dom := by
    ext z
    obtain rfl | hz := eq_or_ne z n
    · simp [dom, hnew]
    · simp [dom, hobj, hz]
  have hup : ∀ h, ∀ z ∈ db.dom, db'.upOf h z = db.upOf h z := fun h z hz => by rw [upOf, hold z hz]; rfl
  have hs' : Sound db' := by
    refine ⟨?_, fun {i o} ho => ?_, fun h => ?_⟩
    · have := hs.numObjects_nonneg
      change 0 ≤ db.numObjects + 1
      lia
    · change o.id = i ∧ 0 ≤ i ∧ i < db.numObjects + 1
      by_cases hin : i = n
      · subst hin
        rw [hnew] at ho
        obtain rfl := Option.some.inj ho
        have := hs.numObjects_nonneg
        exact ⟨rfl, this, by lia⟩
      · rw [hobj, Function.update_of_ne hin] at ho
        have := hs.ids ho
        exact ⟨this.1, this.2.1, by lia⟩
    · unfold Linked
      rw [hdom]
      refine (hs.linked h).insert hnd hnn ?_ ?_ (hup h) (fun z hz => by rw [headOf, hold z hz]; rfl)
        fun z hz _ => by rw [nextOf, hold z hz]; rfl
      · rw [upOf_of hnew]
        cases h <;> rfl
      · rw [headOf_of hnew]
        cases h <;> rfl
  have hchain : ∀ z ∈ db.dom, db'.chain .family z = db.chain .family z := fun z hz => by
    obtain ⟨hc, hsub⟩ := hs.chain_spec (h := .family) (.inr hz)
    exact hs'.chain_eq (.inr (hdom ▸ .inr hz)) (hc.congr fun x hx => hup _ x (hsub x hx))
  have hdefs : ∀ z ∈ db.dom, db'.defsOf z = db.defsOf z := fun z hz => by
    rw [defsOf, hold z hz]
    rfl
  have hdefs' : ∀ z, db'.defsOf z = db.defsOf z := fun z => by
    by_cases hz : z ∈ db.dom
    · exact hdefs z hz
    · rw [defsOf_nothing hz]
      obtain rfl | hzn := eq_or_ne z n
      · rw [defsOf_of hnew]
        rfl
      · rw [defsOf, hobj, Function.update_of_ne hzn]
        exact defsOf_nothing hz
  have hslots' : ∀ z, db'.slotsOf z = db.slotsOf z := fun z => by
    by_cases hz : z ∈ db.dom
    · rw [slotsOf, hold z hz]
      rfl
    · rw [slotsOf_nothing hz]
      obtain rfl | hzn := eq_or_ne z n
      · rw [slotsOf_of hnew]
        rfl
      · rw [slotsOf, hobj, Function.update_of_ne hzn]
        exact slotsOf_nothing hz
  have hall : ∀ z ∈ db.dom, db'.allDefs z = db.allDefs z := fun z hz => by
    rw [allDefs, allDefs, hchain z hz]
    exact List.flatMap_congr fun x _ => hdefs' x
  have halln : db'.allDefs n = [] := by
    have hnd' : n ∈ db'.dom := hdom ▸ .inl rfl
    rw [hs'.allDefs_cons hnd', upOf_of hnew, defsOf_of hnew]
    simp [newObject, Object.up, hs'.allDefs_nothing]
  refine ⟨hs', ⟨?_, ?_, ?_, ?_, fun i hi => ?_, ?_⟩, fun i hi => ?_, ?_⟩
  · simp only [hdefs']
    exact hp.tag_lt
  · simp only [hdefs']
    exact hp.tag_nodup
  · simp only [hdefs']
    exact hp.tag_inj
  · simp only [hdefs']
    exact hp.terminated
  · rw [hdom] at hi
    obtain rfl | hi := hi
    · rw [halln]
      exact .nil
    · rw [hall i hi]
      exact hp.names i hi
  · simp only [hdefs']
    exact hp.reserved
  · rw [hdom] at hi
    obtain rfl | hi := hi
    · rw [halln, hslots', slotsOf_nothing hnd]
      rfl
    · rw [hall i hi, hslots']
      exact hp.tags i hi
  · simp only [hdefs', hslots']
    exact hp.notClear

/-! Giving an object another number. -/

theorem withUsers_clear {users users' : List Objid} {here : List Nat → Bool} {v : Var} (hv : v ≠ .clear) :
    v.withUsers users users' here ≠ .clear := by
  cases v with
  | clear => exact absurd rfl hv
  | list l =>
      rw [Var.withUsers]
      split <;> exact nofun
  | _ => exact nofun

theorem Intact.withUsers (hi : Intact db) (users users' : List Objid) (shared : Sharing) :
    Intact (db.withUsers users users' shared) := by
  have ha : Agree Object.shape db (db.withUsers users users' shared) :=
    withUsers_agree db fun _ _ => shape_withUsers
  refine ⟨hi.sound.of_shape ha, hi.slotted.of_shape (ha.mono fun he => ?_) fun i p hp => ?_⟩
  · have hparent := congrArg (fun s => (s.1 .family).2.1) he
    have hdefs := congrArg (fun s => s.2.1) he
    have htags := congrArg (fun s => s.2.2) he
    exact Prod.ext hparent (Prod.ext hdefs htags)
  · obtain ho | ⟨o, ho⟩ := Option.eq_none_or_eq_some (db.objects i)
    · have hnone : (db.withUsers users users' shared).objects i = none := congrArg (Option.map _) ho
      rw [slotsOf, hnone] at hp
      simp at hp
    · have hsome : (db.withUsers users users' shared).objects i = some (o.withUsers users users' (shared i)) :=
        congrArg (Option.map _) ho
      rw [slotsOf_of hsome, List.mem_take_iff_getElem] at hp
      obtain ⟨k, hk, rfl⟩ := hp
      simp only [Object.withUsers, List.length_mapIdx, List.getElem_mapIdx] at hk ⊢
      refine withUsers_clear (hi.slotted.notClear i _ ?_)
      rw [slotsOf_of ho, List.mem_take_iff_getElem]
      exact ⟨k, by omega, rfl⟩

def UsersRewritten (db db' : Db) : Prop :=
  db' = db ∨ ∃ users users' shared, db' = db.withUsers users users' shared

theorem UsersRewritten.intact (h : UsersRewritten db db') (hi : Intact db) : Intact db' := by
  obtain rfl | ⟨users, users', shared, rfl⟩ := h
  · exact hi
  · exact hi.withUsers users users' shared

theorem UsersRewritten.vcTable (h : UsersRewritten db db') : db'.vcTable = db.vcTable := by
  obtain rfl | ⟨users, users', shared, rfl⟩ := h <;> rfl

theorem renumberObject_spec (shared : Sharing) {dp : Db} (hi : Intact dp) (hobj : db.objects = dp.objects)
    (htag : db.nextTag = dp.nextTag)
    (hnum : db.numObjects = dp.numObjects ∨ db.numObjects + 1 = dp.numObjects ∧ old = db.numObjects)
    (hold : old ∈ dp.dom) :
    db.renumberObject shared old = some (old, db.affectedCallableVerbLookup) ∨
      ∃ new db' db'', db.renumberObject shared old = some (new, db'') ∧ new ≠ old ∧ new ∉ dp.dom ∧ 0 ≤ new ∧
        new < db.numObjects ∧ Intact db' ∧ db'.numObjects = db.numObjects ∧ Renumbered dp old new db' ∧
        UsersRewritten db' db'' ∧ ((dp.objects old).elim false (fun o => o.flags .user) = false → db'' = db') := by
  unfold renumberObject
  cases hf : ((List.range old.toNat).map Int.ofNat).find?
      fun n => (db.affectedCallableVerbLookup.objects n).isNone with
  | none => exact .inl (by simp only [hf]; rfl)
  | some new =>
      obtain ⟨n, hmem, rfl⟩ := List.mem_map.mp (List.mem_of_find?_eq_some hf)
      rw [List.mem_range] at hmem
      refine .inr ⟨n, ?_⟩
      have hnone := List.find?_some hf
      change (db.objects n).isNone = true at hnone
      rw [hobj] at hnone
      have hr := hi.sound.range hold
      have hnd : (n : Objid) ∉ dp.dom := by
        intro hd
        obtain ⟨o, ho⟩ := mem_dom.mp hd
        rw [ho] at hnone
        cases hnone
      have hlt : (n : Objid) < old := by lia
      have hlt' : (n : Objid) < db.numObjects := by
        obtain hnum | ⟨-, hnum⟩ := hnum <;> lia
      have g : Renumberable dp db.affectedCallableVerbLookup old n :=
        ⟨hi.sound, hi.slotted, hobj, htag, hnum, hold, hnd, Int.natCast_nonneg n, hlt'⟩
      obtain ⟨db', hdb', hs', hp', hnum', r, -⟩ := setObjectNumber_spec g
      refine ⟨db', if (dp.objects old).elim false (fun o => o.flags .user) then
          db'.withUsers db.affectedCallableVerbLookup.allUsers (db.affectedCallableVerbLookup.allUsers.replace old n)
            (shared.moved old n)
        else db', ?_, Int.ne_of_lt hlt, hnd, Int.natCast_nonneg n, hlt', ⟨hs', hp'⟩, hnum', r, ?_, ?_⟩
      · simp only [hf]
        change (setObjectNumber shared db.affectedCallableVerbLookup old n).bind _ = _
        rw [hdb' shared]
        rfl
      · split
        · exact .inr ⟨_, _, _, rfl⟩
        · exact .inl rfl
      · intro huser
        rw [if_neg (by rw [huser]; exact Bool.false_ne_true)]

theorem createObject_mem (db : Db) : db.numObjects ∈ db.createObject.2.dom :=
  mem_dom_of (o := newObject db.numObjects) (Function.update_self _ _ _)

theorem createObject_user (db : Db) :
    (db.createObject.2.objects db.numObjects).elim false (fun o => o.flags .user) = false := by
  have ho : db.createObject.2.objects db.numObjects = some (newObject db.numObjects) := Function.update_self _ _ _
  rw [ho]
  rfl

theorem createObjectAndRenum_spec (shared : Sharing) (hi : Intact db) :
    db.createObjectAndRenum shared = some (db.numObjects, db.createObject.2.affectedCallableVerbLookup) ∨
      ∃ new db', db.createObjectAndRenum shared = some (new, db') ∧ new ∉ db.dom ∧ 0 ≤ new ∧
        new < db.numObjects ∧ Intact db' ∧ db'.numObjects = db.numObjects ∧
        Renumbered db.createObject.2 db.numObjects new db' := by
  have hdp := createObject_intact hi
  unfold createObjectAndRenum
  obtain h | ⟨new, db', db'', h, hne, hnd, hpos, hlt, hi', hnum, r, -, hsame⟩ :=
    renumberObject_spec shared hdp
      (show (db.set db.numObjects (newObject db.numObjects)).objects = _ from rfl) rfl (.inr ⟨rfl, rfl⟩) (createObject_mem db)
  · refine .inl ?_
    change Option.bind _ _ = _
    erw [h]
    exact if_pos rfl
  · obtain rfl := hsame (createObject_user db)
    have hne' : new ≠ db.numObjects := hne
    refine .inr ⟨new, _, ?_, fun hd => hnd ?_, hpos, hlt, hi', hnum, r⟩
    · change Option.bind _ _ = _
      erw [h]
      exact if_neg hne'
    · obtain ⟨o, ho⟩ := mem_dom.mp hd
      refine mem_dom_of (o := o) ?_
      change Function.update db.objects db.numObjects _ new = some o
      rw [Function.update_of_ne hne', ho]

/-- A number that is in use or out of range is refused, and `num_objects` itself is not
survived. -/
theorem createObjectWithNum_spec (shared : Sharing) (hi : Intact db) (num : Objid) :
    db.createObjectWithNum shared num = some (-1, db) ∨
      (num = db.numObjects ∧ db.createObjectWithNum shared num = none) ∨
      ∃ db', db.createObjectWithNum shared num = some (num, db') ∧ num ∉ db.dom ∧ 0 ≤ num ∧
        num < db.numObjects ∧ Intact db' ∧ db'.numObjects = db.numObjects ∧
        Renumbered db.createObject.2 db.numObjects num db' := by
  have hdp := createObject_intact hi
  unfold createObjectWithNum
  by_cases hrange : num > db.numObjects ∨ num < 0
  · exact .inl (by simp [hrange])
  · by_cases hvalid : db.valid num = true
    · exact .inl (by simp [hrange, hvalid])
    · have hnd : num ∉ db.dom := fun h => hvalid (hi.sound.valid_iff.mpr h)
      simp only [hrange, hvalid, if_false, Option.bind_eq_bind]
      by_cases heq : num = db.numObjects
      · refine .inr (.inl ⟨heq, ?_⟩)
        subst heq
        have hv : (db.set db.numObjects (newObject db.numObjects)).affectedCallableVerbLookup.valid
            db.numObjects = false := by
          have : (db.numObjects < 0 ∨ db.numObjects ≤ db.numObjects) := .inr (Int.le_refl _)
          simp [valid, find, affectedCallableVerbLookup, Db.set]
        have hnone : (db.set db.numObjects (newObject db.numObjects)).setObjectNumber shared
            db.numObjects db.numObjects = none := by
          simp [setObjectNumber, modify, affectedCallableVerbLookup, Db.set]
        change Option.bind _ _ = _
        erw [hnone]
        rfl
      · have hlt : num < db.numObjects := by lia
        have hpos : 0 ≤ num := by lia
        have hnew : num ∉ db.createObject.2.dom := by
          intro hd
          obtain ⟨o, ho⟩ := mem_dom.mp hd
          refine hnd (mem_dom_of (o := o) ?_)
          change Function.update db.objects db.numObjects _ num = some o at ho
          rwa [Function.update_of_ne heq] at ho
        have g : Renumberable db.createObject.2 (db.set db.numObjects (newObject db.numObjects)) db.numObjects num :=
          ⟨hdp.sound, hdp.slotted, rfl, rfl, .inr ⟨rfl, rfl⟩, createObject_mem db, hnew, hpos, hlt⟩
        obtain ⟨db', hdb', hs', hp', hnum', r, -⟩ := setObjectNumber_spec g
        rw [createObject_user] at hdb'
        refine .inr (.inr ⟨db', ?_, hnd, hpos, hlt, ⟨hs', hp'⟩, hnum', r⟩)
        change Option.bind _ _ = _
        erw [hdb' shared]
        rfl

theorem resetLastUsedObjid_intact {fuel : Nat} (hi : Intact db) (h : resetLastUsedObjid fuel db = some db') :
    Intact db' ∧ db'.objects = db.objects ∧ db'.vcTable = db.vcTable := by
  induction fuel generalizing db with
  | zero => cases h
  | succ n ih =>
      unfold resetLastUsedObjid at h
      split at h
      · cases h
      · next hpos =>
          split at h
          · obtain rfl := Option.some.inj h
            exact ⟨hi, rfl, rfl⟩
          · next hlast =>
              have hs := hi.sound
              set db₁ : Db := { db with numObjects := db.numObjects - 1 } with hdb₁
              have hs₁ : Sound db₁ := by
                refine ⟨by change 0 ≤ db.numObjects - 1; lia, fun {i o} ho => ?_, hs.linked⟩
                have hr := hs.ids ho
                refine ⟨hr.1, hr.2.1, ?_⟩
                have hne : i ≠ db.numObjects - 1 := by
                  rintro rfl
                  change db.objects (db.numObjects - 1) = some o at ho
                  simp [ho] at hlast
                change i < db.numObjects - 1
                lia
              have hchain : ∀ z ∈ db.dom, db₁.chain .family z = db.chain .family z := fun z hz =>
                hs₁.chain_eq (.inr hz) (hs.chain_spec (.inr hz)).1
              have hall : ∀ z ∈ db.dom, db₁.allDefs z = db.allDefs z := fun z hz => by
                rw [allDefs, hchain z hz]
                rfl
              have hp := hi.slotted
              have hp₁ : Slotted db₁ :=
                ⟨⟨hp.tag_lt, hp.tag_nodup, hp.tag_inj, hp.terminated,
                  fun i hi => by rw [hall i hi]; exact hp.names i hi, hp.reserved⟩,
                  fun i hi => by rw [hall i hi]; exact hp.tags i hi, hp.notClear⟩
              have hi₁ : Intact db₁ := ⟨hs₁, hp₁⟩
              have hrest := ih hi₁ h
              exact hrest

/-! Objects that go. -/

theorem destroyObject_spec (hi : Intact db) (ho : db.objects oid = some o)
    (hloc : o.location = nothing) (hcont : o.contents = nothing) (hpar : o.parent = nothing)
    (hchild : o.child = nothing) :
    ∃ users db', db.destroyObject oid = some db' ∧ Intact db' ∧
      db' = { db with allUsers := users, vcTable := fun _ => [],
                      objects := Function.update db.objects oid none } := by
  have hs := hi.sound
  have hp := hi.slotted
  have hlen : ¬ o.propval.length < o.propdefs.length := by
    rw [hp.length ho, hs.allDefs_cons (mem_dom_of ho), defsOf_of ho, List.length_append]
    omega
  have hfind : db.affectedCallableVerbLookup.find oid = some o := by
    rw [← ho, ← hs.find_eq]
    rfl
  set users := if o.flags .user then db.allUsers.erase oid else db.allUsers with husers
  set db' : Db := { db with allUsers := users, vcTable := fun _ => [],
                            objects := Function.update db.objects oid none } with hdb'
  have hobj : ∀ z, z ≠ oid → db'.objects z = db.objects z := fun z hz => Function.update_of_ne hz _ _
  have hgone : db'.objects oid = none := Function.update_self _ _ _
  have hdom : db'.dom = db.dom \ {oid} := by
    ext z
    obtain rfl | hz := eq_or_ne z oid
    · simp [dom, hgone]
    · simp [dom, hobj z hz, hz]
  have hup : ∀ h, ∀ z, z ≠ oid → db'.upOf h z = db.upOf h z := fun h z hz => by
    rw [upOf, hobj z hz]
    rfl
  have hs' : Sound db' := by
    refine ⟨hs.numObjects_nonneg, fun {i oi} hoi => ?_, fun h => ?_⟩
    · have hne : i ≠ oid := by
        rintro rfl
        rw [hgone] at hoi
        cases hoi
      rw [hobj i hne] at hoi
      exact hs.ids hoi
    · unfold Linked
      rw [hdom]
      refine (hs.linked h).erase (mem_dom_of ho) ?_ ?_ (fun z _ hz => hup h z hz)
        (fun z _ hz => by rw [headOf, hobj z hz]; rfl) fun z _ hz => by rw [nextOf, hobj z hz]; rfl
      · rw [upOf_of ho]
        cases h
        · exact hpar
        · exact hloc
      · rw [headOf_of ho]
        cases h
        · exact hchild
        · exact hcont
  -- nothing hangs under it
  have hfree : ∀ z ∈ db.dom, z ≠ oid → oid ∉ db.chain .family z := by
    intro z hz hne hmem
    obtain rfl | ⟨c, hc, hcup, -⟩ := hs.below_cases ⟨hz, hmem⟩
    · exact hne rfl
    · obtain ⟨l, hl, hm⟩ := (hs.linked .family).members oid (mem_dom_of ho)
      rw [headOf_of ho, Object.head, hchild] at hl
      obtain rfl := hl.unique .nil
      exact absurd ((hm c).mpr ⟨hc, hcup⟩) (by simp)
  have hchain : ∀ z ∈ db.dom, z ≠ oid → db'.chain .family z = db.chain .family z := by
    intro z hz hne
    obtain ⟨hc, -⟩ := hs.chain_spec (h := .family) (.inr hz)
    refine hs'.chain_eq (.inr (hdom ▸ ⟨hz, hne⟩)) (hc.congr fun x hx => hup _ x ?_)
    rintro rfl
    exact hfree z hz hne hx
  have hdefs : ∀ z, z ≠ oid → db'.defsOf z = db.defsOf z := fun z hz => by
    rw [defsOf, hobj z hz]
    rfl
  have hdefs' : ∀ z, db'.defsOf z = [] ∨ z ≠ oid ∧ db'.defsOf z = db.defsOf z := fun z => by
    obtain rfl | hz := eq_or_ne z oid
    · exact .inl (by simp [defsOf, hgone])
    · exact .inr ⟨hz, hdefs z hz⟩
  have hall : ∀ z ∈ db.dom, z ≠ oid → db'.allDefs z = db.allDefs z := fun z hz hne => by
    rw [allDefs, allDefs, hchain z hz hne]
    refine List.flatMap_congr fun x hx => hdefs x ?_
    rintro rfl
    exact hfree z hz hne hx
  have hslots : ∀ z, z ≠ oid → db'.slotsOf z = db.slotsOf z := fun z hz => by
    rw [slotsOf, hobj z hz]
    rfl
  refine ⟨users, db', ?_, ⟨hs', ⟨fun i d hd => ?_, fun i => ?_, fun i j d hd d' hd' => ?_, fun i d hd => ?_,
    fun i hi => ?_, fun i d hd => ?_⟩, fun i hi => ?_, fun i => ?_⟩, rfl⟩
  · unfold destroyObject
    simp only [hfind, Option.bind_eq_bind, Option.bind_some, hloc, hcont, hpar, hchild, ne_eq,
      not_true_eq_false, or_self, if_false, hlen]
    rfl
  · obtain h | ⟨-, h⟩ := hdefs' i
    · simp [h] at hd
    · exact hp.tag_lt i d (h ▸ hd)
  · obtain h | ⟨-, h⟩ := hdefs' i
    · simp [h]
    · exact h ▸ hp.tag_nodup i
  · obtain h | ⟨-, h⟩ := hdefs' i
    · simp [h] at hd
    · obtain h' | ⟨-, h'⟩ := hdefs' j
      · simp [h'] at hd'
      · exact hp.tag_inj i j d (h ▸ hd) d' (h' ▸ hd')
  · obtain h | ⟨-, h⟩ := hdefs' i
    · simp [h] at hd
    · exact hp.terminated i d (h ▸ hd)
  · obtain ⟨hd, hne⟩ := hdom ▸ hi
    rw [hall i hd hne]
    exact hp.names i hd
  · obtain h | ⟨-, h⟩ := hdefs' i
    · simp [h] at hd
    · exact hp.reserved i d (h ▸ hd)
  · obtain ⟨hd, hne⟩ := hdom ▸ hi
    rw [hall i hd hne, hslots i hne]
    exact hp.tags i hd
  · obtain rfl | hne := eq_or_ne i oid
    · simp [slotsOf, hgone]
    · rw [hslots i hne, hdefs i hne]
      exact hp.notClear i

/-! Moving. -/

theorem changeLocation_spec (hi : Intact db) (hx : db.objects oid = some o)
    (hp : p = nothing ∨ p ∈ db.dom) (hacyc : oid ∉ db.chain .place p) :
    ∃ db', db.changeLocation oid p = some db' ∧ Intact db' ∧
      Agree (Object.withoutLinks .place) db db' ∧
      db'.upOf .place = Function.update (db.upOf .place) oid p := by
  have hs := hi.sound
  obtain ⟨db₁, db₂, db₃, h₁, h₂, h₃, ha₂, ha₃, hup₃, hs₃⟩ := rehang_spec (h := .place) hs hx hp hacyc
  have hslotted : Slotted db₃ := hi.slotted.of_props (ha₃.mono fun he => by
    have h₁ := congrArg Object.parent he
    have h₂ := congrArg Object.propdefs he
    have h₃ := congrArg Object.propval he
    exact Prod.ext h₁ (Prod.ext h₂ h₃))
  refine ⟨db₃, ?_, ⟨hs₃, hslotted⟩, ha₃, hup₃⟩
  have hvalid (d : Db) (hd : d.dom = db.dom) (hdn : d.numObjects = db.numObjects) (a : Objid)
      (ha : a = nothing ∨ a ∈ db.dom) : d.valid a = true ↔ a ≠ nothing := by
    obtain rfl | ha := ha
    · simp [valid, find, nothing]
    · have hr := hs.range ha
      have hout : ¬ (a < 0 ∨ d.numObjects ≤ a) := by
        rw [hdn]
        lia
      have hmem : a ∈ d.dom := hd ▸ ha
      simp only [valid, find, hout, if_false]
      exact ⟨fun _ => hs.ne_nothing ha, fun _ => hmem⟩
  have hloc : o.location = nothing ∨ o.location ∈ db.dom := by
    have := hs.up_mem (h := .place) (mem_dom_of hx)
    rwa [upOf_of hx] at this
  have ha₁ : (db₁.dom = db.dom ∧ db₁.numObjects = db.numObjects) := by
    by_cases hroot : o.location = nothing
    · have : some db = some db₁ := by
        rw [← h₁, if_neg]
        exact fun h => h hroot
      rw [Option.some.inj this]
      exact ⟨rfl, rfl⟩
    · have hup : db.upOf .place oid = o.location := upOf_of hx
      obtain ⟨db₁', h₁', ha₁', -⟩ := llRemove_spec hs (hloc.resolve_left hroot) (mem_dom_of hx) hup
      have : some db₁ = some db₁' := by
        rw [← h₁, ← h₁', if_pos]
        · rfl
        · exact hroot
      rw [Option.some.inj this]
      exact ⟨ha₁'.dom, ha₁'.numObjects⟩
  have hv₀ := hvalid db rfl rfl o.location hloc
  have hv₁ := hvalid db₁ ha₁.1 ha₁.2 p hp
  change (if o.location ≠ nothing then db.llRemove .place o.location oid else some db) = some db₁ at h₁
  change db₂.modify (fun o => { o with location := p }) oid = some db₃ at h₃
  rw [← if_congr hv₀ rfl rfl] at h₁
  rw [← if_congr hv₁ rfl rfl] at h₂
  unfold changeLocation
  rw [hx]
  by_cases hv : db.valid o.location = true
  · rw [if_pos hv] at h₁
    by_cases hv' : db₁.valid p = true
    · rw [if_pos hv'] at h₂
      simp [hv, h₁, hv', h₂, h₃]
    · rw [if_neg hv'] at h₂
      obtain rfl := Option.some.inj h₂
      simp [hv, h₁, hv', h₃]
  · rw [if_neg hv] at h₁
    obtain rfl := Option.some.inj h₁
    by_cases hv' : db.valid p = true
    · rw [if_pos hv'] at h₂
      simp [hv, hv', h₂, h₃]
    · rw [if_neg hv'] at h₂
      obtain rfl := Option.some.inj h₂
      simp [hv, hv', h₃]

end Db
end LambdaMoo
