import LambdaMoo.Slots

/-! Adding, renaming and deleting a definition, with the slots of all that is below. -/
namespace LambdaMoo

def Object.withoutProps (o : Object) : Object := { o with propdefs := [], propval := [] }

namespace Db

variable {db db' db₁ : Db} {oid a r y c : Objid} {o : Object} {ds : List Propdef}

/-- The definitions met from `y` up to `r`, whose own are left out. -/
def localDefs (db : Db) (r y : Objid) : List Propdef := (db.between r y).flatMap db.defsOf

namespace Sound

variable (hs : Sound db)
include hs

theorem allDefs_below (hb : db.Below r y) : db.allDefs y = db.localDefs r y ++ db.allDefs r := by
  rw [allDefs, hs.chain_between hb, List.flatMap_append]
  rfl

@[simp] theorem localDefs_self (hr : r ∈ db.dom) : db.localDefs r r = [] := by
  rw [localDefs, hs.between_self hr]
  rfl

theorem localDefs_child (hc : c ∈ db.dom) (hb : db.Below r (db.upOf .family c)) :
    db.localDefs r c = db.defsOf c ++ db.localDefs r (db.upOf .family c) := by
  have hne : c ≠ r := by
    rintro rfl
    exact hs.not_below_child hc rfl hb
  rw [localDefs, hs.between_child hc hne, List.flatMap_cons]
  rfl

theorem below_up (hb : db.Below r y) (hne : y ≠ r) : db.Below r (db.upOf .family y) := by
  obtain ⟨hy, hmem⟩ := hb
  rw [hs.chain_cons hy, List.mem_cons] at hmem
  have hmem := hmem.resolve_left hne.symm
  refine ⟨(hs.up_mem hy).resolve_left fun hn => ?_, hmem⟩
  rw [hn, hs.chain_nothing] at hmem
  cases hmem

end Sound

theorem Agree.defsOf (ha : Agree Object.propdefs db db') : db'.defsOf = db.defsOf := by
  funext i
  exact ha.elim [] i

theorem Agree.defsOf_withoutSlots (ha : Agree Object.withoutSlots db db') : db'.defsOf = db.defsOf :=
  Agree.defsOf (ha.mono fun he => by
    have := congrArg Object.propdefs he
    exact this)

theorem Agree.chain_withoutSlots (ha : Agree Object.withoutSlots db db') :
    db'.chain .family = db.chain .family :=
  Agree.chain (ha.mono fun he => by
    have := congrArg Object.parent he
    exact this)

theorem Agree.allDefs (ha : Agree Object.withoutSlots db db') : db'.allDefs = db.allDefs := by
  funext i
  rw [Db.allDefs, Db.allDefs, ha.chain_withoutSlots, ha.defsOf_withoutSlots]

structure Redefined (db : Db) (r : Objid) (ds : List Propdef) (db₁ : Db) : Prop where
  dom : db₁.dom = db.dom
  up : db₁.upOf .family = db.upOf .family
  chain : db₁.chain .family = db.chain .family
  self : db₁.defsOf r = ds
  other : ∀ y, y ≠ r → db₁.defsOf y = db.defsOf y

namespace Redefined

variable (hs : Sound db) (h : Redefined db r ds db₁)
include hs h

omit hs in
theorem below : db₁.Below = db.Below := by
  funext r y
  rw [Below, Below, h.dom, h.chain]

omit hs in
theorem between : db₁.between = db.between := by
  funext r y
  rw [Db.between, Db.between, h.chain]

theorem localDefs (hb : db.Below r y) : db₁.localDefs r y = db.localDefs r y := by
  rw [Db.localDefs, Db.localDefs, h.between]
  refine List.flatMap_congr fun z hz => ?_
  exact h.other z (hs.mem_between hb hz).2

theorem allDefs_of_not_below (hy : y = nothing ∨ y ∈ db.dom) (hb : ¬ db.Below r y) :
    db₁.allDefs y = db.allDefs y := by
  rw [Db.allDefs, Db.allDefs, h.chain]
  refine List.flatMap_congr fun z hz => h.other z ?_
  rintro rfl
  obtain rfl | hyd := hy
  · rw [hs.chain_nothing] at hz
    cases hz
  · exact hb ⟨hyd, hz⟩

theorem allDefs_up (hr : r ∈ db.dom) :
    db₁.allDefs (db.upOf .family r) = db.allDefs (db.upOf .family r) :=
  h.allDefs_of_not_below hs (hs.up_mem hr) (hs.not_below_child hr rfl)

theorem allDefs_self (hr : r ∈ db.dom) : db₁.allDefs r = ds ++ db.allDefs (db.upOf .family r) := by
  rw [Db.allDefs, h.chain, hs.chain_cons hr, List.flatMap_cons, h.self]
  have hup := h.allDefs_up hs hr
  rw [Db.allDefs, h.chain] at hup
  rw [hup]

theorem allDefs_below (hb : db.Below r y) :
    db₁.allDefs y = db.localDefs r y ++ (ds ++ db.allDefs (db.upOf .family r)) := by
  rw [← h.allDefs_self hs (hs.below_mem hb), ← h.localDefs hs hb, Db.allDefs, h.chain,
    hs.chain_between hb, List.flatMap_append, Db.localDefs, h.between, Db.allDefs, h.chain]

end Redefined

theorem redefined_set (ho : db.objects r = some o) :
    Redefined db r ds (db.set r { o with propdefs := ds }) := by
  have hup : Agree (Object.up .family) db (db.set r { o with propdefs := ds }) := Agree.set ho rfl
  refine ⟨hup.dom, ?_, hup.chain, ?_, ?_⟩
  · funext i
    exact hup.elim nothing i
  · simp [defsOf, set_objects]
  · intro y hy
    rw [defsOf, set_objects, Function.update_of_ne hy]
    rfl

theorem Sound.redefined (hs : Sound db) (ho : db.objects r = some o) :
    Sound (db.set r { o with propdefs := ds }) :=
  hs.of_agree (Agree.set ho (by funext k; cases k <;> rfl))

/-! The copies of the slot arrays. -/

theorem copySlots_eq {l : List Pval} {i n : Nat} (h : i + n ≤ l.length) :
    copySlots l i n = some ((l.drop i).take n) := by
  simp [copySlots, h]

def insertedSlot (pval : Pval) (owner : Objid) : Pval :=
  { pval with owner := if pval.perms.chown then owner else pval.owner }

theorem insertProp_eq {pos : Nat} {pval : Pval} (hs : Sound db) (ho : db.objects oid = some o)
    (hlen : (db.allDefs oid).length = o.propval.length + 1) (hpos : pos ≤ o.propval.length) :
    insertProp pos pval oid db = some (db.set oid { o with
      propval := o.propval.take pos ++ insertedSlot pval o.owner :: o.propval.drop pos }) := by
  have hdrop : o.propval.length + 1 - (pos + 1) = (o.propval.drop pos).length := by
    rw [List.length_drop]
    omega
  have hnot : ¬ o.propval.length + 1 ≤ pos := by omega
  simp only [insertProp, hs.countProperties_eq (.inr (mem_dom_of ho)), hlen, hs.find_eq, ho,
    Option.bind_eq_bind, Option.bind_some, hnot, if_false]
  rw [copySlots_eq (by omega), copySlots_eq (by omega), hdrop, List.take_length]
  rfl

theorem removeProp_eq {pos : Nat} (hs : Sound db) (ho : db.objects oid = some o)
    (hlen : (db.allDefs oid).length + 1 = o.propval.length) (hpos : pos < o.propval.length) :
    removeProp pos oid db = some (db.set oid { o with propval := o.propval.eraseIdx pos }) := by
  have hdrop : (db.allDefs oid).length - pos = (o.propval.drop (pos + 1)).length := by
    rw [List.length_drop]
    omega
  simp only [removeProp, hs.countProperties_eq (.inr (mem_dom_of ho)), hs.find_eq, ho,
    Option.bind_eq_bind, Option.bind_some]
  rw [copySlots_eq (by omega), copySlots_eq (by omega), hdrop, List.take_length, List.drop_zero,
    List.eraseIdx_eq_take_drop_succ]
  rfl

/-- The slots of an object after one was put in at its place `k` among those of `r`. -/
def withInserted (db : Db) (r : Objid) (k : Nat) (pv : Pval) (y : Objid) (o : Object) : List Pval :=
  let pos := (db.localDefs r y).length + k
  let pv := if y = r then pv else { pv with var := .clear }
  o.propval.take pos ++ insertedSlot pv o.owner :: o.propval.drop pos

theorem insertPropRecursively_spec (k : Nat) (pv : Pval) (hs : Sound db) (hr : r ∈ db.dom)
    (hlen : ∀ y o, db.Below r y → db.objects y = some o →
      (db.allDefs y).length = o.propval.length + 1 ∧ (db.localDefs r y).length + k ≤ o.propval.length) :
    ∃ db', db.insertPropRecursively r k pv = some db' ∧ Agree Object.withoutSlots db db' ∧
      (∀ y, ¬ db.Below r y → db'.objects y = db.objects y) ∧
      ∀ y o, db.Below r y → db.objects y = some o →
        db'.slotsOf y = db.withInserted r k pv y o := by
  have hvisit : Visits db r (fun g : Nat × Pval => insertProp g.1 g.2)
      (fun y g => g.1 = (db.localDefs r y).length + k ∧
        g.2 = if y = r then pv else { pv with var := .clear })
      (fun _ y slots => ∀ o, db.objects y = some o → slots = db.withInserted r k pv y o) := by
    rintro y ⟨pos, pval⟩ o db₂ ha₂ hb ⟨rfl, rfl⟩ ho ho₂ - -
    obtain ⟨hl, hpos⟩ := hlen y o hb ho
    refine ⟨_, insertProp_eq (hs.withoutSlots ha₂) ho₂ (by rw [ha₂.allDefs]; exact hl) hpos, ?_⟩
    intro o' ho'
    obtain rfl := Option.some.inj (ho.symm.trans ho')
    rfl
  have hpass : Passes db r (fun _ c (g : Nat × Pval) => (c.propdefs.length + g.1, { g.2 with var := .clear }))
      (fun y g => g.1 = (db.localDefs r y).length + k ∧
        g.2 = if y = r then pv else { pv with var := .clear }) := by
    rintro y c ⟨pos, pval⟩ o oc hb hc hup ⟨rfl, rfl⟩ - hoc
    subst hup
    have hne : c ≠ r := by
      rintro rfl
      exact hs.not_below_child hc rfl hb
    refine ⟨?_, ?_⟩
    · rw [hs.localDefs_child hc hb, List.length_append, defsOf_of hoc]
      exact (Nat.add_assoc _ _ _).symm
    · rw [if_neg hne]
      split <;> rfl
  have hfuel : db.numObjects.toNat < db.fuel + (db.chain .family r).length := by
    unfold Db.fuel
    omega
  obtain ⟨db', hdb', hvisited⟩ := forSubtree_rule hs hvisit hpass (g := (k, pv))
    (hs.below_self hr) (by simp [hs.localDefs_self hr]) (.refl _ db) (fun _ _ => rfl) (fun _ _ => rfl) (.inl rfl) hfuel
  exact ⟨db', hdb', hvisited.agree, fun y hy => hvisited.outside y (by simpa using hy), fun y o hb ho =>
    hvisited.inside r (.head _) y hb o ho⟩

theorem removePropRecursively_spec {k : Nat} (hs : Sound db) (hr : r ∈ db.dom)
    (hlen : ∀ y o, db.Below r y → db.objects y = some o →
      (db.allDefs y).length + 1 = o.propval.length ∧ (db.localDefs r y).length + k < o.propval.length) :
    ∃ db', db.removePropRecursively r k = some db' ∧ Agree Object.withoutSlots db db' ∧
      (∀ y, ¬ db.Below r y → db'.objects y = db.objects y) ∧
      ∀ y o, db.Below r y → db.objects y = some o →
        db'.slotsOf y = o.propval.eraseIdx ((db.localDefs r y).length + k) := by
  have hvisit : Visits db r removeProp (fun y pos => pos = (db.localDefs r y).length + k)
      (fun _ y slots => ∀ o, db.objects y = some o →
        slots = o.propval.eraseIdx ((db.localDefs r y).length + k)) := by
    rintro y pos o db₂ ha₂ hb rfl ho ho₂ - -
    obtain ⟨hl, hpos⟩ := hlen y o hb ho
    refine ⟨_, removeProp_eq (hs.withoutSlots ha₂) ho₂ (by rw [ha₂.allDefs]; exact hl) hpos, ?_⟩
    intro o' ho'
    obtain rfl := Option.some.inj (ho.symm.trans ho')
    rfl
  have hpass : Passes db r (fun _ c pos => c.propdefs.length + pos)
      (fun y pos => pos = (db.localDefs r y).length + k) := by
    rintro y c pos o oc hb hc hup rfl - hoc
    subst hup
    rw [hs.localDefs_child hc hb, List.length_append, defsOf_of hoc]
    exact (Nat.add_assoc _ _ _).symm
  have hfuel : db.numObjects.toNat < db.fuel + (db.chain .family r).length := by
    unfold Db.fuel
    omega
  obtain ⟨db', hdb', hvisited⟩ := forSubtree_rule hs hvisit hpass (g := k)
    (hs.below_self hr) (by simp [hs.localDefs_self hr]) (.refl _ db) (fun _ _ => rfl) (fun _ _ => rfl) (.inl rfl) hfuel
  exact ⟨db', hdb', hvisited.agree, fun y hy => hvisited.outside y (by simpa using hy), fun y o hb ho =>
    hvisited.inside r (.head _) y hb o ho⟩

/-! The three operations. -/

theorem map_insert {α β γ : Type*} {f : α → γ} {g : β → γ} {l : List α} {as bs : List β} (x : α)
    (hl : l.map f = (as ++ bs).map g) :
    (l.take as.length ++ x :: l.drop as.length).map f = as.map g ++ f x :: bs.map g := by
  rw [List.map_append, List.map_cons, List.map_take, List.map_drop, hl, List.map_append,
    ← List.length_map g, List.take_left, List.drop_left]

theorem map_erase {α β γ : Type*} {f : α → γ} {g : β → γ} {l : List α} {as bs : List β} {b : β}
    (hl : l.map f = (as ++ b :: bs).map g) : (l.eraseIdx as.length).map f = (as ++ bs).map g := by
  rw [List.eraseIdx_eq_take_drop_succ, List.map_append, List.map_take, List.map_drop, hl,
    ← List.map_take, ← List.map_drop, ← List.map_append]
  simp

theorem Sound.withoutProps (hs : Sound db) (ha : Agree Object.withoutProps db db') : Sound db' :=
  hs.of_agree (ha.mono fun he => by
    funext k
    have := congrArg (Object.linksIn k) he
    cases k <;> exact this)

theorem Sound.mem_localDefs (hs : Sound db) (hb : db.Below r y) {d : Propdef}
    (hd : d ∈ db.localDefs r y) : ∃ z, db.Below r z ∧ z ≠ r ∧ d ∈ db.defsOf z := by
  obtain ⟨z, hz, hdz⟩ := List.mem_flatMap.mp hd
  obtain ⟨hb, hne⟩ := hs.mem_between hb hz
  exact ⟨z, hb, hne, hdz⟩

theorem Defined.redefined (hs : Sound db) (hd : Defined db) (hr : r ∈ db.dom)
    (h : Redefined db r ds db₁) (htag : db.nextTag ≤ db₁.nextTag)
    (hlt : ∀ d ∈ ds, d.tag < db₁.nextTag) (hnodup : (ds.map Propdef.tag).Nodup)
    (hinj : ∀ d ∈ ds, ∀ j, ∀ d' ∈ db.defsOf j, d.tag = d'.tag → j = r)
    (hterm : ∀ d ∈ ds, Terminated d.name)
    (hres : ∀ d ∈ ds, ∀ e ∈ ptable, sameName e.1 d.name = false)
    (hself : ds.Pairwise fun d e => sameName d.name e.name = false)
    (hlocal : ∀ z, db.Below r z → z ≠ r → ∀ d ∈ db.defsOf z, ∀ e ∈ ds, sameName d.name e.name = false)
    (habove : ∀ d ∈ ds, ∀ e ∈ db.allDefs (db.upOf .family r), sameName d.name e.name = false) :
    Defined db₁ := by
  have hcases (i : Objid) : i = r ∧ db₁.defsOf i = ds ∨ i ≠ r ∧ db₁.defsOf i = db.defsOf i := by
    obtain rfl | hi := eq_or_ne i r
    · exact .inl ⟨rfl, h.self⟩
    · exact .inr ⟨hi, h.other i hi⟩
  refine ⟨fun i d hdi => ?_, fun i => ?_, fun i j d hdi d' hdj heq => ?_, fun i d hdi => ?_,
    fun i hi => ?_, fun i d hdi => ?_⟩
  · obtain ⟨-, hi⟩ | ⟨-, hi⟩ := hcases i
    · exact hlt d (hi ▸ hdi)
    · exact Nat.lt_of_lt_of_le (hd.tag_lt i d (hi ▸ hdi)) htag
  · obtain ⟨-, hi⟩ | ⟨-, hi⟩ := hcases i
    · rw [hi]
      exact hnodup
    · rw [hi]
      exact hd.tag_nodup i
  · obtain ⟨rfl, hi⟩ | ⟨hir, hi⟩ := hcases i
    · obtain ⟨rfl, hj⟩ | ⟨-, hj⟩ := hcases j
      · rfl
      · exact (hinj d (hi ▸ hdi) j d' (hj ▸ hdj) heq).symm
    · obtain ⟨rfl, hj⟩ | ⟨-, hj⟩ := hcases j
      · exact hinj d' (hj ▸ hdj) i d (hi ▸ hdi) heq.symm
      · exact hd.tag_inj i j d (hi ▸ hdi) d' (hj ▸ hdj) heq
  · obtain ⟨-, hi⟩ | ⟨-, hi⟩ := hcases i
    · exact hterm d (hi ▸ hdi)
    · exact hd.terminated i d (hi ▸ hdi)
  · rw [h.dom] at hi
    by_cases hb : db.Below r i
    · have hold := hd.names i hi
      rw [hs.allDefs_below hb, hs.allDefs_cons hr, List.pairwise_append] at hold
      obtain ⟨hl, hrest, hcross⟩ := hold
      rw [List.pairwise_append] at hrest
      rw [h.allDefs_below hs hb, List.pairwise_append, List.pairwise_append]
      refine ⟨hl, ⟨hself, hrest.2.1, habove⟩, fun d hdl e he => ?_⟩
      obtain he | he := List.mem_append.mp he
      · obtain ⟨z, hz, hzr, hdz⟩ := hs.mem_localDefs hb hdl
        exact hlocal z hz hzr d hdz e he
      · exact hcross d hdl e (List.mem_append_right _ he)
    · rw [h.allDefs_of_not_below hs (.inr hi) hb]
      exact hd.names i hi
  · obtain ⟨-, hi⟩ | ⟨-, hi⟩ := hcases i
    · exact hres d (hi ▸ hdi)
    · exact hd.reserved i d (hi ▸ hdi)

theorem Defined.withoutSlots (hd : Defined db) (ha : Agree Object.withoutSlots db db') : Defined db' := by
  refine ⟨?_, ?_, ?_, ?_, ?_, ?_⟩ <;>
    simp only [ha.defsOf_withoutSlots, ha.allDefs, ha.nextTag, ha.dom]
  · exact hd.tag_lt
  · exact hd.tag_nodup
  · exact hd.tag_inj
  · exact hd.terminated
  · exact hd.names
  · exact hd.reserved

theorem mem_of_findIdx? {name : Str} {l : List Propdef} {i : Nat}
    (hi : (l.findIdx? fun d => nameMatches d.name name) = some i) :
    ∃ as d bs, l = as ++ d :: bs ∧ as.length = i ∧ nameMatches d.name name = true := by
  obtain ⟨hlt, hd, -⟩ := List.findIdx?_eq_some_iff_getElem.mp hi
  refine ⟨l.take i, l[i], l.drop (i + 1), ?_, by rw [List.length_take]; omega, hd⟩
  rw [List.getElem_cons_drop, List.take_append_drop]

theorem Redefined.withTag {n : Nat} (h : Redefined db r ds db₁) :
    Redefined db r ds { db₁ with nextTag := n } := by
  have hchain : ({ db₁ with nextTag := n } : Db).chain .family = db₁.chain .family :=
    chain_of_objects rfl rfl
  exact ⟨h.dom, h.up, hchain.trans h.chain, h.self, h.other⟩

structure Added (db : Db) (r : Objid) (newdef : Propdef) (pv : Pval) (db' : Db) : Prop where
  redefined : Redefined db r (db.defsOf r ++ [newdef]) db'
  agree : Agree Object.withoutProps { db with nextTag := db.nextTag + 1 } db'
  outside : ∀ y, ¬ db.Below r y → db'.objects y = db.objects y
  slots : ∀ y o, db.Below r y → db.objects y = some o →
    db'.slotsOf y = db.withInserted r (db.defsOf r).length pv y o

theorem Added.slotted {newdef : Propdef} {pv : Pval} (hs : Sound db) (hp : Slotted db)
    (hr : r ∈ db.dom) (h : Added db r newdef pv db') (hdef : newdef.tag = db.nextTag)
    (hpv : pv.tag = newdef.tag) (hvar : pv.var ≠ .clear) (hterm : Terminated newdef.name)
    (hres : ∀ e ∈ ptable, sameName e.1 newdef.name = false)
    (habove : ∀ d ∈ db.allDefs r, sameName d.name newdef.name = false)
    (hbelow : ∀ y, db.Below r y → ∀ d ∈ db.defsOf y, sameName d.name newdef.name = false) :
    Slotted db' := by
  have hall := hs.allDefs_cons hr
  have htagr : ∀ d ∈ db.defsOf r, d.tag ≠ newdef.tag := fun d hd => by
    have := hp.tag_lt r d hd
    omega
  have hnextTag : db'.nextTag = db.nextTag + 1 := h.agree.nextTag
  have hdefined : Defined db' := by
    refine hp.toDefined.redefined hs hr h.redefined (by omega) ?_ ?_ ?_ ?_ ?_ ?_ ?_ ?_
    · intro d hd
      obtain hd | hd := List.mem_append.mp hd
      · have := hp.tag_lt r d hd
        omega
      · rw [List.mem_singleton.mp hd]
        omega
    · rw [List.map_append, List.nodup_append]
      refine ⟨hp.tag_nodup r, by simp, fun t ht t' ht' => ?_⟩
      obtain ⟨d, hd, rfl⟩ := List.mem_map.mp ht
      have ht' : t' = newdef.tag := by simpa using ht'
      exact ht' ▸ htagr d hd
    · intro d hd j d' hd' heq
      obtain hd | hd := List.mem_append.mp hd
      · exact hp.tag_inj j r d' hd' d hd heq.symm
      · rw [List.mem_singleton.mp hd] at heq
        have := hp.tag_lt j d' hd'
        omega
    · intro d hd
      obtain hd | hd := List.mem_append.mp hd
      · exact hp.terminated r d hd
      · exact List.mem_singleton.mp hd ▸ hterm
    · intro d hd
      obtain hd | hd := List.mem_append.mp hd
      · exact hp.reserved r d hd
      · exact List.mem_singleton.mp hd ▸ hres
    · have hold := hp.names r hr
      rw [hall, List.pairwise_append] at hold
      rw [List.pairwise_append]
      refine ⟨hold.1, by simp, fun d hd e he => ?_⟩
      rw [List.mem_singleton.mp he]
      exact habove d (hall ▸ List.mem_append_left _ hd)
    · intro z hz hzr d hd e he
      obtain he | he := List.mem_append.mp he
      · have hold := hp.names z hz.1
        rw [hs.allDefs_below hz, hall, List.pairwise_append] at hold
        refine hold.2.2 d ?_ e (List.mem_append_left _ he)
        rw [hs.localDefs_child hz.1 (hs.below_up hz hzr)]
        exact List.mem_append_left _ hd
      · rw [List.mem_singleton.mp he]
        exact hbelow z hz d hd
    · intro d hd e he
      obtain hd | hd := List.mem_append.mp hd
      · have hold := hp.names r hr
        rw [hall, List.pairwise_append] at hold
        exact hold.2.2 d hd e he
      · have heterm : Terminated e.name := by
          obtain ⟨q, -, hq⟩ := List.mem_flatMap.mp he
          exact hp.terminated q e hq
        rw [List.mem_singleton.mp hd, sameName_comm hterm heterm]
        exact habove e (hall ▸ List.mem_append_right _ he)
  refine ⟨hdefined, fun i hi => ?_, fun i => ?_⟩
  · rw [h.redefined.dom] at hi
    by_cases hb : db.Below r i
    · obtain ⟨o, ho⟩ := mem_dom.mp hi
      have htags := hp.tags i hi
      rw [slotsOf_of ho, hs.allDefs_below hb, hall, ← List.append_assoc] at htags
      have hins := map_insert (insertedSlot (if i = r then pv else { pv with var := .clear }) o.owner) htags
      have htag : (insertedSlot (if i = r then pv else { pv with var := .clear }) o.owner).tag =
          newdef.tag := by
        split <;> exact hpv
      rw [htag, List.length_append] at hins
      rw [h.slots i o hb ho, withInserted, hins, h.redefined.allDefs_below hs hb]
      simp
    · rw [slotsOf, h.outside i hb, h.redefined.allDefs_of_not_below hs (.inr hi) hb]
      exact hp.tags i hi
  · by_cases hb : db.Below r i
    · obtain ⟨o, ho⟩ := mem_dom.mp hb.1
      have hlen := hp.length ho
      have hold := hp.notClear i
      rw [slotsOf_of ho] at hold
      rw [h.slots i o hb ho, withInserted]
      obtain rfl | hir := eq_or_ne i r
      · rw [h.redefined.self, hs.localDefs_self hr, List.length_nil, Nat.zero_add, List.length_append]
        have hle : (db.defsOf i).length ≤ o.propval.length := by
          rw [hlen, hall, List.length_append]
          omega
        intro p hpm
        rw [List.take_append, List.take_take, List.length_take, Nat.min_eq_left hle,
          Nat.min_eq_right (by simp), List.mem_append] at hpm
        obtain hpm | hpm := hpm
        · exact hold p hpm
        · simp only [List.length_cons, List.length_nil, Nat.zero_add, Nat.add_sub_cancel_left,
            List.take_succ_cons, List.take_zero, if_true, List.mem_singleton] at hpm
          exact hpm ▸ hvar
      · rw [h.redefined.other i hir, hs.localDefs_child hb.1 (hs.below_up hb hir)]
        intro p hpm
        rw [List.take_append_of_le_length, List.take_take, Nat.min_eq_left] at hpm
        · exact hold p hpm
        · rw [List.length_append]
          omega
        · rw [List.length_take, List.length_append, hlen, hs.allDefs_below hb,
            hs.localDefs_child hb.1 (hs.below_up hb hir), hall]
          simp only [List.length_append]
          omega
    · have hir : i ≠ r := by
        rintro rfl
        exact hb (hs.below_self hr)
      rw [slotsOf, h.outside i hb, h.redefined.other i hir]
      exact hp.notClear i

theorem addPropdef_spec {pname : Str} {value : Var} (owner : Objid) (flags : PropPerms)
    (hs : Sound db) (hp : Slotted db) (hr : r ∈ db.dom) (hterm : Terminated pname)
    (hvar : value ≠ .clear) :
    db.addPropdef r pname value owner flags = some (false, db) ∨
      ∃ db', db.addPropdef r pname value owner flags = some (true, db') ∧ Sound db' ∧ Slotted db' ∧
        Added db r { name := pname, tag := db.nextTag }
          { var := value, owner, perms := flags, tag := db.nextTag } db' := by
  obtain ⟨o, ho⟩ := mem_dom.mp hr
  obtain ⟨b, hbelow⟩ : ∃ b, db.propertyDefinedAtOrBelow pname r = some b :=
    Option.isSome_iff_exists.mp (hs.propertyDefinedAtOrBelow_isSome hr)
  obtain ⟨found, hfound⟩ : ∃ found, db.findProperty r pname = some found := by
    obtain ⟨e, -, -, hf⟩ | ⟨-, ⟨hf, -⟩ | ⟨k, q, hf, -⟩⟩ := findProperty_spec hs hr pname
    · exact ⟨_, hf⟩
    · exact ⟨_, hf⟩
    · exact ⟨_, hf⟩
  unfold addPropdef
  simp only [hfound, hbelow, hs.find_eq, ho, Option.bind_eq_bind, Option.bind_some]
  cases found with
  | some h => exact .inl rfl
  | none =>
      cases b with
      | true => exact .inl rfl
      | false =>
          refine .inr ?_
          obtain ⟨hres, habove⟩ := findProperty_none hs hr hfound
          set newdef : Propdef := { name := pname, tag := db.nextTag }
          set db₁ : Db := { db.set r { o with propdefs := o.propdefs ++ [newdef] } with
            nextTag := db.nextTag + 1 } with hdb₁
          have hred : Redefined db r (o.propdefs ++ [newdef]) db₁ := (redefined_set ho).withTag
          have hs₁ : Sound db₁ := (hs.redefined ho).of_objects rfl rfl
          have hobj : ∀ y, y ≠ r → db₁.objects y = db.objects y := fun y hy =>
            Function.update_of_ne hy _ _
          have hprop : ∀ y o₁, db₁.objects y = some o₁ → ∃ o₀, db.objects y = some o₀ ∧
              o₁.propval = o₀.propval ∧ o₁.owner = o₀.owner ∧ o₁.withoutProps = o₀.withoutProps := by
            intro y o₁ ho₁
            obtain rfl | hy := eq_or_ne y r
            · refine ⟨o, ho, ?_⟩
              have hset : db₁.objects y = some { o with propdefs := o.propdefs ++ [newdef] } :=
                Function.update_self _ _ _
              obtain rfl := Option.some.inj (hset.symm.trans ho₁)
              exact ⟨rfl, rfl, rfl⟩
            · exact ⟨o₁, (hobj y hy) ▸ ho₁, rfl, rfl, rfl⟩
          obtain ⟨db', hdb', ha', hout', hin'⟩ := insertPropRecursively_spec o.propdefs.length
            { var := value, owner, perms := flags, tag := db.nextTag } hs₁ (hred.dom ▸ hr) (by
              intro y o₁ hb ho₁
              rw [hred.below] at hb
              obtain ⟨o₀, ho₀, hpv, -⟩ := hprop y o₁ ho₁
              have hlen := hp.length ho₀
              rw [hs.allDefs_below hb, hs.allDefs_cons hr, defsOf_of ho] at hlen
              rw [hred.allDefs_below hs hb, hred.localDefs hs hb, hpv, hlen]
              simp only [List.length_append, List.length_cons, List.length_nil]
              omega)
          have hred' : Redefined db r (db.defsOf r ++ [newdef]) db' := by
            rw [defsOf_of ho]
            exact ⟨ha'.dom.trans hred.dom, ha'.upOf_withoutSlots.trans hred.up,
              ha'.chain_withoutSlots.trans hred.chain, by rw [ha'.defsOf_withoutSlots, hred.self],
              fun y hy => by rw [ha'.defsOf_withoutSlots, hred.other y hy]⟩
          have hadd : Added db r newdef
              { var := value, owner, perms := flags, tag := db.nextTag } db' := by
            refine ⟨hred', ⟨?_, fun i => ?_⟩, fun y hy => ?_, fun y oy hb hoy => ?_⟩
            · rw [ha'.rest]
              rfl
            · have := (ha'.mono (g := Object.withoutProps)
                fun he => congrArg (fun o : Object => { o with propdefs := [] }) he).objects i
              rw [this]
              obtain rfl | hi := eq_or_ne i r
              · simp [hdb₁, set_objects, ho, Object.withoutProps]
              · rw [hobj i hi]
            · rw [hout' y (by rwa [hred.below]), hobj y]
              rintro rfl
              exact hy (hs.below_self hr)
            · obtain ⟨o₁, ho₁⟩ := mem_dom.mp (hred.dom ▸ hb.1 : y ∈ db₁.dom)
              obtain ⟨o₀, ho₀, hpv, hown, -⟩ := hprop y o₁ ho₁
              obtain rfl := Option.some.inj (hoy.symm.trans ho₀)
              rw [hin' y o₁ (by rwa [hred.below]) ho₁, withInserted, withInserted, hpv, hown,
                hred.localDefs hs hb, defsOf_of ho]
          have hsame : ∀ d : Propdef, Terminated d.name → nameMatches d.name pname = false →
              sameName d.name pname = false := fun d hd hm => by rwa [← nameMatches_eq hd hterm]
          refine ⟨db', ?_, hs₁.withoutSlots ha', hadd.slotted hs hp hr rfl rfl hvar hterm ?_ ?_ ?_, hadd⟩
          · simp only [Option.isSome_none, Bool.false_eq_true, if_false]
            change ((db₁.insertPropRecursively r o.propdefs.length _).bind fun db => some (true, db)) = _
            rw [hdb']
            rfl
          · intro e he
            rw [← nameMatches_eq (ptable_terminated e he) hterm]
            exact hres e he
          · intro d hd
            obtain ⟨q, -, hq⟩ := List.mem_flatMap.mp hd
            exact hsame d (hp.terminated q d hq) (habove d hd)
          · intro y hb d hd
            exact hsame d (hp.terminated y d hd) (hs.propertyDefinedAtOrBelow_false hbelow hb d hd)

structure Deleted (db : Db) (r : Objid) (k : Nat) (db' : Db) : Prop where
  lt : k < (db.defsOf r).length
  redefined : Redefined db r ((db.defsOf r).eraseIdx k) db'
  agree : Agree Object.withoutProps db db'
  outside : ∀ y, ¬ db.Below r y → db'.objects y = db.objects y
  slots : ∀ y o, db.Below r y → db.objects y = some o →
    db'.slotsOf y = o.propval.eraseIdx ((db.localDefs r y).length + k)

theorem Deleted.slotted {k : Nat} (hs : Sound db) (hp : Slotted db) (hr : r ∈ db.dom)
    (h : Deleted db r k db') : Slotted db' := by
  have hall := hs.allDefs_cons hr
  have hsub : (db.defsOf r).eraseIdx k |>.Sublist (db.defsOf r) := List.eraseIdx_sublist _ _
  have hnames := hp.names r hr
  rw [hall, List.pairwise_append] at hnames
  have hdefined : Defined db' := by
    refine hp.toDefined.redefined hs hr h.redefined (Nat.le_of_eq h.agree.nextTag.symm) ?_ ?_ ?_ ?_ ?_ ?_ ?_ ?_
    · intro d hd
      rw [h.agree.nextTag]
      exact hp.tag_lt r d (hsub.subset hd)
    · exact (hp.tag_nodup r).sublist (hsub.map _)
    · intro d hd j d' hd' heq
      exact hp.tag_inj j r d' hd' d (hsub.subset hd) heq.symm
    · exact fun d hd => hp.terminated r d (hsub.subset hd)
    · exact fun d hd => hp.reserved r d (hsub.subset hd)
    · exact hnames.1.sublist hsub
    · intro z hz hzr d hd e he
      have hold := hp.names z hz.1
      rw [hs.allDefs_below hz, hall, List.pairwise_append] at hold
      refine hold.2.2 d ?_ e (List.mem_append_left _ (hsub.subset he))
      rw [hs.localDefs_child hz.1 (hs.below_up hz hzr)]
      exact List.mem_append_left _ hd
    · exact fun d hd e he => hnames.2.2 d (hsub.subset hd) e he
  refine ⟨hdefined, fun i hi => ?_, fun i => ?_⟩
  · rw [h.redefined.dom] at hi
    by_cases hb : db.Below r i
    · obtain ⟨o, ho⟩ := mem_dom.mp hi
      have htags := hp.tags i hi
      have hsplit : db.defsOf r = (db.defsOf r).take k ++ (db.defsOf r).get ⟨k, h.lt⟩ :: (db.defsOf r).drop (k + 1) := by
        rw [List.get_eq_getElem, List.getElem_cons_drop, List.take_append_drop]
      rw [slotsOf_of ho, hs.allDefs_below hb, hall, hsplit, List.append_assoc, ← List.append_assoc,
        List.cons_append] at htags
      have herase := map_erase htags
      rw [List.length_append, List.length_take, Nat.min_eq_left (Nat.le_of_lt h.lt)] at herase
      rw [h.slots i o hb ho, herase, h.redefined.allDefs_below hs hb, List.eraseIdx_eq_take_drop_succ]
      simp
    · rw [slotsOf, h.outside i hb, h.redefined.allDefs_of_not_below hs (.inr hi) hb]
      exact hp.tags i hi
  · by_cases hb : db.Below r i
    · obtain ⟨o, ho⟩ := mem_dom.mp hb.1
      have hold := hp.notClear i
      rw [slotsOf_of ho] at hold
      rw [h.slots i o hb ho]
      obtain rfl | hir := eq_or_ne i r
      · rw [h.redefined.self, hs.localDefs_self hr, List.length_nil, Nat.zero_add,
          List.length_eraseIdx_of_lt h.lt]
        intro p hpm
        -- the slots that are the object's own are among the old ones
        have hmem : p ∈ o.propval.take (db.defsOf i).length := by
          have hlt := h.lt
          rw [List.eraseIdx_eq_take_drop_succ, List.take_append, List.take_take, List.mem_append] at hpm
          obtain hpm | hpm := hpm
          · exact List.take_subset_take_left _ (by omega) hpm
          · rw [List.length_take] at hpm
            obtain ⟨n, hn, rfl⟩ := List.mem_take_iff_getElem.mp hpm
            rw [List.getElem_drop]
            rw [List.mem_take_iff_getElem]
            rw [List.length_drop] at hn
            exact ⟨k + 1 + n, by omega, rfl⟩
        exact hold p hmem
      · have hlocal : (db.defsOf i).length ≤ (db.localDefs r i).length := by
          rw [hs.localDefs_child hb.1 (hs.below_up hb hir), List.length_append]
          omega
        rw [h.redefined.other i hir]
        intro p hpm
        rw [List.take_eraseIdx_eq_take_of_le _ _ _ (by omega)] at hpm
        exact hold p hpm
    · have hir : i ≠ r := by
        rintro rfl
        exact hb (hs.below_self hr)
      rw [slotsOf, h.outside i hb, h.redefined.other i hir]
      exact hp.notClear i

theorem deletePropdef_spec (pname : Str) (hs : Sound db) (hp : Slotted db) (hr : r ∈ db.dom) :
    db.deletePropdef r pname = some (false, db) ∨
      ∃ k db', ((db.defsOf r).findIdx? fun p => nameMatches p.name pname) = some k ∧
        db.deletePropdef r pname = some (true, db') ∧ Sound db' ∧ Slotted db' ∧
        Deleted db r k db' := by
  obtain ⟨o, ho⟩ := mem_dom.mp hr
  unfold deletePropdef
  simp only [hs.find_eq, ho, Option.bind_eq_bind, Option.bind_some]
  cases hk : o.propdefs.findIdx? fun p => nameMatches p.name pname with
  | none => exact .inl rfl
  | some k =>
      refine .inr ⟨k, ?_⟩
      obtain ⟨hlt, -⟩ := List.findIdx?_eq_some_iff_getElem.mp hk
      set db₁ := db.set r { o with propdefs := o.propdefs.eraseIdx k } with hdb₁
      have hred : Redefined db r (o.propdefs.eraseIdx k) db₁ := redefined_set ho
      have hs₁ : Sound db₁ := hs.redefined ho
      have hobj : ∀ y, y ≠ r → db₁.objects y = db.objects y := fun y hy => Function.update_of_ne hy _ _
      have hprop : ∀ y o₁, db₁.objects y = some o₁ → ∃ o₀, db.objects y = some o₀ ∧
          o₁.propval = o₀.propval := by
        intro y o₁ ho₁
        obtain rfl | hy := eq_or_ne y r
        · have hset : db₁.objects y = some { o with propdefs := o.propdefs.eraseIdx k } :=
            Function.update_self _ _ _
          obtain rfl := Option.some.inj (hset.symm.trans ho₁)
          exact ⟨o, ho, rfl⟩
        · exact ⟨o₁, (hobj y hy) ▸ ho₁, rfl⟩
      obtain ⟨db', hdb', ha', hout', hin'⟩ := removePropRecursively_spec (k := k) hs₁ (hred.dom ▸ hr) (by
        intro y o₁ hb ho₁
        rw [hred.below] at hb
        obtain ⟨o₀, ho₀, hpv⟩ := hprop y o₁ ho₁
        have hlen := hp.length ho₀
        rw [hs.allDefs_below hb, hs.allDefs_cons hr, defsOf_of ho] at hlen
        rw [hred.allDefs_below hs hb, hred.localDefs hs hb, hpv, hlen]
        simp only [List.length_append, List.length_eraseIdx_of_lt hlt]
        omega)
      have hdel : Deleted db r k db' := by
        refine ⟨by rwa [defsOf_of ho], ?_, ?_, fun y hy => ?_, fun y oy hb hoy => ?_⟩
        · rw [defsOf_of ho]
          exact ⟨ha'.dom.trans hred.dom, ha'.upOf_withoutSlots.trans hred.up,
            ha'.chain_withoutSlots.trans hred.chain, by rw [ha'.defsOf_withoutSlots, hred.self],
            fun y hy => by rw [ha'.defsOf_withoutSlots, hred.other y hy]⟩
        · have ha₁ : Agree Object.withoutProps db db₁ := Agree.set ho rfl
          exact ha₁.trans (ha'.mono fun he => congrArg (fun o : Object => { o with propdefs := [] }) he)
        · rw [hout' y (by rwa [hred.below]), hobj y]
          rintro rfl
          exact hy (hs.below_self hr)
        · obtain ⟨o₁, ho₁⟩ := mem_dom.mp (hred.dom ▸ hb.1 : y ∈ db₁.dom)
          obtain ⟨o₀, ho₀, hpv⟩ := hprop y o₁ ho₁
          obtain rfl := Option.some.inj (hoy.symm.trans ho₀)
          rw [hin' y o₁ (by rwa [hred.below]) ho₁, hpv, hred.localDefs hs hb]
      refine ⟨db', by rwa [defsOf_of ho], ?_, hs₁.withoutSlots ha', hdel.slotted hs hp hr, hdel⟩
      change ((db₁.removePropRecursively r k).bind fun db => some (true, db)) = _
      rw [hdb']
      rfl

theorem modify_append_cons {α : Type*} {as bs : List α} {a : α} {f : α → α} :
    (as ++ a :: bs).modify as.length f = as ++ f a :: bs := by
  induction as with
  | nil => rfl
  | cons x xs ih => simpa using ih

structure Renamed (db : Db) (r : Objid) (new : Str) (db' : Db) : Prop where
  redefined : ∃ as d bs, db.defsOf r = as ++ d :: bs ∧
    Redefined db r (as ++ { d with name := new } :: bs) db'
  agree : Agree (fun o : Object => { o with propdefs := [] }) db db'

theorem pairwise_replaced {α : Type*} {R : α → α → Prop} {as bs : List α} {a a' : α} (h : (as ++ a :: bs).Pairwise R)
    (has : ∀ x ∈ as, R x a') (hbs : ∀ x ∈ bs, R a' x) : (as ++ a' :: bs).Pairwise R := by
  rw [List.pairwise_append, List.pairwise_cons] at h ⊢
  obtain ⟨hbefore, ⟨-, hbehind⟩, hacross⟩ := h
  refine ⟨hbefore, ⟨hbs, hbehind⟩, fun x hx y hy => ?_⟩
  obtain rfl | hy := List.mem_cons.mp hy
  · exact has x hx
  · exact hacross x hx y (List.mem_cons_of_mem _ hy)

/-- A definition between `pre` and `post` can have this name, and clashes with nothing around it. -/
structure FreeFor (db : Db) (r : Objid) (pre post : List Propdef) (new : Str) : Prop where
  reserved : ∀ e ∈ ptable, sameName e.1 new = false
  around : ∀ e ∈ pre ++ post ++ db.allDefs (db.upOf .family r), sameName e.name new = false
  below : ∀ z, db.Below r z → z ≠ r → ∀ e ∈ db.defsOf z, sameName e.name new = false

section

variable {pre post : List Propdef} {d : Propdef} {new : Str} {o : Object} (hs : Sound db) (hp : Slotted db) (hr : r ∈ db.dom)
  (hdefs : db.defsOf r = pre ++ d :: post)
include hs hp hr hdefs

theorem names_around : (pre ++ d :: post ++ db.allDefs (db.upOf .family r)).Pairwise fun d e => sameName d.name e.name = false := by
  have hnames := hp.names r hr
  rwa [hs.allDefs_cons hr, hdefs] at hnames

/-- The names of the definitions below differ from those of the definitions from `r` on. -/
theorem names_below {z : Objid} (hz : db.Below r z) (hzr : z ≠ r) {e e' : Propdef} (he : e ∈ db.defsOf z)
    (he' : e' ∈ pre ++ d :: post) : sameName e.name e'.name = false := by
  have hzn := hp.names z hz.1
  rw [hs.allDefs_below hz, hs.allDefs_cons hr, hdefs, List.pairwise_append] at hzn
  refine hzn.2.2 e ?_ e' (List.mem_append_left _ he')
  rw [hs.localDefs_child hz.1 (hs.below_up hz hzr)]
  exact List.mem_append_left _ he

theorem terminated_around : ∀ e ∈ pre ++ post ++ db.allDefs (db.upOf .family r), Terminated e.name := by
  intro e he
  have hmem : e ∈ db.allDefs r := by
    rw [hs.allDefs_cons hr, hdefs]
    simp only [List.mem_append, List.mem_cons] at he ⊢
    tauto
  obtain ⟨q, -, hq⟩ := List.mem_flatMap.mp hmem
  exact hp.terminated q e hq

/-- Where only the case changes, the name is free. -/
theorem freeFor_of_lowered (hnew : Terminated new) (hlow : lowered new = lowered d.name) : FreeFor db r pre post new := by
  have hmem : d ∈ db.defsOf r := by simp [hdefs]
  have hd : Terminated d.name := hp.terminated r d hmem
  have hnames := names_around hs hp hr hdefs
  refine ⟨fun e he => ?_, fun e he => ?_, fun z hz hzr e he => ?_⟩
  · rw [sameName_congr (ptable_terminated e he) hnew hd hlow]
    exact hp.reserved r d hmem e he
  · have hterm := terminated_around hs hp hr hdefs e he
    rw [sameName_congr hterm hnew hd hlow]
    rw [List.append_assoc, List.pairwise_append, List.cons_append, List.pairwise_cons] at hnames
    rw [List.append_assoc] at he
    obtain he | he := List.mem_append.mp he
    · exact hnames.2.2 e he d (List.mem_cons_self ..)
    · rw [sameName_comm hterm hd]
      exact hnames.2.1.1 e he
  · rw [sameName_congr (hp.terminated z e he) hnew hd hlow]
    exact names_below hs hp hr hdefs hz hzr he (by simp)

/-- And where nothing is found under the new name. -/
theorem freeFor_of_not_found (hnew : Terminated new) (hbelow : db.propertyDefinedAtOrBelow new r = some false)
    (hbuiltin : ∀ e ∈ ptable, nameMatches e.1 new = false) (habove : ∀ e ∈ db.allDefs r, nameMatches e.name new = false) :
    FreeFor db r pre post new := by
  refine ⟨fun e he => ?_, fun e he => ?_, fun z hz _ e he => ?_⟩
  · rw [← nameMatches_eq (ptable_terminated e he) hnew]
    exact hbuiltin e he
  · rw [← nameMatches_eq (terminated_around hs hp hr hdefs e he) hnew]
    refine habove e ?_
    rw [hs.allDefs_cons hr, hdefs]
    simp only [List.mem_append, List.mem_cons] at he ⊢
    tauto
  · rw [← nameMatches_eq (hp.terminated z e he) hnew]
    exact hs.propertyDefinedAtOrBelow_false hbelow hz e he

variable (hnew : Terminated new) (hfree : FreeFor db r pre post new) {db' : Db}
  (hred : Redefined db r (pre ++ { d with name := new } :: post) db')
include hnew hfree hred

theorem Defined.renamed (htag : db.nextTag ≤ db'.nextTag) : Defined db' := by
  have hmem : ∀ e ∈ pre ++ { d with name := new } :: post, e = { d with name := new } ∨ e ∈ pre ++ d :: post := fun e he => by
    simp only [List.mem_append, List.mem_cons] at he ⊢
    tauto
  have hkept : ∀ e ∈ pre ++ { d with name := new } :: post, ∃ e' ∈ db.defsOf r, e'.tag = e.tag := by
    intro e he
    obtain rfl | he := hmem e he
    · exact ⟨d, by simp [hdefs], rfl⟩
    · exact ⟨e, hdefs ▸ he, rfl⟩
  have hnames := names_around hs hp hr hdefs
  have haround : ∀ e ∈ pre ++ post ++ db.allDefs (db.upOf .family r), sameName new e.name = false := fun e he => by
    rw [sameName_comm hnew (terminated_around hs hp hr hdefs e he)]
    exact hfree.around e he
  refine hp.toDefined.redefined hs hr hred htag ?_ ?_ ?_ ?_ ?_ ?_ ?_ ?_
  · intro e he
    obtain ⟨e', he', ht⟩ := hkept e he
    exact ht ▸ Nat.lt_of_lt_of_le (hp.tag_lt r e' he') htag
  · have hnodup := hp.tag_nodup r
    rw [hdefs] at hnodup
    simpa using hnodup
  · intro e he j d' hd' heq
    obtain ⟨e', he', ht⟩ := hkept e he
    exact hp.tag_inj j r d' hd' e' he' (heq.symm.trans ht.symm)
  · intro e he
    obtain rfl | he := hmem e he
    · exact hnew
    · exact hp.terminated r e (hdefs ▸ he)
  · intro e he
    obtain rfl | he := hmem e he
    · exact hfree.reserved
    · exact hp.reserved r e (hdefs ▸ he)
  · exact pairwise_replaced (List.pairwise_append.mp hnames).1 (fun e he => hfree.around e (by simp [he]))
      fun e he => haround e (by simp [he])
  · intro z hz hzr e he e' he'
    obtain rfl | he' := hmem e' he'
    · exact hfree.below z hz hzr e he
    · exact names_below hs hp hr hdefs hz hzr he he'
  · intro e he e' he'
    obtain rfl | he := hmem e he
    · exact haround e' (by simp [he'])
    · exact (List.pairwise_append.mp hnames).2.2 e he e' he'

omit hnew hfree in
theorem Slotted.renamed (hd : Defined db') (hslots : db'.slotsOf = db.slotsOf) : Slotted db' := by
  refine ⟨hd, fun i hi => ?_, fun i => ?_⟩
  · rw [hred.dom] at hi
    rw [hslots, hp.tags i hi]
    by_cases hb : db.Below r i
    · rw [hred.allDefs_below hs hb, hs.allDefs_below hb, hs.allDefs_cons hr, hdefs]
      simp
    · rw [hred.allDefs_of_not_below hs (.inr hi) hb]
  · have hclear := hp.notClear i
    rw [hslots]
    obtain rfl | hir := eq_or_ne i r
    · rw [hred.self]
      rw [hdefs] at hclear
      simpa using hclear
    · rw [hred.other i hir]
      exact hclear

omit hred in
theorem renamed_set (ho : db.objects r = some o) :
    let db' := db.set r { o with propdefs := pre ++ { d with name := new } :: post }
    Sound db' ∧ Slotted db' ∧ Renamed db r new db' := by
  have hred : Redefined db r (pre ++ { d with name := new } :: post) _ := redefined_set ho
  have hslots : (db.set r { o with propdefs := pre ++ { d with name := new } :: post }).slotsOf = db.slotsOf := by
    have ha : Agree Object.propval db (db.set r { o with propdefs := pre ++ { d with name := new } :: post }) :=
      Agree.set ho rfl
    funext i
    exact ha.elim [] i
  exact ⟨hs.redefined ho,
    Slotted.renamed hs hp hr hdefs hred (Defined.renamed hs hp hr hdefs hnew hfree hred (Nat.le_refl _)) hslots,
    ⟨pre, d, post, hdefs, hred⟩, Agree.set ho rfl⟩

end

theorem renamePropdef_spec {old new : Str} (hs : Sound db) (hp : Slotted db) (hr : r ∈ db.dom)
    (hold : Terminated old) (hnew : Terminated new) :
    db.renamePropdef r old new = some (false, db) ∨
      ∃ db', db.renamePropdef r old new = some (true, db') ∧ Sound db' ∧ Slotted db' ∧
        Renamed db r new db' := by
  obtain ⟨o, ho⟩ := mem_dom.mp hr
  unfold renamePropdef
  simp only [hs.find_eq, ho, Option.bind_eq_bind, Option.bind_some]
  cases hk : o.propdefs.findIdx? fun p => nameMatches p.name old with
  | none => exact .inl rfl
  | some k =>
      obtain ⟨pre, d, post, hsplit, rfl, hmatch⟩ := mem_of_findIdx? hk
      have hdefs : db.defsOf r = pre ++ d :: post := by rw [defsOf_of ho, hsplit]
      have hd : Terminated d.name := hp.terminated r d (by simp [hdefs])
      have hmod : o.propdefs.modify pre.length (fun p => { p with name := new }) =
          pre ++ { d with name := new } :: post := by rw [hsplit, modify_append_cons]
      cases hcase : sameName old new with
      | true =>
          have hlow : lowered new = lowered d.name := by
            rw [← (sameName_iff hold hnew).mp hcase,
              ← (sameName_iff hd hold).mp ((nameMatches_iff hd hold).mp hmatch)]
          refine .inr ⟨_, ?_, renamed_set hs hp hr hdefs hnew (freeFor_of_lowered hs hp hr hdefs hnew hlow) ho⟩
          simp only [Bool.not_true, Bool.false_eq_true, if_false, hmod]
          rfl
      | false =>
          obtain ⟨b, hbelow⟩ : ∃ b, db.propertyDefinedAtOrBelow new r = some b :=
            Option.isSome_iff_exists.mp (hs.propertyDefinedAtOrBelow_isSome hr)
          simp only [Bool.not_false, if_true, hbelow, Option.bind_some]
          obtain ⟨e, -, -, hf⟩ | ⟨hbuiltin, ⟨hf, habove⟩ | ⟨m, q, hf, -⟩⟩ := findProperty_spec hs hr new
          · refine .inl ?_
            rw [hf]
            rfl
          · cases b with
            | true =>
                refine .inl ?_
                rw [hf]
                rfl
            | false =>
                have hfree := freeFor_of_not_found hs hp hr hdefs hnew hbelow hbuiltin habove
                refine .inr ⟨_, ?_, renamed_set hs hp hr hdefs hnew hfree ho⟩
                rw [hf]
                change some (true, _) = _
                rw [hmod]
          · refine .inl ?_
            rw [hf]
            rfl

end Db
end LambdaMoo
