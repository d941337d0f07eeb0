import LambdaMoo.Inheritance
import LambdaMoo.VerbNamespaces

/-! Verbs that must not be overridden. What the checks of the built-ins find is enough to
keep them so, but for one of them, which is asked about the wrong renamings. -/
namespace LambdaMoo

namespace Db

variable {db db' db₀ : Db} {progr oid x a p : Objid} {o : Object} {env : Env} {v w : Verbdef}

def verbsOf (db : Db) (oid : Objid) : List Verbdef := (db.objects oid).elim [] Object.verbdefs

@[simp] theorem verbsOf_of (ho : db.objects oid = some o) : db.verbsOf oid = o.verbdefs := by
  simp [verbsOf, ho]

/-- A verb with this owner and these names does not override `w`, nor `w` any such verb. -/
def Respects (db : Db) (owner : Objid) (names : Str) (w : Verbdef) : Prop :=
  w.flags.notO = true → db.isWizard owner = false → owner ≠ w.owner →
    verbnamesShareNamespace names w.name ≠ some true ∧ verbnamesShareNamespace w.name names ≠ some true

/-- No verb overrides one that must not be overridden and is defined further up. -/
def Protected (db : Db) : Prop :=
  ∀ x a, Relation.TransGen (db.HangsUnder .family) x a → ∀ v ∈ db.verbsOf x, ∀ w ∈ db.verbsOf a,
    db.Respects v.owner v.name w

/-- The names of verbs are strings that C reads to their ends. -/
def Named (db : Db) : Prop := ∀ x, ∀ v ∈ db.verbsOf x, Terminated v.name

theorem Sound.isWizard_eq (hs : Sound db) (i : Objid) :
    db.isWizard i = (db.objects i).elim false fun o => o.flags .wizard := by
  unfold isWizard hasFlag
  rw [hs.find_eq]
  cases db.objects i <;> rfl

theorem mem_dom_of_verbsOf (hv : v ∈ db.verbsOf x) : x ∈ db.dom := by
  cases ho : db.objects x with
  | none => simp [verbsOf, ho] at hv
  | some o => exact mem_dom_of ho

/-! Changes that bring no verb and no ancestor. -/

/-- The verbs and what is above them were there before, and the wizards are the same. -/
structure Shrinks (db db' : Db) : Prop where
  verbs : ∀ x, ∀ v ∈ db'.verbsOf x, v ∈ db.verbsOf x
  above : ∀ x, db'.verbsOf x ≠ [] → ∀ a ∈ db'.chain .family x, a ∈ db.chain .family x
  wizards : ∀ i, db'.isWizard i = db.isWizard i

namespace Shrinks

theorem refl (db : Db) : Shrinks db db := ⟨fun _ _ hv => hv, fun _ _ _ ha => ha, fun _ => rfl⟩

theorem trans {db'' : Db} (h₁ : Shrinks db db') (h₂ : Shrinks db' db'') : Shrinks db db'' := by
  refine ⟨fun x v hv => h₁.verbs x v (h₂.verbs x v hv), fun x hx a ha => ?_,
    fun i => (h₂.wizards i).trans (h₁.wizards i)⟩
  obtain ⟨v, hv⟩ := List.exists_mem_of_ne_nil _ hx
  exact h₁.above x (List.ne_nil_of_mem (h₂.verbs x v hv)) a (h₂.above x hx a ha)

theorem of_objects (hobj : db'.objects = db.objects) (hnum : db'.numObjects = db.numObjects) :
    Shrinks db db' := by
  refine ⟨fun x v hv => ?_, fun x _ a ha => ?_, fun i => ?_⟩
  · rwa [verbsOf, hobj] at hv
  · rwa [chain_of_objects hobj hnum] at ha
  · simp only [isWizard, hasFlag, find, hobj, hnum]

theorem affected (db : Db) : Shrinks db db.affectedCallableVerbLookup := of_objects rfl rfl

theorem of_agree (hs : Sound db) (hs' : Sound db') (ha : Agree (fun o => (o.flags, o.parent)) db db')
    (hv : ∀ x, ∀ v ∈ db'.verbsOf x, v ∈ db.verbsOf x) : Shrinks db db' := by
  refine ⟨hv, fun x _ a hmem => ?_, fun i => ?_⟩
  · rwa [(ha.mono fun he => congrArg Prod.snd he : Agree (Object.up .family) db db').chain] at hmem
  · have hflags : Agree Object.flags db db' := ha.mono fun he => congrArg Prod.fst he
    have hi := hflags.objects i
    rw [hs.isWizard_eq, hs'.isWizard_eq]
    cases ho : db.objects i <;> cases ho' : db'.objects i <;> simp_all

theorem of_view (hs : Sound db) (hs' : Sound db')
    (ha : Agree (fun o => (o.verbdefs, o.flags, o.parent)) db db') : Shrinks db db' := by
  refine of_agree hs hs' (ha.mono fun he => congrArg Prod.snd he) fun x v hv => ?_
  have hverbs : Agree Object.verbdefs db db' := ha.mono fun he => congrArg Prod.fst he
  rwa [verbsOf, hverbs.elim] at hv

theorem of_reparented (hi : Intact db) (hi' : Intact db') (hx : x ∈ db.dom) (hp : p = nothing ∨ p ∈ db.dom)
    (hacyc : x ∉ db.chain .family p) (hre : Reparented db x p db')
    (hold : ∀ y, db.Below x y → db.verbsOf y ≠ [] → ∀ a ∈ db.chain .family p, a ∈ db.chain .family y) :
    Shrinks db db' := by
  have m := hre.moved hi hi' hx hp hacyc
  have hobs : ∀ i, (db'.objects i).map (fun o => (o.verbdefs, o.flags)) =
      (db.objects i).map fun o => (o.verbdefs, o.flags) :=
    (hre.agree.mono fun he => Prod.ext (congrArg Object.verbdefs he) (congrArg Object.flags he)).objects
  have hverbs : db'.verbsOf = db.verbsOf := by
    funext y
    have := hobs y
    unfold verbsOf
    cases ho : db.objects y <;> cases ho' : db'.objects y <;> simp_all
  refine ⟨fun y v hv => hverbs ▸ hv, fun y hy a ha => ?_, fun i => ?_⟩
  · rw [hverbs] at hy
    by_cases hb : db.Below x y
    · rw [m.chain_below hb, List.mem_append, List.mem_cons] at ha
      obtain ha | rfl | ha := ha
      · rw [hi.sound.chain_between hb]
        exact List.mem_append_left _ ha
      · exact hb.2
      · exact hold y hb hy a ha
    · obtain ⟨v, hv⟩ := List.exists_mem_of_ne_nil _ hy
      have hyd := mem_dom_of_verbsOf hv
      rwa [m.chain_eq (.inr hyd) fun hmem => hb ⟨hyd, hmem⟩] at ha
  · rw [hi.sound.isWizard_eq, hi'.sound.isWizard_eq]
    have := hobs i
    cases ho : db.objects i <;> cases ho' : db'.objects i <;> simp_all

end Shrinks

theorem Protected.shrinks (hs : Sound db) (hs' : Sound db') (hp : Protected db) (h : Shrinks db db') :
    Protected db' := by
  intro x a hxa v hv w hw hnotO hwiz hne
  obtain ⟨hx', ha⟩ := hs'.hangsUnder_iff.mp hxa
  have hx := mem_dom_of_verbsOf (h.verbs x v hv)
  have hmem : a ∈ db.chain .family x := by
    refine h.above x (List.ne_nil_of_mem hv) a ?_
    rw [hs'.chain_cons hx']
    exact List.mem_cons_of_mem _ ha
  rw [hs.chain_cons hx, List.mem_cons] at hmem
  have hup := hmem.resolve_left fun heq => hs'.up_notMem (h := .family) hx' (heq ▸ ha)
  refine hp x a (hs.hangsUnder_iff.mpr ⟨hx, hup⟩) v (h.verbs x v hv) w (h.verbs a w hw) hnotO ?_ hne
  rwa [← h.wizards]

theorem Named.shrinks (hn : Named db) (h : Shrinks db db') : Named db' :=
  fun x v hv => hn x v (h.verbs x v hv)

theorem changeParent_shrinks {changed : Bool} (hi : Intact db) (hx : x ∈ db.dom) (hp : p = nothing ∨ p ∈ db.dom)
    (hacyc : x ∉ db.chain .family p) (hdo : db.changeParent x p = some (changed, db'))
    (hold : ∀ y, db.Below x y → db.verbsOf y ≠ [] → ∀ a ∈ db.chain .family p, a ∈ db.chain .family y) :
    Shrinks db db' := by
  obtain ⟨-, rfl⟩ | ⟨-, -, hi', hre⟩ := changeParent_cases hi hx hp hacyc hdo
  · exact .refl _
  · exact .of_reparented hi hi' hx hp hacyc hre hold

theorem Upkeep.shrinks (hi : Intact db) (h : Upkeep db db') : Shrinks db db' := by
  have hi' := h.intact hi
  cases h with
  | lookup hv hdo =>
      have hrest := findCallableVerb_rest hdo
      rw [hrest]
      exact .of_objects rfl rfl
  | quota hfind hdo =>
      refine .of_view hi.sound hi'.sound ((modifySlot_agree hdo).mono fun he => ?_)
      have h₁ := congrArg Object.verbdefs he
      have h₂ := congrArg Object.flags he
      have h₃ := congrArg Object.parent he
      exact Prod.ext h₁ (Prod.ext h₂ h₃)
  | place hx hp hacyc hdo =>
      obtain ⟨o, ho⟩ := mem_dom.mp hx
      obtain ⟨db₁, hdo₁, -, ha, -⟩ := changeLocation_spec hi ho hp hacyc
      obtain rfl := Option.some.inj (hdo.symm.trans hdo₁)
      refine .of_view hi.sound hi'.sound (ha.mono fun he => ?_)
      have h₁ := congrArg Object.verbdefs he
      have h₂ := congrArg Object.flags he
      have h₃ := congrArg Object.parent he
      exact Prod.ext h₁ (Prod.ext h₂ h₃)
  | @lift x p _ hx hp hdo =>
      obtain ⟨hp', hacyc⟩ := hi.sound.lift_acyclic hx hp
      refine changeParent_shrinks hi hx hp' hacyc hdo fun y hb _ a ha => ?_
      -- from `x` upwards, and `x` is above `y`
      obtain rfl | hp := hp
      · rw [hi.sound.chain_nothing] at ha
        cases ha
      obtain ⟨l, hl⟩ := hi.sound.chain_suffix (hi.sound.up_mem hx) hp
      obtain ⟨k, hk⟩ := hi.sound.chain_suffix (.inr hb.1) hb.2
      rw [hk, hi.sound.chain_cons hx, hl]
      simp [ha]

theorem Upkeeps.shrinks (hi : Intact db) (h : Upkeeps db db') : Shrinks db db' := by
  induction h with
  | refl => exact .refl _
  | tail hbefore hlast ih => exact ih.trans (hlast.shrinks (Upkeeps.intact hi hbefore))

theorem Made.shrinks (hi : Intact db) (m : Made db oid id db') : Shrinks db db' := by
  obtain ⟨o, ho, hbody, hl⟩ := m.object
  have hnone : db'.verbsOf oid = [] := by
    rw [verbsOf_of ho]
    exact congrArg Object.verbdefs hbody
  have hold : ∀ x ∈ db.dom, ∃ o o', db.objects x = some o ∧ db'.objects x = some o' ∧
      o'.verbdefs = o.verbdefs ∧ o'.flags = o.flags := by
    intro x hx
    obtain ⟨o, ho⟩ := mem_dom.mp hx
    obtain ⟨o', ho', hb⟩ := Option.map_eq_some_iff.mp (m.body x o ho)
    have hverbs := congrArg Object.verbdefs hb
    have hflags := congrArg Object.flags hb
    exact ⟨o, o', ho, ho', hverbs, hflags⟩
  have hmem : ∀ x, db'.verbsOf x ≠ [] → x ∈ db.dom := by
    intro x hx
    obtain ⟨v, hv⟩ := List.exists_mem_of_ne_nil _ hx
    have hx' := mem_dom_of_verbsOf hv
    rw [m.dom] at hx'
    refine hx'.resolve_left ?_
    rintro rfl
    exact hx hnone
  refine ⟨fun x v hv => ?_, fun x hx a ha => ?_, fun i => ?_⟩
  · obtain ⟨o, o', ho, ho', hverbs, -⟩ := hold x (hmem x (List.ne_nil_of_mem hv))
    rw [verbsOf_of ho'] at hv
    rwa [verbsOf_of ho, ← hverbs]
  · have hx := hmem x hx
    obtain ⟨hc, hsub⟩ := hi.sound.chain_spec (h := .family) (.inr hx)
    have hx' : x = nothing ∨ x ∈ db'.dom := .inr (m.dom ▸ .inr hx)
    rwa [m.intact.sound.chain_eq hx' (hc.congr fun z hz => m.up .family z (hsub z hz))] at ha
  · rw [hi.sound.isWizard_eq, m.intact.sound.isWizard_eq]
    by_cases hid : i ∈ db.dom
    · obtain ⟨o, o', ho, ho', -, hflags⟩ := hold i hid
      rw [ho, ho', Option.elim_some, Option.elim_some, hflags]
    · have hoi : db.objects i = none := Option.not_isSome_iff_eq_none.mp hid
      rw [hoi]
      obtain rfl | hne := eq_or_ne i oid
      · have hflags := congrArg Object.flags hbody
        rw [ho]
        exact congrFun hflags .wizard
      · have hoi' : db'.objects i = none := by
          refine Option.not_isSome_iff_eq_none.mp fun hmem => ?_
          have : i ∈ db'.dom := hmem
          rw [m.dom] at this
          exact this.elim hne hid
        rw [hoi']

theorem Creates.shrinks {parent : Objid} {owner? : Option Objid} (hi : Intact db)
    (h : Creates False progr parent owner? db db') : Shrinks db db' := by
  obtain ⟨db₁, hup, rfl | ⟨hpar, -, new, owners, db₂, howners, m, o, changed, db₃, ho, hchange, hup'⟩⟩ := h
  · exact hup.shrinks hi
  obtain rfl := howners.resolve_right And.left
  set owner := if owner?.getD progr = nothing then new else owner?.getD progr
  have hi₁ := hup.intact hi
  have hi₂ := m.intact.named ho owner
  obtain ⟨hp, hacyc⟩ := m.parent owner (hup.dom hi ▸ mayParent_mem hi.sound hpar) ho
  have hset : (db₂.set new { o with name := [], owner }).objects new = some _ := Function.update_self _ _ _
  have hnew := mem_dom_of hset
  have hobj := m.object
  obtain ⟨o', ho', hbody, hl⟩ := hobj
  obtain rfl := Option.some.inj (ho.symm.trans ho')
  have hnamed : Shrinks db₂ (db₂.set new { o with name := [], owner }) :=
    .of_view m.intact.sound hi₂.sound (Agree.set ho rfl)
  have hunder : Shrinks (db₂.set new { o with name := [], owner }) db₃ := by
    refine changeParent_shrinks hi₂ hnew hp hacyc hchange fun y hb hverbs => ?_
    -- nothing is below a new object, and it has no verbs
    obtain rfl | hne := eq_or_ne y new
    · rw [verbsOf_of hset] at hverbs
      exact absurd (congrArg Object.verbdefs hbody) hverbs
    · exact absurd hb.2 (hi₂.sound.notMem_chain_of_leaf hset (hl .family).2 (.inr hb.1) hne)
  have hi₃ := hi₂.changeParent hnew hp hacyc hchange
  exact (((hup.shrinks hi).trans (m.shrinks hi₁)).trans (hnamed.trans hunder)).trans (hup'.shrinks hi₃)

theorem destroyObject_shrinks (hi : Intact db) (hwiz : db.isWizard oid = false)
    (hdo : db.destroyObject oid = some db') : Shrinks db db' := by
  obtain ⟨o, users, ho, -, -, -, hchild, hi', hdb⟩ := destroyObject_cases hi hdo
  have hold : ∀ x, x ≠ oid → db'.objects x = db.objects x := by
    intro x hx
    rw [hdb]
    exact Function.update_of_ne hx _ _
  have hne : ∀ x, x ∈ db'.dom → x ≠ oid := by
    rintro x hx rfl
    rw [hdb] at hx
    simp [Db.dom] at hx
  refine ⟨fun x v hv => ?_, fun x hx a ha => ?_, fun i => ?_⟩
  · have hx : x ≠ oid := hne x (mem_dom_of_verbsOf hv)
    rwa [verbsOf, hold x hx] at hv
  · obtain ⟨v, hv⟩ := List.exists_mem_of_ne_nil _ hx
    have hx' := mem_dom_of_verbsOf hv
    have hxo : x ≠ oid := hne x hx'
    have hxd : x ∈ db.dom := by
      rw [mem_dom]
      obtain ⟨ox, hox⟩ := mem_dom.mp hx'
      exact ⟨ox, (hold x hxo).symm.trans hox⟩
    have hnot := hi.sound.notMem_chain_of_leaf ho hchild (.inr hxd) hxo
    have hc := (hi.sound.chain_spec (h := .family) (.inr hxd)).1
    rwa [hi'.sound.chain_eq (.inr hx') (hc.congr fun z hz => ?_)] at ha
    rw [upOf, upOf, hold z fun heq => hnot (heq ▸ hz)]
  · obtain rfl | hne := eq_or_ne i oid
    · rw [hwiz, hi'.sound.isWizard_eq, hdb]
      simp
    · rw [hi.sound.isWizard_eq, hi'.sound.isWizard_eq, hold i hne]

theorem deleteVerb_shrinks {h : VerbHandle} (hi : Intact db) (hdo : db.deleteVerb h = some db') :
    Shrinks db db' := by
  obtain ⟨o, ho, rfl⟩ := deleteVerb_eq_some hi.sound hdo
  have ho' : db.affectedCallableVerbLookup.objects h.definer = some o := ho
  refine (Shrinks.affected db).trans (.of_agree hi.affected.sound (hi.affected.setVerbs ho').sound
    (Agree.set ho' rfl) fun x v hv => ?_)
  obtain rfl | hx := eq_or_ne x h.definer
  · rw [verbsOf_of (Function.update_self _ _ _)] at hv
    rw [verbsOf_of ho']
    exact List.mem_of_mem_eraseP hv
  · rwa [verbsOf, set_objects, Function.update_of_ne hx] at hv

/-! What the checks find. -/

theorem nameConflictWithAncestor_false {owner : Objid} {names : Str} (hs : Sound db)
    (ha : a = nothing ∨ a ∈ db.dom) (hno : db.nameConflictWithAncestor a owner names = some false) :
    ∀ y ∈ db.chain .family a, ∀ w ∈ db.verbsOf y, db.Respects owner names w := by
  intro y hy w hw hnotO _ hne
  simp only [nameConflictWithAncestor, hs.ancestry_eq ha, Option.bind_eq_bind, Option.bind_some] at hno
  obtain ⟨o, ho⟩ := mem_dom.mp (mem_dom_of_verbsOf hw)
  rw [verbsOf_of ho] at hw
  have hmem : w ∈ ((db.chain .family a).filterMap db.objects).flatMap fun o => o.verbdefs :=
    List.mem_flatMap.mpr ⟨o, List.mem_filterMap.mpr ⟨y, hy, ho⟩, hw⟩
  have happly := anyM_eq_false hno w hmem
  rw [if_pos ⟨hnotO, Ne.symm hne⟩] at happly
  refine ⟨?_, verbnamesShareNamespace_comm happly⟩
  rw [happly]
  simp

theorem nameConflictWithDescendants_false {names : Str} (hs : Sound db) {w : Verbdef} (hw : w.name = names)
    (hx : x ∈ db.dom) (hno : db.nameConflictWithDescendants x w.owner names = some false) :
    ∀ y, Relation.TransGen (db.HangsUnder .family) y x → ∀ v ∈ db.verbsOf y, db.Respects v.owner v.name w := by
  intro y hyx v hv _ hwiz hne
  obtain ⟨hy, hmem⟩ := hs.hangsUnder_iff.mp hyx
  obtain ⟨o, ho⟩ := mem_dom.mp hx
  obtain ⟨l, hl, -, hm⟩ := hs.membersOf_eq (h := .family) ho
  simp only [nameConflictWithDescendants, hl, Option.bind_eq_bind, Option.bind_some] at hno
  -- `y` is at or below one of the children
  have hb : db.Below x y := ⟨hy, by
    rw [hs.chain_cons hy]
    exact List.mem_cons_of_mem _ hmem⟩
  obtain rfl | ⟨c, hc, hcx, hcy⟩ := hs.below_cases hb
  · exact absurd hmem (hs.up_notMem hy)
  obtain ⟨oy, hoy⟩ := mem_dom.mp hy
  rw [verbsOf_of hoy] at hv
  have hchild := anyM_eq_false hno c ((hm c).mpr ⟨hc, hcx⟩)
  have happly := anyM_eq_false (hs.anyBelow_false hchild hcy hoy) v hv
  rw [if_pos ⟨by simp [hwiz], hne⟩] at happly
  rw [hw]
  refine ⟨verbnamesShareNamespace_comm happly, ?_⟩
  rw [happly]
  simp

theorem checkVerbsBeforeChparent_false (hs : Sound db) (hp : p = nothing ∨ p ∈ db.dom)
    (hno : db.checkVerbsBeforeChparent p x = some false) :
    ∀ y, db.Below x y → ∀ v ∈ db.verbsOf y, ∀ a ∈ db.chain .family p, ∀ w ∈ db.verbsOf a,
      db.Respects v.owner v.name w := by
  intro y hb v hv a ha w hw hnotO hwiz
  obtain ⟨oy, hoy⟩ := mem_dom.mp hb.1
  rw [verbsOf_of hoy] at hv
  have happly := anyM_eq_false (hs.anyBelow_false hno hb hoy) v hv
  rw [if_pos (by simp [hwiz])] at happly
  exact nameConflictWithAncestor_false hs hp happly a ha w hw hnotO hwiz

/-! Changes that bring a verb or an ancestor. -/

theorem Agree.hangsUnder {h : Hier} (ha : Agree (Object.up h) db db') : db'.HangsUnder h = db.HangsUnder h := by
  have hstep : ∀ {db db' : Db} {x y}, Agree (Object.up h) db db' → db.HangsUnder h x y → db'.HangsUnder h x y := by
    rintro db db' x y ha ⟨o, ho, rfl, hne⟩
    obtain ⟨o', ho', hup⟩ := ha.of_objects ho
    exact ⟨o', ho', hup, hne⟩
  funext x y
  exact propext ⟨hstep ha.symm, hstep ha⟩

theorem isWizard_setVerbs {verbs : List Verbdef} (hi : Intact db) (ho : db.objects oid = some o) (i : Objid) :
    (db.affectedCallableVerbLookup.set oid { o with verbdefs := verbs }).isWizard i = db.isWizard i := by
  have ho' : db.affectedCallableVerbLookup.objects oid = some o := ho
  rw [(hi.affected.setVerbs ho').sound.isWizard_eq, hi.sound.isWizard_eq, set_objects]
  obtain rfl | hne := eq_or_ne i oid
  · rw [Function.update_self, ho]
    rfl
  · rw [Function.update_of_ne hne]
    rfl

/-- The verbs of one object are others, and the new ones respect what is above and are
respected by what is below. -/
theorem Protected.setVerbs {verbs : List Verbdef} (hi : Intact db) (hp : Protected db)
    (ho : db.objects oid = some o)
    (hverbs : ∀ v ∈ verbs, v ∈ o.verbdefs ∨
      (∀ a, Relation.TransGen (db.HangsUnder .family) oid a → ∀ w ∈ db.verbsOf a,
        db.Respects v.owner v.name w) ∧
      ∀ y, Relation.TransGen (db.HangsUnder .family) y oid → ∀ u ∈ db.verbsOf y,
        db.Respects u.owner u.name v) :
    Protected (db.affectedCallableVerbLookup.set oid { o with verbdefs := verbs }) := by
  have ho' : db.affectedCallableVerbLookup.objects oid = some o := ho
  have hhang : (db.affectedCallableVerbLookup.set oid { o with verbdefs := verbs }).HangsUnder .family =
      db.HangsUnder .family := by
    have ha : Agree (Object.up .family) db.affectedCallableVerbLookup
        (db.affectedCallableVerbLookup.set oid { o with verbdefs := verbs }) := Agree.set ho' rfl
    rw [ha.hangsUnder]
    rfl
  have hother : ∀ x, x ≠ oid →
      (db.affectedCallableVerbLookup.set oid { o with verbdefs := verbs }).verbsOf x = db.verbsOf x := by
    intro x hx
    rw [verbsOf, set_objects, Function.update_of_ne hx]
    rfl
  have hself : (db.affectedCallableVerbLookup.set oid { o with verbdefs := verbs }).verbsOf oid = verbs := by
    rw [verbsOf, set_objects, Function.update_self]
    rfl
  intro x a hxa v hv w hw
  rw [hhang] at hxa
  have hne : a ≠ x := by
    rintro rfl
    obtain ⟨hx, hmem⟩ := hi.sound.hangsUnder_iff.mp hxa
    exact hi.sound.up_notMem hx hmem
  suffices h : db.Respects v.owner v.name w by
    unfold Respects at h ⊢
    rwa [isWizard_setVerbs hi ho]
  obtain rfl | hx := eq_or_ne x oid
  · rw [hother a hne] at hw
    rw [hself] at hv
    obtain hold | ⟨hup, -⟩ := hverbs v hv
    · exact hp x a hxa v (by rwa [verbsOf_of ho]) w hw
    · exact hup a hxa w hw
  · rw [hother x hx] at hv
    obtain rfl | ha := eq_or_ne a oid
    · rw [hself] at hw
      obtain hold | ⟨-, hdown⟩ := hverbs w hw
      · exact hp x a hxa v hv w (by rwa [verbsOf_of ho])
      · exact hdown x hxa v hv
    · rw [hother a ha] at hw
      exact hp x a hxa v hv w hw

theorem Named.setVerbs {verbs : List Verbdef} (hn : Named db) (ho : db.objects oid = some o)
    (hverbs : ∀ v ∈ verbs, v ∈ o.verbdefs ∨ Terminated v.name) :
    Named (db.affectedCallableVerbLookup.set oid { o with verbdefs := verbs }) := by
  intro x v hv
  obtain rfl | hx := eq_or_ne x oid
  · rw [verbsOf, set_objects, Function.update_self] at hv
    obtain hold | ht := hverbs v hv
    · exact hn x v (by rwa [verbsOf_of ho])
    · exact ht
  · rw [verbsOf, set_objects, Function.update_of_ne hx] at hv
    exact hn x v hv

theorem validateVerbInfo_names {info : List Value} {vi : VerbInfo}
    (hdo : db.validateVerbInfo (info.map Subtype.val) = some (.ok vi)) : Terminated vi.names := by
  have hval : ∀ s, Var.str s ∈ info.map Subtype.val → Terminated s := by
    intro s hs
    obtain ⟨v, -, hv⟩ := List.mem_map.mp hs
    have := v.property
    rw [hv] at this
    simpa [Var.isValue] using this
  unfold validateVerbInfo at hdo
  split at hdo
  · next owner perms names hinfo =>
      have ht : Terminated names := hval names (by rw [hinfo]; simp)
      split at hdo
      · cases hdo
      obtain ⟨blocked, -, hdo⟩ := Option.bind_eq_some_iff.mp hdo
      split at hdo
      · cases hdo
      · next flags _ =>
          dsimp only at hdo
          split at hdo
          · cases hdo
          · cases hdo
            exact fun hmem => ht ((List.dropWhile_sublist _).subset hmem)
  · cases hdo

theorem Respects.of_lowered {owner : Objid} {names names' : Str} (h : db.Respects owner names w)
    (hl : lowered names = lowered names') : db.Respects owner names' w := by
  unfold Respects at h ⊢
  rwa [verbnamesShareNamespace_lowered hl.symm rfl, verbnamesShareNamespace_lowered rfl hl.symm]

theorem bfAddVerb_protected {r : Package} {info : List Value} {args : List Var} (hi : Intact db) (hn : Named db)
    (hp : Protected db) (hdo : db.bfAddVerb env progr oid (info.map Subtype.val) args = some (r, db')) :
    Named db' ∧ Protected db' := by
  obtain rfl | ⟨o, vi, specs, count, ho, hvi, -, -, hanc, hdesc, hadd⟩ := bfAddVerb_cases hi hdo
  · exact ⟨hn, hp⟩
  obtain ⟨o', ho', -, rfl⟩ := addVerb_eq_some hi.sound hadd
  obtain rfl := Option.some.inj (ho.symm.trans ho')
  have hx := mem_dom_of ho
  constructor
  · refine hn.setVerbs ho fun v hv => (List.mem_append.mp hv).imp id fun hv => ?_
    rw [List.mem_singleton.mp hv]
    exact validateVerbInfo_names hvi
  · refine hp.setVerbs hi ho fun v hv => (List.mem_append.mp hv).imp id fun hv => ?_
    rw [List.mem_singleton.mp hv]
    refine ⟨fun a hxa w hw hnotO hwiz hne => ?_, fun y hyx u hu hnotO hwiz hne => ?_⟩
    · have hno := hanc.resolve_left (by simp [hwiz])
      have hpar : db.upOf .family oid = o.parent := upOf_of ho
      have ha := (hi.sound.hangsUnder_iff.mp hxa).2
      rw [hpar] at ha
      exact nameConflictWithAncestor_false hi.sound (hpar ▸ hi.sound.up_mem hx) hno a ha w hw hnotO hwiz hne
    · have hno := hdesc.resolve_left (by simp [show vi.flags.notO = true from hnotO])
      exact nameConflictWithDescendants_false hi.sound rfl hx hno y hyx u hu hnotO hwiz hne

/-- Where a verb is renamed that neither changes hands nor is or becomes one that may be overridden, the
search of its new names among the descendants comes back with no conflict. -/
def RenamesApart (db : Db) (oid : Objid) (desc : Var) (info : List Var) : Prop :=
  ∀ vi h v, db.validateVerbInfo info = some (.ok vi) → db.findDescribedVerb oid desc = some (some h) →
    db.verbOf h = some v → vi.owner = v.owner → v.flags.notO = true → vi.flags.notO = true →
    sameName vi.names v.name = false → db.nameConflictWithDescendants oid vi.owner vi.names = some false

theorem bfSetVerbInfo_protected {r : Package} {desc : Var} {info : List Value} (hi : Intact db)
    (hn : Named db) (hp : Protected db) (hagain : Rematches env db oid desc)
    (happart : db.RenamesApart oid desc (info.map Subtype.val))
    (hdo : db.bfSetVerbInfo env progr oid desc (info.map Subtype.val) = some (r, db')) :
    Named db' ∧ Protected db' := by
  obtain rfl | ⟨o, vi, h, v, ho, hvi, hfind, hv, -, -, hanc, hdesc, hset⟩ := bfSetVerbInfo_rematched hi hagain hdo
  · exact ⟨hn, hp⟩
  obtain ⟨rfl, -⟩ := findDescribedVerb_handles hi.sound hfind
  obtain ⟨o', v', ho', hmem, -, hv', rfl⟩ := modifyVerb_eq_some hset
  obtain rfl := Option.some.inj (ho.symm.trans ho')
  obtain rfl := Option.some.inj (hv.symm.trans hv')
  have hx := mem_dom_of ho
  have hvx : v ∈ db.verbsOf h.definer := by rwa [verbsOf_of ho]
  have hnames := validateVerbInfo_names hvi
  -- a verb is an old one or has what has been set
  have hcases : ∀ u ∈ o.verbdefs.map (fun u => if u.addr = h.verbdef then
        { u with owner := vi.owner, flags := vi.flags, name := vi.names } else u),
      u ∈ o.verbdefs ∨ u.owner = vi.owner ∧ u.flags = vi.flags ∧ u.name = vi.names := by
    intro u hu
    obtain ⟨u₀, hu₀, rfl⟩ := List.mem_map.mp hu
    by_cases haddr : u₀.addr = h.verbdef
    · rw [if_pos haddr]
      exact .inr ⟨rfl, rfl, rfl⟩
    · rw [if_neg haddr]
      exact .inl hu₀
  constructor
  · exact hn.setVerbs ho fun u hu => (hcases u hu).imp id fun hnew => by rwa [hnew.2.2]
  refine hp.setVerbs hi ho fun u hu => (hcases u hu).imp id ?_
  rintro ⟨howner, hflags, hname⟩
  refine ⟨fun a hxa w hw hnotO hwiz hne => ?_, fun y hyx u' hu' hnotO hwiz hne => ?_⟩
  · rw [howner] at hwiz hne
    rw [hname]
    obtain hsame | hno := hanc
    · have hsame : vi.owner = v.owner ∧ sameName vi.names v.name = true := by simpa [hwiz] using hsame
      have hold := hp h.definer a hxa v hvx w hw
      rw [← hsame.1] at hold
      refine hold.of_lowered ?_ hnotO hwiz hne
      exact ((sameName_iff hnames (hn _ v hvx)).mp hsame.2).symm
    · have hpar : db.upOf .family h.definer = o.parent := upOf_of ho
      have ha := (hi.sound.hangsUnder_iff.mp hxa).2
      rw [hpar] at ha
      exact nameConflictWithAncestor_false hi.sound (hpar ▸ hi.sound.up_mem hx) hno a ha w hw hnotO hwiz hne
  · have hnewO : vi.flags.notO = true := hflags ▸ hnotO
    have hno : db.nameConflictWithDescendants h.definer vi.owner vi.names = some false := by
      obtain hskip | hno := hdesc
      · have hskip : (vi.owner = v.owner ∧ v.flags.notO = true) ∧ sameName vi.names v.name = false := by
          simpa [hnewO] using hskip
        exact happart vi h v hvi hfind hv hskip.1.1 hskip.1.2 hnewO hskip.2
      · exact hno
    rw [← howner] at hno
    exact nameConflictWithDescendants_false hi.sound hname hx hno y hyx u' hu' hnotO hwiz hne

theorem bfChparent_protected {r : Package} {what parent : Objid} (hi : Intact db) (hn : Named db)
    (hp : Protected db) (hdo : db.bfChparent progr what parent = some (r, db')) : Named db' ∧ Protected db' := by
  obtain rfl | ⟨o, changed, ho, -, hpar, hacyc, hno, hchange⟩ := bfChparent_cases hi hdo
  · exact ⟨hn, hp⟩
  have hx := mem_dom_of ho
  obtain ⟨-, rfl⟩ | ⟨-, -, hi', hre⟩ := changeParent_cases hi hx hpar hacyc hchange
  · exact ⟨hn, hp⟩
  have m := hre.moved hi hi' hx hpar hacyc
  have hobs : ∀ i, (db'.objects i).map (fun o => (o.verbdefs, o.flags)) =
      (db.objects i).map fun o => (o.verbdefs, o.flags) :=
    (hre.agree.mono fun he => Prod.ext (congrArg Object.verbdefs he) (congrArg Object.flags he)).objects
  have hverbs : db'.verbsOf = db.verbsOf := by
    funext y
    have := hobs y
    unfold verbsOf
    cases ho : db.objects y <;> cases ho' : db'.objects y <;> simp_all
  have hwizards : ∀ i, db'.isWizard i = db.isWizard i := by
    intro i
    rw [hi.sound.isWizard_eq, hi'.sound.isWizard_eq]
    have := hobs i
    cases ho : db.objects i <;> cases ho' : db'.objects i <;> simp_all
  refine ⟨fun y v hv => hn y v (hverbs ▸ hv), fun y a hya v hv w hw => ?_⟩
  rw [hverbs] at hv hw
  suffices h : db.Respects v.owner v.name w by
    unfold Respects at h ⊢
    rwa [hwizards]
  obtain ⟨hy, ha⟩ := hi'.sound.hangsUnder_iff.mp hya
  have hne : a ≠ y := fun heq => hi'.sound.up_notMem hy (heq ▸ ha)
  have hmem : a ∈ db'.chain .family y := by
    rw [hi'.sound.chain_cons hy]
    exact List.mem_cons_of_mem _ ha
  rw [m.dom] at hy
  have hold : a ∈ db.chain .family y → db.Respects v.owner v.name w := by
    intro ha
    rw [hi.sound.chain_cons hy, List.mem_cons] at ha
    exact hp y a (hi.sound.hangsUnder_iff.mpr ⟨hy, ha.resolve_left hne⟩) v hv w hw
  by_cases hb : db.Below what y
  · rw [m.chain_below hb, List.mem_append, List.mem_cons] at hmem
    obtain hmem | rfl | hmem := hmem
    · refine hold ?_
      rw [hi.sound.chain_between hb]
      exact List.mem_append_left _ hmem
    · exact hold hb.2
    · exact checkVerbsBeforeChparent_false hi.sound hpar hno y hb v hv a hmem w hw
  · rw [m.chain_eq (.inr hy) fun hmem => hb ⟨hy, hmem⟩] at hmem
    exact hold hmem

/-! Sequences of calls. -/

/-- The calls that work on verbs and the family of objects and leave the wizards alone,
with those that come in between. -/
def Call.leavesWizards (db : Db) : Call → Prop
  | .create .. | .chparent .. | .addVerb .. | .setVerbInfo .. | .deleteVerb .. => True
  | .recycle _ oid | .recycleResumed _ oid => db.isWizard oid = false
  | .move .. | .moveAccepted .. | .moveExited .. | .findCallableVerb .. => True
  | _ => False

def Call.renamesApart (db : Db) : Call → Prop
  | .setVerbInfo _ oid desc info => db.RenamesApart oid desc.val (info.map Subtype.val)
  | _ => True

theorem perform_protected {call : Call} (hi : Intact db) (hn : Named db) (hp : Protected db)
    (hwiz : call.leavesWizards db) (hagain : call.rematches env db) (happart : call.renamesApart db)
    (hdo : db.perform env call = some db') :
    Named db' ∧ Protected db' := by
  have hi' := perform_intact hi hdo
  have hshrinks : Shrinks db db' → Named db' ∧ Protected db' :=
    fun h => ⟨hn.shrinks h, hp.shrinks hi.sound hi'.sound h⟩
  cases call with
  | create p parent owner? =>
      obtain ⟨⟨r, db₁⟩, hcall, rfl⟩ := Option.map_eq_some_iff.mp hdo
      exact hshrinks ((bfCreate_cases hi hcall).shrinks hi)
  | chparent p what parent =>
      obtain ⟨⟨r, db₁⟩, hcall, rfl⟩ := Option.map_eq_some_iff.mp hdo
      exact bfChparent_protected hi hn hp hcall
  | addVerb p x info args =>
      obtain ⟨⟨r, db₁⟩, hcall, rfl⟩ := Option.map_eq_some_iff.mp hdo
      exact bfAddVerb_protected hi hn hp hcall
  | setVerbInfo p x desc info =>
      obtain ⟨⟨r, db₁⟩, hcall, rfl⟩ := Option.map_eq_some_iff.mp hdo
      exact bfSetVerbInfo_protected hi hn hp hagain happart hcall
  | deleteVerb p x desc =>
      obtain ⟨⟨r, db₁⟩, hcall, rfl⟩ := Option.map_eq_some_iff.mp hdo
      obtain rfl | ⟨o, h, -, -, -, hdelete⟩ := bfDeleteVerb_cases hi hcall
      · exact ⟨hn, hp⟩
      · exact hshrinks (deleteVerb_shrinks hi hdelete)
  | recycle p x =>
      obtain ⟨⟨r, db₁⟩, hcall, rfl⟩ := Option.map_eq_some_iff.mp hdo
      obtain rfl | ⟨o, db₂, -, -, hup, rfl | hdestroy⟩ := bfRecycle_cases hi hcall
      · exact ⟨hn, hp⟩
      · exact hshrinks (hup.upkeeps.shrinks hi)
      · exact hshrinks ((hup.upkeeps.shrinks hi).trans
          (destroyObject_shrinks (hup.intact hi) (((hup.upkeeps.shrinks hi).wizards x).trans hwiz) hdestroy))
  | recycleResumed p x =>
      obtain ⟨⟨r, db₁⟩, hcall, rfl⟩ := Option.map_eq_some_iff.mp hdo
      obtain ⟨db₂, hup, rfl | ⟨-, hdestroy⟩⟩ := recycleResumed_cases hi hcall
      · exact hshrinks (hup.upkeeps.shrinks hi)
      · exact hshrinks ((hup.upkeeps.shrinks hi).trans
          (destroyObject_shrinks (hup.intact hi) (((hup.upkeeps.shrinks hi).wizards x).trans hwiz) hdestroy))
  | move p what where' =>
      obtain ⟨⟨r, db₁⟩, hcall, rfl⟩ := Option.map_eq_some_iff.mp hdo
      exact hshrinks ((bfMove_tends (k := none) hi hcall).upkeeps.shrinks hi)
  | moveAccepted p what where' accepts =>
      obtain ⟨⟨r, db₁⟩, hcall, rfl⟩ := Option.map_eq_some_iff.mp hdo
      exact hshrinks ((moveAccepted_tends (k := none) hi hcall).upkeeps.shrinks hi)
  | moveExited p what where' =>
      obtain ⟨⟨r, db₁⟩, hcall, rfl⟩ := Option.map_eq_some_iff.mp hdo
      exact hshrinks ((moveExited_tends (k := none) hcall).upkeeps.shrinks hi)
  | findCallableVerb p x verb =>
      obtain ⟨⟨db₁, h⟩, hcall, rfl⟩ := Option.map_eq_some_iff.mp hdo
      exact hshrinks (Upkeep.shrinks hi (.lookup verb.property hcall))
  | _ => exact hwiz.elim

/-- With the wizards fixed, no sequence of calls makes a verb override one that must not
be overridden, when `set_verb_info` finds its verbs again and the renamings in it are asked about as
they should be. -/
theorem run_protected (hi : Intact db₀) (hn : Named db₀) (hp : Protected db₀)
    (hrun : Run (fun env call db => call.leavesWizards db ∧ call.rematches env db ∧ call.renamesApart db) db₀ db) :
    Protected db := by
  have hall : Intact db ∧ Named db ∧ Protected db := by
    refine hrun.invariant (I := fun db => Intact db ∧ Named db ∧ Protected db) ?_ ⟨hi, hn, hp⟩
    rintro env call db db' ⟨hi, hn, hp⟩ ⟨hwiz, hagain, happart⟩ hdo
    exact ⟨perform_intact hi hdo, perform_protected hi hn hp hwiz hagain happart hdo⟩
  exact hall.2.2

/-! What goes wrong otherwise. -/

def createTwo : List (Env × Call) :=
  [(calmEnv, .create 0 nothing none),
    (calmEnv, .putProp 0 (objOf 0) (strOf ['f']) (intOf 1)),
    (calmEnv, .create 1 0 none)]

/-- `#0`, which anyone may have children of, and a child of it that belongs to itself. -/
def twoObjects : Db := (performAll createTwo empty).getD empty

theorem twoObjects_intact : Intact twoObjects := by
  have hrun : Run (fun _ _ _ => True) empty twoObjects :=
    performAll_run createTwo (fun _ _ _ => trivial) rfl
  exact hrun.intact empty_intact

theorem twoObjects_verbs (x : Objid) : twoObjects.verbsOf x = [] := by
  by_contra hne
  obtain ⟨v, hv⟩ := List.exists_mem_of_ne_nil _ hne
  have hnum : twoObjects.numObjects = 2 := rfl
  have hx := twoObjects_intact.sound.range (mem_dom_of_verbsOf hv)
  obtain rfl | rfl : x = 0 ∨ x = 1 := by lia
  · exact hne rfl
  · exact hne rfl

theorem twoObjects_named : Named twoObjects := by
  intro x v hv
  rw [twoObjects_verbs] at hv
  cases hv

theorem twoObjects_protected : Protected twoObjects := by
  intro x a _ v hv
  rw [twoObjects_verbs] at hv
  cases hv

def addVerbs : List (Env × Call) :=
  [(calmEnv, .addVerb 0 0 (verbInfo 0 ['f', 'o', 'o']) verbArgs),
    ({ calmEnv with addr := 1 }, .addVerb 1 1 (verbInfo 1 ['b', 'a', 'r']) verbArgs)]

def verbsAdded : Db := (performAll addVerbs twoObjects).getD empty

def renameApart : Call := .setVerbInfo 0 0 (strOf "foo".toList) (verbInfo 0 "baz".toList)

theorem run_protected_renamed :
    ∃ db, performAll addVerbs twoObjects = some verbsAdded ∧ verbsAdded.perform calmEnv renameApart = some db ∧
      (db.verbsOf 0).map Verbdef.name = ["baz".toList] ∧ Protected db := by
  have hadded : Run (fun env call db => call.leavesWizards db ∧ call.rematches env db ∧ call.renamesApart db)
      twoObjects verbsAdded := by
    refine performAll_run addVerbs (fun c hc db => ?_) rfl
    simp only [addVerbs, List.mem_cons, List.not_mem_nil, or_false] at hc
    obtain rfl | rfl := hc <;> exact ⟨trivial, trivial, trivial⟩
  have happart : renameApart.renamesApart verbsAdded := by
    intro vi h v hvi _ _ _ _ _ _
    have hinfo : verbsAdded.validateVerbInfo ((verbInfo 0 "baz".toList).map Subtype.val) =
        some (.ok { owner := 0, flags := { read := true, exec := true, notO := true }, names := "baz".toList }) := rfl
    obtain rfl := Except.ok.inj (Option.some.inj (hinfo.symm.trans hvi))
    rfl
  exact ⟨_, rfl, rfl, rfl, run_protected twoObjects_intact twoObjects_named twoObjects_protected
    (hadded.tail ⟨calmEnv, renameApart, ⟨trivial, fun _ => rfl, happart⟩, rfl⟩)⟩

def renameVerb : Env × Call :=
  (calmEnv, .setVerbInfo 0 0 (strOf ['f', 'o', 'o']) (verbInfo 0 ['b', 'a', 'r']))

/-- A verb that must not be overridden is renamed to what a verb below it is called. -/
theorem renameVerb_overrides : ∃ db₀ db, Intact db₀ ∧ Named db₀ ∧ Protected db₀ ∧
    Run (fun _ call db => call.leavesWizards db) db₀ db ∧ ¬ Protected db := by
  refine ⟨twoObjects, ((performAll (addVerbs ++ [renameVerb]) twoObjects).getD empty), twoObjects_intact,
    twoObjects_named, twoObjects_protected, performAll_run (addVerbs ++ [renameVerb])
      (fun c hc db => ?_) rfl, fun hp => ?_⟩
  · simp only [addVerbs, renameVerb, List.cons_append, List.nil_append, List.mem_cons, List.not_mem_nil,
      or_false] at hc
    obtain rfl | rfl | rfl := hc <;> exact trivial
  · have hunder : Relation.TransGen
        (((performAll (addVerbs ++ [renameVerb]) twoObjects).getD empty).HangsUnder .family) 1 0 :=
      .single ⟨_, rfl, rfl, by decide⟩
    have hrespects := hp 1 0 hunder _ List.mem_cons_self _ List.mem_cons_self rfl rfl (by decide)
    exact hrespects.1 (by decide)

end Db
end LambdaMoo
