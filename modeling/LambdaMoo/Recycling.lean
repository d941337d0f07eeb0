import Mathlib.Data.Set.Card
import Mathlib.Data.Set.Finite.Lattice
import LambdaMoo.Inheritance
import LambdaMoo.VerbCache

/-! Recycling ends. Whatever the verbs it calls have done, what is under the object can be taken
away from it one by one, and its children can be hung higher. -/
namespace LambdaMoo

namespace Db

variable {db db' db'' : Db} {h : Hier} {oid p x : Objid} {o : Object} {env : Env}

/-! What hangs under an object. -/

def under (db : Db) (h : Hier) (oid : Objid) : Set Objid := { z | z ∈ db.dom ∧ db.upOf h z = oid }

theorem Sound.under_finite (hs : Sound db) (h : Hier) (oid : Objid) : (db.under h oid).Finite :=
  (Set.finite_Ico 0 db.numObjects).subset fun _ hz => hs.range hz.1

theorem Sound.under_ncard_lt_fuel (hs : Sound db) (h : Hier) (oid : Objid) :
    (db.under h oid).ncard < db.fuel := by
  have hsub : db.under h oid ⊆ ((Finset.Ico 0 db.numObjects : Finset Int) : Set Int) := by
    intro z hz
    rw [Finset.coe_Ico]
    exact hs.range hz.1
  have hle := Set.ncard_le_ncard hsub (Finset.finite_toSet _)
  rw [Set.ncard_coe_finset, Int.card_Ico, Int.sub_zero] at hle
  unfold fuel
  omega

theorem Sound.headOf_eq_nothing_iff (hs : Sound db) (hx : x ∈ db.dom) :
    db.headOf h x = nothing ↔ db.under h x = ∅ := by
  obtain ⟨l, hl, hm⟩ := (hs.linked h).members x hx
  rw [Set.eq_empty_iff_forall_notMem]
  constructor
  · intro hhead z hz
    rw [hl.unique (Chain.nil_iff.mpr hhead)] at hm
    exact absurd ((hm z).mpr hz) List.not_mem_nil
  · intro hempty
    cases l with
    | nil => exact Chain.nil_iff.mp hl
    | cons a l => exact absurd ((hm a).mp List.mem_cons_self) (hempty a)

theorem Sound.head_mem_under (hs : Sound db) (hx : x ∈ db.dom) (hne : db.headOf h x ≠ nothing) :
    db.headOf h x ∈ db.under h x :=
  (hs.linked h).head_mem hx hne

theorem Sound.up_ne (hs : Sound db) (hx : x ∈ db.dom) : db.upOf h x ≠ x := by
  intro heq
  have hno := hs.up_notMem (h := h) hx
  rw [heq, hs.chain_cons hx] at hno
  exact hno List.mem_cons_self

/-- What hung under an object, all of it or some, has been hung under `p` instead. -/
structure Rehung (h : Hier) (oid p : Objid) (db db' : Db) : Prop where
  upkeeps : Upkeeps db db'
  dom : db'.dom = db.dom
  other : ∀ k, k ≠ h → db'.upOf k = db.upOf k
  up : ∀ z, db'.upOf h z = db.upOf h z ∨ db.upOf h z = oid ∧ db'.upOf h z = p

namespace Rehung

theorem refl (db : Db) : Rehung h oid p db db := ⟨.refl, rfl, fun _ _ => rfl, fun _ => .inl rfl⟩

theorem trans (h₁ : Rehung h oid p db db') (h₂ : Rehung h oid p db' db'') : Rehung h oid p db db'' where
  upkeeps := h₁.upkeeps.trans h₂.upkeeps
  dom := h₂.dom.trans h₁.dom
  other k hk := (h₂.other k hk).trans (h₁.other k hk)
  up z := by
    obtain hz | ⟨hz, hz'⟩ := h₁.up z
    · rw [← hz]
      exact h₂.up z
    · obtain hsame | ⟨-, hnew⟩ := h₂.up z
      · exact .inr ⟨hz, hsame.trans hz'⟩
      · exact .inr ⟨hz, hnew⟩

variable (hr : Rehung h oid p db db')
include hr

theorem under_subset (hne : p ≠ oid) : db'.under h oid ⊆ db.under h oid := by
  rintro z ⟨hz, hup⟩
  obtain hsame | ⟨-, hnew⟩ := hr.up z
  · exact ⟨hr.dom ▸ hz, hsame.symm.trans hup⟩
  · exact absurd (hnew.symm.trans hup) hne

theorem up_self (hs : Sound db) (hx : oid ∈ db.dom) : db'.upOf h oid = db.upOf h oid :=
  (hr.up oid).resolve_right fun hup => hs.up_ne hx hup.1

theorem ncard_lt (hs : Sound db) (hne : p ≠ oid) (hx : x ∈ db.under h oid) (hx' : db'.upOf h x = p) :
    (db'.under h oid).ncard < (db.under h oid).ncard := by
  refine Set.ncard_lt_ncard ⟨hr.under_subset hne, fun hsub => ?_⟩ (hs.under_finite h oid)
  exact hne (hx'.symm.trans (hsub hx).2)

end Rehung

/-! The steps: a verb called, an object moved to nowhere, a child hung higher, a count on a quota. -/

theorem moveToNothing_spec (env : Env) (hi : Intact db) (hc : Cached db) (hx : x ∈ db.dom) :
    ∃ called db', db.moveToNothing env x = some (called, db') ∧
      Rehung .place (db.upOf .place x) nothing db db' ∧ db'.upOf .place x = nothing := by
  obtain ⟨o, ho⟩ := mem_dom.mp hx
  have hacyc : x ∉ db.chain .place nothing := by simp [hi.sound.chain_nothing]
  obtain ⟨db₁, hloc, hi₁, ha, hup⟩ := changeLocation_spec hi ho (.inl rfl) hacyc
  have hstep : Upkeep db db₁ := .place hx (.inl rfl) hacyc hloc
  have hv : Terminated "exitfunc".toList := by decide
  obtain ⟨db₂, hcall, hobj⟩ := callVerb_spec env hi₁.sound (hstep.cached hi hc) hv o.location
  have hmove : db.moveToNothing env x =
      some (decide (db₁.callOutcome env o.location "exitfunc".toList = .eNone), db₂) := by
    rw [moveToNothing, ho, Option.bind_eq_bind, Option.bind_some, hloc, Option.bind_eq_bind,
      Option.bind_some, hcall]
    rfl
  have hup₂ : db₂.upOf = db₁.upOf := by
    funext k z
    rw [upOf, upOf, hobj]
  refine ⟨_, db₂, hmove, ⟨(moveToNothing_tends (k := none) hi hmove).upkeeps, ?_, fun k hk => ?_, fun z => ?_⟩, ?_⟩
  · rw [dom, hobj]
    exact ha.dom
  · have hone : ∀ {o o' : Object}, o.withoutLinks .place = o'.withoutLinks .place → o.up k = o'.up k := by
      intro o o' he
      have := congrArg (·.2.1) (Object.linksIn_of_withoutLinks hk he)
      exact this
    rw [hup₂]
    funext z
    exact (ha.mono hone).elim nothing z
  · rw [hup₂, hup]
    obtain rfl | hne := eq_or_ne z x
    · exact .inr ⟨rfl, Function.update_self _ _ _⟩
    · exact .inl (Function.update_of_ne hne _ _)
  · rw [hup₂, hup]
    exact Function.update_self _ _ _

/-- A definition at or below an object does not have the name of one further up. -/
theorem Intact.disjoint_above (hi : Intact db) (hx : x ∈ db.dom)
    (hp : p = nothing ∨ p ∈ db.chain .family (db.upOf .family x)) : db.Disjoint x p := by
  intro d hd y hb e he
  obtain rfl | hp := hp
  · simp [hi.sound.allDefs_nothing] at hd
  have hup := hi.sound.up_mem (h := .family) hx
  obtain ⟨l, hl⟩ := hi.sound.chain_suffix (.inr hb.1) hb.2
  obtain ⟨l', hl'⟩ := hi.sound.chain_suffix hup hp
  -- `p` is further up than `y` is
  have hchain : y :: db.chain .family (db.upOf .family y) = (l ++ x :: l') ++ db.chain .family p := by
    rw [← hi.sound.chain_cons hb.1, hl, hi.sound.chain_cons hx, hl', List.append_assoc, List.cons_append]
  obtain ⟨a, t, ht⟩ : ∃ a t, l ++ x :: l' = a :: t := List.exists_cons_of_ne_nil (by simp)
  rw [ht, List.cons_append, List.cons.injEq] at hchain
  have hnames := hi.slotted.names y hb.1
  rw [hi.sound.allDefs_cons hb.1, List.pairwise_append] at hnames
  refine hnames.2.2 e he d ?_
  rw [allDefs, hchain.2, List.flatMap_append]
  exact List.mem_append_right _ hd

theorem lift_spec (hi : Intact db) (hx : x ∈ db.dom)
    (hp : p = nothing ∨ p ∈ db.chain .family (db.upOf .family x)) :
    ∃ db', db.changeParent x p = some (true, db') ∧ Rehung .family (db.upOf .family x) p db db' ∧
      db'.upOf .family x = p := by
  obtain ⟨hp', hacyc⟩ := hi.sound.lift_acyclic hx hp
  obtain ⟨hno, -⟩ | ⟨-, db', hdo, -, -, hre⟩ := changeParent_spec hi.sound hi.slotted hx hp' hacyc
  · exact absurd (hi.disjoint_above hx hp) hno
  refine ⟨db', hdo, ⟨.single (.lift hx hp hdo), hre.agree.dom, fun k hk => ?_, fun z => ?_⟩, ?_⟩
  · cases k with
    | family => exact absurd rfl hk
    | place =>
        have ha := hre.agree.mono (g := Object.up .place) fun he => by
          have hloc := congrArg Object.location he
          exact hloc
        funext z
        exact ha.elim nothing z
  · rw [hre.up]
    obtain rfl | hne := eq_or_ne z x
    · exact .inr ⟨rfl, Function.update_self _ _ _⟩
    · exact .inl (Function.update_of_ne hne _ _)
  · rw [hre.up]
    exact Function.update_self _ _ _

theorem child_lifted (hi : Intact db) (ho : db.objects oid = some o) (hne : o.child ≠ nothing) :
    ∃ db', db.changeParent o.child o.parent = some (true, db') ∧
      Rehung .family (db.upOf .family o.child) o.parent db db' ∧ db'.upOf .family o.child = o.parent := by
  have hx := mem_dom_of ho
  have hhead : db.headOf .family oid = o.child := headOf_of ho
  have hpar : db.upOf .family oid = o.parent := upOf_of ho
  obtain ⟨hchild, hup⟩ := hi.sound.head_mem_under hx (hhead ▸ hne)
  rw [hhead] at hchild hup
  refine lift_spec hi hchild ?_
  rw [hup, hi.sound.chain_cons hx, hpar]
  obtain hn | hd := hpar ▸ hi.sound.up_mem (h := .family) hx
  · exact .inl hn
  · refine .inr (List.mem_cons_of_mem _ ?_)
    rw [hi.sound.chain_cons hd]
    exact List.mem_cons_self

theorem incrQuota_spec (hi : Intact db) (player : Objid) :
    ∃ db', db.incrQuota player = some db' ∧ Upkeeps db db' ∧
      Agree Object.withoutSlots db db' := by
  obtain ⟨db', hdo, ha⟩ : ∃ db', db.incrQuota player = some db' ∧
      Agree Object.withoutSlots db db' := by
    unfold incrQuota
    by_cases hv : (!db.valid player) = true
    · exact ⟨db, if_pos hv, .refl _ _⟩
    have hx : player ∈ db.dom := hi.sound.valid_iff.mp (by simpa using hv)
    rw [if_neg hv]
    obtain ⟨e, he, hm, -⟩ | ⟨-, ⟨hfind, -⟩ | ⟨n, definer, v, source, hat, -, hfind⟩⟩ :=
      hi.finds hx "ownership_quota".toList
    · have hno : ∀ e ∈ ptable, nameMatches e.1 "ownership_quota".toList = false := by decide
      rw [hno e he] at hm
      cases hm
    · exact ⟨db, by rw [hfind]; rfl, .refl _ _⟩
    · rw [hfind, Option.bind_eq_bind, Option.bind_some]
      cases v with
      | int num =>
          obtain ⟨o, ho⟩ := mem_dom.mp hx
          obtain ⟨d, -, hd, -⟩ := hat.getElem
          have hlt : n < o.propval.length := by
            rw [hi.slotted.length ho]
            exact (List.getElem?_eq_some_iff.mp hd).1
          obtain ⟨db', hset⟩ : ∃ db',
              db.modifySlot (fun p => { p with var := .int (wrap32 (num + 1)) }) player n = some db' := by
            rw [modifySlot, ho, Option.bind_eq_bind, Option.bind_some, if_neg (Nat.not_le.mpr hlt)]
            exact ⟨_, rfl⟩
          exact ⟨db', hset, modifySlot_agree hset⟩
      | _ => exact ⟨db, rfl, .refl _ _⟩
  exact ⟨db', hdo, (incrQuota_tends (k := none) hi hdo).upkeeps, ha⟩

/-! The loops. -/

theorem recycleContents_spec (env : Env) {fuel : Nat} (hi : Intact db) (hc : Cached db) (hx : oid ∈ db.dom)
    (hfuel : (db.under .place oid).ncard < fuel) :
    ∃ called db', recycleContents env oid fuel db = some (called, db') ∧
      Rehung .place oid nothing db db' ∧ (called = false → db'.under .place oid = ∅) ∧
      (called = true → (db'.under .place oid).ncard < (db.under .place oid).ncard) := by
  induction fuel generalizing db with
  | zero => exact absurd hfuel (Nat.not_lt_zero _)
  | succ fuel ih =>
      obtain ⟨o, ho⟩ := mem_dom.mp hx
      have hs := hi.sound
      have hhead : db.headOf .place oid = o.contents := headOf_of ho
      rw [recycleContents, ho, Option.bind_eq_bind, Option.bind_some]
      by_cases hne : o.contents = nothing
      · refine ⟨false, db, if_pos hne, .refl db, fun _ => ?_, by intros; contradiction⟩
        exact (hs.headOf_eq_nothing_iff hx).mp (hhead.trans hne)
      have hmem := hs.head_mem_under hx (hhead ▸ hne)
      rw [hhead] at hmem
      obtain ⟨called, db₁, hmove, hr, hup⟩ := moveToNothing_spec env hi hc hmem.1
      rw [hmem.2] at hr
      have hlt := hr.ncard_lt hs (hs.ne_nothing hx).symm hmem hup
      rw [if_neg hne, hmove, Option.bind_eq_bind, Option.bind_some]
      cases called with
      | true => exact ⟨true, db₁, rfl, hr, by intros; contradiction, fun _ => hlt⟩
      | false =>
          obtain ⟨called, db₂, hrest, hr₂, hempty, hless⟩ := ih (Upkeeps.intact hi hr.upkeeps)
            (Upkeeps.cached hi hc hr.upkeeps) (hr.dom ▸ hx) (by omega)
          exact ⟨called, db₂, hrest, hr.trans hr₂, hempty, fun h => (hless h).trans hlt⟩

theorem recycleChildren_spec {fuel : Nat} (hi : Intact db) (hx : oid ∈ db.dom)
    (hfuel : (db.under .family oid).ncard < fuel) :
    ∃ db', recycleChildren oid fuel db = some db' ∧
      Rehung .family oid (db.upOf .family oid) db db' ∧ db'.under .family oid = ∅ := by
  induction fuel generalizing db with
  | zero => exact absurd hfuel (Nat.not_lt_zero _)
  | succ fuel ih =>
      obtain ⟨o, ho⟩ := mem_dom.mp hx
      have hs := hi.sound
      have hhead : db.headOf .family oid = o.child := headOf_of ho
      have hparent : db.upOf .family oid = o.parent := upOf_of ho
      rw [recycleChildren, ho, Option.bind_eq_bind, Option.bind_some]
      by_cases hne : o.child = nothing
      · refine ⟨db, if_pos hne, .refl db, ?_⟩
        exact (hs.headOf_eq_nothing_iff hx).mp (hhead.trans hne)
      have hmem := hs.head_mem_under hx (hhead ▸ hne)
      rw [hhead] at hmem
      obtain ⟨db₁, hchange, hr, hup⟩ := child_lifted hi ho hne
      rw [hmem.2, ← hparent] at hr
      have hlt := hr.ncard_lt hs (hs.up_ne hx) hmem (hup.trans hparent.symm)
      obtain ⟨db₂, hrest, hr₂, hempty⟩ := ih (Upkeeps.intact hi hr.upkeeps) (hr.dom ▸ hx) (by omega)
      rw [hr.up_self hs hx] at hr₂
      rw [if_neg hne, hchange, Option.bind_eq_bind, Option.bind_some]
      exact ⟨db₂, hrest, hr.trans hr₂, hempty⟩

/-! One entry of the built-in. -/

/-- The object is there, nothing is above or under it, and no other object says it is under it. -/
structure Barren (db : Db) (oid : Objid) : Prop where
  object : ∃ o, db.objects oid = some o ∧ o.parent = nothing ∧ o.child = nothing ∧
    o.location = nothing ∧ o.contents = nothing
  unnamed : ∀ z o, db.objects z = some o → o.parent ≠ oid ∧ o.location ≠ oid

theorem Sound.barren (hs : Sound db) (hx : oid ∈ db.dom) (hup : ∀ h, db.upOf h oid = nothing)
    (hunder : ∀ h, db.under h oid = ∅) : Barren db oid := by
  obtain ⟨o, ho⟩ := mem_dom.mp hx
  have hu : ∀ h, o.up h = nothing := fun h => (upOf_of ho).symm.trans (hup h)
  have hh : ∀ h, o.head h = nothing := fun h =>
    (headOf_of ho).symm.trans ((hs.headOf_eq_nothing_iff hx).mpr (hunder h))
  refine ⟨⟨o, ho, hu .family, hh .family, hu .place, hh .place⟩, fun z oz hz => ?_⟩
  have hne : ∀ h, oz.up h ≠ oid := by
    intro h heq
    have hmem : z ∈ db.under h oid := ⟨mem_dom_of hz, (upOf_of hz).trans heq⟩
    rw [hunder h] at hmem
    exact hmem
  exact ⟨hne .family, hne .place⟩

theorem Barren.destroyed (hi : Intact db) (hb : Barren db oid) :
    ∃ db', db.destroyObject oid = some db' ∧ ∀ z o, db'.objects z = some o → o.parent ≠ oid ∧ o.location ≠ oid := by
  obtain ⟨o, ho, hpar, hchild, hloc, hcont⟩ := hb.object
  obtain ⟨users, db', hdo, -, rfl⟩ := destroyObject_spec hi ho hloc hcont hpar hchild
  refine ⟨_, hdo, fun z oz hz => ?_⟩
  obtain rfl | hne := eq_or_ne z oid
  · simp at hz
  · exact hb.unnamed z oz (by simpa [Function.update_of_ne hne] using hz)

theorem demolish_spec (hi : Intact db) (hx : oid ∈ db.dom) (hup : db.upOf .place oid = nothing)
    (hunder : db.under .place oid = ∅) :
    ∃ db₁ db', Upkeeps db db₁ ∧ Barren db₁ oid ∧ db₁.destroyObject oid = some db' ∧
      (do
        let db ← recycleChildren oid db.fuel db
        let (_, db) ← db.changeParent oid nothing
        let db ← db.incrQuota (← db.objects oid).owner
        return (.noVar, ← db.destroyObject oid)) = some (Package.noVar, db') := by
  obtain ⟨db₁, hchildren, hr₁, hempty⟩ :=
    recycleChildren_spec hi hx (hi.sound.under_ncard_lt_fuel .family oid)
  have hi₁ := Upkeeps.intact hi hr₁.upkeeps
  have hx₁ : oid ∈ db₁.dom := hr₁.dom ▸ hx
  obtain ⟨db₂, hchange, hr₂, hroot⟩ := lift_spec hi₁ hx₁ (.inl rfl)
  have hi₂ := Upkeeps.intact hi₁ hr₂.upkeeps
  obtain ⟨o, ho⟩ := mem_dom.mp (hr₂.dom ▸ hx₁)
  obtain ⟨db₃, hquota, hups, ha⟩ := incrQuota_spec hi₂ o.owner
  have hi₃ := Upkeeps.intact hi₂ hups
  have hup₃ : ∀ h, db₃.upOf h = db₂.upOf h := by
    intro h
    funext z
    refine (ha.mono (g := Object.up h) fun he => ?_).elim nothing z
    have hlinks := congrArg (Object.up h) he
    cases h <;> exact hlinks
  have hunder₃ : ∀ h, db₃.under h oid ⊆ db₁.under h oid := by
    rintro h z ⟨hz, hzup⟩
    rw [hup₃] at hzup
    rw [ha.dom, hr₂.dom] at hz
    cases h with
    | family =>
        obtain hsame | ⟨-, hnew⟩ := hr₂.up z
        · exact ⟨hz, hsame.symm.trans hzup⟩
        · exact absurd (hnew.symm.trans hzup) (hi.sound.ne_nothing hx).symm
    | place => exact ⟨hz, (congrFun (hr₂.other .place nofun) z).symm.trans hzup⟩
  have hbarren : Barren db₃ oid := by
    refine hi₃.sound.barren (ha.dom ▸ hr₂.dom ▸ hx₁) (fun h => ?_) fun h => ?_
    · rw [hup₃]
      cases h with
      | family => exact hroot
      | place => rw [hr₂.other .place nofun, hr₁.other .place nofun, hup]
    · refine Set.subset_eq_empty (hunder₃ h) ?_
      cases h with
      | family => exact hempty
      | place =>
          rw [under, hr₁.dom, hr₁.other .place nofun]
          exact hunder
  obtain ⟨db₄, hdestroy, -⟩ := hbarren.destroyed hi₃
  refine ⟨db₃, db₄, (hr₁.upkeeps.trans hr₂.upkeeps).trans hups, hbarren, hdestroy, ?_⟩
  simp [hchildren, hchange, ho, hquota, hdestroy]

/-- A verb is called only after an object has been moved away: out of the object, or the
object itself when nothing was left in it. -/
def MovedAway (oid : Objid) (db db' : Db) : Prop :=
  (db'.under .place oid).ncard < (db.under .place oid).ncard ∨
    db'.under .place oid = ∅ ∧ db.upOf .place oid ≠ nothing ∧ db'.upOf .place oid = nothing

/-- What an entry of the built-in comes to. -/
inductive Entered (oid : Objid) : Db → Package → Db → Prop
  | gone {db : Db} (hno : oid ∉ db.dom) : Entered oid db .noVar db
  | called {db db' : Db} (hups : Upkeeps db db') (haway : MovedAway oid db db') : Entered oid db .call db'
  | destroyed {db db₁ db' : Db} (hups : Upkeeps db db₁) (hbarren : Barren db₁ oid)
      (hdo : db₁.destroyObject oid = some db')
      (hunnamed : ∀ z o, db'.objects z = some o → o.parent ≠ oid ∧ o.location ≠ oid) :
      Entered oid db .noVar db'

theorem recycleResumed_spec (hi : Intact db) (hc : Cached db) (env : Env) (oid : Objid) :
    ∃ r db', db.recycleResumed env oid = some (r, db') ∧ Entered oid db r db' := by
  unfold recycleResumed
  by_cases hv : (!db.valid oid) = true
  · exact ⟨.noVar, db, if_pos hv, .gone fun hx => by simp [hi.sound.valid_iff.mpr hx] at hv⟩
  have hx : oid ∈ db.dom := hi.sound.valid_iff.mp (by simpa using hv)
  obtain ⟨called, db₁, hcont, hr₁, hempty, hless⟩ :=
    recycleContents_spec env hi hc hx (hi.sound.under_ncard_lt_fuel .place oid)
  rw [if_neg hv, hcont, Option.bind_eq_bind, Option.bind_some]
  cases called with
  | true => exact ⟨.call, db₁, rfl, .called hr₁.upkeeps (.inl (hless rfl))⟩
  | false =>
  have hi₁ := Upkeeps.intact hi hr₁.upkeeps
  have hx₁ : oid ∈ db₁.dom := hr₁.dom ▸ hx
  have hup₁ := hr₁.up_self hi.sound hx
  obtain ⟨o, ho⟩ := mem_dom.mp hx₁
  have hloc : db₁.upOf .place oid = o.location := upOf_of ho
  have hdemolish : ∀ {db₂ : Db}, Upkeeps db db₂ → oid ∈ db₂.dom → db₂.upOf .place oid = nothing →
      db₂.under .place oid = ∅ → ∃ db', Entered oid db .noVar db' ∧ (do
        let db ← recycleChildren oid db₂.fuel db₂
        let (_, db) ← db.changeParent oid nothing
        let db ← db.incrQuota (← db.objects oid).owner
        return (.noVar, ← db.destroyObject oid)) = some (Package.noVar, db') := by
    intro db₂ hups hx₂ hup₂ hunder₂
    have hi₂ := Upkeeps.intact hi hups
    obtain ⟨db₃, db', hups₃, hbarren, hdestroy, hrest⟩ := demolish_spec hi₂ hx₂ hup₂ hunder₂
    obtain ⟨db'', hdestroy', hunnamed⟩ := hbarren.destroyed (Upkeeps.intact hi₂ hups₃)
    obtain rfl := Option.some.inj (hdestroy.symm.trans hdestroy')
    exact ⟨db', .destroyed (hups.trans hups₃) hbarren hdestroy hunnamed, hrest⟩
  by_cases hne : o.location = nothing
  · obtain ⟨db', hentered, hrest⟩ :=
      hdemolish hr₁.upkeeps hx₁ (hloc.trans hne) (hempty rfl)
    exact ⟨.noVar, db', by simpa [ho, hne] using hrest, hentered⟩
  · obtain ⟨called, db₂, hmove, hr₂, hup₂⟩ :=
      moveToNothing_spec env hi₁ (Upkeeps.cached hi hc hr₁.upkeeps) hx₁
    have hunder₂ : db₂.under .place oid = ∅ := by
      refine Set.subset_eq_empty ?_ (hempty rfl)
      rintro z ⟨hz, hzup⟩
      obtain hsame | ⟨-, hnew⟩ := hr₂.up z
      · exact ⟨hr₂.dom ▸ hz, hsame.symm.trans hzup⟩
      · exact absurd (hnew.symm.trans hzup) (hi.sound.ne_nothing hx).symm
    have hups := hr₁.upkeeps.trans hr₂.upkeeps
    cases called with
    | true =>
        refine ⟨.call, db₂, by simp [ho, hne, hmove], .called hups (.inr ⟨hunder₂, ?_, hup₂⟩)⟩
        rw [← hup₁, hloc]
        exact hne
    | false =>
        obtain ⟨db', hentered, hrest⟩ := hdemolish hups (hr₂.dom ▸ hx₁) hup₂ hunder₂
        exact ⟨.noVar, db', by simpa [ho, hne, hmove] using hrest, hentered⟩

theorem Entered.upkeeps {r : Package} (h : Entered oid db r db') (hr : r = .call) :
    Upkeeps db db' ∧ MovedAway oid db db' := by
  cases h with
  | gone => cases hr
  | called hups haway => exact ⟨hups, haway⟩
  | destroyed => cases hr

/-- `recycle` is refused: there is no such object, or it is not the programmer's. -/
def RefusesRecycle (db : Db) (progr oid : Objid) (r : Package) : Prop :=
  r = .raise .eInvarg ∧ db.objects oid = none ∨
    r = .raise .ePerm ∧ ∃ o, db.objects oid = some o ∧ db.controls progr o = false

/-- The first entry is refused, or leaves for the `recycle` verb, or goes on as any other. -/
theorem bfRecycle_spec (hi : Intact db) (hc : Cached db) (env : Env) (progr oid : Objid) :
    ∃ r db', db.bfRecycle env progr oid = some (r, db') ∧
      (db' = db ∧ RefusesRecycle db progr oid r ∨ Upkeeps db db' ∧ r = .call ∨
        ∃ db₁, Upkeeps db db₁ ∧ Entered oid db₁ r db') := by
  unfold bfRecycle
  rw [hi.sound.find_eq]
  cases ho : db.objects oid with
  | none => exact ⟨_, db, rfl, .inl ⟨rfl, .inl ⟨rfl, ho⟩⟩⟩
  | some o =>
  by_cases hcontrols : (!db.controls progr o) = true
  · have hno : db.controls progr o = false := by simpa using hcontrols
    exact ⟨_, db, if_pos hcontrols, .inl ⟨rfl, .inr ⟨rfl, o, ho, hno⟩⟩⟩
  have hv : Terminated "recycle".toList := by decide
  obtain ⟨db₁, hcall, -⟩ := callVerb_spec env hi.sound hc hv oid
  generalize db.callOutcome env oid "recycle".toList = e at hcall
  have hups := (callVerb_tends (k := none) hv hcall).upkeeps
  obtain ⟨r, db₂, hdo, hentered⟩ :=
    recycleResumed_spec (Upkeeps.intact hi hups) (Upkeeps.cached hi hc hups) env oid
  dsimp only
  rw [if_neg hcontrols, hcall, Option.bind_eq_bind, Option.bind_some]
  by_cases he : e = .eNone
  · subst he
    exact ⟨.call, db₁, rfl, .inr (.inl ⟨hups, rfl⟩)⟩
  · refine ⟨r, db₂, ?_, .inr (.inr ⟨db₁, hups, hentered⟩)⟩
    cases e <;> first | exact hdo | exact absurd rfl he

/-! A whole recycling. While a verb runs, any other calls are made, also to recycle. -/

/-- The states in which the built-in is entered again after a verb. -/
inductive Resumes (progr oid : Objid) (db₀ : Db) : Db → Prop
  | first {env : Env} {db db' : Db} (hdo : db₀.bfRecycle env progr oid = some (.call, db))
      (hverb : Run (fun _ _ _ => True) db db') : Resumes progr oid db₀ db'
  | again {env : Env} {db db' db'' : Db} (h : Resumes progr oid db₀ db)
      (hdo : db.recycleResumed env oid = some (.call, db')) (hverb : Run (fun _ _ _ => True) db' db'') :
      Resumes progr oid db₀ db''

/-- A recycling that is entered, and left for a verb, without end. -/
structure Endless (oid : Objid) (entered left : ℕ → Db) : Prop where
  called : ∀ n, ∃ env, (entered n).recycleResumed env oid = some (.call, left n)
  verb : ∀ n, Run (fun _ _ _ => True) (left n) (entered (n + 1))

/-- An object has been moved into the object. -/
def MovedIn (oid : Objid) (db db' : Db) : Prop := ∃ z ∈ db'.under .place oid, z ∉ db.under .place oid

/-- The object itself has been moved out of nowhere. -/
def MovedBack (oid : Objid) (db db' : Db) : Prop :=
  db.upOf .place oid = nothing ∧ db'.upOf .place oid ≠ nothing

theorem Run.intact_cached (hi : Intact db ∧ Cached db) (hrun : Run (fun _ _ _ => True) db db') :
    Intact db' ∧ Cached db' :=
  Run.invariant (I := fun db => Intact db ∧ Cached db)
    (fun hi _ hdo => ⟨perform_intact hi.1 hdo, perform_cached hi.1 hi.2 hdo⟩) hi hrun

theorem recycleResumed_call (hi : Intact db ∧ Cached db) (hdo : db.recycleResumed env oid = some (.call, db')) :
    (Intact db' ∧ Cached db') ∧ MovedAway oid db db' := by
  obtain ⟨r, db₁, hdo₁, hentered⟩ := recycleResumed_spec hi.1 hi.2 env oid
  rw [hdo] at hdo₁
  obtain ⟨rfl, rfl⟩ := Prod.mk.inj (Option.some.inj hdo₁)
  obtain ⟨hups, haway⟩ := hentered.upkeeps rfl
  exact ⟨⟨Upkeeps.intact hi.1 hups, Upkeeps.cached hi.1 hi.2 hups⟩, haway⟩

theorem Resumes.intact_cached {progr : Objid} {db₀ : Db} (hi : Intact db₀ ∧ Cached db₀)
    (h : Resumes progr oid db₀ db) : Intact db ∧ Cached db := by
  induction h with
  | @first env db db' hdo hverb =>
      refine hverb.intact_cached ?_
      obtain ⟨r, db₁, hdo₁, hend⟩ := bfRecycle_spec hi.1 hi.2 env progr oid
      rw [hdo] at hdo₁
      obtain ⟨rfl, rfl⟩ := Prod.mk.inj (Option.some.inj hdo₁)
      have hkeep : ∀ {db₂ : Db}, Upkeeps db₀ db₂ → Intact db₂ ∧ Cached db₂ := fun hups =>
        ⟨Upkeeps.intact hi.1 hups, Upkeeps.cached hi.1 hi.2 hups⟩
      obtain ⟨rfl, -⟩ | ⟨hups, -⟩ | ⟨db₂, hups, hentered⟩ := hend
      · exact hi
      · exact hkeep hups
      · exact hkeep (hups.trans (hentered.upkeeps rfl).1)
  | again _ hdo hverb ih => exact hverb.intact_cached (recycleResumed_call ih hdo).1

theorem eventually_zero {c : ℕ → ℕ} {N : ℕ} (hstep : ∀ n ≥ N, c (n + 1) ≤ c n - 1) :
    ∀ n ≥ N + c N, c n = 0 := by
  have hle : ∀ k, c (N + k) ≤ c N - k := by
    intro k
    induction k with
    | zero => exact Nat.le_refl _
    | succ k ih =>
        have := hstep (N + k) (Nat.le_add_right N k)
        rw [← Nat.add_assoc]
        omega
  intro n hn
  have := hle (n - N)
  rw [Nat.add_sub_cancel' (by omega)] at this
  omega

theorem eventually_notMem {S : Set ℕ} (hS : S.Finite) : ∃ N, ∀ n ≥ N, n ∉ S := by
  obtain ⟨N, hN⟩ := hS.bddAbove
  exact ⟨N + 1, fun n hn hmem => absurd (hN hmem) (by omega)⟩

namespace Endless

variable {entered left : ℕ → Db} (he : Endless oid entered left)
include he

theorem intact_cached (hi : Intact (entered 0) ∧ Cached (entered 0)) (n : ℕ) :
    Intact (entered n) ∧ Cached (entered n) := by
  induction n with
  | zero => exact hi
  | succ n ih =>
      obtain ⟨env, hdo⟩ := he.called n
      exact (he.verb n).intact_cached (recycleResumed_call ih hdo).1

theorem movedAway (hi : Intact (entered 0) ∧ Cached (entered 0)) (n : ℕ) :
    MovedAway oid (entered n) (left n) := by
  obtain ⟨env, hdo⟩ := he.called n
  exact (recycleResumed_call (he.intact_cached hi n) hdo).2

theorem emptied (hi : Intact (entered 0) ∧ Cached (entered 0))
    (hin : { n | MovedIn oid (left n) (entered (n + 1)) }.Finite) :
    ∃ N, ∀ n ≥ N, (entered n).under .place oid = ∅ := by
  obtain ⟨N, hN⟩ := eventually_notMem hin
  have hstep : ∀ n ≥ N, ((entered (n + 1)).under .place oid).ncard ≤
      ((entered n).under .place oid).ncard - 1 := by
    intro n hn
    have hi' := recycleResumed_call (he.intact_cached hi n) (he.called n).choose_spec
    have hsub : (entered (n + 1)).under .place oid ⊆ (left n).under .place oid := by
      intro z hz
      by_contra hno
      exact hN n hn ⟨z, hz, hno⟩
    have hle := Set.ncard_le_ncard hsub (hi'.1.1.sound.under_finite .place oid)
    obtain hlt | ⟨hempty, -⟩ := hi'.2
    · omega
    · rw [hempty, Set.ncard_empty] at hle
      omega
  refine ⟨N + ((entered N).under .place oid).ncard, fun n hn => ?_⟩
  have hzero := eventually_zero (c := fun n => ((entered n).under .place oid).ncard) hstep n hn
  exact (Set.ncard_eq_zero ((he.intact_cached hi n).1.sound.under_finite .place oid)).mp hzero

theorem movedBack_infinite (hi : Intact (entered 0) ∧ Cached (entered 0))
    (hin : { n | MovedIn oid (left n) (entered (n + 1)) }.Finite) :
    { n | MovedBack oid (left n) (entered (n + 1)) }.Infinite := by
  intro hback
  obtain ⟨N, hN⟩ := he.emptied hi hin
  obtain ⟨M, hM⟩ := eventually_notMem hback
  have hloc : ∀ n ≥ max N M, (entered n).upOf .place oid ≠ nothing ∧ (left n).upOf .place oid = nothing := by
    intro n hn
    obtain hlt | ⟨-, haway⟩ := he.movedAway hi n
    · rw [hN n (by omega), Set.ncard_empty] at hlt
      exact absurd hlt (Nat.not_lt_zero _)
    · exact haway
  exact hM (max N M) (by omega) ⟨(hloc _ le_rfl).2, (hloc (max N M + 1) (by omega)).1⟩

end Endless

/-- `recycle` panics in no state it is entered in, first or after a verb, hangs each child it
comes to higher, and destroys an object only when it is barren. When it is entered without end, and
only finitely often with more in the object, its contents have come to an end, and it is the object
itself that is moved back again and again. -/
theorem recycle_ends {db₀ : Db} (hi : Intact db₀) (hc : Cached db₀) (progr oid : Objid) :
    (∀ env, ∃ r db', db₀.bfRecycle env progr oid = some (r, db') ∧
      (db' = db₀ ∧ RefusesRecycle db₀ progr oid r ∨ Upkeeps db₀ db' ∧ r = .call ∨
        ∃ db₁, Upkeeps db₀ db₁ ∧ Entered oid db₁ r db')) ∧
    (∀ db, Resumes progr oid db₀ db → ∀ env, ∃ r db', db.recycleResumed env oid = some (r, db') ∧
      Entered oid db r db') ∧
    (∀ db o, Intact db → db.objects oid = some o → o.child ≠ nothing →
      ∃ db', db.changeParent o.child o.parent = some (true, db') ∧ Intact db') ∧
    ∀ entered left, Resumes progr oid db₀ (entered 0) → Endless oid entered left →
      { n | MovedIn oid (left n) (entered (n + 1)) }.Finite →
      (∃ N, ∀ n ≥ N, (entered n).under .place oid = ∅) ∧
        { n | MovedBack oid (left n) (entered (n + 1)) }.Infinite := by
  refine ⟨fun env => bfRecycle_spec hi hc env progr oid, fun db hr env => ?_, fun db o hi ho hne => ?_,
    fun entered left hr he hin => ?_⟩
  · obtain ⟨hi', hc'⟩ := hr.intact_cached ⟨hi, hc⟩
    exact recycleResumed_spec hi' hc' env oid
  · obtain ⟨db', hdo, hrehung, -⟩ := child_lifted hi ho hne
    exact ⟨db', hdo, Upkeeps.intact hi hrehung.upkeeps⟩
  · have hi' := hr.intact_cached ⟨hi, hc⟩
    exact ⟨he.emptied hi' hin, he.movedBack_infinite hi' hin⟩

/-! An object that its place takes back is recycled without end. -/

/-- `x` has been moved to `p`, and verbs are found as before. -/
structure PutAt (x p : Objid) (db db' : Db) : Prop where
  intact : Intact db'
  cached : Cached db'
  dom : db'.dom = db.dom
  up : db'.upOf .place = Function.update (db.upOf .place) x p
  callable : ∀ verb, ∀ i ∈ db.dom, db'.callable verb i = db.callable verb i

theorem moved_of_changeLocation (hi : Intact db) (hc : Cached db) (hx : x ∈ db.dom)
    (hp : p = nothing ∨ p ∈ db.dom) (hacyc : x ∉ db.chain .place p) :
    ∃ db', db.changeLocation x p = some db' ∧ PutAt x p db db' := by
  obtain ⟨o, ho⟩ := mem_dom.mp hx
  obtain ⟨db', hloc, hi', ha, hup⟩ := changeLocation_spec hi ho hp hacyc
  have hstep : Upkeep db db' := .place hx hp hacyc hloc
  refine ⟨db', hloc, hi', hstep.cached hi hc, ha.dom, hup, fun verb i hmem => ?_⟩
  have hview : Agree callView db db' := ha.mono fun he => by
    have hid := congrArg callView he
    exact hid
  have hparent : Agree (Object.up .family) db db' := ha.mono fun he => by
    have hup := congrArg Object.parent he
    exact hup
  have hchain : db'.chain .family i = db.chain .family i :=
    hi'.sound.chain_eq (.inr (ha.dom ▸ hmem))
      ((hi.sound.chain_spec (.inr hmem)).1.congr fun j _ => hparent.elim nothing j)
  rw [Db.callable, Db.callable, hchain]
  refine findSome_congr fun j _ => ?_
  have hj := hview.objects j
  cases ho : db.objects j <;> cases ho' : db'.objects j <;> simp_all
  exact callableOn_view hj

namespace PutAt

variable (hm : PutAt x p db db')
include hm

theorem callOutcome (hs : Sound db) (env : Env) (this : Objid) (verb : Str) :
    db'.callOutcome env this verb = db.callOutcome env this verb := by
  unfold Db.callOutcome
  by_cases hthis : this ∈ db.dom
  · rw [if_pos (hm.intact.sound.valid_iff.mpr (hm.dom ▸ hthis)), if_pos (hs.valid_iff.mpr hthis),
      hm.callable verb this hthis]
  · rw [if_neg (mt hm.intact.sound.valid_iff.mp (hm.dom ▸ hthis)), if_neg (mt hs.valid_iff.mp hthis)]

theorem called (hs : Sound db) (env : Env) {verb : Str} (hv : Terminated verb) (this : Objid) :
    ∃ db'', db'.callVerb env this verb = some (db.callOutcome env this verb, db'') ∧ PutAt x p db db'' := by
  obtain ⟨db'', hcall, hobj⟩ := callVerb_spec env hm.intact.sound hm.cached hv this
  have hups : Upkeeps db' db'' := (callVerb_tends (k := none) hv hcall).upkeeps
  have hnum : db''.numObjects = db'.numObjects := by rw [callVerb_rest hcall]
  rw [hm.callOutcome hs] at hcall
  refine ⟨db'', hcall, Upkeeps.intact hm.intact hups, Upkeeps.cached hm.intact hm.cached hups, ?_, ?_,
    fun verb i hmem => ?_⟩
  · rw [← hm.dom, Db.dom, Db.dom, hobj]
  · rw [← hm.up]
    funext i
    rw [upOf, upOf, hobj]
  · rw [callable_of_objects hobj hnum, hm.callable verb i hmem]

end PutAt

/-- An empty object in a place that is told when something leaves it, and not when something comes. -/
structure Haunted (env : Env) (oid a : Objid) (db : Db) : Prop where
  intact : Intact db
  cached : Cached db
  member : oid ∈ db.dom
  place : a ∈ db.dom
  up : db.upOf .place oid = a
  top : db.upOf .place a = nothing
  bare : db.under .place oid = ∅
  exits : db.callOutcome env a "exitfunc".toList = .eNone
  enters : db.callOutcome env a "enterfunc".toList = .eVerbnf

namespace Haunted

variable {a : Objid} (hin : Haunted env oid a db)
include hin

theorem ne : a ≠ oid := fun heq => hin.intact.sound.up_ne hin.member (hin.up.trans heq)

theorem recycled : ∃ left, db.recycleResumed env oid = some (.call, left) ∧ PutAt oid nothing db left := by
  have hs := hin.intact.sound
  obtain ⟨o, ho⟩ := mem_dom.mp hin.member
  have hloc : o.location = a := (upOf_of (h := .place) ho).symm.trans hin.up
  have hhead : o.contents = nothing :=
    (headOf_of (h := .place) ho).symm.trans ((hs.headOf_eq_nothing_iff hin.member).mpr hin.bare)
  obtain ⟨db₁, hmove, hmoved⟩ := moved_of_changeLocation hin.intact hin.cached hin.member (.inl rfl)
    (by simp [hs.chain_nothing])
  obtain ⟨left, hcall, hleft⟩ := hmoved.called hs env (by decide : Terminated "exitfunc".toList) a
  rw [hin.exits] at hcall
  refine ⟨left, ?_, hleft⟩
  have hfuel : db.fuel = db.numObjects.toNat + 1 + 1 := rfl
  have hcontents : recycleContents env oid db.fuel db = some (false, db) := by
    rw [hfuel, recycleContents, ho, Option.bind_eq_bind, Option.bind_some, if_pos hhead]
    rfl
  have hnothing : db.moveToNothing env oid = some (true, left) := by
    rw [moveToNothing, ho, Option.bind_eq_bind, Option.bind_some, hmove, Option.bind_eq_bind, Option.bind_some,
      hloc, hcall]
    rfl
  unfold recycleResumed
  rw [if_neg (by simp [hs.valid_iff.mpr hin.member]), hcontents, Option.bind_eq_bind, Option.bind_some]
  dsimp only
  rw [if_neg (by decide), ho, Option.bind_eq_bind, Option.bind_some, if_pos (by rw [hloc]; exact hs.ne_nothing hin.place), hnothing]
  rfl

theorem movedBack {left : Db} (hm : PutAt oid nothing db left) (progr : Objid) :
    ∃ db', left.perform env (.moveAccepted progr oid a true) = some db' ∧ Haunted env oid a db' := by
  have hs := hin.intact.sound
  have hs₁ := hm.intact.sound
  have hmem₁ : oid ∈ left.dom := hm.dom ▸ hin.member
  have hplace₁ : a ∈ left.dom := hm.dom ▸ hin.place
  have htop : left.upOf .place a = nothing := by rw [hm.up, Function.update_of_ne hin.ne, hin.top]
  have hchain : left.chain .place a = [a] := by rw [hs₁.chain_cons hplace₁, htop, hs₁.chain_nothing]
  have hacyc : oid ∉ left.chain .place a := by simp [hchain, hin.ne.symm]
  obtain ⟨o, ho⟩ := mem_dom.mp hmem₁
  have hloc : o.location = nothing := by
    have hup := upOf_of (h := .place) ho
    rw [hm.up, Function.update_self] at hup
    exact hup.symm
  obtain ⟨db₁, hmove, hmoved⟩ := moved_of_changeLocation hm.intact hm.cached hmem₁ (.inr hplace₁) hacyc
  have hnowhere : left.callOutcome env nothing "exitfunc".toList = .eInvind :=
    if_neg (mt hs₁.valid_iff.mp hs₁.nothing_notMem)
  have hsilent : left.callOutcome env a "enterfunc".toList = .eVerbnf := (hm.callOutcome hs env a _).trans hin.enters
  obtain ⟨db₂, hexit, hmoved₂⟩ := hmoved.called hs₁ env (by decide : Terminated "exitfunc".toList) nothing
  obtain ⟨db₃, henter, hmoved₃⟩ := hmoved₂.called hs₁ env (by decide : Terminated "enterfunc".toList) a
  rw [hnowhere] at hexit
  rw [hsilent] at henter
  obtain ⟨o₂, ho₂⟩ := mem_dom.mp (hmoved₂.dom ▸ hmem₁ : oid ∈ db₂.dom)
  have hloc₂ : o₂.location = a := by
    have hup := upOf_of (h := .place) ho₂
    rw [hmoved₂.up, Function.update_self] at hup
    exact hup.symm
  have hvalid₂ : db₂.valid a = true := hmoved₂.intact.sound.valid_iff.mpr (hmoved₂.dom ▸ hplace₁)
  have hexited : db₂.moveExited env oid a = some (.noVar, db₃) := by
    unfold moveExited
    rw [hmoved₂.intact.sound.find_eq, ho₂]
    dsimp only
    rw [if_neg (by simp [hvalid₂, hloc₂]), henter]
    rfl
  have haccepted : left.moveAccepted env progr oid a true = some (.noVar, db₃) := by
    unfold moveAccepted
    rw [if_neg (by simp), hs₁.find_eq, ho]
    dsimp only
    rw [if_neg (by simp [hs₁.valid_iff.mpr hplace₁, hloc, (hs₁.ne_nothing hplace₁).symm]),
      hs₁.walkUp_fuel (.inr hplace₁), Option.bind_eq_bind, Option.bind_some, if_neg hacyc, hmove,
      Option.bind_eq_bind, Option.bind_some, hloc, hexit]
    exact hexited
  refine ⟨db₃, by rw [perform, haccepted]; rfl, hmoved₃.intact, hmoved₃.cached, hmoved₃.dom ▸ hmem₁,
    hmoved₃.dom ▸ hplace₁, ?_, ?_, ?_, ?_, ?_⟩
  · rw [hmoved₃.up, Function.update_self]
  · rw [hmoved₃.up, Function.update_of_ne hin.ne, htop]
  · rw [Set.eq_empty_iff_forall_notMem]
    rintro z ⟨hz, hup⟩
    rw [hmoved₃.up] at hup
    obtain rfl | hne := eq_or_ne z oid
    · rw [Function.update_self] at hup
      exact hin.ne hup
    · rw [Function.update_of_ne hne, hm.up, Function.update_of_ne hne] at hup
      have hmem : z ∈ db.under .place oid := ⟨hm.dom ▸ hmoved₃.dom ▸ hz, hup⟩
      rw [hin.bare] at hmem
      exact hmem
  · rw [hmoved₃.callOutcome hs₁, hm.callOutcome hs, hin.exits]
  · rw [hmoved₃.callOutcome hs₁, hsilent]

theorem again (progr : Objid) : ∃ left db', db.recycleResumed env oid = some (.call, left) ∧
    left.perform env (.moveAccepted progr oid a true) = some db' ∧ Haunted env oid a db' := by
  obtain ⟨left, hdo, hm⟩ := hin.recycled
  obtain ⟨db', hback, hin'⟩ := hin.movedBack hm progr
  exact ⟨left, db', hdo, hback, hin'⟩

theorem endless : ∃ entered left, entered 0 = db ∧ Endless oid entered left ∧
    { n | MovedIn oid (left n) (entered (n + 1)) } = ∅ := by
  choose left back hdo hback hin' using fun s : { db // Haunted env oid a db } => s.property.again nothing
  let entered : ℕ → { db // Haunted env oid a db } := Nat.rec ⟨db, hin⟩ fun _ s => ⟨back s, hin' s⟩
  refine ⟨fun n => (entered n).val, fun n => left (entered n), rfl, ⟨fun n => ⟨env, hdo _⟩, fun n => ?_⟩, ?_⟩
  · exact .single ⟨env, .moveAccepted nothing oid a true, trivial, hback (entered n)⟩
  · rw [Set.eq_empty_iff_forall_notMem]
    rintro n ⟨z, hz, -⟩
    rw [(entered (n + 1)).property.bare] at hz
    exact hz

end Haunted

/-- The box `#3`, with its ring, its place and its child, is recycled: `exitfunc` of `#1` is called first. -/
def boxOut : Db := ((house.bfRecycle calmEnv 0 3).map Prod.snd).getD empty

def boxBack : Db := (boxOut.perform calmEnv (.moveAccepted 0 3 1 true)).getD empty

def isCall : Package → Bool
  | .call => true
  | _ => false

theorem eq_call {r : Package} (h : isCall r = true) : r = .call := by
  cases r <;> first | rfl | cases h

theorem boxOut_called : house.bfRecycle calmEnv 0 3 = some (.call, boxOut) := by
  have hcall : (house.bfRecycle calmEnv 0 3).map (isCall ∘ Prod.fst) = some true := by decide +kernel
  obtain ⟨⟨r, db⟩, hdo, hr⟩ := Option.map_eq_some_iff.mp hcall
  have hr : r = .call := eq_call hr
  rw [boxOut, hdo, hr]
  rfl

theorem boxOut_back : boxOut.perform calmEnv (.moveAccepted 0 3 1 true) = some boxBack := by
  have hsome : (boxOut.perform calmEnv (.moveAccepted 0 3 1 true)).isSome = true := by decide +kernel
  obtain ⟨db, hdb⟩ := Option.isSome_iff_exists.mp hsome
  rw [boxBack, hdb, Option.getD_some]

attribute [irreducible] boxOut boxBack

theorem boxOut_resumes : Resumes 0 3 house boxOut := .first boxOut_called .refl

theorem boxBack_resumes : Resumes 0 3 house boxBack :=
  .first boxOut_called (.single ⟨calmEnv, .moveAccepted 0 3 1 true, trivial, boxOut_back⟩)

theorem boxBack_haunted : Haunted calmEnv 3 1 boxBack := by
  obtain ⟨hi, hc⟩ := boxBack_resumes.intact_cached ⟨house_intact, house_cached⟩
  have hvalid : boxBack.valid 3 = true ∧ boxBack.valid 1 = true := by decide +kernel
  have hmember := hi.sound.valid_iff.mp hvalid.1
  have hhead : boxBack.headOf .place 3 = nothing := by decide +kernel
  exact ⟨hi, hc, hmember, hi.sound.valid_iff.mp hvalid.2, by decide +kernel, by decide +kernel,
    (hi.sound.headOf_eq_nothing_iff hmember).mp hhead, by decide +kernel, by decide +kernel⟩

theorem recycle_ends_house :
    house.bfRecycle calmEnv 0 3 = some (.call, boxOut) ∧ Upkeeps house boxOut ∧
    (∃ last, boxOut.recycleResumed calmEnv 3 = some (.noVar, last) ∧ Entered 3 boxOut .noVar last ∧
      last.valid 3 = false ∧ last.upOf .family 5 = 0) ∧
    (∃ db', house.changeParent 5 0 = some (true, db') ∧ Intact db') ∧
    ∃ entered left, entered 0 = boxBack ∧ Endless 3 entered left ∧
      (∃ N, ∀ n ≥ N, (entered n).under .place 3 = ∅) ∧ { n | MovedBack 3 (left n) (entered (n + 1)) }.Infinite := by
  obtain ⟨hfirst, hagain, hlifted, hendless⟩ := recycle_ends house_intact house_cached 0 3
  refine ⟨boxOut_called, ?_, ?_, ?_, ?_⟩
  · obtain ⟨r, db', hdo, hend⟩ := hfirst calmEnv
    rw [boxOut_called] at hdo
    obtain ⟨rfl, rfl⟩ := Prod.mk.inj (Option.some.inj hdo)
    obtain ⟨-, ⟨hr, -⟩ | ⟨hr, -⟩⟩ | ⟨hups, -⟩ | ⟨db₁, hups, hentered⟩ := hend
    · cases hr
    · cases hr
    · exact hups
    · exact hups.trans (hentered.upkeeps rfl).1
  · obtain ⟨r, last, hdo, hentered⟩ := hagain boxOut boxOut_resumes calmEnv
    have hlast : (boxOut.recycleResumed calmEnv 3).map
        (fun p => (isCall p.1, p.2.valid 3, p.2.upOf .family 5)) = some (false, false, 0) := by decide +kernel
    rw [hdo, Option.map_some, Option.some.injEq, Prod.mk.injEq, Prod.mk.injEq] at hlast
    obtain ⟨hr, hgone, hchild⟩ := hlast
    have hnoVar : r = .noVar := by
      cases hentered with
      | gone => rfl
      | called => cases hr
      | destroyed => rfl
    rw [hnoVar] at hdo hentered
    exact ⟨last, hdo, hentered, hgone, hchild⟩
  · have hbox : (house.objects 3).map (fun o => (o.child, o.parent)) = some (5, 0) := by decide +kernel
    obtain ⟨o, ho, hlinks⟩ := Option.map_eq_some_iff.mp hbox
    obtain ⟨hchild, hparent⟩ := Prod.mk.inj hlinks
    have hdo := hlifted house o house_intact ho (by rw [hchild]; decide)
    rwa [hchild, hparent] at hdo
  · obtain ⟨entered, left, hzero, he, hnone⟩ := boxBack_haunted.endless
    obtain ⟨hempty, hback⟩ := hendless entered left (hzero ▸ boxBack_resumes) he (hnone ▸ Set.finite_empty)
    exact ⟨entered, left, hzero, he, hempty, hback⟩

end Db
end LambdaMoo
