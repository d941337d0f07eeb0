import LambdaMoo.Calls
import LambdaMoo.Lifecycle

/-! The changes that the built-ins are made of: lookups of verbs, a count on a quota,
moves, children handed up, and a new object that gets its name, owner and parent. -/
namespace LambdaMoo

namespace Db

variable {db db' : Db} {oid p x this : Objid} {o : Object} {n : Nat} {env : Env} {verb : Str}

theorem refused {α : Type} {a r : α} (h : (pure (a, db) : Option (α × Db)) = some (r, db')) : db' = db := by
  rw [Option.pure_def, Option.some.injEq, Prod.mk.injEq] at h
  exact h.2.symm

/-! Single fields. -/

theorem modify_eq_some {f : Object → Object} (h : db.modify f oid = some db') :
    ∃ o, db.objects oid = some o ∧ db' = db.set oid (f o) := by
  rw [modify, Option.map_eq_some_iff] at h
  obtain ⟨o, ho, rfl⟩ := h
  exact ⟨o, ho, rfl⟩

theorem modifySlot_eq_some {f : Pval → Pval} (h : db.modifySlot f oid n = some db') :
    ∃ o, db.objects oid = some o ∧ n < o.propval.length ∧
      db' = db.set oid { o with propval := o.propval.modify n f } := by
  simp only [modifySlot, Option.bind_eq_bind, Option.bind_eq_some_iff] at h
  obtain ⟨o, ho, h⟩ := h
  refine ⟨o, ho, ?_⟩
  split at h
  · cases h
  · next hlt => exact ⟨by omega, (Option.some.inj h).symm⟩

theorem modifyVerb_eq_some {f : Verbdef → Verbdef} {h : VerbHandle} (hdo : db.modifyVerb f h = some db') :
    ∃ o v, db.objects h.definer = some o ∧ v ∈ o.verbdefs ∧ v.addr = h.verbdef ∧ db.verbOf h = some v ∧
      db' = db.set h.definer
        { o with verbdefs := o.verbdefs.map fun v => if v.addr = h.verbdef then f v else v } := by
  simp only [modifyVerb, Option.bind_eq_bind, Option.bind_eq_some_iff] at hdo
  obtain ⟨o, ho, v, hv, hdo⟩ := hdo
  have hv' := hv
  simp only [verbOf, ho, Option.bind_eq_bind, Option.bind_some] at hv'
  exact ⟨o, v, ho, List.mem_of_find?_eq_some hv', by simpa using List.find?_some hv', hv,
    (Option.some.inj hdo).symm⟩

theorem modifySlot_agree {f : Pval → Pval} (h : db.modifySlot f oid n = some db') :
    Agree Object.withoutSlots db db' := by
  obtain ⟨o, ho, -, rfl⟩ := modifySlot_eq_some h
  exact Agree.set ho rfl

theorem modifyVerb_agree {f : Verbdef → Verbdef} {h : VerbHandle} (hdo : db.modifyVerb f h = some db') :
    Agree (fun o : Object => { o with verbdefs := [] }) db db' := by
  obtain ⟨o, -, ho, -, -, -, rfl⟩ := modifyVerb_eq_some hdo
  exact Agree.set ho rfl

theorem Intact.modifySlot {f : Pval → Pval} (hi : Intact db) (htag : ∀ p, (f p).tag = p.tag)
    (hclear : ∀ p, (f p).var = .clear → p.var = .clear ∨ (db.defsOf oid).length ≤ n)
    (h : db.modifySlot f oid n = some db') : Intact db' := by
  have ha := modifySlot_agree h
  refine ⟨hi.sound.withoutSlots ha, hi.slotted.of_shape ?_ fun i pv hpv => ?_⟩
  · obtain ⟨o, ho, -, rfl⟩ := modifySlot_eq_some h
    refine Agree.set ho ?_
    have : (o.propval.modify n f).map Pval.tag = o.propval.map Pval.tag := by
      apply List.ext_getElem
      · simp
      · intro k h₁ h₂
        simp only [List.getElem_map, List.getElem_modify]
        split <;> simp [htag]
    simp [this]
  · obtain ⟨o, ho, -, rfl⟩ := modifySlot_eq_some h
    by_cases hio : i = oid
    · subst hio
      rw [slotsOf_of (Function.update_self _ _ _), List.mem_take_iff_getElem] at hpv
      obtain ⟨k, hk, rfl⟩ := hpv
      simp only [List.getElem_modify, List.length_modify] at hk ⊢
      have hold : o.propval[k].var ≠ .clear := by
        refine hi.slotted.notClear i _ ?_
        rw [slotsOf_of ho, List.mem_take_iff_getElem]
        exact ⟨k, by omega, rfl⟩
      split
      · next hnk =>
          intro hvar
          obtain hvar | hlen := hclear _ hvar
          · exact hold hvar
          · omega
      · exact hold
    · rw [slotsOf, set_objects, Function.update_of_ne hio] at hpv
      exact hi.slotted.notClear i pv hpv

theorem Intact.modifyVerb {f : Verbdef → Verbdef} {h : VerbHandle} (hi : Intact db)
    (hdo : db.modifyVerb f h = some db') : Intact db' :=
  hi.of_agree ((modifyVerb_agree hdo).mono fun he => by
    have hlinks : ∀ k, _ := fun k => congrArg (Object.linksIn k) he
    have hdefs := congrArg Object.propdefs he
    have hslots := congrArg Object.propval he
    refine Prod.ext (funext fun k => ?_) (Prod.ext hdefs hslots)
    have := hlinks k
    cases k <;> exact this)

theorem Intact.affected (hi : Intact db) : Intact db.affectedCallableVerbLookup :=
  hi.of_objects rfl rfl rfl

/-! A lookup of a verb. -/

theorem findCallableVerb_rest {h : Option VerbHandle} (hdo : db.findCallableVerb oid verb = some (db', h)) :
    db' = { db with vcTable := db'.vcTable } := by
  simp only [findCallableVerb, Option.bind_eq_bind, Option.bind_eq_some_iff] at hdo
  obtain ⟨first, -, hdo⟩ := hdo
  split at hdo
  · rw [Option.pure_def, Option.some.injEq, Prod.mk.injEq] at hdo
    rw [← hdo.1]
  · simp only [Option.bind_eq_some_iff, Option.pure_def, Option.some.injEq, Prod.mk.injEq] at hdo
    obtain ⟨h', -, rfl, -⟩ := hdo
    rfl

inductive Upkeep : Db → Db → Prop
  | lookup {db db' : Db} {oid : Objid} {verb : Str} {h : Option VerbHandle} (hv : Terminated verb)
      (hdo : db.findCallableVerb oid verb = some (db', h)) : Upkeep db db'
  | quota {db db' : Db} {player definer : Objid} {n : Nat} {m value : Int}
      (hfind : db.findPropertyValue player "ownership_quota".toList =
        some (some (.slot player n definer, .int m)))
      (hdo : db.setPropertyValue (.slot player n definer) (.int value) = some db') : Upkeep db db'
  | place {db db' : Db} {x p : Objid} (hx : x ∈ db.dom) (hp : p = nothing ∨ p ∈ db.dom)
      (hacyc : x ∉ db.chain .place p) (hdo : db.changeLocation x p = some db') : Upkeep db db'
  | lift {db db' : Db} {x p : Objid} {changed : Bool} (hx : x ∈ db.dom)
      (hp : p = nothing ∨ p ∈ db.chain .family (db.upOf .family x))
      (hdo : db.changeParent x p = some (changed, db')) : Upkeep db db'

abbrev Upkeeps : Db → Db → Prop := Relation.ReflTransGen Upkeep

theorem Sound.up_notMem {h : Hier} (hs : Sound db) (hx : x ∈ db.dom) : x ∉ db.chain h (db.upOf h x) := by
  have hnodup := (hs.chain_spec (h := h) (.inr hx)).1.nodup
  rw [hs.chain_cons hx, List.nodup_cons] at hnodup
  exact hnodup.1

theorem Sound.lift_acyclic (hs : Sound db) (hx : x ∈ db.dom)
    (hp : p = nothing ∨ p ∈ db.chain .family (db.upOf .family x)) :
    (p = nothing ∨ p ∈ db.dom) ∧ x ∉ db.chain .family p := by
  obtain rfl | hp := hp
  · simp [hs.chain_nothing]
  · have hup := hs.up_mem (h := .family) hx
    refine ⟨.inr ((hs.chain_spec hup).2 p hp), fun hmem => hs.up_notMem (h := .family) hx ?_⟩
    obtain ⟨l, hl⟩ := hs.chain_suffix hup hp
    rw [hl]
    exact List.mem_append_right _ hmem

theorem changeParent_cases {changed : Bool} (hi : Intact db) (hx : x ∈ db.dom) (hp : p = nothing ∨ p ∈ db.dom)
    (hacyc : x ∉ db.chain .family p) (hdo : db.changeParent x p = some (changed, db')) :
    (changed = false ∧ db' = db) ∨ (changed = true ∧ db.Disjoint x p ∧ Intact db' ∧ Reparented db x p db') := by
  obtain ⟨-, hno⟩ | ⟨hdis, db₁, hyes, hs', hp', hre⟩ := changeParent_spec hi.sound hi.slotted hx hp hacyc
  · rw [hno] at hdo
    simp only [Option.some.injEq, Prod.mk.injEq] at hdo
    exact .inl ⟨hdo.1.symm, hdo.2.symm⟩
  · rw [hyes] at hdo
    simp only [Option.some.injEq, Prod.mk.injEq] at hdo
    obtain ⟨rfl, rfl⟩ := hdo
    exact .inr ⟨rfl, hdis, ⟨hs', hp'⟩, hre⟩

theorem Intact.changeParent {changed : Bool} (hi : Intact db) (hx : x ∈ db.dom) (hp : p = nothing ∨ p ∈ db.dom)
    (hacyc : x ∉ db.chain .family p) (hdo : db.changeParent x p = some (changed, db')) : Intact db' := by
  obtain ⟨-, rfl⟩ | ⟨-, -, hi', -⟩ := changeParent_cases hi hx hp hacyc hdo
  · exact hi
  · exact hi'

theorem Upkeep.intact (hi : Intact db) (h : Upkeep db db') : Intact db' := by
  cases h with
  | lookup hv hdo =>
      have hrest := findCallableVerb_rest hdo
      rw [hrest]
      exact hi.of_objects rfl rfl rfl
  | quota hfind hdo =>
      refine Intact.modifySlot (f := fun p => { p with var := .int _ }) hi (fun _ => rfl) (fun _ hvar => ?_) hdo
      cases hvar
  | place hx hp hacyc hdo =>
      obtain ⟨o, ho⟩ := mem_dom.mp hx
      obtain ⟨db₁, hdo₁, hi₁, -⟩ := changeLocation_spec hi ho hp hacyc
      rw [hdo] at hdo₁
      exact Option.some.inj hdo₁ ▸ hi₁
  | lift hx hp hdo =>
      obtain ⟨hp', hacyc⟩ := hi.sound.lift_acyclic hx hp
      exact hi.changeParent hx hp' hacyc hdo

theorem Upkeeps.intact (hi : Intact db) (h : Upkeeps db db') : Intact db' := by
  induction h with
  | refl => exact hi
  | tail _ hlast ih => exact hlast.intact ih

/-! Upkeep that leaves parents alone. -/

/-- Nothing has got another parent but, when there is one to be recycled, that object and what
hung under it. -/
def Spares (k : Option Objid) (db db' : Db) : Prop :=
  ∀ z, k ≠ some z → k ≠ some (db.upOf .family z) → db'.upOf .family z = db.upOf .family z

def Tending (k : Option Objid) (db db' : Db) : Prop := Upkeep db db' ∧ Spares k db db'

abbrev Tendings (k : Option Objid) : Db → Db → Prop := Relation.ReflTransGen (Tending k)

theorem Spares.of_up {k : Option Objid} (hup : db'.upOf .family = db.upOf .family) : Spares k db db' :=
  fun z _ _ => congrFun hup z

theorem Spares.trans {k : Option Objid} {db'' : Db} (h₁ : Spares k db db') (h₂ : Spares k db' db'') :
    Spares k db db'' := by
  intro z hz hup
  have hz₁ := h₁ z hz hup
  rw [h₂ z hz (hz₁ ▸ hup), hz₁]

theorem Tendings.upkeeps {k : Option Objid} (h : Tendings k db db') : Upkeeps db db' := by
  induction h with
  | refl => exact .refl
  | tail _ hlast ih => exact ih.tail hlast.1

theorem Tendings.intact {k : Option Objid} (hi : Intact db) (h : Tendings k db db') : Intact db' :=
  h.upkeeps.intact hi

theorem Tendings.spares {k : Option Objid} (h : Tendings k db db') : Spares k db db' := by
  induction h with
  | refl => exact .of_up rfl
  | tail _ hlast ih => exact ih.trans hlast.2

namespace Tending

variable {k : Option Objid}

theorem lookup {h : Option VerbHandle} (hv : Terminated verb) (hdo : db.findCallableVerb oid verb = some (db', h)) :
    Tending k db db' := by
  refine ⟨.lookup hv hdo, .of_up ?_⟩
  rw [findCallableVerb_rest hdo]
  rfl

theorem quota {player definer : Objid} {m value : Int}
    (hfind : db.findPropertyValue player "ownership_quota".toList = some (some (.slot player n definer, .int m)))
    (hdo : db.setPropertyValue (.slot player n definer) (.int value) = some db') : Tending k db db' := by
  have ha : Agree Object.withoutSlots db db' := modifySlot_agree (f := fun p => { p with var := .int value }) hdo
  have hparent : Agree (Object.up .family) db db' := ha.mono fun he => by
    have h := congrArg Object.parent he
    exact h
  exact ⟨.quota hfind hdo, .of_up (funext fun z => hparent.elim nothing z)⟩

theorem place (hi : Intact db) (hx : x ∈ db.dom) (hp : p = nothing ∨ p ∈ db.dom)
    (hacyc : x ∉ db.chain .place p) (hdo : db.changeLocation x p = some db') : Tending k db db' := by
  obtain ⟨o, ho⟩ := mem_dom.mp hx
  obtain ⟨db₁, hdo₁, -, ha, -⟩ := changeLocation_spec hi ho hp hacyc
  obtain rfl := Option.some.inj (hdo.symm.trans hdo₁)
  have hparent : Agree (Object.up .family) db db' := ha.mono fun he => by
    have h := congrArg Object.parent he
    exact h
  exact ⟨.place hx hp hacyc hdo, .of_up (funext fun z => hparent.elim nothing z)⟩

theorem lift {changed : Bool} (hi : Intact db) (hx : x ∈ db.dom)
    (hp : p = nothing ∨ p ∈ db.chain .family (db.upOf .family x)) (hk : k = some x ∨ k = some (db.upOf .family x))
    (hdo : db.changeParent x p = some (changed, db')) : Tending k db db' := by
  refine ⟨.lift hx hp hdo, fun z hz hup => ?_⟩
  obtain ⟨hp', hacyc⟩ := hi.sound.lift_acyclic hx hp
  obtain ⟨-, rfl⟩ | ⟨-, -, -, hre⟩ := changeParent_cases hi hx hp' hacyc hdo
  · rfl
  · rw [hre.up, Function.update_of_ne]
    rintro rfl
    exact hk.elim hz hup

end Tending

/-! Calls of verbs, moves and the quota. -/

variable {k : Option Objid}

theorem callVerb_cases {vname : Str} {e : Error} (hdo : db.callVerb env this vname = some (e, db')) :
    db' = db ∨ ∃ h, db.findCallableVerb this vname = some (db', h) := by
  unfold callVerb at hdo
  split at hdo
  · exact .inl (refused hdo)
  · simp only [Option.bind_eq_bind, Option.bind_eq_some_iff] at hdo
    obtain ⟨⟨db₁, h⟩, hfind, hdo⟩ := hdo
    refine .inr ⟨h, ?_⟩
    cases h with
    | none => rwa [refused hdo]
    | some h =>
        simp only at hdo
        split at hdo
        · rwa [refused hdo]
        · simp only [Option.bind_eq_some_iff, Option.pure_def, Option.some.injEq, Prod.mk.injEq] at hdo
          obtain ⟨_, -, -, rfl⟩ := hdo
          exact hfind

theorem callVerb_rest {vname : Str} {e : Error} (hdo : db.callVerb env this vname = some (e, db')) :
    db' = { db with vcTable := db'.vcTable } := by
  obtain rfl | ⟨h, hfind⟩ := callVerb_cases hdo
  · rfl
  · exact findCallableVerb_rest hfind

theorem callVerb_tends {vname : Str} {e : Error} (hv : Terminated vname)
    (hdo : db.callVerb env this vname = some (e, db')) : Tendings k db db' := by
  obtain rfl | ⟨h, hfind⟩ := callVerb_cases hdo
  · exact .refl
  · exact .single (.lookup hv hfind)

theorem quota_slot {h : PropHandle} {v : Var} (hi : Intact db) {player : Objid} (hp : player ∈ db.dom)
    (hfind : db.findPropertyValue player "ownership_quota".toList = some (some (h, v))) :
    ∃ n definer, h = .slot player n definer := by
  simp only [findPropertyValue, Option.bind_eq_bind, Option.bind_eq_some_iff] at hfind
  obtain ⟨found, hfound, hfind⟩ := hfind
  obtain ⟨e, he, hm, -⟩ | ⟨-, ⟨hnone, -⟩ | ⟨n, definer, hslot, -⟩⟩ :=
    findProperty_spec hi.sound hp "ownership_quota".toList
  · have hno : ∀ e ∈ ptable, nameMatches e.1 "ownership_quota".toList = false := by decide
    rw [hno e he] at hm
    cases hm
  · rw [hnone] at hfound
    obtain rfl := Option.some.inj hfound
    cases hfind
  · rw [hslot] at hfound
    obtain rfl := Option.some.inj hfound
    simp only [Option.bind_eq_some_iff, Option.pure_def, Option.some.injEq, Prod.mk.injEq] at hfind
    obtain ⟨_, -, _, -, rfl, -⟩ := hfind
    exact ⟨n, definer, rfl⟩

theorem decrQuota_tends {player : Objid} {granted : Bool} (hi : Intact db)
    (hdo : db.decrQuota player = some (granted, db')) : Tendings k db db' := by
  unfold decrQuota at hdo
  split at hdo
  · rw [refused hdo]
  · next hv =>
      have hp : player ∈ db.dom := hi.sound.valid_iff.mp (by simpa using hv)
      simp only [Option.bind_eq_bind, Option.bind_eq_some_iff] at hdo
      obtain ⟨found, hfind, hdo⟩ := hdo
      split at hdo
      · split at hdo
        · rw [refused hdo]
        · simp only [Option.bind_eq_some_iff, Option.pure_def, Option.some.injEq, Prod.mk.injEq] at hdo
          obtain ⟨db₁, hset, -, rfl⟩ := hdo
          obtain ⟨n, definer, rfl⟩ := quota_slot hi hp hfind
          exact .single (.quota hfind hset)
      · rw [refused hdo]

theorem incrQuota_tends {player : Objid} (hi : Intact db) (hdo : db.incrQuota player = some db') :
    Tendings k db db' := by
  unfold incrQuota at hdo
  split at hdo
  · rw [Option.pure_def, Option.some.injEq] at hdo
    rw [hdo]
  · next hv =>
      have hp : player ∈ db.dom := hi.sound.valid_iff.mp (by simpa using hv)
      simp only [Option.bind_eq_bind, Option.bind_eq_some_iff] at hdo
      obtain ⟨found, hfind, hdo⟩ := hdo
      split at hdo
      · obtain ⟨n, definer, rfl⟩ := quota_slot hi hp hfind
        exact .single (.quota hfind hdo)
      · rw [Option.pure_def, Option.some.injEq] at hdo
        rw [hdo]

/-! Moving. -/

theorem mem_of_find (hs : Sound db) (ho : db.find oid = some o) : oid ∈ db.dom := by
  rw [hs.find_eq] at ho
  exact mem_dom_of ho

theorem moveExited_tends {where' : Objid} {r : Package} (hdo : db.moveExited env x where' = some (r, db')) :
    Tendings k db db' := by
  have hv : Terminated "enterfunc".toList := by decide
  unfold moveExited at hdo
  split at hdo
  · rw [refused hdo]
  · split at hdo
    · rw [refused hdo]
    · simp only [Option.bind_eq_bind, Option.bind_eq_some_iff] at hdo
      obtain ⟨⟨e, db₁⟩, hcall, hdo⟩ := hdo
      have hstep : Tendings k db db₁ := callVerb_tends hv hcall
      have hdb : db₁ = db' := by
        split at hdo <;> simp_all
      rwa [← hdb]

theorem moveAccepted_tends {progr where' : Objid} {accepts : Bool} {r : Package} (hi : Intact db)
    (hdo : db.moveAccepted env progr x where' accepts = some (r, db')) : Tendings k db db' := by
  have hv : Terminated "exitfunc".toList := by decide
  unfold moveAccepted at hdo
  split at hdo
  · rw [refused hdo]
  split at hdo
  · rw [refused hdo]
  next o ho =>
  split at hdo
  · rw [refused hdo]
  next hvalid =>
  have hx := mem_of_find hi.sound ho
  have hp : where' = nothing ∨ where' ∈ db.dom := by
    by_cases hn : where' = nothing
    · exact .inl hn
    · refine .inr (hi.sound.valid_iff.mp ?_)
      by_contra hno
      simp [hn, hno] at hvalid
  simp only [Option.bind_eq_bind, hi.sound.walkUp_fuel hp, Option.bind_some] at hdo
  split at hdo
  · rw [refused hdo]
  next hmem =>
  simp only [Option.bind_eq_some_iff] at hdo
  obtain ⟨db₁, hloc, ⟨e, db₂⟩, hcall, hdo⟩ := hdo
  have hstep : Tendings k db db₁ := .single (.place hi hx hp hmem hloc)
  have hstep₂ := hstep.trans (callVerb_tends hv hcall)
  split at hdo
  · next heq =>
      rw [Option.pure_def, Option.some.injEq, Prod.mk.injEq] at hdo
      simp only [Prod.mk.injEq] at heq
      rwa [← hdo.2, ← heq.2]
  · next heq =>
      rw [Option.pure_def, Option.some.injEq, Prod.mk.injEq] at hdo
      simp only [Prod.mk.injEq] at heq
      rwa [← hdo.2, ← heq.2]
  · next heq =>
      simp only [Prod.mk.injEq] at heq
      rw [← heq.2] at hdo
      exact hstep₂.trans (moveExited_tends hdo)

theorem bfMove_tends {progr where' : Objid} {r : Package} (hi : Intact db)
    (hdo : db.bfMove env progr x where' = some (r, db')) : Tendings k db db' := by
  have hv : Terminated "accept".toList := by decide
  unfold bfMove at hdo
  split at hdo
  · rw [refused hdo]
  split at hdo
  · rw [refused hdo]
  split at hdo
  · rw [refused hdo]
  split at hdo
  · exact moveAccepted_tends hi hdo
  simp only [Option.bind_eq_bind, Option.bind_eq_some_iff] at hdo
  obtain ⟨⟨e, db₁⟩, hcall, hdo⟩ := hdo
  have hstep : Tendings k db db₁ := callVerb_tends hv hcall
  split at hdo
  · next heq =>
      rw [Option.pure_def, Option.some.injEq, Prod.mk.injEq] at hdo
      simp only [Prod.mk.injEq] at heq
      rwa [← hdo.2, ← heq.2]
  · next heq =>
      simp only [Prod.mk.injEq] at heq
      rw [← heq.2] at hdo
      exact hstep.trans (moveAccepted_tends (hstep.intact hi) hdo)
  · next heq =>
      rw [Option.pure_def, Option.some.injEq, Prod.mk.injEq] at hdo
      simp only [Prod.mk.injEq] at heq
      rwa [← hdo.2, ← heq.2]

/-! Recycling. -/

theorem moveToNothing_tends {called : Bool} (hi : Intact db)
    (hdo : db.moveToNothing env oid = some (called, db')) : Tendings k db db' := by
  have hv : Terminated "exitfunc".toList := by decide
  simp only [moveToNothing, Option.bind_eq_bind, Option.bind_eq_some_iff, Option.pure_def,
    Option.some.injEq, Prod.mk.injEq] at hdo
  obtain ⟨o, ho, db₁, hloc, ⟨e, db₂⟩, hcall, -, rfl⟩ := hdo
  have hacyc : oid ∉ db.chain .place nothing := by simp [hi.sound.chain_nothing]
  exact (Relation.ReflTransGen.single (.place hi (mem_dom_of ho) (.inl rfl) hacyc hloc)).trans
    (callVerb_tends hv hcall)

theorem recycleContents_tends {fuel : Nat} {called : Bool} (hi : Intact db)
    (hdo : recycleContents env oid fuel db = some (called, db')) : Tendings k db db' := by
  induction fuel generalizing db with
  | zero => cases hdo
  | succ fuel ih =>
      simp only [recycleContents, Option.bind_eq_bind, Option.bind_eq_some_iff] at hdo
      obtain ⟨o, ho, hdo⟩ := hdo
      split at hdo
      · rw [refused hdo]
      · simp only [Option.bind_eq_some_iff] at hdo
        obtain ⟨⟨b, db₁⟩, hmove, hdo⟩ := hdo
        have hstep : Tendings k db db₁ := moveToNothing_tends hi hmove
        cases b with
        | true =>
            rwa [refused hdo]
        | false => exact hstep.trans (ih (hstep.intact hi) hdo)

theorem recycleChildren_tends {fuel : Nat} (hi : Intact db)
    (hdo : recycleChildren oid fuel db = some db') : Tendings (some oid) db db' := by
  induction fuel generalizing db with
  | zero => cases hdo
  | succ fuel ih =>
      simp only [recycleChildren, Option.bind_eq_bind, Option.bind_eq_some_iff] at hdo
      obtain ⟨o, ho, hdo⟩ := hdo
      split at hdo
      · rw [Option.pure_def, Option.some.injEq] at hdo
        rw [hdo]
      · next hne =>
          simp only [Option.bind_eq_some_iff] at hdo
          obtain ⟨⟨b, db₁⟩, hchange, hdo⟩ := hdo
          -- the first child hangs under the object
          have hx := mem_dom_of ho
          have hhead : db.headOf .family oid = o.child := headOf_of ho
          obtain ⟨hchild, hup⟩ := (hi.sound.linked .family).head_mem hx (hhead ▸ hne)
          rw [hhead] at hchild hup
          have hpar : db.upOf .family oid = o.parent := upOf_of ho
          have hp : o.parent = nothing ∨ o.parent ∈ db.chain .family (db.upOf .family o.child) := by
            rw [hup, hi.sound.chain_cons hx, hpar]
            obtain hn | hd := hpar ▸ hi.sound.up_mem (h := .family) hx
            · exact .inl hn
            · refine .inr (List.mem_cons_of_mem _ ?_)
              rw [hi.sound.chain_cons hd]
              exact List.mem_cons_self
          have hstep : Tending (some oid) db db₁ := .lift hi hchild hp (.inr (by rw [hup])) hchange
          exact .head hstep (ih (hstep.1.intact hi) hdo)

theorem recycleMoved_cases {r : Package} (hi : Intact db) (hx : oid ∈ db.dom) (called : Bool)
    (h₂ : Tendings (some oid) db db₂) (hdo : (if called = true then pure (Package.call, db₂) else do
      let db ← recycleChildren oid db₂.fuel db₂
      let (_, db) ← db.changeParent oid nothing
      let db ← db.incrQuota (← db.objects oid).owner
      return (.noVar, ← db.destroyObject oid) : Option (Package × Db)) = some (r, db')) :
    ∃ db₁, Tendings (some oid) db db₁ ∧ (db' = db₁ ∨ oid ∈ db.dom ∧ db₁.destroyObject oid = some db') := by
  have hi₂ := h₂.intact hi
  split at hdo
  · simp only [Option.pure_def, Option.some.injEq, Prod.mk.injEq] at hdo
    exact ⟨db₂, h₂, .inl hdo.2.symm⟩
  · simp only [Option.bind_eq_bind, Option.bind_eq_some_iff, Option.pure_def, Option.some.injEq,
      Prod.mk.injEq] at hdo
    obtain ⟨db₃, hchildren, ⟨b, db₄⟩, hchange, o₄, ho₄, db₅, hquota, db₆, hdestroy, -, rfl⟩ := hdo
    have h₃ := h₂.trans (recycleChildren_tends hi₂ hchildren)
    have hi₃ := Tendings.intact hi h₃
    have hx₃ : oid ∈ db₃.dom := by
      simp only [Db.changeParent, Option.bind_eq_bind, Option.bind_eq_some_iff] at hchange
      obtain ⟨ok, hcheck, hchange⟩ := hchange
      split at hchange
      · rw [Option.pure_def, Option.some.injEq, Prod.mk.injEq] at hchange
        rw [hchange.2]
        exact mem_dom_of ho₄
      · simp only [Option.bind_eq_some_iff] at hchange
        obtain ⟨o₃, ho₃, -⟩ := hchange
        exact mem_dom_of ho₃
    have h₄ : Tendings (some oid) db db₄ := h₃.tail (.lift hi₃ hx₃ (.inl rfl) (.inl rfl) hchange)
    exact ⟨db₅, h₄.trans (incrQuota_tends (h₄.intact hi) hquota), .inr ⟨hx, hdestroy⟩⟩

theorem recycleResumed_cases {r : Package} (hi : Intact db)
    (hdo : db.recycleResumed env oid = some (r, db')) :
    ∃ db₁, Tendings (some oid) db db₁ ∧ (db' = db₁ ∨ oid ∈ db.dom ∧ db₁.destroyObject oid = some db') := by
  unfold recycleResumed at hdo
  split at hdo
  · exact ⟨db, .refl, .inl (refused hdo)⟩
  next hv =>
  have hx : oid ∈ db.dom := hi.sound.valid_iff.mp (by simpa using hv)
  simp only [Option.bind_eq_bind, Option.bind_eq_some_iff] at hdo
  obtain ⟨⟨called, db₁⟩, hcont, hdo⟩ := hdo
  have h₁ : Tendings (some oid) db db₁ := recycleContents_tends hi hcont
  have hi₁ := h₁.intact hi
  cases called with
  | true =>
      simp only [if_true, Option.pure_def, Option.some.injEq, Prod.mk.injEq] at hdo
      exact ⟨db₁, h₁, .inl hdo.2.symm⟩
  | false =>
  simp only [Bool.false_eq_true, if_false, Option.bind_eq_some_iff] at hdo
  obtain ⟨o, ho, hdo⟩ := hdo
  split at hdo
  · simp only [Option.bind_eq_some_iff] at hdo
    obtain ⟨⟨called, db₂⟩, hmove, hdo⟩ := hdo
    exact recycleMoved_cases hi hx called (h₁.trans (moveToNothing_tends hi₁ hmove)) hdo
  · exact recycleMoved_cases hi hx false h₁ (by simpa using hdo)

theorem bfRecycle_cases {progr : Objid} {r : Package} (hi : Intact db)
    (hdo : db.bfRecycle env progr oid = some (r, db')) :
    db' = db ∨ ∃ o db₁, db.objects oid = some o ∧ db.controls progr o = true ∧ Tendings (some oid) db db₁ ∧
      (db' = db₁ ∨ db₁.destroyObject oid = some db') := by
  have hv : Terminated "recycle".toList := by decide
  unfold bfRecycle at hdo
  split at hdo
  · exact .inl (refused hdo)
  next o ho =>
  rw [hi.sound.find_eq] at ho
  split at hdo
  · exact .inl (refused hdo)
  next hcontrols =>
  have hcontrols : db.controls progr o = true := by simpa using hcontrols
  simp only [Option.bind_eq_bind, Option.bind_eq_some_iff] at hdo
  obtain ⟨⟨e, db₁⟩, hcall, hdo⟩ := hdo
  have h₁ : Tendings (some oid) db db₁ := callVerb_tends hv hcall
  split at hdo
  · next heq =>
      rw [Option.pure_def, Option.some.injEq, Prod.mk.injEq] at hdo
      simp only [Prod.mk.injEq] at heq
      exact .inr ⟨o, db₁, ho, hcontrols, h₁, .inl (by rw [← hdo.2, heq.2])⟩
  · next heq =>
      simp only [Prod.mk.injEq] at heq
      rw [← heq.2] at hdo
      obtain ⟨db₂, h₂, hend⟩ := recycleResumed_cases (h₁.intact hi) hdo
      exact .inr ⟨o, db₂, ho, hcontrols, h₁.trans h₂, hend.imp id And.right⟩

/-! Making an object. -/

/-- A table with one object more. The owners that had the number of a new object already
may have been changed to `owners`. -/
structure Made (db : Db) (oid : Objid) (owners : Object → Object) (db' : Db) : Prop where
  intact : Intact db'
  fresh : oid ∉ db.dom
  vcTable : db'.vcTable = db.vcTable ∨ db'.vcTable = fun _ => []
  dom : db'.dom = insert oid db.dom
  up : ∀ h, ∀ z ∈ db.dom, db'.upOf h z = db.upOf h z
  body : ∀ z o, db.objects z = some o → (db'.objects z).map Object.body = some (owners o).body
  object : ∃ o, db'.objects oid = some o ∧ o.body = (newObject oid).body ∧
    ∀ h, o.up h = nothing ∧ o.head h = nothing

theorem createObject_made (hi : Intact db) : Made db db.numObjects id db.createObject.2 := by
  have hfresh : db.numObjects ∉ db.dom := fun h => absurd (hi.sound.range h).2 (Int.lt_irrefl _)
  have hold : ∀ z ∈ db.dom, db.createObject.2.objects z = db.objects z := by
    intro z hz
    refine Function.update_of_ne ?_ _ _
    rintro rfl
    exact hfresh hz
  have hnew : db.createObject.2.objects db.numObjects = some (newObject db.numObjects) :=
    Function.update_self _ _ _
  refine ⟨createObject_intact hi, hfresh, .inl rfl, ?_, fun h z hz => ?_, fun z o ho => ?_, _, hnew, rfl,
    fun h => ?_⟩
  · ext z
    obtain rfl | hz := eq_or_ne z db.numObjects
    · simp [Db.dom, hnew]
    · have : db.createObject.2.objects z = db.objects z := Function.update_of_ne hz _ _
      simp [Db.dom, this, hz]
  · rw [upOf, hold z hz]
    rfl
  · rw [hold z (mem_dom_of ho), ho]
    rfl
  · cases h <;> exact ⟨rfl, rfl⟩

theorem Renumbered.made {new : Objid} (hi : Intact db) (hi' : Intact db') (hnew : new ∉ db.dom)
    (r : Renumbered db.createObject.2 db.numObjects new db') :
    Made db new (Object.withOwners db.numObjects new) db' := by
  have m := createObject_made hi
  have hs := m.intact.sound
  have hs' := hi'.sound
  have hold : db.numObjects ∈ db.createObject.2.dom := createObject_mem db
  have hne : ∀ z ∈ db.dom, z ≠ db.numObjects := by
    rintro z hz rfl
    exact m.fresh hz
  have hnil : renumbered db.numObjects new nothing = nothing := renumbered_ne (hs.ne_nothing hold).symm
  have hmem : ∀ z ∈ db.dom, z ∈ db.createObject.2.dom := fun z hz => m.dom ▸ .inr hz
  have hdom : db'.dom = insert new db.dom := by
    rw [r.dom, m.dom, Set.image_insert_eq, renumbered_old]
    congr 1
    ext z
    constructor
    · rintro ⟨y, hy, rfl⟩
      rwa [renumbered_ne (hne y hy)]
    · intro hz
      exact ⟨z, hz, renumbered_ne (hne z hz)⟩
  have hup : ∀ h, ∀ z ∈ db.dom, db'.upOf h z = db.upOf h z := by
    intro h z hz
    have hz' := r.up h z (hmem z hz)
    rw [renumbered_ne (hne z hz), m.up h z hz] at hz'
    rw [hz']
    obtain hn | hd := hi.sound.up_mem (h := h) hz
    · rw [hn, hnil]
    · exact renumbered_ne (hne _ hd)
  obtain ⟨o₀, ho₀, hb₀, hl₀⟩ := m.object
  have hupn : ∀ h, db'.upOf h new = nothing := by
    intro h
    have hz' := r.up h _ hold
    rwa [renumbered_old, upOf_of ho₀, (hl₀ h).1, hnil] at hz'
  refine ⟨hi', hnew, .inr r.vcTable, hdom, hup, fun z o ho => ?_, ?_⟩
  · have hz := mem_dom_of ho
    have hb := r.body z (hmem z hz)
    have hobj : db.createObject.2.objects z = db.objects z := Function.update_of_ne (hne z hz) _ _
    rw [renumbered_ne (hne z hz), hobj, ho] at hb
    exact hb
  · have hnd : new ∈ db'.dom := hdom ▸ .inl rfl
    obtain ⟨o, ho⟩ := mem_dom.mp hnd
    refine ⟨o, ho, ?_, fun h => ⟨?_, ?_⟩⟩
    · have hb := r.body _ hold
      rw [renumbered_old, ho, ho₀, Option.map_some, Option.map_some, Option.some.injEq] at hb
      rw [hb]
      have hown : renumberedOwner db.numObjects new nothing = nothing := by
        have := hi.sound.numObjects_nonneg
        unfold renumberedOwner nothing
        split
        · rfl
        · rw [if_neg (by lia)]
      have hobj : o₀ = newObject db.numObjects := by
        have : db.createObject.2.objects db.numObjects = _ := Function.update_self _ _ _
        exact Option.some.inj (ho₀.symm.trans this)
      rw [hobj]
      simp only [Object.body, Object.withOwners, newObject, hown]
      rfl
    · rw [← upOf_of ho]
      exact hupn h
    · -- nothing hangs under a number that was free
      by_contra hhead
      rw [← headOf_of ho] at hhead
      obtain ⟨hc, hcup⟩ := (hs'.linked h).head_mem hnd hhead
      obtain heq | hc := hdom ▸ hc
      · rw [heq, hupn] at hcup
        exact hs'.ne_nothing hnd hcup.symm
      · rw [hup h _ hc] at hcup
        obtain hn | hd := hi.sound.up_mem (h := h) hc
        · rw [hcup] at hn
          exact hs'.ne_nothing hnd hn
        · exact hnew (hcup ▸ hd)

theorem Made.affected {owners : Object → Object} (m : Made db oid owners db') :
    Made db oid owners db'.affectedCallableVerbLookup :=
  ⟨m.intact.affected, m.fresh, .inr rfl, m.dom, m.up, m.body, m.object⟩

theorem Sound.notMem_chain_of_leaf (hs : Sound db) (ho : db.objects x = some o) (hleaf : o.child = nothing)
    (hp : p = nothing ∨ p ∈ db.dom) (hne : p ≠ x) : x ∉ db.chain .family p := by
  intro hmem
  obtain rfl | hpd := hp
  · simp [hs.chain_nothing] at hmem
  · obtain heq | ⟨c, hc, hup, -⟩ := hs.below_cases ⟨hpd, hmem⟩
    · exact hne heq
    · obtain ⟨l, hl, hm⟩ := (hs.linked .family).members x (mem_dom_of ho)
      rw [headOf_of ho, Object.head, hleaf] at hl
      obtain rfl := hl.unique .nil
      exact absurd ((hm c).mpr ⟨hc, hup⟩) (by simp)

/-- A new object has got its name, its owner, its parent if that can be, and a call of
its `initialize`. -/
def Initialized (db : Db) (oid parent owner : Objid) (db' : Db) : Prop :=
  ∃ o changed db₂, db.objects oid = some o ∧
    (db.set oid { o with name := [], owner }).changeParent oid parent = some (changed, db₂) ∧
    Upkeeps db₂ db'

theorem Intact.named {db : Db} (hi : Intact db) (ho : db.objects oid = some o) (owner : Objid) :
    Intact (db.set oid { o with name := [], owner }) := by
  refine hi.of_agree (Agree.set ho (Prod.ext (funext fun h => ?_) rfl))
  cases h <;> rfl

theorem Made.parent {owners : Object → Object} {parent : Objid} (owner : Objid) (m : Made db oid owners db')
    (hp : parent = nothing ∨ parent ∈ db.dom) (ho : db'.objects oid = some o) :
    (parent = nothing ∨ parent ∈ (db'.set oid { o with name := [], owner }).dom) ∧
      oid ∉ (db'.set oid { o with name := [], owner }).chain .family parent := by
  have hnew : (db'.set oid { o with name := [], owner }).objects oid = some _ := Function.update_self _ _ _
  have hdom : (db'.set oid { o with name := [], owner }).dom = db'.dom :=
    (Agree.set (f := fun _ => ()) ho rfl).dom
  have hp' : parent = nothing ∨ parent ∈ (db'.set oid { o with name := [], owner }).dom := by
    rw [hdom, m.dom]
    exact hp.imp id .inr
  obtain ⟨o', ho', -, hl⟩ := m.object
  obtain rfl := Option.some.inj (ho.symm.trans ho')
  refine ⟨hp', (m.intact.named ho owner).sound.notMem_chain_of_leaf hnew (hl .family).2 hp' ?_⟩
  rintro rfl
  obtain hn | hd := hp
  · exact m.intact.sound.ne_nothing (mem_dom_of ho) hn
  · exact m.fresh hd

theorem Made.initialized {owners : Object → Object} {parent owner : Objid} (m : Made db oid owners db')
    (hp : parent = nothing ∨ parent ∈ db.dom) {db'' : Db} (h : db'.Initialized oid parent owner db'') :
    Intact db'' := by
  obtain ⟨o, changed, db₂, ho, hchange, hup⟩ := h
  obtain ⟨hp', hacyc⟩ := m.parent owner hp ho
  have hnew : oid ∈ (db'.set oid { o with name := [], owner }).dom :=
    mem_dom_of (Function.update_self _ _ _)
  exact hup.intact ((m.intact.named ho owner).changeParent hnew hp' hacyc hchange)

theorem initializeCreated_call {parent owner : Objid} {r : Package}
    (hdo : db.initializeCreated env oid parent owner = some (r, db')) :
    ∃ o changed db₂ e, db.objects oid = some o ∧
      (db.set oid { o with name := [], owner := if owner = nothing then oid else owner }).changeParent oid parent =
        some (changed, db₂) ∧
      db₂.callVerb env oid "initialize".toList = some (e, db') := by
  simp only [initializeCreated, Option.bind_eq_bind, Option.bind_eq_some_iff] at hdo
  obtain ⟨db₁, hname, db₂, howner, ⟨changed, db₃⟩, hchange, ⟨e, db₄⟩, hcall, hdo⟩ := hdo
  obtain ⟨o, ho, rfl⟩ := modify_eq_some hname
  obtain ⟨o', ho', rfl⟩ := modify_eq_some howner
  rw [set_objects, Function.update_self, Option.some.injEq] at ho'
  subst ho'
  have hdb : db₄ = db' := by
    split at hdo <;> simp_all
  refine ⟨o, changed, db₃, e, ho, ?_, hdb ▸ hcall⟩
  rw [← hchange]
  congr 1
  simp only [Db.set, Function.update_idem]

theorem initializeCreated_cases {parent owner : Objid} {r : Package}
    (hdo : db.initializeCreated env oid parent owner = some (r, db')) :
    db.Initialized oid parent (if owner = nothing then oid else owner) db' := by
  obtain ⟨o, changed, db₂, e, ho, hchange, hcall⟩ := initializeCreated_call hdo
  have hv : Terminated "initialize".toList := by decide
  exact ⟨o, changed, db₂, ho, hchange, (callVerb_tends (k := none) hv hcall).upkeeps⟩

theorem mayParent_mem {progr parent : Objid} (hs : Sound db) (h : db.mayParent progr parent = true) :
    parent = nothing ∨ parent ∈ db.dom := by
  unfold mayParent at h
  split at h
  · next ho => exact .inr (mem_of_find hs ho)
  · exact .inl (by simpa using h)

/-- What the three functions that make an object have in common: nothing but the
quota may have changed, or there is an object more. The owners that had its number are
changed where the function gives it another one than the next. -/
def Creates (renumbers : Prop) (progr parent : Objid) (owner? : Option Objid) (db db' : Db) : Prop :=
  ∃ db₁, Upkeeps db db₁ ∧ (db' = db₁ ∨ db.mayParent progr parent = true ∧
    (owner?.getD progr = progr ∨ db.isWizard progr = true) ∧
    ∃ oid owners db₂, (owners = id ∨ renumbers ∧ owners = Object.withOwners db₁.numObjects oid) ∧
      Made db₁ oid owners db₂ ∧
      db₂.Initialized oid parent (if owner?.getD progr = nothing then oid else owner?.getD progr) db')

def Makes (renumbers : Prop) (make : Db → Option (Except Error Objid × Db)) : Prop :=
  ∀ {db : Db} {r db'}, Intact db → make db = some (r, db') →
    (∃ e, r = .error e ∧ db' = db) ∨ ∃ oid owners, r = .ok oid ∧
      (owners = id ∨ renumbers ∧ owners = Object.withOwners db.numObjects oid) ∧ Made db oid owners db'

theorem charged_cases {make : Db → Option (Except Error Objid × Db)} {owner : Objid} {r : Package}
    (hi : Intact db) (hdo : createOwned env make db parent owner = some (r, db')) :
    ∃ granted db₁, Tendings none db db₁ ∧ (if (!granted) = true then some (Package.raise .eQuota, db₁)
      else (make db₁).bind fun
        | (.error e, db) => some (.raise e, db)
        | (.ok oid, db) => db.initializeCreated env oid parent owner) = some (r, db') := by
  unfold createOwned at hdo
  split at hdo
  · simp only [Option.bind_eq_bind, Option.bind_eq_some_iff] at hdo
    obtain ⟨⟨granted, db₁⟩, hquota, hdo⟩ := hdo
    exact ⟨granted, db₁, decrQuota_tends hi hquota, hdo⟩
  · exact ⟨true, db, .refl, hdo⟩

theorem createOwned_cases {renumbers : Prop} {make : Db → Option (Except Error Objid × Db)}
    {progr parent : Objid} {owner? : Option Objid} {r : Package} (hmake : Makes renumbers make)
    (hi : Intact db)
    (hpar : db.mayParent progr parent = true)
    (hown : owner?.getD progr = progr ∨ db.isWizard progr = true)
    (hdo : createOwned env make db parent (owner?.getD progr) = some (r, db')) :
    Creates renumbers progr parent owner? db db' := by
  obtain ⟨granted, db₁, hquota, hdo⟩ := charged_cases hi hdo
  refine ⟨db₁, hquota.upkeeps, ?_⟩
  split at hdo
  · exact .inl (refused hdo)
  · rw [Option.bind_eq_some_iff] at hdo
    obtain ⟨⟨made, db₂⟩, hdo₂, hdo⟩ := hdo
    obtain ⟨e, rfl, rfl⟩ | ⟨oid, owners, rfl, howners, m⟩ := hmake (hquota.intact hi) hdo₂
    · exact .inl (refused hdo)
    · exact .inr ⟨hpar, hown, oid, owners, db₂, howners, m, initializeCreated_cases hdo⟩

theorem mayCreate {progr parent owner : Objid}
    (h : ¬(!db.mayParent progr parent || (decide (owner ≠ progr) && !db.isWizard progr)) = true) :
    db.mayParent progr parent = true ∧ (owner = progr ∨ db.isWizard progr = true) := by
  cases hw : db.isWizard progr <;> simp_all

theorem create_makes : Makes False fun db => some (.ok db.createObject.1, db.createObject.2) := by
  intro db r db' hi hmake
  rw [Option.some.injEq, Prod.mk.injEq] at hmake
  obtain ⟨rfl, rfl⟩ := hmake
  exact .inr ⟨_, id, rfl, .inl rfl, createObject_made hi⟩

theorem createAndRenumber_makes (shared : Sharing) : Makes True fun db => do
    let (oid, db) ← db.createObjectAndRenum shared
    return (.ok oid, db) := by
  intro db r db' hi hmake
  dsimp only at hmake
  obtain hmade | ⟨new, db₂, hmade, hnew, -, -, hi₂, -, hre⟩ := createObjectAndRenum_spec shared hi
  · rw [hmade] at hmake
    obtain ⟨rfl, rfl⟩ := Prod.mk.inj (Option.some.inj hmake)
    exact .inr ⟨_, id, rfl, .inl rfl, (createObject_made hi).affected⟩
  · rw [hmade] at hmake
    obtain ⟨rfl, rfl⟩ := Prod.mk.inj (Option.some.inj hmake)
    exact .inr ⟨_, _, rfl, .inr ⟨trivial, rfl⟩, hre.made hi hi₂ hnew⟩

theorem bfCreate_allowed {progr parent : Objid} {owner? : Option Objid} {r : Package}
    (hdo : db.bfCreate env progr parent owner? = some (r, db')) :
    db' = db ∨ db.mayParent progr parent = true ∧ (owner?.getD progr = progr ∨ db.isWizard progr = true) ∧
      createOwned env (fun db => some (.ok db.createObject.1, db.createObject.2)) db parent
        (owner?.getD progr) = some (r, db') := by
  unfold bfCreate at hdo
  dsimp only at hdo
  split at hdo
  · exact .inl (refused hdo)
  · next hmay => exact .inr ⟨(mayCreate hmay).1, (mayCreate hmay).2, hdo⟩

theorem bfCreateAndRenumber_allowed {progr parent : Objid} {owner? : Option Objid} {r : Package}
    (hdo : db.bfCreateAndRenumber env progr parent owner? = some (r, db')) :
    db' = db ∨ db.mayParent progr parent = true ∧ (owner?.getD progr = progr ∨ db.isWizard progr = true) ∧
      createOwned env (fun db => do
        let (oid, db) ← db.createObjectAndRenum env.players
        return (.ok oid, db)) db parent (owner?.getD progr) = some (r, db') := by
  unfold bfCreateAndRenumber at hdo
  dsimp only at hdo
  split at hdo
  · exact .inl (refused hdo)
  · next hmay => exact .inr ⟨(mayCreate hmay).1, (mayCreate hmay).2, hdo⟩

theorem bfCreate_cases {progr parent : Objid} {owner? : Option Objid} {r : Package} (hi : Intact db)
    (hdo : db.bfCreate env progr parent owner? = some (r, db')) : Creates False progr parent owner? db db' := by
  obtain rfl | ⟨hpar, hown, hdo⟩ := bfCreate_allowed hdo
  · exact ⟨_, .refl, .inl rfl⟩
  · exact createOwned_cases create_makes hi hpar hown hdo

theorem bfCreateAndRenumber_cases {progr parent : Objid} {owner? : Option Objid} {r : Package}
    (hi : Intact db) (hdo : db.bfCreateAndRenumber env progr parent owner? = some (r, db')) :
    Creates True progr parent owner? db db' := by
  obtain rfl | ⟨hpar, hown, hdo⟩ := bfCreateAndRenumber_allowed hdo
  · exact ⟨_, .refl, .inl rfl⟩
  · exact createOwned_cases (createAndRenumber_makes env.players) hi hpar hown hdo

theorem bfCreateWithId_cases {progr id parent : Objid} {owner? : Option Objid} {r : Package}
    (hi : Intact db) (hdo : db.bfCreateWithId env progr id parent owner? = some (r, db')) :
    Creates True progr parent owner? db db' := by
  unfold bfCreateWithId at hdo
  dsimp only at hdo
  split at hdo
  · exact ⟨db, .refl, .inl (refused hdo)⟩
  · next hmay =>
      obtain ⟨hpar, hwiz⟩ : db.mayParent progr parent = true ∧ db.isWizard progr = true := by
        simpa using hmay
      refine createOwned_cases (fun {db r db'} hi hmake => ?_) hi hpar (.inr hwiz) hdo
      obtain hmade | ⟨-, hmade⟩ | ⟨db₂, hmade, hnew, hpos, -, hi₂, -, hre⟩ := createObjectWithNum_spec env.players hi id
      · rw [hmade] at hmake
        obtain ⟨rfl, rfl⟩ := Prod.mk.inj (Option.some.inj hmake)
        exact .inl ⟨_, rfl, rfl⟩
      · rw [hmade] at hmake
        cases hmake
      · rw [hmade] at hmake
        obtain ⟨rfl, rfl⟩ := Prod.mk.inj (Option.some.inj hmake)
        have hid : id ≠ -1 := by lia
        exact .inr ⟨_, _, if_neg hid, .inr ⟨trivial, rfl⟩, hre.made hi hi₂ hnew⟩

theorem Upkeep.dom (hi : Intact db) (h : Upkeep db db') : db'.dom = db.dom := by
  cases h with
  | lookup hv hdo =>
      rw [findCallableVerb_rest hdo]
      rfl
  | quota hfind hdo => exact (modifySlot_agree (f := fun p => { p with var := .int _ }) hdo).dom
  | place hx hp hacyc hdo =>
      obtain ⟨o, ho⟩ := mem_dom.mp hx
      obtain ⟨db₁, hdo₁, -, ha, -⟩ := changeLocation_spec hi ho hp hacyc
      rw [hdo] at hdo₁
      exact Option.some.inj hdo₁ ▸ ha.dom
  | lift hx hp hdo =>
      obtain ⟨hp', hacyc⟩ := hi.sound.lift_acyclic hx hp
      obtain ⟨-, rfl⟩ | ⟨-, -, -, hre⟩ := changeParent_cases hi hx hp' hacyc hdo
      · rfl
      · exact hre.agree.dom

theorem Upkeeps.dom (hi : Intact db) (h : Upkeeps db db') : db'.dom = db.dom := by
  induction h with
  | refl => rfl
  | tail hbefore hlast ih => exact (hlast.dom (Upkeeps.intact hi hbefore)).trans ih

theorem Creates.intact {renumbers : Prop} {progr parent : Objid} {owner? : Option Objid} (hi : Intact db)
    (h : Creates renumbers progr parent owner? db db') : Intact db' := by
  obtain ⟨db₁, hup, rfl | ⟨hpar, -, oid, owners, db₂, -, m, hinit⟩⟩ := h
  · exact hup.intact hi
  · exact m.initialized (hup.dom hi ▸ mayParent_mem hi.sound hpar) hinit

end Db
end LambdaMoo
