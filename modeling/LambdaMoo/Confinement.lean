import LambdaMoo.DefinitionFrames
import LambdaMoo.MoveCalls
import LambdaMoo.Recycling
import LambdaMoo.VerbProtection

/-! What a call may change that is made with the permissions of someone who is no wizard. Verbs
are told apart by where they were allocated, and slots by the definitions they are for. -/
namespace LambdaMoo

namespace Db

open Labelled

variable {db db' db'' : Db} {call : Call} {p oid x y z : Objid} {o : Object} {s s' s₁ : Pval} {v v' : Verbdef}
  {d : Propdef} {same : Objid → Objid → Prop} {new : Set Objid} {reshaped : Objid → Prop}

def Alike {β : Type} (f : Object → β) (db db' : Db) : Prop :=
  ∀ x, (db'.objects x).map f = (db.objects x).map f

/-- No two verbs of an object are at one address. -/
def Distinct (db : Db) : Prop := ∀ x, ((db.verbsOf x).map Verbdef.addr).Nodup

def IsQuota (db : Db) (tag : Nat) : Prop :=
  ∃ z, ∃ d ∈ db.defsOf z, d.tag = tag ∧ nameMatches d.name "ownership_quota".toList = true

/-- Nobody becomes a wizard or a programmer, nothing changes hands but as `same` allows, and what
is new belongs to `p`. -/
structure ObjectsConfined (same : Objid → Objid → Prop) (p : Objid) (db db' : Db) : Prop where
  wizard : ∀ x, db'.isWizard x = true → db.isWizard x = true
  programmer : ∀ x, db'.isProgrammer x = true → db.isProgrammer x = true
  owner : ∀ x o o', db.objects x = some o → db'.objects x = some o' → same o.owner o'.owner
  created : ∀ x o', x ∉ db.dom → db'.objects x = some o' → o'.owner = p

/-- A verb that is not new stays as it is, unless `p` owns it or it may be written. -/
structure VerbsConfined (same : Objid → Objid → Prop) (p : Objid) (db db' : Db) : Prop where
  owner : ∀ x, ∀ v ∈ db.verbsOf x, ∀ v' ∈ db'.verbsOf x, v'.addr = v.addr → same v.owner v'.owner
  changed : ∀ x, ∀ v ∈ db.verbsOf x, ∀ v' ∈ db'.verbsOf x, v'.addr = v.addr →
    v' = { v with owner := v'.owner } ∨ v.owner = p ∨ v.flags.write = true
  added : ∀ x, ∀ v' ∈ db'.verbsOf x, (∀ v ∈ db.verbsOf x, v.addr ≠ v'.addr) → v'.owner = p

/-- So does a slot, but for the value of a quota. Objects that were there before get and lose
slots where they are `reshaped`. -/
structure SlotsConfined (same : Objid → Objid → Prop) (p : Objid) (reshaped : Objid → Prop) (db db' : Db) :
    Prop where
  owner : ∀ x, ∀ s ∈ db.slotsOf x, ∀ s' ∈ db'.slotsOf x, s'.tag = s.tag → same s.owner s'.owner
  changed : ∀ x, ∀ s ∈ db.slotsOf x, ∀ s' ∈ db'.slotsOf x, s'.tag = s.tag →
    s'.perms = s.perms ∧ (s'.var = s.var ∨ db.IsQuota s.tag) ∨ s.owner = p ∨ s.perms.write = true
  added : ∀ x ∈ db.dom, ∀ s' ∈ db'.slotsOf x, (∀ s ∈ db.slotsOf x, s.tag ≠ s'.tag) → reshaped x
  removed : ∀ x, ∀ s ∈ db.slotsOf x, (∀ s' ∈ db'.slotsOf x, s'.tag ≠ s.tag) → reshaped x

/-- The objects that a call gives slots to or takes slots from: an object that its permissions let
it write, or that they control, with all that is below it. A recycling was let begin. -/
def Reshapes (db : Db) (x : Objid) : Call → Prop
  | .addProp p y .. | .deleteProp p y .. =>
      db.Below y x ∧ ∃ o, db.objects y = some o ∧ db.objectAllows o p .write = true
  | .chparent p y _ | .recycle p y =>
      db.Below y x ∧ ∃ o, db.objects y = some o ∧ db.controls p o = true
  | .recycleResumed _ y => db.Below y x
  | _ => False

structure Confined (same : Objid → Objid → Prop) (call : Call) (db db' : Db) : Prop where
  objects : ObjectsConfined same call.progr db db'
  verbs : VerbsConfined same call.progr db db'
  slots : SlotsConfined same call.progr (fun x => db.Reshapes x call) db db'

/-- An owner that is the same number, or one that named no object and is nothing now, or the object
that `create_and_renumber` has made. -/
def Reowned (call : Call) (db db' : Db) (a b : Objid) : Prop :=
  b = a ∨ (∃ p parent owner?, call = .createAndRenumber p parent owner?) ∧ a ∉ db.dom ∧
    (b = nothing ∨ b ∈ db'.dom ∧ b ∉ db.dom)

namespace Alike

variable {β γ : Type} {f : Object → β} {g : Object → γ}

theorem mono (h : Alike f db db') (hg : ∀ {o o'}, f o' = f o → g o' = g o) : Alike g db db' := by
  intro x
  have hx := h x
  cases ho : db.objects x with
  | none =>
      rw [ho, Option.map_none, Option.map_eq_none_iff] at hx
      rw [hx]
  | some o =>
      rw [ho, Option.map_some, Option.map_eq_some_iff] at hx
      obtain ⟨o', ho', he⟩ := hx
      rw [ho', Option.map_some, Option.map_some, hg he]

theorem shows {u : Object → Object} (h : Alike u db db') (hg : ∀ o, g (u o) = g o) : Alike g db db' :=
  h.mono fun he => by rw [← hg, he, hg]

theorem of_objects (h : Alike f db db') {o' : Object} (ho' : db'.objects x = some o') :
    ∃ o, db.objects x = some o ∧ f o' = f o := by
  have hx := h x
  rw [ho', Option.map_some] at hx
  obtain ⟨o, ho, he⟩ := Option.map_eq_some_iff.mp hx.symm
  exact ⟨o, ho, he.symm⟩

theorem elim (h : Alike f db db') (d : β) (x : Objid) : (db'.objects x).elim d f = (db.objects x).elim d f := by
  have hx := congrArg (fun y => Option.elim y d id) (h x)
  simpa [Option.elim_map] using hx

theorem verbs (h : Alike Object.verbdefs db db') : db'.verbsOf = db.verbsOf := funext (h.elim [])

theorem slots (h : Alike Object.propval db db') : db'.slotsOf = db.slotsOf := funext (h.elim [])

theorem defs (h : Alike Object.propdefs db db') : db'.defsOf = db.defsOf := funext (h.elim [])

end Alike

/-! Telling verbs and slots apart. -/

theorem Distinct.unique (hd : Distinct db) (hv : v ∈ db.verbsOf x) (hv' : v' ∈ db.verbsOf x)
    (haddr : v'.addr = v.addr) : v' = v :=
  List.inj_on_of_nodup_map (hd x) hv' hv haddr

theorem mem_dom_of_slotsOf (hs : s ∈ db.slotsOf x) : x ∈ db.dom := by
  by_contra hx
  rw [slotsOf_nothing hx] at hs
  cases hs

theorem Intact.slot_unique (hi : Intact db) (hs : s ∈ db.slotsOf x) (hs' : s' ∈ db.slotsOf x)
    (htag : s'.tag = s.tag) : s' = s := by
  have hx := mem_dom_of_slotsOf hs
  have hnodup : ((db.slotsOf x).map Pval.tag).Nodup := by
    rw [hi.slotted.tags x hx]
    exact hi.slotted.allDefs_nodup hi.sound hx
  exact List.inj_on_of_nodup_map hnodup hs' hs htag

theorem slotFor_mem (h : db.slotFor x d = some s) : s ∈ db.slotsOf x ∧ s.tag = d.tag :=
  ⟨List.mem_of_find?_eq_some h, by simpa using List.find?_some h⟩

theorem Intact.slotFor_of_mem (hi : Intact db) (hs : s ∈ db.slotsOf x) (htag : d.tag = s.tag) :
    db.slotFor x d = some s := by
  obtain ⟨s', hs'⟩ := Option.isSome_iff_exists.mp (lookup_isSome.mpr (List.mem_map_of_mem (f := Pval.tag) hs))
  have hfound : db.slotFor x d = some s' := by rwa [slotFor, htag]
  obtain ⟨hmem, htag'⟩ := slotFor_mem hfound
  rw [hfound, hi.slot_unique hs hmem (htag'.trans htag)]

theorem Sound.hasFlag_eq (hs : Sound db) (x : Objid) (f : ObjectFlag) :
    db.hasFlag x f = (db.objects x).elim false fun o => o.flags f := by
  unfold hasFlag
  rw [hs.find_eq]
  cases db.objects x <;> rfl

theorem Intact.slot_kept (hi : Intact db) (hi' : Intact db') (hx : x ∈ db'.dom)
    (hdefs : db'.allDefs x = db.allDefs x) (hs : s ∈ db.slotsOf x) : ∃ s' ∈ db'.slotsOf x, s'.tag = s.tag := by
  have htag := List.mem_map_of_mem (f := Pval.tag) hs
  rw [hi.slotted.tags x (mem_dom_of_slotsOf hs), ← hdefs, ← hi'.slotted.tags x hx] at htag
  exact List.mem_map.mp htag

/-! Changes that bring nothing but what is new. -/

def Object.powers (o : Object) : Bool × Bool := (o.flags .wizard, o.flags .programmer)

/-- Outside `new`, all that is there was there before, its owners changed as `same` says and the
values of quotas in any way. -/
structure Fades (same : Objid → Objid → Prop) (new : Set Objid) (db db' : Db) : Prop where
  objects : ∀ x ∉ new, ∀ o', db'.objects x = some o' →
    ∃ o, db.objects x = some o ∧ same o.owner o'.owner ∧ Object.powers o' = Object.powers o
  verbs : ∀ x ∉ new, ∀ v' ∈ db'.verbsOf x,
    ∃ v ∈ db.verbsOf x, same v.owner v'.owner ∧ v' = { v with owner := v'.owner }
  slots : ∀ x ∉ new, ∀ s' ∈ db'.slotsOf x, ∃ s ∈ db.slotsOf x, same s.owner s'.owner ∧
    s' = { s with owner := s'.owner, var := s'.var } ∧ (s'.var = s.var ∨ db.IsQuota s.tag)
  defs : ∀ x, ∀ d ∈ db'.defsOf x, d ∈ db.defsOf x

theorem IsQuota.mono {tag : Nat} (hdefs : ∀ x, ∀ d ∈ db'.defsOf x, d ∈ db.defsOf x) (h : db'.IsQuota tag) :
    db.IsQuota tag := by
  obtain ⟨z, d, hd, htag, hm⟩ := h
  exact ⟨z, d, hdefs z d hd, htag, hm⟩

namespace Fades

theorem refl (new : Set Objid) (db : Db) : Fades Eq new db db :=
  ⟨fun _ _ o' ho => ⟨o', ho, rfl, rfl⟩, fun _ _ v' hv => ⟨v', hv, rfl, rfl⟩,
    fun _ _ s' hs => ⟨s', hs, rfl, rfl, .inl rfl⟩, fun _ _ hd => hd⟩

theorem trans {same₁ same₂ : Objid → Objid → Prop} (h₁ : Fades same₁ new db db') (h₂ : Fades same₂ new db' db'')
    (hsame : ∀ {a b c}, same₁ a b → same₂ b c → same a c) : Fades same new db db'' := by
  refine ⟨fun x hx o₂ ho₂ => ?_, fun x hx v₂ hv₂ => ?_, fun x hx s₂ hs₂ => ?_,
    fun x d hd => h₁.defs x d (h₂.defs x d hd)⟩
  · obtain ⟨o₁, ho₁, hsame₂, hpow₂⟩ := h₂.objects x hx o₂ ho₂
    obtain ⟨o, ho, hsame₁, hpow₁⟩ := h₁.objects x hx o₁ ho₁
    exact ⟨o, ho, hsame hsame₁ hsame₂, hpow₂.trans hpow₁⟩
  · obtain ⟨v₁, hv₁, hsame₂, heq₂⟩ := h₂.verbs x hx v₂ hv₂
    obtain ⟨v, hv, hsame₁, heq₁⟩ := h₁.verbs x hx v₁ hv₁
    refine ⟨v, hv, hsame hsame₁ hsame₂, ?_⟩
    rw [heq₂, heq₁]
  · obtain ⟨s₁, hs₁, hsame₂, heq₂, hvar₂⟩ := h₂.slots x hx s₂ hs₂
    obtain ⟨s, hs, hsame₁, heq₁, hvar₁⟩ := h₁.slots x hx s₁ hs₁
    have htag : s₁.tag = s.tag := by rw [heq₁]
    refine ⟨s, hs, hsame hsame₁ hsame₂, ?_, ?_⟩
    · rw [heq₂, heq₁]
    · rw [htag] at hvar₂
      obtain hvar₂ | hquota := hvar₂
      · exact hvar₁.imp hvar₂.trans id
      · exact .inr (hquota.mono h₁.defs)

theorem mono {new' : Set Objid} (h : Fades same new db db') (hsub : new ⊆ new') : Fades same new' db db' :=
  ⟨fun x hx => h.objects x fun hm => hx (hsub hm), fun x hx => h.verbs x fun hm => hx (hsub hm),
    fun x hx => h.slots x fun hm => hx (hsub hm), h.defs⟩

end Fades

/-- Who an object belongs to, whether it is a wizard or a programmer, its verbs and its definitions. -/
def Object.standing (o : Object) : Objid × (Bool × Bool) × List Verbdef × List Propdef :=
  (o.owner, Object.powers o, o.verbdefs, o.propdefs)

namespace Alike

variable (h : Alike Object.standing db db')
include h

theorem belongs : Alike (fun o => (o.owner, Object.powers o)) db db' :=
  h.mono fun he => congrArg (fun c => (c.1, c.2.1)) he

theorem sameVerbs : db'.verbsOf = db.verbsOf := verbs (h.mono fun he => congrArg (fun c => c.2.2.1) he)

theorem sameDefs : db'.defsOf = db.defsOf := defs (h.mono fun he => congrArg (fun c => c.2.2.2) he)

end Alike

theorem Fades.of_standing (h : Alike Object.standing db db')
    (hslots : ∀ x, ∀ s' ∈ db'.slotsOf x, s' ∈ db.slotsOf x ∨ ∃ s ∈ db.slotsOf x, db.IsQuota s.tag ∧
      s' = { s with var := s'.var }) : Fades Eq new db db' := by
  refine ⟨fun x _ o' ho' => ?_, fun x _ v' hv' => ⟨v', h.sameVerbs ▸ hv', rfl, rfl⟩, fun x _ s' hs' => ?_,
    fun x d hd => h.sameDefs ▸ hd⟩
  · obtain ⟨o, ho, he⟩ := h.belongs.of_objects ho'
    exact ⟨o, ho, (congrArg Prod.fst he).symm, congrArg Prod.snd he⟩
  · obtain hold | ⟨s, hs, hquota, heq⟩ := hslots x s' hs'
    · exact ⟨s', hold, rfl, rfl, .inl rfl⟩
    · have howner : s'.owner = s.owner := by rw [heq]
      exact ⟨s, hs, howner.symm, by rw [heq], .inr hquota⟩

/-! Upkeep. -/

theorem slotsOf_modifySlot {f : Pval → Pval} {n : Nat} (hdo : db.modifySlot f x n = some db') :
    ∃ s, (db.slotsOf x)[n]? = some s ∧ ∀ y, ∀ s' ∈ db'.slotsOf y, s' ∈ db.slotsOf y ∨ y = x ∧ s' = f s := by
  obtain ⟨o, ho, hlt, rfl⟩ := modifySlot_eq_some hdo
  refine ⟨o.propval[n], by rw [slotsOf_of ho, List.getElem?_eq_getElem hlt], fun y s' hs' => ?_⟩
  obtain rfl | hne := eq_or_ne y x
  · rw [slotsOf_of (Function.update_self _ _ _)] at hs'
    obtain ⟨k, hk, rfl⟩ := List.mem_iff_getElem.mp hs'
    rw [List.getElem_modify]
    split
    · next hnk =>
        subst hnk
        exact .inr ⟨rfl, rfl⟩
    · refine .inl ?_
      rw [slotsOf_of ho]
      exact List.getElem_mem _
  · rw [slotsOf, set_objects, Function.update_of_ne hne] at hs'
    exact .inl hs'

/-- The slot that a name is found in has the tag of a definition with that name. -/
theorem Intact.foundAt_tag {name : Str} {n : Nat} {q : Objid} (hi : Intact db) (hx : x ∈ db.dom)
    (hat : FoundAt db name x n q) (hs : (db.slotsOf x)[n]? = some s) :
    ∃ d ∈ db.defsOf q, d.tag = s.tag ∧ nameMatches d.name name = true := by
  obtain ⟨d, hd, hall, hm⟩ := hat.getElem
  have htags := congrArg (fun l => l[n]?) (hi.slotted.tags x hx)
  simp only [List.getElem?_map, hs, hall, Option.map_some, Option.some.injEq] at htags
  exact ⟨d, hd, htags.symm, hm⟩

theorem foundAt_of_value {name : Str} {n : Nat} {q : Objid} {value : Var} (hi : Intact db) (hx : x ∈ db.dom)
    (hfind : db.findPropertyValue x name = some (some (.slot x n q, value))) : FoundAt db name x n q := by
  simp only [findPropertyValue, Option.bind_eq_bind, Option.bind_eq_some_iff] at hfind
  obtain ⟨found, hfound, hfind⟩ := hfind
  cases found with
  | none => cases hfind
  | some h =>
      cases h with
      | builtIn prop y =>
          simp only [Option.bind_eq_some_iff, Option.pure_def, Option.some.injEq, Prod.mk.injEq] at hfind
          obtain ⟨_, _, heq, _⟩ := hfind
          cases heq
      | slot y m q' =>
          simp only [Option.bind_eq_some_iff, Option.pure_def, Option.some.injEq, Prod.mk.injEq] at hfind
          obtain ⟨_, _, _, _, heq, _⟩ := hfind
          cases heq
          exact (findProperty_slot hi.sound hx hfound).2

theorem Upkeep.standing (hi : Intact db) (h : Upkeep db db') : Alike Object.standing db db' := by
  cases h with
  | lookup hv hdo =>
      rw [findCallableVerb_rest hdo]
      exact fun _ => rfl
  | quota hfind hdo => exact .shows (modifySlot_agree (f := fun p => { p with var := .int _ }) hdo).objects fun _ => rfl
  | place hx hp hacyc hdo =>
      obtain ⟨o, ho⟩ := mem_dom.mp hx
      obtain ⟨db₁, hdo₁, -, ha, -⟩ := changeLocation_spec hi ho hp hacyc
      obtain rfl := Option.some.inj (hdo.symm.trans hdo₁)
      exact .shows ha.objects fun _ => rfl
  | lift hx hp hdo =>
      obtain ⟨hp', hacyc⟩ := hi.sound.lift_acyclic hx hp
      obtain ⟨-, rfl⟩ | ⟨-, -, -, hre⟩ := changeParent_cases hi hx hp' hacyc hdo
      · exact fun _ => rfl
      · exact .shows hre.agree.objects fun _ => rfl

theorem quota_slots {player definer : Objid} {n : Nat} {m value : Int} (hi : Intact db)
    (hfind : db.findPropertyValue player "ownership_quota".toList = some (some (.slot player n definer, .int m)))
    (hdo : db.setPropertyValue (.slot player n definer) (.int value) = some db') (hs' : s' ∈ db'.slotsOf x) :
    s' ∈ db.slotsOf x ∨ ∃ s ∈ db.slotsOf x, db.IsQuota s.tag ∧ s' = { s with var := s'.var } := by
  obtain ⟨s, hs, hslots⟩ := slotsOf_modifySlot (f := fun p => { p with var := .int value }) hdo
  have hmem := List.mem_of_getElem? hs
  have hx := mem_dom_of_slotsOf hmem
  obtain ⟨d, hd, htag, hm⟩ := hi.foundAt_tag hx (foundAt_of_value hi hx hfind) hs
  obtain hold | ⟨rfl, rfl⟩ := hslots x s' hs'
  · exact .inl hold
  · exact .inr ⟨s, hmem, ⟨definer, d, hd, htag, hm⟩, rfl⟩

theorem lift_slots {changed : Bool} (hi : Intact db) (hx : x ∈ db.dom)
    (hp : p = nothing ∨ p ∈ db.chain .family (db.upOf .family x))
    (hdo : db.changeParent x p = some (changed, db')) (hs' : s' ∈ db'.slotsOf y) : s' ∈ db.slotsOf y := by
  obtain ⟨hp', hacyc⟩ := hi.sound.lift_acyclic hx hp
  obtain ⟨-, rfl⟩ | ⟨rfl, -, hi', hre⟩ := changeParent_cases hi hx hp' hacyc hdo
  · exact hs'
  have hin := changeParent_inherits hi hx hp' hacyc hdo
  by_cases hb : db.Below x y
  · obtain ⟨z, d, hd, htag, hz⟩ := hin.exact y hb s' hs'
    -- what is above `p` was above `x`
    have hkept := hin.kept y z d hb hd (hz.imp id fun hz => ⟨?_, hz⟩)
    · have hfound := hi'.slotFor_of_mem hs' htag
      rw [hkept.2] at hfound
      exact (slotFor_mem hfound).1
    · obtain rfl | hp := hp
      · rw [hi.sound.chain_nothing] at hz
        cases hz
      · obtain ⟨l, hl⟩ := hi.sound.chain_suffix (hi.sound.up_mem hx) hp
        rw [hl]
        exact List.mem_append_right _ hz
  · rwa [hre.outside y hb] at hs'

theorem Upkeep.fades (hi : Intact db) (h : Upkeep db db') : Fades Eq new db db' := by
  refine .of_standing (h.standing hi) fun x s' hs' => ?_
  cases h with
  | lookup hv hdo =>
      rw [findCallableVerb_rest hdo] at hs'
      exact .inl hs'
  | quota hfind hdo => exact quota_slots hi hfind hdo hs'
  | place hx hp hacyc hdo =>
      obtain ⟨o, ho⟩ := mem_dom.mp hx
      obtain ⟨db₁, hdo₁, -, ha, -⟩ := changeLocation_spec hi ho hp hacyc
      obtain rfl := Option.some.inj (hdo.symm.trans hdo₁)
      have hslots := (Alike.shows ha.objects fun _ => rfl : Alike Object.propval db db').slots
      exact .inl (hslots ▸ hs')
  | lift hx hp hdo => exact .inl (lift_slots hi hx hp hdo hs')

theorem Upkeeps.standing (hi : Intact db) (h : Upkeeps db db') : Alike Object.standing db db' := by
  induction h with
  | refl => exact fun _ => rfl
  | tail hbefore hlast ih => exact fun x => ((hlast.standing (Upkeeps.intact hi hbefore)) x).trans (ih x)

theorem Upkeeps.fades (hi : Intact db) (h : Upkeeps db db') : Fades Eq new db db' := by
  induction h with
  | refl => exact .refl new db
  | tail hbefore hlast ih => exact ih.trans (hlast.fades (Upkeeps.intact hi hbefore)) Eq.trans

theorem destroyObject_fades (hi : Intact db) (hdo : db.destroyObject oid = some db') : Fades Eq new db db' := by
  obtain ⟨o, users, -, -, -, -, -, -, rfl⟩ := destroyObject_cases hi hdo
  have hobj : ∀ x o', Function.update db.objects oid none x = some o' → db.objects x = some o' := by
    intro x o' ho'
    obtain rfl | hne := eq_or_ne x oid
    · rw [Function.update_self] at ho'
      cases ho'
    · rwa [Function.update_of_ne hne] at ho'
  refine ⟨fun x _ o' ho' => ⟨o', hobj x o' ho', rfl, rfl⟩, fun x _ v' hv' => ⟨v', ?_, rfl, rfl⟩,
    fun x _ s' hs' => ⟨s', ?_, rfl, rfl, .inl rfl⟩, fun x d hd => ?_⟩
  · obtain ⟨o', ho'⟩ := mem_dom.mp (mem_dom_of_verbsOf hv')
    rwa [verbsOf_of ho', ← verbsOf_of (hobj x o' ho')] at hv'
  · obtain ⟨o', ho'⟩ := mem_dom.mp (mem_dom_of_slotsOf hs')
    rwa [slotsOf_of ho', ← slotsOf_of (hobj x o' ho')] at hs'
  · obtain ⟨o', ho'⟩ := mem_dom.mp (mem_dom_of_defsOf hd)
    rwa [defsOf_of ho', ← defsOf_of (hobj x o' ho')] at hd

/-! How the three parts come about. -/

/-- What a new object is like: it belongs to `p`, is neither a wizard nor a programmer, and has no
verbs. -/
structure Ordinary (p : Objid) (o : Object) : Prop where
  owner : o.owner = p
  wizard : o.flags .wizard = false
  programmer : o.flags .programmer = false
  verbs : o.verbdefs = []

theorem ObjectsConfined.of_objects (hs : Sound db) (hs' : Sound db')
    (h : ∀ x ∉ new, ∀ o', db'.objects x = some o' →
      ∃ o, db.objects x = some o ∧ same o.owner o'.owner ∧ Object.powers o' = Object.powers o)
    (hnew : ∀ x ∈ new, x ∉ db.dom ∧ ∀ o', db'.objects x = some o' → Ordinary p o') :
    ObjectsConfined same p db db' := by
  have hflag : ∀ f, (∀ o o', Object.powers o' = Object.powers o → o'.flags f = o.flags f) →
      (∀ o', Ordinary p o' → o'.flags f = false) → ∀ x, db'.hasFlag x f = true → db.hasFlag x f = true := by
    intro f hpow hord x hx
    rw [hs'.hasFlag_eq] at hx
    rw [hs.hasFlag_eq]
    cases ho' : db'.objects x with
    | none => simp [ho'] at hx
    | some o' =>
        rw [ho'] at hx
        by_cases hxn : x ∈ new
        · rw [Option.elim_some, hord o' ((hnew x hxn).2 o' ho')] at hx
          cases hx
        · obtain ⟨o, ho, -, hpowers⟩ := h x hxn o' ho'
          rwa [ho, Option.elim_some, ← hpow o o' hpowers]
  refine ⟨hflag .wizard (fun _ _ he => congrArg Prod.fst he) fun _ hp => hp.wizard,
    hflag .programmer (fun _ _ he => congrArg Prod.snd he) fun _ hp => hp.programmer,
    fun x o o' ho ho' => ?_, fun x o' hx ho' => ?_⟩
  · obtain ⟨o₁, ho₁, hsame, -⟩ := h x (fun hxn => (hnew x hxn).1 (mem_dom_of ho)) o' ho'
    obtain rfl := Option.some.inj (ho.symm.trans ho₁)
    exact hsame
  · by_cases hxn : x ∈ new
    · exact ((hnew x hxn).2 o' ho').owner
    · obtain ⟨o, ho, -⟩ := h x hxn o' ho'
      exact absurd (mem_dom_of ho) hx

theorem ObjectsConfined.of_alike (hs : Sound db) (hs' : Sound db')
    (h : Alike (fun o => (o.owner, Object.powers o)) db db') : ObjectsConfined Eq p db db' := by
  refine .of_objects hs hs' (fun x (_ : x ∉ (∅ : Set Objid)) o' ho' => ?_) (by simp)
  obtain ⟨o, ho, he⟩ := h.of_objects ho'
  exact ⟨o, ho, (congrArg Prod.fst he).symm, congrArg Prod.snd he⟩

theorem VerbsConfined.of_verbs (hd : Distinct db)
    (h : ∀ x, ∀ v' ∈ db'.verbsOf x, ∃ v ∈ db.verbsOf x, same v.owner v'.owner ∧ v' = { v with owner := v'.owner }) :
    VerbsConfined same p db db' := by
  have hold : ∀ x, ∀ v ∈ db.verbsOf x, ∀ v' ∈ db'.verbsOf x, v'.addr = v.addr →
      same v.owner v'.owner ∧ v' = { v with owner := v'.owner } := by
    intro x v hv v' hv' haddr
    obtain ⟨w, hw, hsame, heq⟩ := h x v' hv'
    have hwv : w.addr = v.addr := by rw [← haddr, heq]
    obtain rfl := hd.unique hv hw hwv
    exact ⟨hsame, heq⟩
  refine ⟨fun x v hv v' hv' haddr => (hold x v hv v' hv' haddr).1,
    fun x v hv v' hv' haddr => .inl (hold x v hv v' hv' haddr).2, fun x v' hv' hno => ?_⟩
  obtain ⟨v, hv, -, heq⟩ := h x v' hv'
  exact absurd (by rw [heq]) (hno v hv)

theorem VerbsConfined.of_eq (hd : Distinct db) (h : db'.verbsOf = db.verbsOf) : VerbsConfined Eq p db db' :=
  .of_verbs hd fun _ v' hv' => ⟨v', h ▸ hv', rfl, rfl⟩

theorem SlotsConfined.of_slots (hi : Intact db)
    (h : ∀ x ∈ db.dom, ∀ s' ∈ db'.slotsOf x, ∃ s ∈ db.slotsOf x, same s.owner s'.owner ∧
      s' = { s with owner := s'.owner, var := s'.var } ∧ (s'.var = s.var ∨ db.IsQuota s.tag))
    (hremoved : ∀ x, ∀ s ∈ db.slotsOf x, (∀ s' ∈ db'.slotsOf x, s'.tag ≠ s.tag) → reshaped x) :
    SlotsConfined same p reshaped db db' := by
  have hold : ∀ x, ∀ s ∈ db.slotsOf x, ∀ s' ∈ db'.slotsOf x, s'.tag = s.tag →
      same s.owner s'.owner ∧ s'.perms = s.perms ∧ (s'.var = s.var ∨ db.IsQuota s.tag) := by
    intro x s hs s' hs' htag
    obtain ⟨t, ht, hsame, heq, hvar⟩ := h x (mem_dom_of_slotsOf hs) s' hs'
    have hts : t.tag = s.tag := by rw [← htag, heq]
    obtain rfl := hi.slot_unique hs ht hts
    exact ⟨hsame, by rw [heq], hvar⟩
  refine ⟨fun x s hs s' hs' htag => (hold x s hs s' hs' htag).1,
    fun x s hs s' hs' htag => .inl (hold x s hs s' hs' htag).2, fun x hx s' hs' hno => ?_, hremoved⟩
  obtain ⟨s, hs, -, heq, -⟩ := h x hx s' hs'
  exact absurd (by rw [heq]) (hno s hs)

/-- The slots that are there before and after are the same, and there are others only where the
object is reshaped. -/
theorem SlotsConfined.of_kept
    (hkept : ∀ x, ∀ s ∈ db.slotsOf x, ∀ s' ∈ db'.slotsOf x, s'.tag = s.tag → s' = s)
    (hout : ∀ x, ¬ reshaped x → db'.slotsOf x = db.slotsOf x) : SlotsConfined Eq p reshaped db db' := by
  refine ⟨fun x s hs s' hs' htag => ?_, fun x s hs s' hs' htag => ?_, fun x _ s' hs' hno => ?_,
    fun x s hs hno => ?_⟩
  · rw [hkept x s hs s' hs' htag]
  · rw [hkept x s hs s' hs' htag]
    exact .inl ⟨rfl, .inl rfl⟩
  · by_contra hx
    exact hno s' (hout x hx ▸ hs') rfl
  · by_contra hx
    exact hno s (hout x hx ▸ hs) rfl

theorem SlotsConfined.of_eq (hi : Intact db) (h : db'.slotsOf = db.slotsOf) :
    SlotsConfined Eq p reshaped db db' := by
  refine .of_kept (fun x s hs s' hs' htag => ?_) fun x _ => by rw [h]
  exact hi.slot_unique hs (h ▸ hs') htag

/-- One slot that `p` owns or that may be written is set, but not given away. -/
theorem SlotsConfined.of_one (hi : Intact db) (hs : s ∈ db.slotsOf oid)
    (hslots : ∀ x, ∀ s' ∈ db'.slotsOf x, s' ∈ db.slotsOf x ∨ x = oid ∧ s' = s₁)
    (hkept : ∀ x, ∀ u ∈ db.slotsOf x, ∃ u' ∈ db'.slotsOf x, u'.tag = u.tag)
    (hmay : s.owner = p ∨ s.perms.write = true) (howner : s₁.owner = s.owner) (htag : s₁.tag = s.tag) :
    SlotsConfined Eq p reshaped db db' := by
  have hcases : ∀ x, ∀ u ∈ db.slotsOf x, ∀ u' ∈ db'.slotsOf x, u'.tag = u.tag → u' = u ∨ u = s ∧ u' = s₁ := by
    intro x u hu u' hu' htu
    obtain hold | ⟨rfl, rfl⟩ := hslots x u' hu'
    · exact .inl (hi.slot_unique hu hold htu)
    · exact .inr ⟨hi.slot_unique hs hu (htu.symm.trans htag), rfl⟩
  refine ⟨fun x u hu u' hu' htu => ?_, fun x u hu u' hu' htu => ?_, fun x _ u' hu' hno => ?_, fun x u hu hno => ?_⟩
  · obtain rfl | ⟨rfl, rfl⟩ := hcases x u hu u' hu' htu
    · rfl
    · exact howner.symm
  · obtain rfl | ⟨rfl, rfl⟩ := hcases x u hu u' hu' htu
    · exact .inl ⟨rfl, .inl rfl⟩
    · exact .inr hmay
  · obtain hold | ⟨rfl, rfl⟩ := hslots x u' hu'
    · exact absurd rfl (hno u' hold)
    · exact absurd htag.symm (hno s hs)
  · obtain ⟨u', hu', htu⟩ := hkept x u hu
    exact absurd htu (hno u' hu')

theorem Fades.confined (hi : Intact db) (hi' : Intact db') (hd : Distinct db) (h : Fades same new db db')
    (hnew : ∀ x ∈ new, x ∉ db.dom ∧ ∀ o', db'.objects x = some o' → Ordinary call.progr o')
    (hremoved : ∀ x, ∀ s ∈ db.slotsOf x, (∀ s' ∈ db'.slotsOf x, s'.tag ≠ s.tag) → db.Reshapes x call) :
    Confined same call db db' := by
  refine ⟨.of_objects hi.sound hi'.sound h.objects hnew, .of_verbs hd fun x v' hv' => ?_,
    .of_slots hi (fun x hx => h.slots x fun hxn => (hnew x hxn).1 hx) hremoved⟩
  refine h.verbs x (fun hxn => ?_) v' hv'
  obtain ⟨o', ho'⟩ := mem_dom.mp (mem_dom_of_verbsOf hv')
  rw [verbsOf_of ho', ((hnew x hxn).2 o' ho').verbs] at hv'
  cases hv'

/-- No object has lost a slot when the definitions are met in the same way as before. -/
theorem Fades.confined_of_up (hi : Intact db) (hi' : Intact db') (hd : Distinct db) (h : Fades same new db db')
    (hnew : ∀ x ∈ new, x ∉ db.dom ∧ ∀ o', db'.objects x = some o' → Ordinary call.progr o')
    (hdom : db.dom ⊆ db'.dom) (hup : ∀ x ∈ db.dom, db'.upOf .family x = db.upOf .family x)
    (hdefs : ∀ x ∈ db.dom, db'.defsOf x = db.defsOf x) : Confined same call db db' := by
  refine h.confined hi hi' hd hnew fun x s hs hno => ?_
  have hx := mem_dom_of_slotsOf hs
  obtain ⟨hc, hsub⟩ := hi.sound.chain_spec (h := .family) (.inr hx)
  have hchain : db'.chain .family x = db.chain .family x :=
    hi'.sound.chain_eq (.inr (hdom hx)) (hc.congr fun z hz => hup z (hsub z hz))
  have hall : db'.allDefs x = db.allDefs x := by
    rw [allDefs, hchain]
    exact List.flatMap_congr fun z hz => hdefs z (hsub z hz)
  obtain ⟨s', hs', htag⟩ := hi.slot_kept hi' (hdom hx) hall hs
  exact absurd htag (hno s' hs')

theorem Confined.refl (hi : Intact db) (hd : Distinct db) (call : Call) : Confined Eq call db db :=
  (Fades.refl ∅ db).confined_of_up hi hi hd (by simp) (fun _ hx => hx) (fun _ _ => rfl) fun _ _ => rfl

theorem Confined.mono {same' : Objid → Objid → Prop} (h : Confined same call db db')
    (hsame : ∀ a b, same a b → same' a b) : Confined same' call db db' where
  objects := { h.objects with owner := fun x o o' ho ho' => hsame _ _ (h.objects.owner x o o' ho ho') }
  verbs := { h.verbs with owner := fun x v hv v' hv' ha => hsame _ _ (h.verbs.owner x v hv v' hv' ha) }
  slots := { h.slots with owner := fun x s hs s' hs' ht => hsame _ _ (h.slots.owner x s hs s' hs' ht) }

end Db
end LambdaMoo
