import LambdaMoo.Upkeep

/-! What has been checked when a built-in changes something, and the change it makes. -/
namespace LambdaMoo

namespace Db

variable {db db' : Db} {progr oid what parent : Objid} {o : Object} {env : Env} {r : Package}
  {pname : Str} {value info desc : Var}

theorem unlessRefused {c : Option Bool} {e : Package} {k : Option (Package × Db)}
    (hdo : (c.bind fun b => if b = true then pure (e, db) else k) = some (r, db')) :
    db' = db ∨ c = some false ∧ k = some (r, db') := by
  obtain ⟨b, hb, hdo⟩ := Option.bind_eq_some_iff.mp hdo
  cases b with
  | true => exact .inl (refused hdo)
  | false => exact .inr ⟨hb, hdo⟩

theorem andAlso_false {c : Bool} {b : Option Bool} (h : andAlso c b = some false) :
    c = false ∨ b = some false := by
  cases c with
  | true => exact .inr h
  | false => exact .inl rfl

theorem allowed_of_guard {a w : Bool} {p q : Objid} (h : ¬(!a || (decide (p ≠ q) && !w)) = true) :
    a = true ∧ (p = q ∨ w = true) := by
  cases a <;> cases w <;> simp_all

theorem bfChparent_cases (hi : Intact db) (hdo : db.bfChparent progr what parent = some (r, db')) :
    db' = db ∨ ∃ o changed, db.objects what = some o ∧ db.controls progr o = true ∧
      (parent = nothing ∨ parent ∈ db.dom) ∧ what ∉ db.chain .family parent ∧
      db.checkVerbsBeforeChparent parent what = some false ∧
      db.changeParent what parent = some (changed, db') := by
  unfold bfChparent at hdo
  split at hdo
  · exact .inl (refused hdo)
  next o ho =>
  split at hdo
  · exact .inl (refused hdo)
  split at hdo
  · exact .inl (refused hdo)
  next hmay =>
  rw [hi.sound.find_eq] at ho
  have hcontrols : db.controls progr o = true := by
    by_contra hno
    simp [hno] at hmay
  have hparent : db.mayParent progr parent = true := by
    by_contra hno
    simp [hno] at hmay
  have hp := mayParent_mem hi.sound hparent
  simp only [Option.bind_eq_bind, hi.sound.walkUp_fuel hp, Option.bind_some] at hdo
  split at hdo
  · exact .inl (refused hdo)
  next hacyc =>
  simp only [Option.bind_eq_some_iff] at hdo
  obtain ⟨conflict, hconflict, hdo⟩ := hdo
  cases conflict with
  | true => exact .inl (refused hdo)
  | false =>
      simp only [Bool.false_eq_true, if_false, Option.bind_eq_some_iff, Option.pure_def,
        Option.some.injEq, Prod.mk.injEq] at hdo
      obtain ⟨⟨changed, db₁⟩, hchange, -, rfl⟩ := hdo
      exact .inr ⟨o, changed, ho, hcontrols, hp, hacyc, hconflict, hchange⟩

theorem bfRenumber_cases (hi : Intact db) (hdo : db.bfRenumber env progr oid = some (r, db')) :
    db' = db ∨ ∃ new, oid ∈ db.dom ∧ db.isWizard progr = true ∧
      db.renumberObject env.players oid = some (new, db') := by
  unfold bfRenumber at hdo
  split at hdo
  · exact .inl (refused hdo)
  next hv =>
  split at hdo
  · exact .inl (refused hdo)
  next hwiz =>
  simp only [Option.bind_eq_bind, Option.bind_eq_some_iff, Option.pure_def, Option.some.injEq,
    Prod.mk.injEq] at hdo
  obtain ⟨⟨new, db₁⟩, hre, -, rfl⟩ := hdo
  exact .inr ⟨new, hi.sound.valid_iff.mp (by simpa using hv), by simpa using hwiz, hre⟩

theorem bfResetMaxObject_cases (hdo : db.bfResetMaxObject progr = some (r, db')) :
    db' = db ∨ db.isWizard progr = true ∧
      resetLastUsedObjid (db.numObjects.toNat + 1) db = some db' := by
  unfold bfResetMaxObject at hdo
  split at hdo
  · exact .inl (refused hdo)
  next hwiz =>
  simp only [Option.bind_eq_bind, Option.bind_eq_some_iff, Option.pure_def, Option.some.injEq,
    Prod.mk.injEq] at hdo
  obtain ⟨db₁, hreset, -, rfl⟩ := hdo
  exact .inr ⟨by simpa using hwiz, hreset⟩

/-! Properties. -/

theorem bfAddProp_cases (hi : Intact db) (hdo : db.bfAddProp progr oid pname value info = some (r, db')) :
    db' = db ∨ ∃ o owner flags added, db.objects oid = some o ∧ db.objectAllows o progr .write = true ∧
      (progr = owner ∨ db.isWizard progr = true) ∧
      db.addPropdef oid pname value owner flags = some (added, db') := by
  unfold bfAddProp at hdo
  split at hdo
  · exact .inl (refused hdo)
  next info _ =>
  split at hdo
  · exact .inl (refused hdo)
  split at hdo
  · exact .inl (refused hdo)
  next o ho =>
  split at hdo
  · exact .inl (refused hdo)
  next hmay =>
  simp only [Option.bind_eq_bind, Option.bind_eq_some_iff, Option.pure_def, Option.some.injEq,
    Prod.mk.injEq] at hdo
  obtain ⟨⟨added, db₁⟩, hadd, -, rfl⟩ := hdo
  rw [hi.sound.find_eq] at ho
  refine .inr ⟨o, info.owner, info.flags, added, ho, ?_, ?_, hadd⟩
  · by_contra hno
    simp [hno] at hmay
  · cases hw : db.isWizard progr <;> simp_all

theorem bfDeleteProp_cases (hi : Intact db) (hdo : db.bfDeleteProp progr oid pname = some (r, db')) :
    db' = db ∨ ∃ o deleted, db.objects oid = some o ∧ db.objectAllows o progr .write = true ∧
      db.deletePropdef oid pname = some (deleted, db') := by
  unfold bfDeleteProp at hdo
  split at hdo
  · exact .inl (refused hdo)
  next o ho =>
  split at hdo
  · exact .inl (refused hdo)
  next hmay =>
  simp only [Option.bind_eq_bind, Option.bind_eq_some_iff, Option.pure_def, Option.some.injEq,
    Prod.mk.injEq] at hdo
  obtain ⟨⟨deleted, db₁⟩, hdelete, -, rfl⟩ := hdo
  rw [hi.sound.find_eq] at ho
  exact .inr ⟨o, deleted, ho, by simpa using hmay, hdelete⟩

theorem bfClearProp_cases (hi : Intact db) (hdo : db.bfClearProp progr oid pname = some (r, db')) :
    db' = db ∨ ∃ n definer pv, oid ∈ db.dom ∧ FoundAt db pname oid n definer ∧ definer ≠ oid ∧
      (db.slotsOf oid)[n]? = some pv ∧ (progr = pv.owner ∨ db.isWizard progr = true) ∧
      db.modifySlot (fun p => { p with var := .clear }) oid n = some db' := by
  unfold bfClearProp at hdo
  split at hdo
  · exact .inl (refused hdo)
  next hv =>
  have hx : oid ∈ db.dom := hi.sound.valid_iff.mp (by simpa using hv)
  simp only [Option.bind_eq_bind, Option.bind_eq_some_iff] at hdo
  obtain ⟨found, hfound, hdo⟩ := hdo
  split at hdo
  · exact .inl (refused hdo)
  · exact .inl (refused hdo)
  next oid' n definer =>
  obtain ⟨rfl, hat⟩ := findProperty_slot hi.sound hx hfound
  simp only [Option.bind_eq_some_iff] at hdo
  obtain ⟨pv, hpv, hdo⟩ := hdo
  split at hdo
  · exact .inl (refused hdo)
  next hmay =>
  split at hdo
  · exact .inl (refused hdo)
  next hdef =>
  simp only [Option.bind_eq_some_iff, Option.pure_def, Option.some.injEq, Prod.mk.injEq] at hdo
  obtain ⟨db₁, hset, -, rfl⟩ := hdo
  refine .inr ⟨n, definer, pv, hx, hat, hdef, ?_, ?_, hset⟩
  · simp only [slotOf, Option.bind_eq_bind, Option.bind_eq_some_iff] at hpv
    obtain ⟨o, ho, hpv⟩ := hpv
    rwa [slotsOf_of ho]
  · cases hw : db.isWizard progr <;> simp_all

theorem putProp_cases {e : Error} {obj propname rhs : Var} (hi : Intact db)
    (hdo : db.putProp progr obj propname rhs = some (e, db')) :
    db' = db ∨ ∃ oid name h, propname = .str name ∧ oid ∈ db.dom ∧
      db.findProperty oid name = some (some h) ∧ db.putPropError progr rhs h = some .eNone ∧
      db.setPropertyValue h rhs = some db' := by
  unfold putProp at hdo
  split at hdo
  swap
  · exact .inl (refused hdo)
  next oid name =>
  split at hdo
  · exact .inl (refused hdo)
  next hv =>
  have hx : oid ∈ db.dom := hi.sound.valid_iff.mp (by simpa using hv)
  simp only [Option.bind_eq_bind, Option.bind_eq_some_iff] at hdo
  obtain ⟨found, hfound, hdo⟩ := hdo
  cases found with
  | none => exact .inl (refused hdo)
  | some h =>
      simp only [Option.bind_eq_some_iff] at hdo
      obtain ⟨err, herr, hdo⟩ := hdo
      split at hdo
      · exact .inl (refused hdo)
      · next hnone =>
          simp only [Option.bind_eq_some_iff, Option.pure_def, Option.some.injEq, Prod.mk.injEq] at hdo
          obtain ⟨db₁, hset, -, rfl⟩ := hdo
          have hnone : err = .eNone := by simpa using hnone
          exact .inr ⟨oid, name, h, rfl, hx, hfound, hnone ▸ herr, hset⟩

theorem propertyAllows_slot {n : Nat} {definer : Objid} {b : Bool} {flag : PropPerms → Bool}
    (h : db.propertyAllows (.slot oid n definer) progr flag = some b) :
    ∃ pv, (db.slotsOf oid)[n]? = some pv ∧ b = (flag pv.perms || progr == pv.owner || db.isWizard progr) := by
  simp only [propertyAllows, slotOf, Option.bind_eq_bind, Option.bind_eq_some_iff, Option.pure_def,
    Option.some.injEq] at h
  obtain ⟨pv, ⟨o, ho, hpv⟩, rfl⟩ := h
  exact ⟨pv, by rwa [slotsOf_of ho], rfl⟩

theorem newName_of_flags {owner : Objid} {pi : PropInfo}
    (h : (if (!db.valid owner) = true then Except.error Error.eInvarg
      else match List.foldlM propFlagLetter {} perms with
        | none => .error .eInvarg
        | some flags => .ok { owner, flags, newName }) = .ok pi) : pi.newName = newName := by
  split at h
  · cases h
  · split at h
    · cases h
    · cases h
      rfl

theorem validatePropInfo_newName {pi : PropInfo} (hv : info.isValue = true)
    (h : db.validatePropInfo info = .ok pi) : ∀ s, pi.newName = some s → Terminated s := by
  intro s hs
  unfold validatePropInfo at h
  dsimp only at h
  split at h
  · rw [newName_of_flags h] at hs
    cases hs
  · next owner perms name =>
      rw [newName_of_flags h, Option.some.injEq] at hs
      subst hs
      have : Terminated perms ∧ Terminated name := by simpa [Var.isValue, Var.areValues] using hv
      exact this.2
  · cases h

def setSlotInfo (owner : Objid) (perms : PropPerms) (h : PropHandle) (db : Db) : Option Db :=
  (db.setPropertyOwner owner h).bind fun db => db.setPropertyFlags perms h

theorem bfSetPropInfo_cases (hi : Intact db) (ht : Terminated pname) (hval : info.isValue = true)
    (hdo : db.bfSetPropInfo progr oid pname info = some (r, db')) :
    db' = db ∨ ∃ pi n definer pv, oid ∈ db.dom ∧ db.validatePropInfo info = .ok pi ∧
      FoundAt db pname oid n definer ∧ (db.slotsOf oid)[n]? = some pv ∧
      (pv.perms.write || progr == pv.owner || db.isWizard progr) = true ∧
      (db.isWizard progr = true ∨ pv.owner = pi.owner) ∧
      (setSlotInfo pi.owner pi.flags (.slot oid n definer) db = some db' ∨
        ∃ newName db₁ h, pi.newName = some newName ∧
          db.renamePropdef oid pname newName = some (true, db₁) ∧
          db₁.findProperty oid newName = some (some h) ∧
          setSlotInfo pi.owner pi.flags h db₁ = some db') := by
  unfold bfSetPropInfo at hdo
  split at hdo
  · exact .inl (refused hdo)
  next hv =>
  have hx : oid ∈ db.dom := hi.sound.valid_iff.mp (by simpa using hv)
  split at hdo
  · exact .inl (refused hdo)
  next pi hpi =>
  simp only [Option.bind_eq_bind, Option.bind_eq_some_iff] at hdo
  obtain ⟨found, hfound, hdo⟩ := hdo
  split at hdo
  · exact .inl (refused hdo)
  · exact .inl (refused hdo)
  next h hslot =>
  cases h with
  | builtIn prop oid' => exact (hslot prop oid' rfl).elim
  | slot oid' n definer =>
  obtain ⟨rfl, hat⟩ := findProperty_slot hi.sound hx hfound
  simp only [Option.bind_eq_some_iff] at hdo
  obtain ⟨allows, hallows, slot, hslot', hdo⟩ := hdo
  obtain ⟨pv, hpv, rfl⟩ := propertyAllows_slot hallows
  have hsame : slot = pv := by
    simp only [slotOf, Option.bind_eq_bind, Option.bind_eq_some_iff] at hslot'
    obtain ⟨o, ho, hslot'⟩ := hslot'
    rw [slotsOf_of ho, hslot'] at hpv
    exact Option.some.inj hpv
  subst hsame
  split at hdo
  · exact .inl (refused hdo)
  next hmay =>
  have hmay' : (slot.perms.write || progr == slot.owner || db.isWizard progr) = true ∧
      (db.isWizard progr = true ∨ slot.owner = pi.owner) := by
    clear hdo
    cases hw : db.isWizard progr <;> cases hperm : slot.perms.write <;> simp_all
  split at hdo
  · next hnew =>
      simp only [Option.bind_eq_some_iff, Option.pure_def, Option.some.injEq, Prod.mk.injEq] at hdo
      obtain ⟨db₁, howner, db₂, hflags, -, rfl⟩ := hdo
      refine .inr ⟨pi, n, definer, slot, hx, hpi, hat, hpv, hmay'.1, hmay'.2, .inl ?_⟩
      rw [setSlotInfo, howner, Option.bind_some, hflags]
  · next newName hnew =>
      simp only [Option.bind_eq_some_iff] at hdo
      obtain ⟨⟨renamed, db₁⟩, hrename, hdo⟩ := hdo
      cases renamed with
      | false =>
          simp only [Bool.not_false, if_true] at hdo
          have hsame : db₁ = db := by
            obtain hno | ⟨db₂, hyes, -⟩ := renamePropdef_spec hi.sound hi.slotted hx ht
              (validatePropInfo_newName hval hpi newName hnew)
            · rw [hrename] at hno
              exact congrArg Prod.snd (Option.some.inj hno)
            · rw [hrename] at hyes
              cases hyes
          rw [hsame] at hdo
          exact .inl (refused hdo)
      | true =>
          simp only [Bool.not_true, Bool.false_eq_true, if_false, Option.bind_eq_some_iff,
            Option.pure_def, Option.some.injEq, Prod.mk.injEq] at hdo
          obtain ⟨found', hfound', h, rfl, db₂, howner, db₃, hflags, -, rfl⟩ := hdo
          refine .inr ⟨pi, n, definer, slot, hx, hpi, hat, hpv, hmay'.1, hmay'.2, .inr
            ⟨newName, db₁, h, hnew, hrename, hfound', ?_⟩⟩
          rw [setSlotInfo, howner, Option.bind_some, hflags]

/-! Verbs. -/

def Handles (db : Db) (oid : Objid) (h : VerbHandle) : Prop :=
  h.definer = oid ∧ ∃ v ∈ ((db.objects oid).elim [] Object.verbdefs), v.addr = h.verbdef

theorem findDescribedVerb_handles {h : VerbHandle} (hs : Sound db)
    (hfind : db.findDescribedVerb oid desc = some (some h)) : db.Handles oid h := by
  have hhandle : ∀ o (v : Verbdef), db.find oid = some o → v ∈ o.verbdefs →
      db.Handles oid { definer := o.id, verbdef := v.addr } := by
    intro o v ho hv
    rw [hs.find_eq] at ho
    exact ⟨(hs.ids ho).1, v, by simpa [ho] using hv, rfl⟩
  unfold findDescribedVerb at hfind
  split at hfind
  · simp only [findIndexedVerb, Option.bind_eq_bind, Option.bind_eq_some_iff] at hfind
    obtain ⟨o, ho, hfind⟩ := hfind
    split at hfind
    · cases hfind
    · simp only [Option.pure_def, Option.some.injEq, Option.map_eq_some_iff] at hfind
      obtain ⟨v, hv, rfl⟩ := hfind
      exact hhandle o v ho (List.mem_of_getElem? hv)
  · simp only [findDefinedVerb, Option.bind_eq_bind, Option.bind_eq_some_iff] at hfind
    obtain ⟨flag, -, o, ho, hfind⟩ := hfind
    simp only [Option.pure_def, Option.some.injEq, Option.map_eq_some_iff] at hfind
    obtain ⟨⟨v, i⟩, hv, rfl⟩ := hfind
    have hmem := List.mem_of_find?_eq_some hv
    exact hhandle o v ho (List.mem_of_getElem? (List.mem_zipIdx_iff_getElem?.mp hmem))
  · cases hfind

theorem describedVerb_ok {h : VerbHandle} (hdo : db.describedVerb oid desc = some (.ok h)) :
    db.findDescribedVerb oid desc = some (some h) := by
  simp only [describedVerb, Option.bind_eq_bind, Option.bind_eq_some_iff] at hdo
  obtain ⟨found, hfound, hdo⟩ := hdo
  cases found with
  | none => cases hdo
  | some h' =>
      cases hdo
      exact hfound

theorem verbAllows_some {h : VerbHandle} {b : Bool} {flag : VerbFlags → Bool}
    (hdo : db.verbAllows h progr flag = some b) :
    ∃ v, db.verbOf h = some v ∧ b = (flag v.flags || progr == v.owner || db.isWizard progr) := by
  simp only [verbAllows, Option.bind_eq_bind, Option.bind_eq_some_iff, Option.pure_def,
    Option.some.injEq] at hdo
  obtain ⟨v, hv, rfl⟩ := hdo
  exact ⟨v, hv, rfl⟩

theorem bfAddVerb_cases {info args : List Var} (hi : Intact db)
    (hdo : db.bfAddVerb env progr oid info args = some (r, db')) :
    db' = db ∨ ∃ o vi specs count, db.objects oid = some o ∧ db.validateVerbInfo info = some (.ok vi) ∧
      db.objectAllows o progr .write = true ∧ (progr = vi.owner ∨ db.isWizard progr = true) ∧
      (db.isWizard vi.owner = true ∨
        db.nameConflictWithAncestor o.parent vi.owner vi.names = some false) ∧
      (vi.flags.notO = false ∨ db.nameConflictWithDescendants oid vi.owner vi.names = some false) ∧
      db.addVerb oid env.addr vi.names vi.owner vi.flags specs = some (count, db') := by
  unfold bfAddVerb at hdo
  obtain ⟨valid, hvalid, hdo⟩ := Option.bind_eq_some_iff.mp hdo
  split at hdo
  · exact .inl (refused hdo)
  next vi =>
  split at hdo
  · exact .inl (refused hdo)
  next specs _ =>
  split at hdo
  · exact .inl (refused hdo)
  next o ho =>
  rw [hi.sound.find_eq] at ho
  split at hdo
  · exact .inl (refused hdo)
  next hmay =>
  obtain ⟨hwrite, howner⟩ := allowed_of_guard hmay
  obtain hsame | ⟨-, hdo⟩ := unlessRefused hdo
  · exact .inl hsame
  obtain hsame | ⟨hanc, hdo⟩ := unlessRefused hdo
  · exact .inl hsame
  obtain hsame | ⟨hdesc, hdo⟩ := unlessRefused hdo
  · exact .inl hsame
  obtain ⟨⟨count, db₁⟩, hadd, hdo⟩ := Option.bind_eq_some_iff.mp hdo
  obtain rfl := refused hdo
  exact .inr ⟨o, vi, specs, count, ho, hvalid, hwrite, howner,
    (andAlso_false hanc).imp (by simp) id, andAlso_false hdesc, hadd⟩

theorem bfDeleteVerb_cases (hi : Intact db) (hdo : db.bfDeleteVerb progr oid desc = some (r, db')) :
    db' = db ∨ ∃ o h, db.objects oid = some o ∧ db.objectAllows o progr .write = true ∧
      db.Handles oid h ∧ db.deleteVerb h = some db' := by
  unfold bfDeleteVerb at hdo
  split at hdo
  · exact .inl (refused hdo)
  split at hdo
  · exact .inl (refused hdo)
  next o ho =>
  rw [hi.sound.find_eq] at ho
  split at hdo
  · exact .inl (refused hdo)
  next hmay =>
  obtain ⟨found, hfound, hdo⟩ := Option.bind_eq_some_iff.mp hdo
  cases found with
  | none => exact .inl (refused hdo)
  | some h =>
      obtain ⟨db₁, hdelete, hdo⟩ := Option.bind_eq_some_iff.mp hdo
      obtain rfl := refused hdo
      exact .inr ⟨o, h, ho, by simpa using hmay, findDescribedVerb_handles hi.sound hfound, hdelete⟩

@[simp] theorem affected_objects : db.affectedCallableVerbLookup.objects = db.objects := rfl

theorem setVerbInfo_eq {owner : Objid} {flags : VerbFlags} {names : Str} {h : VerbHandle} {db₁ db₂ : Db}
    (h₁ : db.setVerbOwner owner h = some db₁) (h₂ : db₁.setVerbFlags flags h = some db₂)
    (h₃ : db₂.setVerbNames names h = some db') :
    db.affectedCallableVerbLookup.modifyVerb (fun v => { v with owner, flags, name := names }) h =
      some db' := by
  obtain ⟨o, v, ho, hv, haddr, hof, rfl⟩ := modifyVerb_eq_some h₁
  obtain ⟨o₁, -, ho₁, -, -, -, rfl⟩ := modifyVerb_eq_some h₂
  obtain ⟨o₂, -, ho₂, -, -, -, rfl⟩ := modifyVerb_eq_some h₃
  simp only [affected_objects, set_objects, Function.update_self, Option.some.injEq] at ho₁
  subst ho₁
  simp only [affected_objects, set_objects, Function.update_self, Option.some.injEq] at ho₂
  subst ho₂
  have hof' : db.affectedCallableVerbLookup.verbOf h = some v := hof
  have hobj : db.affectedCallableVerbLookup.objects h.definer = some o := ho
  simp only [modifyVerb, hobj, hof', Option.bind_eq_bind, Option.bind_some, Option.pure_def,
    Option.some.injEq]
  have hverbs : (o.verbdefs.map fun v => if v.addr = h.verbdef then { v with owner, flags, name := names }
        else v) =
      ((o.verbdefs.map fun v => if v.addr = h.verbdef then { v with owner } else v).map
        fun v => if v.addr = h.verbdef then { v with flags } else v).map
          fun v => if v.addr = h.verbdef then { v with name := names } else v := by
    rw [List.map_map, List.map_map]
    refine List.map_congr_left fun w _ => ?_
    by_cases hw : w.addr = h.verbdef <;> simp [hw]
  simp only [hverbs, Db.set, affectedCallableVerbLookup, Function.update_idem]

theorem bfSetVerbInfo_cases {info : List Var} (hi : Intact db)
    (hdo : db.bfSetVerbInfo env progr oid desc info = some (r, db')) :
    db' = db ∨ ∃ o vi h v again last, db.objects oid = some o ∧ db.validateVerbInfo info = some (.ok vi) ∧
      db.findDescribedVerb oid desc = some (some h) ∧ db.verbOf h = some v ∧
      (v.flags.write || progr == v.owner || db.isWizard progr) = true ∧
      (v.owner = vi.owner ∨ db.isWizard progr = true) ∧
      (((vi.owner != v.owner || !sameName vi.names v.name) && !db.isWizard vi.owner) = false ∨
        db.nameConflictWithAncestor o.parent vi.owner vi.names = some false) ∧
      db.findDescribedVerb oid (freedDesc env false desc) = some again ∧
      (vi.flags.notO = true → ∃ h₁ v₁, again = some h₁ ∧ db.verbOf h₁ = some v₁ ∧
        ((vi.owner != v₁.owner || !v₁.flags.notO || sameName vi.names v₁.name) = false ∨
          db.nameConflictWithDescendants oid vi.owner vi.names = some false)) ∧
      db.findDescribedVerb oid (freedDesc env true desc) = some (some last) ∧
      db.affectedCallableVerbLookup.modifyVerb
        (fun v => { v with owner := vi.owner, flags := vi.flags, name := vi.names }) last = some db' := by
  unfold bfSetVerbInfo at hdo
  split at hdo
  · exact .inl (refused hdo)
  split at hdo
  · exact .inl (refused hdo)
  next o ho =>
  rw [hi.sound.find_eq] at ho
  obtain ⟨valid, hvalid, hdo⟩ := Option.bind_eq_some_iff.mp hdo
  split at hdo
  · exact .inl (refused hdo)
  next vi =>
  obtain ⟨described, hdescribed, hdo⟩ := Option.bind_eq_some_iff.mp hdo
  split at hdo
  · exact .inl (refused hdo)
  next h =>
  obtain ⟨v, hv, hdo⟩ := Option.bind_eq_some_iff.mp hdo
  obtain ⟨allows, hallows, hdo⟩ := Option.bind_eq_some_iff.mp hdo
  obtain ⟨v', hv', rfl⟩ := verbAllows_some hallows
  obtain rfl := Option.some.inj (hv.symm.trans hv')
  split at hdo
  · exact .inl (refused hdo)
  next hmay =>
  have hmay' : (v.flags.write || progr == v.owner || db.isWizard progr) = true ∧
      (v.owner = vi.owner ∨ db.isWizard progr = true) := by
    refine allowed_of_guard (p := v.owner) fun hno => hmay ?_
    rwa [Bool.and_comm] at hno
  obtain ⟨protects, -, hdo⟩ := Option.bind_eq_some_iff.mp hdo
  split at hdo
  · exact .inl (refused hdo)
  obtain hsame | ⟨hanc, hdo⟩ := unlessRefused hdo
  · exact .inl hsame
  obtain ⟨again, hagain, hdo⟩ := Option.bind_eq_some_iff.mp hdo
  obtain hsame | ⟨hdesc, hdo⟩ := unlessRefused hdo
  · exact .inl hsame
  obtain ⟨found, hfound, hdo⟩ := Option.bind_eq_some_iff.mp hdo
  obtain ⟨last, hlast, hdo⟩ := Option.bind_eq_some_iff.mp hdo
  obtain ⟨db₁, h₁, hdo⟩ := Option.bind_eq_some_iff.mp hdo
  obtain ⟨db₂, h₂, hdo⟩ := Option.bind_eq_some_iff.mp hdo
  obtain ⟨db₃, h₃, hdo⟩ := Option.bind_eq_some_iff.mp hdo
  obtain rfl := refused hdo
  refine .inr ⟨o, vi, h, v, again, last, ho, hvalid, describedVerb_ok hdescribed, hv, hmay'.1, hmay'.2,
    andAlso_false hanc, hagain, fun hnotO => ?_, hlast ▸ hfound, setVerbInfo_eq h₁ h₂ h₃⟩
  obtain ⟨h₁, hh₁, hasked⟩ := Option.bind_eq_some_iff.mp ((andAlso_false hdesc).resolve_left (by simp [hnotO]))
  obtain ⟨v₁, hv₁, hasked⟩ := Option.bind_eq_some_iff.mp hasked
  exact ⟨h₁, v₁, hh₁, hv₁, andAlso_false hasked⟩

def Rematches (env : Env) (db : Db) (oid : Objid) (desc : Var) : Prop :=
  ∀ again, db.findDescribedVerb oid (freedDesc env again desc) = db.findDescribedVerb oid desc

def Call.rematches (env : Env) (db : Db) : Call → Prop
  | .setVerbInfo _ oid desc _ => Rematches env db oid desc.val
  | _ => True

theorem bfSetVerbInfo_rematched {info : List Var} (hi : Intact db) (hagain : Rematches env db oid desc)
    (hdo : db.bfSetVerbInfo env progr oid desc info = some (r, db')) :
    db' = db ∨ ∃ o vi h v, db.objects oid = some o ∧ db.validateVerbInfo info = some (.ok vi) ∧
      db.findDescribedVerb oid desc = some (some h) ∧ db.verbOf h = some v ∧
      (v.flags.write || progr == v.owner || db.isWizard progr) = true ∧
      (v.owner = vi.owner ∨ db.isWizard progr = true) ∧
      (((vi.owner != v.owner || !sameName vi.names v.name) && !db.isWizard vi.owner) = false ∨
        db.nameConflictWithAncestor o.parent vi.owner vi.names = some false) ∧
      ((vi.flags.notO && (vi.owner != v.owner || !v.flags.notO || sameName vi.names v.name)) = false ∨
        db.nameConflictWithDescendants oid vi.owner vi.names = some false) ∧
      db.affectedCallableVerbLookup.modifyVerb
        (fun v => { v with owner := vi.owner, flags := vi.flags, name := vi.names }) h = some db' := by
  obtain hsame | ⟨o, vi, h, v, again, last, ho, hvi, hh, hv, hmay, howner, hanc, hfalse, hdesc, htrue, hset⟩ :=
    bfSetVerbInfo_cases hi hdo
  · exact .inl hsame
  rw [hagain, hh, Option.some.injEq] at hfalse
  rw [hagain, hh, Option.some.injEq, Option.some.injEq] at htrue
  subst hfalse htrue
  refine .inr ⟨o, vi, h, v, ho, hvi, hh, hv, hmay, howner, hanc, ?_, hset⟩
  cases hnotO : vi.flags.notO with
  | false => exact .inl rfl
  | true =>
      obtain ⟨h₁, v₁, hh₁, hv₁, hor⟩ := hdesc hnotO
      obtain rfl := Option.some.inj hh₁
      obtain rfl := Option.some.inj (hv.symm.trans hv₁)
      exact hor.imp (fun hno => by rw [hno, Bool.and_false]) id

theorem bfSetVerbArgs_cases {args : List Var} (hi : Intact db)
    (hdo : db.bfSetVerbArgs env progr oid desc args = some (r, db')) :
    db' = db ∨ ∃ specs h v, db.Handles oid h ∧ db.verbOf h = some v ∧
      (v.flags.write || progr == v.owner || db.isWizard progr) = true ∧
      db.setVerbArgSpecs specs h = some db' := by
  unfold bfSetVerbArgs at hdo
  split at hdo
  · exact .inl (refused hdo)
  split at hdo
  · exact .inl (refused hdo)
  split at hdo
  · exact .inl (refused hdo)
  next specs _ =>
  obtain ⟨described, hdescribed, hdo⟩ := Option.bind_eq_some_iff.mp hdo
  split at hdo
  · exact .inl (refused hdo)
  next h =>
  obtain ⟨allows, hallows, hdo⟩ := Option.bind_eq_some_iff.mp hdo
  obtain ⟨v, hv, rfl⟩ := verbAllows_some hallows
  split at hdo
  · exact .inl (refused hdo)
  next hmay =>
  obtain ⟨db₁, hset, hdo⟩ := Option.bind_eq_some_iff.mp hdo
  obtain rfl := refused hdo
  exact .inr ⟨specs, h, v, findDescribedVerb_handles hi.sound (describedVerb_ok hdescribed), hv,
    by rwa [Bool.not_eq_true', Bool.not_eq_false] at hmay, hset⟩

theorem bfSetVerbCode_cases {code : List Var} (hi : Intact db)
    (hdo : db.bfSetVerbCode env progr oid desc code = some (r, db')) :
    db' = db ∨ ∃ program h v, db.Handles oid h ∧ db.verbOf h = some v ∧
      (v.flags.write || progr == v.owner || db.isWizard progr) = true ∧
      db.setVerbProgram program h = some db' := by
  unfold bfSetVerbCode at hdo
  split at hdo
  · exact .inl (refused hdo)
  split at hdo
  · exact .inl (refused hdo)
  split at hdo
  · exact .inl (refused hdo)
  obtain ⟨described, hdescribed, hdo⟩ := Option.bind_eq_some_iff.mp hdo
  split at hdo
  · exact .inl (refused hdo)
  next h =>
  obtain ⟨allows, hallows, hdo⟩ := Option.bind_eq_some_iff.mp hdo
  obtain ⟨v, hv, rfl⟩ := verbAllows_some hallows
  split at hdo
  · exact .inl (refused hdo)
  next hmay =>
  split at hdo
  · exact .inl (refused hdo)
  next program _ =>
  split at hdo
  · exact .inl (refused hdo)
  obtain ⟨db₁, hset, hdo⟩ := Option.bind_eq_some_iff.mp hdo
  obtain rfl := refused hdo
  refine .inr ⟨program, h, v, findDescribedVerb_handles hi.sound (describedVerb_ok hdescribed), hv, ?_, hset⟩
  by_contra hno
  rw [Bool.not_eq_true] at hno
  exact hmay (by simp [hno])

end Db
end LambdaMoo
