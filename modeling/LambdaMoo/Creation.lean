import LambdaMoo.Inheritance
import LambdaMoo.VerbCache

/-! What the three functions that make an object leave when they fail, and when they do not. -/
namespace LambdaMoo

namespace Db

variable {db db' db'' : Db} {oid owner p x : Objid} {o : Object} {env : Env} {verb : Str} {shared : Sharing}

def quotaName : Str := "ownership_quota".toList

def quotaOf (db : Db) (who : Objid) : Option Int :=
  if db.valid who then
    match db.findPropertyValue who quotaName with
    | some (some (_, .int num)) => some num
    | _ => none
  else none

/-! Where a name is found, and what a slot with a value is read as. -/

theorem FoundAt.findIdx {name : Str} {n : Nat} {q : Objid} (hf : FoundAt db name x n q) :
    (db.allDefs x).findIdx? (fun d => nameMatches d.name name) = some n := by
  obtain ⟨l, rest, i, hc, rfl, hi, hno⟩ := hf
  have hnone : (l.flatMap db.defsOf).findIdx? (fun d => nameMatches d.name name) = none :=
    List.findIdx?_eq_none_iff.mpr hno
  rw [allDefs, hc, List.flatMap_append, List.flatMap_cons, List.findIdx?_append, hnone,
    List.findIdx?_append, hi]
  simp [Nat.add_comm]

theorem Sound.value_of_slot {n : Nat} {source : Objid} {v : Var} (hs : Sound db) (hx : x ∈ db.dom)
    (hv : ValueAt db n x source v) {pv : Pval} (hpv : (db.slotsOf x)[n]? = some pv) (hne : pv.var ≠ .clear) :
    v = pv.var := by
  obtain ⟨l, rest, m, pv', hc, hn, hget, hvar, -, hclear⟩ := hv
  cases l with
  | nil =>
      rw [List.nil_append, hs.chain_cons hx, List.cons.injEq] at hc
      rw [List.flatMap_nil, List.length_nil, Nat.zero_add] at hn
      rw [← hc.1, ← hn, hpv, Option.some.injEq] at hget
      rw [← hvar, hget]
  | cons z l =>
      rw [List.cons_append, hs.chain_cons hx, List.cons.injEq] at hc
      obtain ⟨pz, hpz, hvarz⟩ := hclear [] z l rfl n (by simp)
      rw [← hc.1, hpv, Option.some.injEq] at hpz
      exact absurd (hpz ▸ hvarz) hne

theorem quotaOf_of_slot {n : Nat} {definer : Objid} {num : Int} {pv : Pval} (hi : Intact db) (hx : x ∈ db.dom)
    (hf : FoundAt db quotaName x n definer) (hpv : (db.slotsOf x)[n]? = some pv) (hvar : pv.var = .int num) :
    db.quotaOf x = some num := by
  rw [quotaOf, if_pos (hi.sound.valid_iff.mpr hx)]
  obtain ⟨e, he, hm, -⟩ | ⟨-, ⟨-, hall⟩ | ⟨n', definer', v, source, hat, hvalue, hfind⟩⟩ := hi.finds hx quotaName
  · have hno : ∀ e ∈ ptable, nameMatches e.1 quotaName = false := by decide
    rw [hno e he] at hm
    cases hm
  · obtain ⟨d, -, hd, hm⟩ := hf.getElem
    rw [hall d (List.mem_of_getElem? hd)] at hm
    cases hm
  · obtain rfl : n' = n := Option.some.inj (hat.findIdx.symm.trans hf.findIdx)
    have hv : v = .int num := (hi.sound.value_of_slot hx hvalue hpv (by simp [hvar])).trans hvar
    rw [hfind, hv]

theorem exists_findQuota (hi : Intact db) (hx : x ∈ db.dom) :
    ∃ found, db.findPropertyValue x quotaName = some found ∧
      ∀ h num, found = some (h, .int num) → db.quotaOf x = some num := by
  have hsome : ∃ found, db.findPropertyValue x quotaName = some found := by
    obtain ⟨e, he, hm, -⟩ | ⟨-, ⟨hfind, -⟩ | ⟨n, definer, v, source, -, -, hfind⟩⟩ := hi.finds hx quotaName
    · have hno : ∀ e ∈ ptable, nameMatches e.1 quotaName = false := by decide
      rw [hno e he] at hm
      cases hm
    · exact ⟨_, hfind⟩
    · exact ⟨_, hfind⟩
  obtain ⟨found, hfind⟩ := hsome
  refine ⟨found, hfind, fun h num heq => ?_⟩
  rw [quotaOf, if_pos (hi.sound.valid_iff.mpr hx), hfind, heq]

theorem quotaOf_eq_some {num : Int} (hi : Intact db) (h : db.quotaOf x = some num) :
    x ∈ db.dom ∧ ∃ n definer, FoundAt db quotaName x n definer ∧
      db.findPropertyValue x quotaName = some (some (.slot x n definer, .int num)) := by
  unfold quotaOf at h
  split at h
  · next hv =>
      have hx := hi.sound.valid_iff.mp hv
      refine ⟨hx, ?_⟩
      obtain ⟨e, he, hm, -⟩ | ⟨-, ⟨hfind, -⟩ | ⟨n, definer, v, source, hat, -, hfind⟩⟩ := hi.finds hx quotaName
      · have hno : ∀ e ∈ ptable, nameMatches e.1 quotaName = false := by decide
        rw [hno e he] at hm
        cases hm
      · rw [hfind] at h
        cases h
      · rw [hfind] at h
        cases v with
        | int n' =>
            obtain rfl := Option.some.inj h
            exact ⟨n, definer, hat, hfind⟩
        | _ => cases h
  · cases h

/-! The charge. -/

def charge (db : Db) (owner : Objid) : Option (Bool × Db) :=
  if db.valid owner then db.decrQuota owner else some (true, db)

def QuotaSlot (db : Db) (owner : Objid) (num : Int) : Prop :=
  ∃ n definer pv, FoundAt db quotaName owner n definer ∧ (db.slotsOf owner)[n]? = some pv ∧ pv.var = .int num

/-- Either there is no quota, or it is used up, or it is one less. -/
inductive Charged (db : Db) (owner : Objid) : Bool → Db → Prop
  | free (hnone : db.quotaOf owner = none) : Charged db owner true db
  | refused {num : Int} (hnum : db.quotaOf owner = some num) (hle : num ≤ 0) : Charged db owner false db
  | paid {num : Int} {db₁ : Db} (hnum : db.quotaOf owner = some num) (hpos : 0 < num) (hups : Upkeeps db db₁)
      (ha : Agree Object.withoutSlots db db₁) (hslot : QuotaSlot db₁ owner (wrap32 (num - 1))) :
      Charged db owner true db₁

theorem FoundAt.withoutSlots {name : Str} {n : Nat} {q : Objid} (ha : Agree Object.withoutSlots db db')
    (hf : FoundAt db name x n q) : FoundAt db' name x n q := by
  unfold FoundAt
  rw [Agree.chain_withoutSlots ha, ha.defsOf_withoutSlots]
  exact hf

theorem charge_spec (hi : Intact db) (owner : Objid) :
    ∃ granted db₁, db.charge owner = some (granted, db₁) ∧ Charged db owner granted db₁ := by
  unfold charge
  by_cases hv : db.valid owner = true
  swap
  · exact ⟨true, db, if_neg hv, .free (if_neg hv)⟩
  rw [if_pos hv]
  have hups : ∀ {granted db₁}, db.decrQuota owner = some (granted, db₁) → Upkeeps db db₁ :=
    fun hdo => (decrQuota_tends (k := none) hi hdo).upkeeps
  unfold decrQuota at hups ⊢
  rw [if_neg (by simp [hv])] at hups ⊢
  cases hq : db.quotaOf owner with
  | none =>
      refine ⟨true, db, ?_, .free hq⟩
      obtain ⟨found, hfind, hno⟩ := exists_findQuota hi (hi.sound.valid_iff.mp hv)
      change db.findPropertyValue owner "ownership_quota".toList = _ at hfind
      rw [hfind, Option.bind_eq_bind, Option.bind_some]
      split
      · next _ h num => exact absurd (hq.symm.trans (hno h num rfl)) nofun
      · rfl
  | some num =>
      obtain ⟨hx, n, definer, hat, hfind⟩ := quotaOf_eq_some hi hq
      change db.findPropertyValue owner "ownership_quota".toList = _ at hfind
      rw [hfind, Option.bind_eq_bind, Option.bind_some] at hups ⊢
      by_cases hle : num ≤ 0
      · exact ⟨false, db, by simp [hle], .refused hq hle⟩
      obtain ⟨o, ho⟩ := mem_dom.mp hx
      obtain ⟨d, -, hd, -⟩ := hat.getElem
      have hlt : n < o.propval.length := by
        rw [hi.slotted.length ho]
        exact (List.getElem?_eq_some_iff.mp hd).1
      obtain ⟨db₁, hset⟩ : ∃ db₁,
          db.modifySlot (fun p => { p with var := .int (wrap32 (num - 1)) }) owner n = some db₁ := by
        rw [modifySlot, ho, Option.bind_eq_bind, Option.bind_some, if_neg (Nat.not_le.mpr hlt)]
        exact ⟨_, rfl⟩
      have hset' : db.setPropertyValue (.slot owner n definer) (.int (wrap32 (num - 1))) = some db₁ := hset
      have ha := modifySlot_agree hset
      have hdo : (if num ≤ 0 then pure (false, db) else do
          return (true, ← db.setPropertyValue (.slot owner n definer) (.int (wrap32 (num - 1))))) =
            some (true, db₁) := by
        rw [if_neg hle, hset']
        rfl
      refine ⟨true, db₁, hdo, .paid hq (by omega) (hups hdo) ha ⟨n, definer, ?_⟩⟩
      obtain ⟨o', ho', -, rfl⟩ := modifySlot_eq_some hset
      obtain rfl := Option.some.inj (ho.symm.trans ho')
      refine ⟨{ o.propval[n] with var := .int (wrap32 (num - 1)) }, hat.withoutSlots ha, ?_, rfl⟩
      rw [slotsOf_of (Function.update_self _ _ _)]
      simp [hlt]

/-! Old objects beside a new one. -/

/-- Walks over the objects that `db` has see no difference. -/
structure Untouched (db db' : Db) : Prop where
  dom : db.dom ⊆ db'.dom
  up : ∀ z ∈ db.dom, db'.upOf .family z = db.upOf .family z
  defs : ∀ z ∈ db.dom, db'.defsOf z = db.defsOf z
  vars : ∀ z ∈ db.dom, (db'.slotsOf z).map Pval.var = (db.slotsOf z).map Pval.var
  verbs : ∀ z ∈ db.dom, (db'.objects z).map callView = (db.objects z).map callView

namespace Untouched

theorem chain (hs : Sound db) (hs' : Sound db') (hu : Untouched db db') (hx : x = nothing ∨ x ∈ db.dom) :
    db'.chain .family x = db.chain .family x := by
  obtain ⟨hc, hsub⟩ := hs.chain_spec (h := .family) hx
  exact hs'.chain_eq (hx.imp id fun hx => hu.dom hx) (hc.congr fun z hz => hu.up z (hsub z hz))

theorem callable (hs : Sound db) (hs' : Sound db') (hu : Untouched db db') (hx : x = nothing ∨ x ∈ db.dom) :
    db'.callable verb x = db.callable verb x := by
  rw [Db.callable, Db.callable, hu.chain hs hs' hx]
  refine findSome_congr fun z hz => ?_
  have hview := hu.verbs z ((hs.chain_spec hx).2 z hz)
  cases ho : db.objects z <;> cases ho' : db'.objects z <;> simp_all
  exact callableOn_view hview

theorem quotaSlot {num : Int} (hs : Sound db) (hs' : Sound db') (hu : Untouched db db') (hx : x ∈ db.dom)
    (hq : QuotaSlot db x num) : QuotaSlot db' x num := by
  obtain ⟨n, definer, pv, ⟨l, rest, i, hc, hn, hi, hno⟩, hpv, hvar⟩ := hq
  have hmem : ∀ z ∈ l ++ definer :: rest, z ∈ db.dom := by
    rw [← hc]
    exact (hs.chain_spec (.inr hx)).2
  have hdefs : l.flatMap db'.defsOf = l.flatMap db.defsOf :=
    List.flatMap_congr fun z hz => hu.defs z (hmem z (List.mem_append_left _ hz))
  have hvars := congrArg (fun l => l[n]?) (hu.vars x hx)
  simp only [List.getElem?_map, hpv, Option.map_some] at hvars
  obtain ⟨pv', hpv', hvar'⟩ := Option.map_eq_some_iff.mp hvars
  refine ⟨n, definer, pv', ⟨l, rest, i, ?_, ?_, ?_, ?_⟩, hpv', hvar'.trans hvar⟩
  · rw [hu.chain hs hs' (.inr hx), hc]
  · rw [hdefs, hn]
  · rw [hu.defs definer (hmem definer (by simp)), hi]
  · rw [hdefs]
    exact hno

theorem trans (hu : Untouched db db') (hu' : Untouched db' db'') : Untouched db db'' where
  dom := hu.dom.trans hu'.dom
  up z hz := (hu'.up z (hu.dom hz)).trans (hu.up z hz)
  defs z hz := (hu'.defs z (hu.dom hz)).trans (hu.defs z hz)
  vars z hz := (hu'.vars z (hu.dom hz)).trans (hu.vars z hz)
  verbs z hz := (hu'.verbs z (hu.dom hz)).trans (hu.verbs z hz)

theorem of_objects (hobj : db'.objects = db.objects) : Untouched db db' := by
  have hdom : db'.dom = db.dom := by rw [Db.dom, Db.dom, hobj]
  refine ⟨hdom.ge, fun z _ => ?_, fun z _ => ?_, fun z _ => ?_, fun z _ => ?_⟩
  · rw [upOf, upOf, hobj]
  · rw [defsOf, defsOf, hobj]
  · rw [slotsOf, slotsOf, hobj]
  · rw [hobj]

end Untouched

theorem Made.untouched {owners : Object → Object} {new : Objid} (hi : Intact db)
    (howners : owners = id ∨ owners = Object.withOwners db.numObjects new) (m : Made db new owners db') :
    Untouched db db' := by
  have hsame : ∀ o, (owners o).propdefs = o.propdefs ∧
      (owners o).propval.map Pval.var = o.propval.map Pval.var ∧ (callView (owners o)).2 = (callView o).2 := by
    intro o
    obtain rfl | rfl := howners
    · exact ⟨rfl, rfl, rfl⟩
    · simp [callView, Object.withOwners, Function.comp_def]
  have hold : ∀ z ∈ db.dom, ∃ o o', db.objects z = some o ∧ db'.objects z = some o' ∧
      o'.body = (owners o).body := by
    intro z hz
    obtain ⟨o, ho⟩ := mem_dom.mp hz
    obtain ⟨o', ho', hbody⟩ := Option.map_eq_some_iff.mp (m.body z o ho)
    exact ⟨o, o', ho, ho', hbody⟩
  refine ⟨m.dom ▸ Set.subset_insert _ _, m.up .family, fun z hz => ?_, fun z hz => ?_, fun z hz => ?_⟩
  · obtain ⟨o, o', ho, ho', hbody⟩ := hold z hz
    have hdefs := congrArg Object.propdefs hbody
    rw [defsOf_of ho, defsOf_of ho', ← (hsame o).1]
    exact hdefs
  · obtain ⟨o, o', ho, ho', hbody⟩ := hold z hz
    have hvars := congrArg (fun o => o.propval.map Pval.var) hbody
    rw [slotsOf_of ho, slotsOf_of ho', ← (hsame o).2.1]
    exact hvars
  · obtain ⟨o, o', ho, ho', hbody⟩ := hold z hz
    have hverbs : (callView o').2 = (callView (owners o)).2 := by
      have hview := congrArg (fun o => (callView o).2) hbody
      exact hview
    rw [ho, ho', Option.map_some, Option.map_some, Option.some.injEq]
    refine Prod.ext ?_ (hverbs.trans (hsame o).2.2)
    exact (m.intact.sound.ids ho').1.trans (hi.sound.ids ho).1.symm

structure OneMore (db : Db) (oid parent owner : Objid) (db' : Db) : Prop where
  fresh : oid ∉ db.dom
  dom : db'.dom = insert oid db.dom
  range : ∀ z ∈ db'.dom, z < db'.numObjects
  object : ∃ o, db'.objects oid = some o ∧ o.parent = parent ∧ o.owner = owner

def beginning (env : Env) (db : Db) (parent oid : Objid) : Package :=
  match db.callable "initialize".toList parent with
  | none => .retVar (.obj oid)
  | some _ => if env.pushActivation then .call else .raise .eMaxrec

theorem Untouched.set {o : Object} (hu : Untouched db db') (hfresh : x ∉ db.dom) (o' : Object)
    (ho : db'.objects x = some o) : Untouched db (db'.set x o') := by
  have hobj : ∀ z ∈ db.dom, (db'.set x o').objects z = db'.objects z := by
    intro z hz
    refine Function.update_of_ne ?_ _ _
    rintro rfl
    exact hfresh hz
  refine ⟨fun z hz => ?_, fun z hz => ?_, fun z hz => ?_, fun z hz => ?_, fun z hz => ?_⟩
  · rw [mem_dom, hobj z hz]
    exact mem_dom.mp (hu.dom hz)
  · rw [← hu.up z hz, upOf, upOf, hobj z hz]
  · rw [← hu.defs z hz, defsOf, defsOf, hobj z hz]
  · rw [← hu.vars z hz, slotsOf, slotsOf, hobj z hz]
  · rw [← hu.verbs z hz, hobj z hz]

theorem Untouched.reparented (hu : Untouched db db') (hfresh : x ∉ db.dom) (hre : Reparented db' x p db'')
    (hleaf : ∀ y, db'.Below x y → y = x) : Untouched db db'' := by
  have hne : ∀ z ∈ db.dom, z ≠ x := by
    rintro z hz rfl
    exact hfresh hz
  have hdefs : Agree Object.propdefs _ db'' := hre.agree.mono fun he => by
    have hsame := congrArg Object.propdefs he
    exact hsame
  refine ⟨?_, fun z hz => ?_, fun z hz => ?_, fun z hz => ?_, fun z hz => ?_⟩
  · rw [hre.agree.dom]
    exact hu.dom
  · rw [hre.up, Function.update_of_ne (hne z hz), hu.up z hz]
  · rw [← hu.defs z hz]
    exact hdefs.elim [] z
  · rw [hre.outside z fun hb => hne z hz (hleaf z hb), hu.vars z hz]
  · have hview := congrArg (Option.map callView) (hre.agree.objects z)
    simp only [Option.map_map, Function.comp_def] at hview
    rw [← hu.verbs z hz]
    exact hview

/-- A new object that has its parent and its owner. -/
structure Adopted (db : Db) (oid parent owner : Objid) (db' : Db) : Prop where
  intact : Intact db'
  cached : Cached db'
  untouched : Untouched db db'
  fresh : oid ∉ db.dom
  dom : db'.dom = insert oid db.dom
  object : ∃ o, db'.objects oid = some o ∧ o.parent = parent ∧ o.owner = owner ∧ o.verbdefs = []

theorem Made.adopted {owners : Object → Object} {o : Object} (hi : Intact db) (hc : Cached db')
    (howners : owners = id ∨ owners = Object.withOwners db.numObjects oid) (m : Made db oid owners db')
    (hp : p = nothing ∨ p ∈ db.dom) (ho : db'.objects oid = some o) (owner : Objid) :
    ∃ db'', (db'.set oid { o with name := [], owner }).changeParent oid p = some (true, db'') ∧
      Adopted db oid p owner db'' := by
  obtain ⟨o', ho', hbody, hlinks⟩ := m.object
  obtain rfl := Option.some.inj (ho.symm.trans ho')
  have hnew : (db'.set oid { o with name := [], owner }).objects oid = some { o with name := [], owner } :=
    Function.update_self _ _ _
  have hset : Agree (fun o => (callView o, o.parent)) db' (db'.set oid { o with name := [], owner }) :=
    Agree.set ho rfl
  have hin := m.intact.named ho owner
  have hcn : Cached (db'.set oid { o with name := [], owner }) := hc.of_agree m.intact.sound hin.sound hset
  obtain ⟨hp', hacyc⟩ := m.parent owner hp ho
  have hx := mem_dom_of hnew
  have hleaf : ∀ y, (db'.set oid { o with name := [], owner }).Below oid y → y = oid := by
    intro y hb
    by_contra hne
    exact hin.sound.notMem_chain_of_leaf hnew (hlinks .family).2 (.inr hb.1) hne hb.2
  have hdis : (db'.set oid { o with name := [], owner }).Disjoint oid p := by
    intro d hd y hb e he
    have hdefs : o.propdefs = [] := congrArg Object.propdefs hbody
    rw [hleaf y hb, defsOf_of hnew] at he
    simp [hdefs] at he
  obtain ⟨hno, -⟩ | ⟨-, db'', hchange, hs, hslot, hre⟩ := changeParent_spec hin.sound hin.slotted hx hp' hacyc
  · exact absurd hdis hno
  obtain ⟨o'', ho'', he⟩ := hre.agree.of_objects hnew
  refine ⟨db'', hchange, ⟨hs, hslot⟩, changeParent_cached hin hcn hx hp' hacyc hchange,
    ((m.untouched hi howners).set m.fresh _ ho).reparented m.fresh hre hleaf, m.fresh, ?_, o'', ho'', ?_, ?_, ?_⟩
  · rw [hre.agree.dom, ← m.dom, ← hset.dom]
    rfl
  · have hup : db''.upOf .family oid = p := by rw [hre.up, Function.update_self]
    rwa [upOf_of ho''] at hup
  · have hsame := congrArg Object.owner he
    exact hsame
  · have hsame := congrArg Object.verbdefs he
    have hnone := congrArg Object.verbdefs hbody
    exact hsame.trans hnone

theorem Adopted.callable {owner : Objid} (hi : Intact db) (hp : p = nothing ∨ p ∈ db.dom)
    (ha : Adopted db oid p owner db') : db'.callable verb oid = db.callable verb p := by
  obtain ⟨o, ho, hpar, -, hverbs⟩ := ha.object
  have hup : db'.upOf .family oid = p := (upOf_of ho).trans hpar
  have hnone : callableOn verb o = none := by simp [callableOn, findVerbdefByName, hverbs]
  rw [← ha.untouched.callable hi.sound ha.intact.sound hp, Db.callable, Db.callable,
    ha.intact.sound.chain_cons (mem_dom_of ho), hup, List.findSome?_cons, ho, Option.bind_some, hnone]

theorem initializeCreated_spec {owners : Object → Object} {db₂ : Db} (hi : Intact db) (hc : Cached db₂)
    (howners : owners = id ∨ owners = Object.withOwners db.numObjects oid) (m : Made db oid owners db₂)
    (hp : p = nothing ∨ p ∈ db.dom) (env : Env) (owner : Objid) :
    ∃ db', db₂.initializeCreated env oid p owner = some (db.beginning env p oid, db') ∧
      OneMore db oid p (if owner = nothing then oid else owner) db' ∧ Intact db' ∧ Untouched db db' := by
  obtain ⟨o, ho, -⟩ := m.object
  obtain ⟨db₃, hchange, ha⟩ := m.adopted hi hc howners hp ho (if owner = nothing then oid else owner)
  have hv : Terminated "initialize".toList := by decide
  obtain ⟨db₄, hcall, hobj⟩ := callVerb_spec env ha.intact.sound ha.cached hv oid
  obtain ⟨o₃, ho₃, hpar, howner, -⟩ := ha.object
  rw [callOutcome, if_pos (ha.intact.sound.valid_iff.mpr (mem_dom_of ho₃)), ha.callable hi hp] at hcall
  have hi₄ := Tendings.intact ha.intact (callVerb_tends (k := none) hv hcall)
  refine ⟨db₄, ?_, ⟨ha.fresh, ?_, fun z hz => (hi₄.sound.range hz).2, o₃, ?_, hpar, howner⟩, hi₄,
    ha.untouched.trans (.of_objects hobj)⟩
  · have hname : db₂.modify (fun o => { o with name := [] }) oid =
        some (db₂.set oid { o with name := [] }) := modify_of _ ho
    have howner : (db₂.set oid { o with name := [] }).modify
        (fun o => { o with owner := if owner = nothing then oid else owner }) oid =
          some (db₂.set oid { o with name := [], owner := if owner = nothing then oid else owner }) := by
      rw [modify_of _ (Function.update_self _ _ _)]
      simp only [Db.set, Function.update_idem]
    unfold initializeCreated
    rw [hname, Option.bind_eq_bind, Option.bind_some, howner, Option.bind_eq_bind, Option.bind_some, hchange,
      Option.bind_eq_bind, Option.bind_some]
    dsimp only
    rw [hcall, Option.bind_some]
    unfold beginning
    cases db.callable "initialize".toList p with
    | none => rfl
    | some vh => cases env.pushActivation <;> rfl
  · rw [Db.dom, hobj]
    exact ha.dom
  · rw [hobj, ho₃]

/-! The three functions. -/

/-- Which of the three functions, and the number that it is asked for. -/
inductive Creation
  | create
  | createAndRenumber
  | createWithId (id : Objid)

namespace Creation

def call (c : Creation) (env : Env) (db : Db) (progr parent : Objid) (owner? : Option Objid) :
    Option (Package × Db) :=
  match c with
  | .create => db.bfCreate env progr parent owner?
  | .createAndRenumber => db.bfCreateAndRenumber env progr parent owner?
  | .createWithId id => db.bfCreateWithId env progr id parent owner?

/-- The number a function promises: the next one, the lowest that is free, or the one asked for. -/
def Promises (c : Creation) (db : Db) (oid : Objid) : Prop :=
  match c with
  | .create => oid = db.numObjects
  | .createAndRenumber => 0 ≤ oid ∧ oid ∉ db.dom ∧ ∀ z, 0 ≤ z → z < oid → z ∈ db.dom
  | .createWithId id => oid = id

def Allowed (c : Creation) (db : Db) (progr parent owner : Objid) : Prop :=
  db.mayParent progr parent = true ∧
    match c with
    | .create | .createAndRenumber => owner = progr ∨ db.isWizard progr = true
    | .createWithId _ => db.isWizard progr = true

def Taken (c : Creation) (db : Db) : Prop :=
  match c with
  | .create | .createAndRenumber => False
  | .createWithId id => id < 0 ∨ db.numObjects < id ∨ id ∈ db.dom

def make (c : Creation) (shared : Sharing) (db : Db) : Option (Except Error Objid × Db) :=
  match c with
  | .create => some (.ok db.createObject.1, db.createObject.2)
  | .createAndRenumber => do
      let (oid, db) ← db.createObjectAndRenum shared
      return (.ok oid, db)
  | .createWithId id => do
      let (oid, db) ← db.createObjectWithNum shared id
      return (if oid = -1 then .error .eNacc else .ok oid, db)

theorem call_of_allowed {c : Creation} {progr parent : Objid} {owner? : Option Objid} (env : Env)
    (h : c.Allowed db progr parent (owner?.getD progr)) :
    c.call env db progr parent owner? = createOwned env (c.make env.players) db parent (owner?.getD progr) := by
  obtain ⟨hpar, hown⟩ := h
  cases c with
  | create => exact if_neg (by cases hown <;> simp_all)
  | createAndRenumber => exact if_neg (by cases hown <;> simp_all)
  | createWithId id => exact if_neg (by simp_all)

theorem call_of_not_allowed {c : Creation} {progr parent : Objid} {owner? : Option Objid} (env : Env)
    (h : ¬ c.Allowed db progr parent (owner?.getD progr)) :
    c.call env db progr parent owner? = some (.raise .ePerm, db) := by
  unfold Allowed at h
  cases c with
  | create => exact if_pos (by cases hpar : db.mayParent progr parent <;> simp_all)
  | createAndRenumber => exact if_pos (by cases hpar : db.mayParent progr parent <;> simp_all)
  | createWithId id => exact if_pos (by cases hpar : db.mayParent progr parent <;> simp_all)

end Creation

theorem renumberObject_lowest {old new : Objid} (hdo : db.renumberObject shared old = some (new, db')) :
    ∀ z, 0 ≤ z → z < new → (db.objects z).isSome := by
  intro z hz hlt
  obtain ⟨k, rfl⟩ := Int.eq_ofNat_of_zero_le hz
  unfold renumberObject at hdo
  dsimp only at hdo
  rw [List.find?_map] at hdo
  cases hf : (List.range old.toNat).find? ((fun n => (db.affectedCallableVerbLookup.objects n).isNone) ∘ Int.ofNat) with
  | some n =>
      rw [hf] at hdo
      simp only [Option.map_some, Option.bind_eq_bind, Option.bind_eq_some_iff, Option.pure_def,
        Option.some.injEq, Prod.mk.injEq] at hdo
      obtain ⟨_, -, rfl, -⟩ := hdo
      have hno := (List.find?_range_eq_some.mp hf).2.2 k (by lia)
      simpa [affectedCallableVerbLookup, ← Option.isSome_iff_ne_none] using hno
  | none =>
      rw [hf] at hdo
      simp only [Option.map_none, Option.pure_def, Option.some.injEq, Prod.mk.injEq] at hdo
      have hno := List.find?_eq_none.mp hf k (List.mem_range.mpr (by lia))
      simpa [affectedCallableVerbLookup, ← Option.isSome_iff_ne_none] using hno

theorem createObjectAndRenum_lowest (hdo : db.createObjectAndRenum shared = some (oid, db')) (hle : oid ≤ db.numObjects) :
    ∀ z, 0 ≤ z → z < oid → z ∈ db.dom := by
  intro z hz hlt
  simp only [createObjectAndRenum, Option.bind_eq_bind, Option.bind_eq_some_iff] at hdo
  obtain ⟨⟨new, db₁⟩, hre, hdo⟩ := hdo
  have hnew : new = oid := by
    split at hdo
    · exact (Prod.mk.inj (Option.some.inj hdo)).1
    · exact (Prod.mk.inj (Option.some.inj hdo)).1
  have hsome := renumberObject_lowest hre z hz (hnew ▸ hlt)
  rwa [set_objects, Function.update_of_ne (by lia)] at hsome

theorem createObjectWithNum_refused {num : Objid} (hs : Sound db)
    (hno : db.createObjectWithNum shared num = some (-1, db)) : num < 0 ∨ db.numObjects < num ∨ num ∈ db.dom := by
  by_contra hfree
  simp only [not_or] at hfree
  have hrange : ¬ (num > db.numObjects ∨ num < 0) := by lia
  have hvalid : ¬ db.valid num = true := fun hv => hfree.2.2 (hs.valid_iff.mp hv)
  simp only [createObjectWithNum, if_neg hrange, if_neg hvalid, Option.bind_eq_bind,
    Option.bind_eq_some_iff, Option.pure_def, Option.some.injEq, Prod.mk.injEq] at hno
  obtain ⟨_, -, hneg, -⟩ := hno
  lia

theorem createObjectWithNum_of_free (shared : Sharing) {num : Objid} (hi : Intact db) (hne : num ≠ db.numObjects)
    (hfree : ¬ (num < 0 ∨ db.numObjects < num ∨ num ∈ db.dom)) :
    ∃ db', db.createObjectWithNum shared num = some (num, db') ∧ Intact db' ∧
      Renumbered db.createObject.2 db.numObjects num db' := by
  obtain hno | ⟨heq, -⟩ | ⟨db', hdo, -, -, -, hi', -, hre⟩ := createObjectWithNum_spec shared hi num
  · exact absurd (createObjectWithNum_refused hi.sound hno) hfree
  · exact absurd heq hne
  · exact ⟨db', hdo, hi', hre⟩

theorem Creation.make_spec (c : Creation) (shared : Sharing) (hi : Intact db) :
    c = .createWithId db.numObjects ∧ c.make shared db = none ∨
      (c.Taken db ∧ c ≠ .createWithId db.numObjects ∧ ∃ e, c.make shared db = some (.error e, db)) ∨
      ¬ c.Taken db ∧ c ≠ .createWithId db.numObjects ∧ ∃ oid owners db₂, c.make shared db = some (.ok oid, db₂) ∧
        c.Promises db oid ∧ (owners = id ∨ owners = Object.withOwners db.numObjects oid) ∧
        Made db oid owners db₂ := by
  cases c with
  | create =>
      exact .inr (.inr ⟨nofun, nofun, _, id, _, rfl, rfl, .inl rfl, createObject_made hi⟩)
  | createAndRenumber =>
      refine .inr (.inr ⟨nofun, nofun, ?_⟩)
      have hpos := hi.sound.numObjects_nonneg
      obtain hdo | ⟨new, db₂, hdo, hnew, hnonneg, hlt, hi₂, -, hre⟩ := createObjectAndRenum_spec shared hi
      · exact ⟨_, id, _, by rw [make, hdo]; rfl,
          ⟨hpos, (createObject_made hi).fresh, createObjectAndRenum_lowest hdo le_rfl⟩, .inl rfl,
          (createObject_made hi).affected⟩
      · exact ⟨new, _, db₂, by rw [make, hdo]; rfl,
          ⟨hnonneg, hnew, createObjectAndRenum_lowest hdo (Int.le_of_lt hlt)⟩, .inr rfl, hre.made hi hi₂ hnew⟩
  | createWithId num =>
      by_cases hne : num = db.numObjects
      · subst hne
        obtain hdo | ⟨-, hdo⟩ | ⟨_, -, -, -, hlt, -⟩ := createObjectWithNum_spec shared hi db.numObjects
        · have hpos := hi.sound.numObjects_nonneg
          obtain hneg | hlt | hd := createObjectWithNum_refused hi.sound hdo
          · lia
          · lia
          · exact absurd (hi.sound.range hd).2 (Int.lt_irrefl _)
        · exact .inl ⟨rfl, by rw [make, hdo]; rfl⟩
        · exact absurd hlt (Int.lt_irrefl _)
      have hne' : Creation.createWithId num ≠ .createWithId db.numObjects := fun h => hne (by injection h)
      by_cases htaken : num < 0 ∨ db.numObjects < num ∨ num ∈ db.dom
      · refine .inr (.inl ⟨htaken, hne', .eNacc, ?_⟩)
        have hdo : db.createObjectWithNum shared num = some (-1, db) := by
          unfold createObjectWithNum
          by_cases hrange : num > db.numObjects ∨ num < 0
          · rw [if_pos hrange]
            rfl
          · have hv : db.valid num = true := hi.sound.valid_iff.mpr (by lia)
            rw [if_neg hrange, if_pos hv]
            rfl
        rw [make, hdo]
        rfl
      · obtain ⟨db₂, hdo, hi₂, hre⟩ := createObjectWithNum_of_free shared hi hne htaken
        have hneg : num ≠ -1 := by lia
        refine .inr (.inr ⟨htaken, hne', num, _, db₂, ?_, rfl, .inr rfl, hre.made hi hi₂ fun hd => ?_⟩)
        · rw [make, hdo, Option.bind_eq_bind, Option.bind_some]
          dsimp only
          rw [if_neg hneg]
          rfl
        · exact htaken (.inr (.inr hd))

/-- An error leaves the database as it was, the cache of lookups apart; without one there is one
object more, and a quota is one less. -/
def Atomic (c : Creation) (db : Db) (parent owner : Objid) : Option (Package × Db) → Prop
  | none => False
  | some (r, db') =>
      (∃ e, r = .raise e) ∧ db' = { db with vcTable := db'.vcTable } ∨
        ∃ oid, (r = .call ∨ r = .retVar (.obj oid)) ∧ c.Promises db oid ∧
          OneMore db oid parent (if owner = nothing then oid else owner) db' ∧
          ∀ num, db.quotaOf owner = some num → wrap32 num = num →
            0 < num ∧ db'.quotaOf owner = some (num - 1)

/-- When the call is neither refused nor out of quota, the number is not `num_objects` itself, a
number that is taken costs no quota, and there is room for the activation of `initialize`. -/
def Creation.Fits (c : Creation) (env : Env) (db : Db) (progr parent owner : Objid) : Prop :=
  c.Allowed db progr parent owner → (∀ num, db.quotaOf owner = some num → 0 < num) →
    c ≠ .createWithId db.numObjects ∧ (c.Taken db → db.quotaOf owner = none) ∧
      (¬ c.Taken db → db.callable "initialize".toList parent = none ∨ env.pushActivation = true)

theorem wrap32_pred {num : Int} (h : wrap32 num = num) (hpos : 0 < num) : wrap32 (num - 1) = num - 1 := by
  have hlt : num.bmod (2 ^ 32) < (2 ^ 32 + 1) / 2 := Int.bmod_lt (by decide)
  change num.bmod (2 ^ 32) = num at h
  rw [h] at hlt
  exact Int.bmod_eq_of_le (by omega) (by omega)

theorem QuotaSlot.quotaOf {num : Int} (hi : Intact db) (hx : x ∈ db.dom) (hq : QuotaSlot db x num) :
    db.quotaOf x = some num := by
  obtain ⟨n, definer, pv, hf, hpv, hvar⟩ := hq
  exact quotaOf_of_slot hi hx hf hpv hvar

theorem wrap32_pred_ne {num : Int} (hpos : 0 < num) : wrap32 (num - 1) ≠ num := by
  intro h
  have hlt : (num - 1).bmod (2 ^ 32) < (2 ^ 32 + 1) / 2 := Int.bmod_lt (by decide)
  change (num - 1).bmod (2 ^ 32) = num at h
  have hself : (num - 1).bmod (2 ^ 32) = num - 1 := Int.bmod_eq_of_le (by omega) (by omega)
  omega

theorem createOwned_eq {c : Creation} {parent : Objid} :
    createOwned env (c.make env.players) db parent owner = (db.charge owner).bind fun
      | (false, db) => some (.raise .eQuota, db)
      | (true, db) => (c.make env.players db).bind fun
        | (.error e, db) => some (.raise e, db)
        | (.ok oid, db) => db.initializeCreated env oid parent owner := by
  unfold createOwned charge
  dsimp only
  by_cases hv : db.valid owner = true
  · rw [if_pos hv, if_pos hv]
    cases db.decrQuota owner with
    | none => rfl
    | some paid =>
        obtain ⟨granted, db₁⟩ := paid
        cases granted <;> rfl
  · rw [if_neg hv, if_neg hv]
    rfl

/-- What is asked of the table that has been charged is what was asked of the one before. -/
structure Paid (db : Db) (owner : Objid) (db₁ : Db) : Prop where
  intact : Intact db₁
  cached : Cached db₁
  dom : db₁.dom = db.dom
  numObjects : db₁.numObjects = db.numObjects
  callable : ∀ verb x, db₁.callable verb x = db.callable verb x
  same : db₁ = { db with vcTable := db₁.vcTable } ↔ db.quotaOf owner = none
  granted : ∀ num, db.quotaOf owner = some num → 0 < num ∧ QuotaSlot db₁ owner (wrap32 (num - 1))

theorem Charged.toPaid {db₁ : Db} (hi : Intact db) (hc : Cached db) (h : Charged db owner true db₁) :
    Paid db owner db₁ := by
  cases h with
  | free hnone =>
      refine ⟨hi, hc, rfl, rfl, fun _ _ => rfl, iff_of_true rfl hnone, fun num hnum => ?_⟩
      rw [hnone] at hnum
      cases hnum
  | @paid num _ hnum hpos hups ha hslot =>
      have hi₁ := Upkeeps.intact hi hups
      have hx := (quotaOf_eq_some hi hnum).1
      have hview : Agree callView db db₁ := ha.mono fun he => by
        have hsame := congrArg callView he
        exact hsame
      refine ⟨hi₁, Upkeeps.cached hi hc hups, ha.dom, ha.numObjects, fun verb x => ?_, ?_, fun num' hnum' => ?_⟩
      · rw [Db.callable, Db.callable, Agree.chain_withoutSlots ha]
        refine findSome_congr fun z _ => ?_
        have hz := hview.objects z
        cases ho : db.objects z <;> cases ho' : db₁.objects z <;> simp_all
        exact callableOn_view hz
      · refine iff_of_false (fun hsame => ?_) (by simp [hnum])
        have hobj : db₁.objects = db.objects := by rw [hsame]
        have hagain : db.quotaOf owner = some (wrap32 (num - 1)) := by
          have hback : Untouched db₁ db := .of_objects hobj.symm
          exact (hback.quotaSlot hi₁.sound hi.sound (ha.dom.symm ▸ hx) hslot).quotaOf hi hx
        rw [hnum, Option.some.injEq] at hagain
        exact wrap32_pred_ne hpos hagain.symm
      · rw [hnum, Option.some.injEq] at hnum'
        exact hnum' ▸ ⟨hpos, hslot⟩

theorem Creation.promises_congr {c : Creation} (hdom : db'.dom = db.dom) (hnum : db'.numObjects = db.numObjects) :
    c.Promises db' = c.Promises db := by
  funext oid
  cases c <;> simp only [Promises, hdom, hnum]

theorem Creation.taken_congr {c : Creation} (hdom : db'.dom = db.dom) (hnum : db'.numObjects = db.numObjects) :
    c.Taken db' = c.Taken db := by
  cases c <;> simp only [Taken, hdom, hnum]

theorem make_atomic_iff {c : Creation} {db₁ : Db} {parent : Objid} (env : Env) (hi : Intact db)
    (hp : parent = nothing ∨ parent ∈ db.dom) (h : Paid db owner db₁) :
    Atomic c db parent owner ((c.make env.players db₁).bind fun
        | (.error e, db) => some (.raise e, db)
        | (.ok oid, db) => db.initializeCreated env oid parent owner) ↔
      c ≠ .createWithId db.numObjects ∧ (c.Taken db → db.quotaOf owner = none) ∧
        (¬ c.Taken db → db.callable "initialize".toList parent = none ∨ env.pushActivation = true) := by
  have hspec := c.make_spec env.players h.intact
  rw [Creation.promises_congr h.dom h.numObjects, Creation.taken_congr h.dom h.numObjects, h.numObjects] at hspec
  obtain ⟨hc, hmake⟩ | ⟨htaken, hc, e, hmake⟩ |
    ⟨hfree, hc, oid, owners, db₂, hmake, hpromise, howners, m⟩ := hspec
  · rw [hmake]
    exact iff_of_false id fun hfit => hfit.1 hc
  · rw [hmake]
    refine Iff.trans (b := db₁ = { db with vcTable := db₁.vcTable }) ⟨?_, ?_⟩ (h.same.trans ⟨?_, ?_⟩)
    · rintro (⟨-, hsame⟩ | ⟨oid, hr, -⟩)
      · exact hsame
      · cases hr with
        | inl hr => cases hr
        | inr hr => cases hr
    · exact fun hsame => .inl ⟨⟨e, rfl⟩, hsame⟩
    · exact fun hnone => ⟨hc, fun _ => hnone, fun hfree => absurd htaken hfree⟩
    · exact fun hfit => hfit.2.1 htaken
  · have hp₁ : parent = nothing ∨ parent ∈ db₁.dom := h.dom ▸ hp
    have howners₁ : owners = id ∨ owners = Object.withOwners db₁.numObjects oid := h.numObjects ▸ howners
    have hview : ∀ o, (callView (owners o)).2 = (callView o).2 := by
      intro o
      obtain rfl | rfl := howners
      · rfl
      · simp [callView, Object.withOwners, Function.comp_def]
    obtain ⟨db', hdo, hmore, hi', hu⟩ := initializeCreated_spec h.intact (m.cached h.intact h.cached hview)
      howners₁ m hp₁ env owner
    have hmore' : OneMore db oid parent (if owner = nothing then oid else owner) db' :=
      ⟨h.dom ▸ hmore.fresh, h.dom ▸ hmore.dom, hmore.range, hmore.object⟩
    have hquota : ∀ num, db.quotaOf owner = some num → wrap32 num = num →
        0 < num ∧ db'.quotaOf owner = some (num - 1) := by
      intro num hnum hwrap
      obtain ⟨hpos, hslot⟩ := h.granted num hnum
      have hx : owner ∈ db₁.dom := h.dom ▸ (quotaOf_eq_some hi hnum).1
      have hslot' := hu.quotaSlot h.intact.sound hi'.sound hx hslot
      rw [wrap32_pred hwrap hpos] at hslot'
      exact ⟨hpos, hslot'.quotaOf hi' (hu.dom hx)⟩
    have hdone : ∀ {r : Package}, r = .call ∨ r = .retVar (.obj oid) → Atomic c db parent owner (some (r, db')) :=
      fun hr => .inr ⟨oid, hr, hpromise, hmore', hquota⟩
    rw [hmake, Option.bind_some]
    dsimp only
    rw [hdo, beginning, h.callable]
    have hfit : (c ≠ .createWithId db.numObjects ∧ (c.Taken db → db.quotaOf owner = none) ∧
        (¬ c.Taken db → db.callable "initialize".toList parent = none ∨ env.pushActivation = true)) ↔
        (db.callable "initialize".toList parent = none ∨ env.pushActivation = true) :=
      ⟨fun hfit => hfit.2.2 hfree, fun hroom => ⟨hc, fun htaken => absurd htaken hfree, fun _ => hroom⟩⟩
    rw [hfit]
    cases hcall : db.callable "initialize".toList parent with
    | none => exact iff_of_true (hdone (.inr rfl)) (.inl rfl)
    | some vh =>
        cases hpush : env.pushActivation with
        | true => exact iff_of_true (hdone (.inl rfl)) (.inr rfl)
        | false =>
            refine iff_of_false ?_ (by simp)
            rintro (⟨-, hsame⟩ | ⟨_, hr, -⟩)
            · refine hmore'.fresh ?_
              have hdom : db'.dom = db.dom := by
                rw [hsame]
                rfl
              rw [← hdom, hmore'.dom]
              exact .inl rfl
            · cases hr with
              | inl hr => cases hr
              | inr hr => cases hr

/-- Making an object is atomic exactly when it fits. -/
theorem Creation.atomic_iff (c : Creation) (hi : Intact db) (hc : Cached db) (env : Env) (progr parent : Objid)
    (owner? : Option Objid) :
    Atomic c db parent (owner?.getD progr) (c.call env db progr parent owner?) ↔
      c.Fits env db progr parent (owner?.getD progr) := by
  by_cases hallowed : c.Allowed db progr parent (owner?.getD progr)
  swap
  · rw [call_of_not_allowed env hallowed]
    exact iff_of_true (.inl ⟨⟨_, rfl⟩, rfl⟩) fun h => absurd h hallowed
  rw [call_of_allowed env hallowed, createOwned_eq]
  obtain ⟨granted, db₁, hcharge, hcharged⟩ := charge_spec hi (owner?.getD progr)
  rw [hcharge, Option.bind_some]
  cases granted with
  | false =>
      cases hcharged with
      | refused hnum hle =>
          refine iff_of_true (.inl ⟨⟨_, rfl⟩, rfl⟩) fun _ hgranted => ?_
          exact absurd (hgranted _ hnum) (Int.not_lt.mpr hle)
  | true =>
      have hpaid := hcharged.toPaid hi hc
      refine (make_atomic_iff env hi (mayParent_mem hi.sound hallowed.1) hpaid).trans ?_
      exact ⟨fun hfit _ _ => hfit, fun hfit => hfit hallowed fun num hnum => (hpaid.granted num hnum).1⟩

def rationed : Db :=
  (house.perform calmEnv (.addProp 0 0 (cstrOf "ownership_quota".toList) (intOf 5) propInfo)).getD empty

theorem rationed_run : Run (fun _ _ _ => True) empty rationed := by
  have hsome : (house.perform calmEnv (.addProp 0 0 (cstrOf "ownership_quota".toList) (intOf 5) propInfo)).isSome =
      true := by decide +kernel
  obtain ⟨db, hdb⟩ := Option.isSome_iff_exists.mp hsome
  rw [rationed, hdb]
  exact house_run.tail ⟨calmEnv, _, trivial, hdb⟩

attribute [irreducible] rationed

theorem Creation.atomic_iff_rationed : rationed.quotaOf 0 = some 5 ∧
    Atomic .create rationed 3 0 (Creation.create.call calmEnv rationed 0 3 none) := by
  obtain ⟨hi, hc⟩ := Run.invariant (I := fun db => Intact db ∧ Cached db)
    (fun hi _ hdo => ⟨perform_intact hi.1 hdo, perform_cached hi.1 hi.2 hdo⟩)
    ⟨empty_intact, .of_empty rfl⟩ rationed_run
  have hquiet : rationed.callable "initialize".toList 3 = none := by decide +kernel
  refine ⟨by decide +kernel, (Creation.create.atomic_iff hi hc calmEnv 0 3 none).mpr fun _ _ => ?_⟩
  exact ⟨nofun, fun htaken => htaken.elim, fun _ => .inl hquiet⟩

def wizardAlone : Db := empty.createObject.2.set 0 { newObject 0 with owner := 0, flags := fun _ => true }

theorem wizardAlone_intact : Intact wizardAlone := by
  refine (createObject_intact empty_intact).of_agree (Agree.set (o := newObject 0) rfl ?_)
  refine Prod.ext (funext fun h => ?_) rfl
  cases h <;> rfl

/-- A negative number is refused, and has cost the wizard one of five. -/
theorem createWithId_not_atomic : ∃ db, Intact wizardAlone ∧
    wizardAlone.perform calmEnv (.addProp 0 0 (cstrOf "ownership_quota".toList) (intOf 5) propInfo) = some db ∧
    ¬ Atomic (.createWithId (-5)) db nothing 0 ((Creation.createWithId (-5)).call calmEnv db 0 nothing none) := by
  refine ⟨_, wizardAlone_intact, rfl, ?_⟩
  rintro (⟨-, hsame⟩ | ⟨oid, hr, -⟩)
  · have hquota := congrArg (fun db : Db => db.quotaOf 0) hsame
    exact absurd hquota (by decide)
  · cases hr with
    | inl hr => cases hr
    | inr hr => cases hr

end Db
end LambdaMoo
