import LambdaMoo.ConfinedCalls

/-! No call gives someone who is no wizard more than they had. -/
namespace LambdaMoo

namespace Db

variable {db db' db₁ : Db} {call : Call} {p oid x : Objid} {o : Object} {env : Env} {r : Package} {s : Pval}
  {v : Verbdef} {pname : CStr}

/-! Properties. -/

theorem Confined.of_slots (hi : Intact db) (hi' : Intact db') (hd : Distinct db)
    (h : Alike (fun o => (o.owner, Object.powers o, o.verbdefs)) db db')
    (hslots : SlotsConfined Eq call.progr (fun x => db.Reshapes x call) db db') : Confined Eq call db db' :=
  ⟨.of_alike hi.sound hi'.sound (h.mono fun he => congrArg (fun c => (c.1, c.2.1)) he),
    .of_eq hd (Alike.verbs (h.mono fun he => congrArg (fun c => c.2.2) he)), hslots⟩

theorem modifySlot_confined {f : Pval → Pval} {n : Nat} (hi : Intact db) (hi₁ : Intact db₁) (hi' : Intact db')
    (hd : Distinct db) (ha : Alike Object.withoutProps db db₁) (hslots : db₁.slotsOf = db.slotsOf)
    (hdo : db₁.modifySlot f oid n = some db') (hs : (db.slotsOf oid)[n]? = some s)
    (hmay : s.owner = call.progr ∨ s.perms.write = true) (howner : (f s).owner = s.owner)
    (htag : (f s).tag = s.tag) : Confined Eq call db db' := by
  have hm := modifySlot_agree hdo
  obtain ⟨t, ht, hone⟩ := slotsOf_modifySlot hdo
  rw [hslots] at ht hone
  obtain rfl := Option.some.inj (hs.symm.trans ht)
  refine .of_slots hi hi' hd ?_ (.of_one hi (List.mem_of_getElem? hs) hone (fun x u hu => ?_) hmay howner htag)
  · intro x
    have h₁ : Alike (fun o => (o.owner, Object.powers o, o.verbdefs)) db db₁ := ha.shows fun _ => rfl
    have h₂ : Alike (fun o => (o.owner, Object.powers o, o.verbdefs)) db₁ db' := .shows hm.objects fun _ => rfl
    exact (h₂ x).trans (h₁ x)
  · rw [← hslots] at hu
    exact hi₁.slot_kept hi' (hm.dom ▸ mem_dom_of_slotsOf hu) (congrFun hm.allDefs x) hu

theorem SameBut.confined {tag : Nat} (hi : Intact db) (hi' : Intact db') (hd : Distinct db) (h : SameBut db tag db')
    (hout : ∀ x, ¬ db.Reshapes x call → db'.slotsOf x = db.slotsOf x)
    (hone : ∀ x, db.Reshapes x call → ∀ s ∈ db.slotsOf x, ∀ s' ∈ db'.slotsOf x, ¬ (s.tag = tag ∧ s'.tag = tag)) :
    Confined Eq call db db' := by
  refine .of_slots hi hi' hd (.shows h.objects fun _ => rfl) (.of_kept (fun x s hs s' hs' htag => ?_) hout)
  by_cases hx : db.Reshapes x call
  · have hne : s.tag ≠ tag := fun heq => hone x hx s hs s' hs' ⟨heq, htag.trans heq⟩
    have hsame := h.slotFor (d := { name := [], tag := s.tag }) hne x
    rw [hi.slotFor_of_mem hs rfl, hi'.slotFor_of_mem hs' htag.symm] at hsame
    exact Option.some.inj hsame
  · exact hi.slot_unique hs (hout x hx ▸ hs') htag

theorem bfChparent_confined {what parent : Objid} (hi : Intact db) (hd : Distinct db)
    (hdo : db.bfChparent p what parent = some (r, db')) : Confined Eq (.chparent p what parent) db db' := by
  obtain rfl | ⟨o, changed, ho, hmay, hpar, hacyc, -, hchange⟩ := bfChparent_cases hi hdo
  · exact .refl hi hd _
  have hx := mem_dom_of ho
  obtain ⟨-, rfl⟩ | ⟨rfl, -, hi', hre⟩ := changeParent_cases hi hx hpar hacyc hchange
  · exact .refl hi hd _
  have hin := changeParent_inherits hi hx hpar hacyc hchange
  have hs := hi.sound
  refine .of_slots hi hi' hd (.shows hre.agree.objects fun _ => rfl) (.of_kept (fun y s hs₀ s' hs' htag => ?_)
    fun y hno => hre.outside y fun hb => hno ⟨hb, o, ho, hmay⟩)
  by_cases hb : db.Below what y
  swap
  · rw [hre.outside y hb] at hs'
    exact hi.slot_unique hs₀ hs' htag
  obtain ⟨z, d, hdef, hdtag, hz⟩ := hin.exact y hb s' hs'
  -- the definition is one that the object had met before
  have hzy : z ∈ db.chain .family y := by
    have hmem := List.mem_map_of_mem (f := Pval.tag) hs₀
    rw [hi.slotted.tags y hb.1] at hmem
    obtain ⟨e, he, hetag⟩ := List.mem_map.mp hmem
    obtain ⟨w, hw, hew⟩ := List.mem_flatMap.mp he
    obtain ⟨rfl, -⟩ := hi.slotted.eq_of_tag hdef hew (hdtag.trans (htag.trans hetag.symm))
    exact hw
  have hkept := hin.kept y z d hb hdef (hz.imp id fun hz => ⟨?_, hz⟩)
  · have hfound := hi'.slotFor_of_mem hs' hdtag
    rw [hkept.2, hi.slotFor_of_mem hs₀ (hdtag.trans htag)] at hfound
    exact (Option.some.inj hfound).symm
  · obtain hzx | hbz := hs.mem_chain_below hb hzy
    · rw [hs.chain_cons hx, List.mem_cons] at hzx
      exact hzx.resolve_left fun heq => hacyc (heq ▸ hz)
    · obtain ⟨l, hl⟩ := hs.chain_suffix hpar hz
      rw [hl] at hacyc
      exact absurd (List.mem_append_right _ hbz.2) hacyc

theorem bfAddProp_confined {value info : Value} (hi : Intact db) (hd : Distinct db)
    (hdo : db.bfAddProp p oid pname value info = some (r, db')) :
    Confined Eq (.addProp p oid pname value info) db db' := by
  obtain rfl | ⟨o, owner, flags, added, ho, hmay, -, hadd⟩ := bfAddProp_cases hi hdo
  · exact .refl hi hd _
  have hx := mem_dom_of ho
  obtain ⟨hno, -⟩ | ⟨db₁, hyes, -, hi', hexact⟩ := addPropdef_cases owner flags hi hx pname (value_ne_clear value)
  · obtain ⟨-, rfl⟩ := Prod.mk.inj (Option.some.inj (hadd.symm.trans hno))
    exact .refl hi hd _
  obtain ⟨-, rfl⟩ := Prod.mk.inj (Option.some.inj (hadd.symm.trans hyes))
  refine hexact.same.confined hi hi' hd (fun x hx => ?_) fun x _ s hs s' _ hboth => ?_
  · rw [slotsOf, hexact.outside x fun hb => hx ⟨hb, o, ho, hmay⟩]
    rfl
  · -- the tag is a new one
    have hfound := hi.slotFor_of_mem (d := { name := pname.val, tag := db.nextTag }) hs hboth.1.symm
    rw [(hexact.fresh x).2] at hfound
    cases hfound

theorem bfDeleteProp_confined (hi : Intact db) (hd : Distinct db)
    (hdo : db.bfDeleteProp p oid pname = some (r, db')) : Confined Eq (.deleteProp p oid pname) db db' := by
  obtain rfl | ⟨o, deleted, ho, hmay, hdelete⟩ := bfDeleteProp_cases hi hdo
  · exact .refl hi hd _
  have hx := mem_dom_of ho
  obtain ⟨hno, -⟩ | ⟨d, db₁, hyes, hdef, hm, hi', hexact⟩ := deletePropdef_cases hi hx pname
  · obtain ⟨-, rfl⟩ := Prod.mk.inj (Option.some.inj (hdelete.symm.trans hno))
    exact .refl hi hd _
  obtain ⟨-, rfl⟩ := Prod.mk.inj (Option.some.inj (hdelete.symm.trans hyes))
  refine hexact.same.confined hi hi' hd (fun x hx => ?_) fun x hx s _ s' hs' hboth => ?_
  · rw [slotsOf, hexact.outside x fun hb => hx ⟨hb, o, ho, hmay⟩]
    rfl
  · obtain ⟨_, _, _, -, -, -, hnone⟩ := hexact.slots x hx.1
    rw [hi'.slotFor_of_mem hs' hboth.2.symm] at hnone
    cases hnone

theorem bfClearProp_confined (hi : Intact db) (hi' : Intact db') (hd : Distinct db) (hwiz : db.isWizard p = false)
    (hdo : db.bfClearProp p oid pname = some (r, db')) : Confined Eq (.clearProp p oid pname) db db' := by
  obtain rfl | ⟨n, definer, pv, -, -, -, hpv, hmay, hclear⟩ := bfClearProp_cases hi hdo
  · exact .refl hi hd _
  · exact modifySlot_confined hi hi hi' hd (fun _ => rfl) rfl hclear hpv
      (.inl (hmay.resolve_right (by simp [hwiz])).symm) rfl rfl

theorem mayWrite {write : Bool} {owner : Objid} (hwiz : db.isWizard p = false)
    (h : (write || p == owner || db.isWizard p) = true) : owner = p ∨ write = true := by
  rw [hwiz, Bool.or_false, Bool.or_eq_true, beq_iff_eq] at h
  exact h.symm.imp Eq.symm id

/-- Without a wizard's permissions no one is made a wizard or a programmer, or given away. -/
theorem setBuiltIn_alike {prop : BiProp} {value : Var} (hwiz : db.isWizard p = false)
    (hmay : db.putPropError p value (.builtIn prop oid) = some .eNone)
    (hdo : db.setPropertyValue (.builtIn prop oid) value = some db') :
    Alike (fun o => (o.owner, Object.powers o, o.verbdefs)) db db' ∧ db'.slotsOf = db.slotsOf := by
  obtain ⟨users, ha⟩ := setBuiltIn_agree hdo
  refine ⟨?_, Alike.slots (.shows ha.objects fun _ => rfl)⟩
  have hset : ∀ {f : Object → Object} {db₁ : Db}, db.modify f oid = some db₁ →
      (∀ o, ((f o).owner, Object.powers (f o), (f o).verbdefs) = (o.owner, Object.powers o, o.verbdefs)) →
      Alike (fun o => (o.owner, Object.powers o, o.verbdefs)) db db₁ :=
    fun h hf => (Agree.modify h hf).objects
  simp only [putPropError, Option.bind_eq_bind, Option.bind_eq_some_iff] at hmay
  obtain ⟨o, -, hmay⟩ := hmay
  cases prop with
  | name =>
      cases value with
      | str s => exact hset hdo fun _ => rfl
      | _ => cases hdo
  | owner =>
      cases value with
      | obj x => simp [hwiz] at hmay
      | _ => cases hdo
  | programmer | wizard => simp [hwiz] at hmay
  | r | w | f =>
      obtain ⟨db₁, h₁, hdo⟩ := Option.bind_eq_some_iff.mp hdo
      obtain rfl := Option.some.inj hdo
      exact hset h₁ fun _ => rfl
  | location | contents => cases hdo

theorem putProp_confined {e : Error} {obj propname rhs : Value} (hi : Intact db) (hi' : Intact db')
    (hd : Distinct db) (hwiz : db.isWizard p = false) (hdo : db.putProp p obj propname rhs = some (e, db')) :
    Confined Eq (.putProp p obj propname rhs) db db' := by
  obtain rfl | ⟨x, name, h, -, hx, hfind, hmay, hset⟩ := putProp_cases hi hdo
  · exact .refl hi hd _
  cases h with
  | builtIn prop y =>
      obtain ⟨halike, hslots⟩ := setBuiltIn_alike hwiz hmay hset
      exact .of_slots hi hi' hd halike (.of_eq hi hslots)
  | slot y n definer =>
      obtain ⟨b, hb, hmay⟩ := Option.bind_eq_some_iff.mp hmay
      obtain ⟨pv, hpv, rfl⟩ := propertyAllows_slot hb
      have hallows : (pv.perms.write || p == pv.owner || db.isWizard p) = true := by
        by_contra hno
        simp [hno] at hmay
      exact modifySlot_confined (f := fun s => { s with var := rhs.val }) hi hi hi' hd (fun _ => rfl) rfl hset hpv
        (mayWrite hwiz hallows) rfl rfl

theorem renamed_slot {new : CStr} {n m : Nat} {q q' : Objid} {t : Pval} (hi : Intact db) (hi₁ : Intact db₁)
    (hx : oid ∈ db.dom) (hrename : db.renamePropdef oid pname new = some (true, db₁))
    (hat : FoundAt db pname oid n q) (hat' : FoundAt db₁ new oid m q') (hs : (db.slotsOf oid)[n]? = some s)
    (ht : (db₁.slotsOf oid)[m]? = some t) :
    db₁.slotsOf = db.slotsOf ∧ t = s := by
  obtain ⟨hno, -⟩ | ⟨o, as, d, bs, ho, hsplit, hm, hok, hyes⟩ := renamePropdef_cases hi.sound hx pname new
  · cases hrename.symm.trans hno
  obtain ⟨-, hdb⟩ := Prod.mk.inj (Option.some.inj (hrename.symm.trans hyes))
  have hre : RenamesExactly db oid d new db₁ := by
    rw [hdb]
    exact renamed_exactly hi ho hsplit hm hok (hdb ▸ hi₁)
  have hslots : db₁.slotsOf = db.slotsOf := funext hre.slots
  refine ⟨hslots, ?_⟩
  have hx₁ := mem_dom_of_slotsOf (List.mem_of_getElem? ht)
  obtain ⟨e, he, hetag, hem⟩ := hi.foundAt_tag hx hat hs
  obtain ⟨e', he', hetag', hem'⟩ := hi₁.foundAt_tag hx₁ hat' ht
  obtain ⟨as', bs', hold, hnew⟩ := hre.self
  have hed : e = d := hi.def_unique pname hx (List.mem_flatMap.mpr ⟨q, hat.mem, he⟩)
    (List.mem_flatMap.mpr ⟨oid, (hi.sound.below_self hx).2, by simp [hold]⟩) hem hm
  have hself : nameMatches new.val new = true := by
    rw [nameMatches_eq new.property new.property]
    exact sameName_refl _
  have hed' : e' = { d with name := new.val } :=
    hi₁.def_unique new hx₁ (List.mem_flatMap.mpr ⟨q', hat'.mem, he'⟩)
      (List.mem_flatMap.mpr ⟨oid, (hi₁.sound.below_self hx₁).2, by simp [hnew]⟩) hem' hself
  refine hi.slot_unique (List.mem_of_getElem? hs) (hslots ▸ List.mem_of_getElem? ht) ?_
  rw [← hetag, ← hetag', hed, hed']

theorem bfSetPropInfo_confined {info : Value} (hi : Intact db) (hi' : Intact db') (hd : Distinct db)
    (hwiz : db.isWizard p = false) (hdo : db.bfSetPropInfo p oid pname info = some (r, db')) :
    Confined Eq (.setPropInfo p oid pname info) db db' := by
  obtain rfl | ⟨pi, n, definer, pv, hx, hpi, hat, hpv, hmay, howner, hset | ⟨new, db₁, h, hnew, hrename, hfind, hset⟩⟩ :=
    bfSetPropInfo_cases hi pname.property info.property hdo
  · exact .refl hi hd _
  · exact modifySlot_confined (f := fun s => { s with owner := pi.owner, perms := pi.flags }) hi hi hi' hd
      (fun _ => rfl) rfl (setSlotInfo_eq hset) hpv (mayWrite hwiz hmay) (howner.resolve_left (by simp [hwiz])).symm rfl
  · have ht := validatePropInfo_newName info.property hpi new hnew
    have hi₁ := hi.renamePropdef hx pname.property ht hrename
    have ha := renamePropdef_agree hi hx pname.property ht hrename
    cases h with
    | builtIn prop y => cases hset
    | slot y m q =>
        obtain ⟨rfl, hat'⟩ := findProperty_slot hi₁.sound (ha.dom ▸ hx) hfind
        have hmodify := setSlotInfo_eq hset
        obtain ⟨t, ht', -⟩ := slotsOf_modifySlot hmodify
        have hrename : db.renamePropdef y pname (⟨new, ht⟩ : CStr) = some (true, db₁) := hrename
        obtain ⟨hslots, rfl⟩ := renamed_slot hi hi₁ hx hrename hat hat' hpv ht'
        exact modifySlot_confined hi hi₁ hi' hd ha.objects hslots hmodify (hslots ▸ ht') (mayWrite hwiz hmay)
          (howner.resolve_left (by simp [hwiz])).symm rfl

/-! Verbs. -/

theorem setVerbs_confined {verbs : List Verbdef} (hi : Intact db) (hi' : Intact db')
    (hobj : db₁.objects = db.objects) (ho : db.objects oid = some o)
    (hset : db' = db₁.set oid { o with verbdefs := verbs })
    (hverbs : VerbsConfined Eq call.progr db db') : Confined Eq call db db' := by
  have halike : Alike (fun o : Object => { o with verbdefs := [] }) db db' := by
    intro x
    rw [hset, set_objects, hobj]
    obtain rfl | hne := eq_or_ne x oid
    · rw [Function.update_self, ho]
      rfl
    · rw [Function.update_of_ne hne]
  exact ⟨.of_alike hi.sound hi'.sound (halike.shows fun _ => rfl), hverbs,
    .of_eq hi (Alike.slots (halike.shows fun _ => rfl))⟩

theorem freshAddr_ne {addr : Nat} (hs : Sound db) (hfresh : db.freshAddr addr) (hv : v ∈ db.verbsOf x) :
    v.addr ≠ addr := by
  obtain ⟨o, ho⟩ := mem_dom.mp (mem_dom_of_verbsOf hv)
  rw [verbsOf_of ho] at hv
  have hx := hs.range (mem_dom_of ho)
  refine hfresh x.toNat (List.mem_range.mpr (by lia)) o ?_ v hv
  rw [Int.toNat_of_nonneg hx.1]
  exact ho

theorem bfAddVerb_confined {info args : List Value} (hi : Intact db) (hi' : Intact db') (hd : Distinct db)
    (hwiz : db.isWizard p = false)
    (hdo : db.bfAddVerb env p oid (info.map Subtype.val) (args.map Subtype.val) = some (r, db')) :
    Confined Eq (.addVerb p oid info args) db db' := by
  obtain rfl | ⟨-, vi, specs, count, -, -, -, howner, -, -, hadd⟩ := bfAddVerb_cases hi hdo
  · exact .refl hi hd _
  obtain ⟨o, ho, hfresh, hdb⟩ := addVerb_eq_some hi.sound hadd
  have howner : p = vi.owner := howner.resolve_right (by simp [hwiz])
  have hcases : ∀ x, ∀ v' ∈ db'.verbsOf x, v' ∈ db.verbsOf x ∨ v'.addr = env.addr ∧ v'.owner = p := by
    intro x v' hv'
    rw [hdb] at hv'
    obtain rfl | hne := eq_or_ne x oid
    · rw [verbsOf_of (Function.update_self _ _ _), List.mem_append, List.mem_singleton] at hv'
      obtain hold | rfl := hv'
      · exact .inl (verbsOf_of ho ▸ hold)
      · exact .inr ⟨rfl, howner.symm⟩
    · rw [verbsOf, set_objects, Function.update_of_ne hne] at hv'
      exact .inl hv'
  have hold : ∀ x, ∀ v ∈ db.verbsOf x, ∀ v' ∈ db'.verbsOf x, v'.addr = v.addr → v' = v := by
    intro x v hv v' hv' haddr
    obtain hmem | ⟨hnew, -⟩ := hcases x v' hv'
    · exact hd.unique hv hmem haddr
    · exact absurd (haddr.symm.trans hnew) (freshAddr_ne hi.sound hfresh hv)
  refine setVerbs_confined hi hi' affected_objects ho hdb ⟨fun x v hv v' hv' haddr => ?_, fun x v hv v' hv' haddr => ?_,
    fun x v' hv' hno => ?_⟩
  · rw [hold x v hv v' hv' haddr]
  · exact .inl (by rw [hold x v hv v' hv' haddr])
  · obtain hmem | ⟨-, hp⟩ := hcases x v' hv'
    · exact absurd rfl (hno v' hmem)
    · exact hp

theorem bfDeleteVerb_confined {desc : Value} (hi : Intact db) (hi' : Intact db') (hd : Distinct db)
    (hdo : db.bfDeleteVerb p oid desc = some (r, db')) : Confined Eq (.deleteVerb p oid desc) db db' := by
  obtain rfl | ⟨-, h, -, -, -, hdelete⟩ := bfDeleteVerb_cases hi hdo
  · exact .refl hi hd _
  obtain ⟨o, ho, hdb⟩ := deleteVerb_eq_some hi.sound hdelete
  have hshrinks := deleteVerb_shrinks hi hdelete
  exact setVerbs_confined hi hi' affected_objects ho hdb
    (.of_verbs hd fun x v' hv' => ⟨v', hshrinks.verbs x v' hv', rfl, rfl⟩)

/-- A verb that `p` owns or that may be written is set, but not given away. -/
theorem modifyVerb_confined {f : Verbdef → Verbdef} {h : VerbHandle} (hi : Intact db) (hi' : Intact db')
    (hd : Distinct db) (hobj : db₁.objects = db.objects)
    (hdo : db₁.modifyVerb f h = some db') (hv : db.verbOf h = some v)
    (hmay : v.owner = call.progr ∨ v.flags.write = true) (howner : (f v).owner = v.owner)
    (haddr : ∀ v, (f v).addr = v.addr) : Confined Eq call db db' := by
  obtain ⟨o, w, ho, hw, hwaddr, hof, hset⟩ := modifyVerb_eq_some hdo
  rw [hobj] at ho
  have hof : db.verbOf h = some w := by rwa [verbOf, hobj, ← verbOf] at hof
  obtain rfl := Option.some.inj (hv.symm.trans hof)
  have hmem : v ∈ db.verbsOf h.definer := by rwa [verbsOf_of ho]
  have hcases : ∀ x, ∀ v' ∈ db'.verbsOf x, v' ∈ db.verbsOf x ∨ x = h.definer ∧ v' = f v := by
    intro x v' hv'
    rw [hset] at hv'
    obtain rfl | hne := eq_or_ne x h.definer
    · rw [verbsOf_of (Function.update_self _ _ _)] at hv'
      obtain ⟨u, hu, rfl⟩ := List.mem_map.mp hv'
      rw [← verbsOf_of ho] at hu
      split
      · next heq => exact .inr ⟨rfl, by rw [hd.unique hmem hu (heq.trans hwaddr.symm)]⟩
      · exact .inl hu
    · rw [verbsOf, set_objects, Function.update_of_ne hne, hobj] at hv'
      exact .inl hv'
  have hold : ∀ x, ∀ u ∈ db.verbsOf x, ∀ u' ∈ db'.verbsOf x, u'.addr = u.addr → u' = u ∨ u = v ∧ u' = f v := by
    intro x u hu u' hu' hua
    obtain hmem' | ⟨rfl, rfl⟩ := hcases x u' hu'
    · exact .inl (hd.unique hu hmem' hua)
    · exact .inr ⟨hd.unique hmem hu (hua.symm.trans (haddr v)), rfl⟩
  refine setVerbs_confined hi hi' hobj ho hset ⟨fun x u hu u' hu' hua => ?_, fun x u hu u' hu' hua => ?_,
    fun x u' hu' hno => ?_⟩
  · obtain rfl | ⟨rfl, rfl⟩ := hold x u hu u' hu' hua
    · rfl
    · exact howner.symm
  · obtain rfl | ⟨rfl, rfl⟩ := hold x u hu u' hu' hua
    · exact .inl rfl
    · exact .inr hmay
  · obtain hmem' | ⟨rfl, rfl⟩ := hcases x u' hu'
    · exact absurd rfl (hno u' hmem')
    · exact absurd (haddr v).symm (hno v hmem)

/-! All calls. -/

theorem perform_confined (hi : Intact db) (hd : Distinct db) (hp : call.progr ∈ db.dom)
    (hwiz : db.isWizard call.progr = false) (hagain : call.rematches env db) (hdo : db.perform env call = some db') :
    Confined (Reowned call db db') call db db' := by
  have hi' := perform_intact hi hdo
  have hsame : Confined Eq call db db' → Confined (Reowned call db db') call db db' :=
    fun h => h.mono fun _ _ he => .inl he.symm
  cases call with
  | findCallableVerb p x verb =>
      obtain ⟨⟨db₁, h⟩, hcall, rfl⟩ := Option.map_eq_some_iff.mp hdo
      have ht : Tendings none db db₁ := .single (.lookup verb.property hcall)
      exact hsame (ht.confined hi hd)
  | create p parent owner? =>
      obtain ⟨⟨r, db₁⟩, hcall, rfl⟩ := Option.map_eq_some_iff.mp hdo
      obtain rfl | ⟨hpar, howner, hcreate⟩ := bfCreate_allowed hcall
      · exact hsame (.refl hi hd _)
      · rw [howner.resolve_right (by simp [show db.isWizard p = false from hwiz])] at hcreate
        exact createOwned_confined create_makes hi hd (mayParent_mem hi.sound hpar) (hi.sound.ne_nothing hp)
          False.elim hcreate
  | createAndRenumber p parent owner? =>
      obtain ⟨⟨r, db₁⟩, hcall, rfl⟩ := Option.map_eq_some_iff.mp hdo
      obtain rfl | ⟨hpar, howner, hcreate⟩ := bfCreateAndRenumber_allowed hcall
      · exact hsame (.refl hi hd _)
      · rw [howner.resolve_right (by simp [show db.isWizard p = false from hwiz])] at hcreate
        exact createOwned_confined (createAndRenumber_makes _) hi hd (mayParent_mem hi.sound hpar)
          (hi.sound.ne_nothing hp) (fun _ => ⟨p, parent, owner?, rfl⟩) hcreate
  | createWithId p id parent owner? =>
      obtain ⟨⟨r, db₁⟩, hcall, rfl⟩ := Option.map_eq_some_iff.mp hdo
      simp only [bfCreateWithId, show db.isWizard p = false from hwiz, Bool.not_false, Bool.or_true, if_true] at hcall
      obtain rfl := refused hcall
      exact hsame (.refl hi hd _)
  | chparent p what parent =>
      obtain ⟨⟨r, db₁⟩, hcall, rfl⟩ := Option.map_eq_some_iff.mp hdo
      exact hsame (bfChparent_confined hi hd hcall)
  | move p what where' =>
      obtain ⟨⟨r, db₁⟩, hcall, rfl⟩ := Option.map_eq_some_iff.mp hdo
      exact hsame ((bfMove_tends hi hcall).confined hi hd)
  | moveAccepted p what where' accepts =>
      obtain ⟨⟨r, db₁⟩, hcall, rfl⟩ := Option.map_eq_some_iff.mp hdo
      exact hsame ((moveAccepted_tends hi hcall).confined hi hd)
  | moveExited p what where' =>
      obtain ⟨⟨r, db₁⟩, hcall, rfl⟩ := Option.map_eq_some_iff.mp hdo
      exact hsame ((moveExited_tends hcall).confined hi hd)
  | recycle p x =>
      obtain ⟨⟨r, db₁⟩, hcall, rfl⟩ := Option.map_eq_some_iff.mp hdo
      obtain rfl | ⟨o, db₂, ho, hcontrols, ht, hend⟩ := bfRecycle_cases hi hcall
      · exact hsame (.refl hi hd _)
      · exact hsame (recycled_confined hi hd (mem_dom_of ho) ht hend fun y hb => ⟨hb, o, ho, hcontrols⟩)
  | recycleResumed p x =>
      obtain ⟨⟨r, db₁⟩, hcall, rfl⟩ := Option.map_eq_some_iff.mp hdo
      by_cases hx : x ∈ db.dom
      · obtain ⟨db₂, ht, hend⟩ := recycleResumed_cases hi hcall
        exact hsame (recycled_confined hi hd hx ht (hend.imp id And.right) fun y hb => hb)
      · have hv : db.valid x = false := by
          rw [← Bool.not_eq_true, hi.sound.valid_iff]
          exact hx
        simp only [recycleResumed, hv, Bool.not_false, if_true] at hcall
        obtain rfl := refused hcall
        exact hsame (.refl hi hd _)
  | renumber p x =>
      obtain ⟨⟨r, db₁⟩, hcall, rfl⟩ := Option.map_eq_some_iff.mp hdo
      obtain rfl | ⟨new, -, hw, -⟩ := bfRenumber_cases hi hcall
      · exact hsame (.refl hi hd _)
      · exact absurd (hwiz.symm.trans hw) Bool.false_ne_true
  | resetMaxObject p =>
      obtain ⟨⟨r, db₁⟩, hcall, rfl⟩ := Option.map_eq_some_iff.mp hdo
      obtain rfl | ⟨hw, -⟩ := bfResetMaxObject_cases hcall
      · exact hsame (.refl hi hd _)
      · exact absurd (hwiz.symm.trans hw) Bool.false_ne_true
  | setPropInfo p x pname info =>
      obtain ⟨⟨r, db₁⟩, hcall, rfl⟩ := Option.map_eq_some_iff.mp hdo
      exact hsame (bfSetPropInfo_confined hi hi' hd hwiz hcall)
  | addProp p x pname value info =>
      obtain ⟨⟨r, db₁⟩, hcall, rfl⟩ := Option.map_eq_some_iff.mp hdo
      exact hsame (bfAddProp_confined hi hd hcall)
  | deleteProp p x pname =>
      obtain ⟨⟨r, db₁⟩, hcall, rfl⟩ := Option.map_eq_some_iff.mp hdo
      exact hsame (bfDeleteProp_confined hi hd hcall)
  | clearProp p x pname =>
      obtain ⟨⟨r, db₁⟩, hcall, rfl⟩ := Option.map_eq_some_iff.mp hdo
      exact hsame (bfClearProp_confined hi hi' hd hwiz hcall)
  | putProp p obj propname rhs =>
      obtain ⟨⟨r, db₁⟩, hcall, rfl⟩ := Option.map_eq_some_iff.mp hdo
      exact hsame (putProp_confined hi hi' hd hwiz hcall)
  | addVerb p x info args =>
      obtain ⟨⟨r, db₁⟩, hcall, rfl⟩ := Option.map_eq_some_iff.mp hdo
      exact hsame (bfAddVerb_confined hi hi' hd hwiz hcall)
  | deleteVerb p x desc =>
      obtain ⟨⟨r, db₁⟩, hcall, rfl⟩ := Option.map_eq_some_iff.mp hdo
      exact hsame (bfDeleteVerb_confined hi hi' hd hcall)
  | setVerbInfo p x desc info =>
      obtain ⟨⟨r, db₁⟩, hcall, rfl⟩ := Option.map_eq_some_iff.mp hdo
      obtain rfl | ⟨o, vi, h, v, -, -, -, hv, hmay, howner, -, -, hset⟩ := bfSetVerbInfo_rematched hi hagain hcall
      · exact hsame (.refl hi hd _)
      · exact hsame (modifyVerb_confined hi hi' hd affected_objects hset hv (mayWrite hwiz hmay)
          (howner.resolve_right (by simp [show db.isWizard p = false from hwiz])).symm fun _ => rfl)
  | setVerbArgs p x desc args =>
      obtain ⟨⟨r, db₁⟩, hcall, rfl⟩ := Option.map_eq_some_iff.mp hdo
      obtain rfl | ⟨specs, h, v, -, hv, hmay, hset⟩ := bfSetVerbArgs_cases hi hcall
      · exact hsame (.refl hi hd _)
      · exact hsame (modifyVerb_confined hi hi' hd affected_objects hset hv (mayWrite hwiz hmay) rfl fun _ => rfl)
  | setVerbCode p x desc code =>
      obtain ⟨⟨r, db₁⟩, hcall, rfl⟩ := Option.map_eq_some_iff.mp hdo
      obtain rfl | ⟨program, h, v, -, hv, hmay, hset⟩ := bfSetVerbCode_cases hi hcall
      · exact hsame (.refl hi hd _)
      · exact hsame (modifyVerb_confined hi hi' hd rfl hset hv (mayWrite hwiz hmay) rfl fun _ => rfl)

/-! No call puts two verbs of an object at one address. -/

theorem Distinct.of_eq (hd : Distinct db) (h : db'.verbsOf = db.verbsOf) : Distinct db' := by
  rwa [Distinct, h]

theorem Distinct.of_alike (hd : Distinct db) (h : Alike Object.verbdefs db db') : Distinct db' := hd.of_eq h.verbs

theorem Distinct.of_old (hd : Distinct db) (h : ∀ x o', db'.objects x = some o' → o'.verbdefs = [] ∨
    ∃ z o, db.objects z = some o ∧ o'.verbdefs.map Verbdef.addr = o.verbdefs.map Verbdef.addr) : Distinct db' := by
  intro x
  cases ho' : db'.objects x with
  | none => simp [verbsOf, ho']
  | some o' =>
      rw [verbsOf_of ho']
      obtain hnone | ⟨z, o, ho, haddr⟩ := h x o' ho'
      · simp [hnone]
      · rw [haddr, ← verbsOf_of ho]
        exact hd z

theorem addr_withOwners (old new : Objid) (o : Object) :
    (o.withOwners old new).verbdefs.map Verbdef.addr = o.verbdefs.map Verbdef.addr := by
  simp [Object.withOwners, Function.comp_def]

theorem Made.distinct {owners : Object → Object} {new : Objid} (hd : Distinct db) (m : Made db new owners db')
    (howners : ∀ o, (owners o).verbdefs.map Verbdef.addr = o.verbdefs.map Verbdef.addr) : Distinct db' := by
  refine hd.of_old fun x o' ho' => ?_
  have hx := mem_dom_of ho'
  rw [m.dom] at hx
  obtain rfl | hx := hx
  · obtain ⟨o, ho, hbody, -⟩ := m.object
    obtain rfl := Option.some.inj (ho.symm.trans ho')
    have hverbs := congrArg Object.verbdefs hbody
    exact .inl hverbs
  · obtain ⟨o, ho⟩ := mem_dom.mp hx
    have hbody := m.body x o ho
    rw [ho', Option.map_some, Option.some.injEq] at hbody
    have haddr := congrArg (fun o : Object => o.verbdefs.map Verbdef.addr) hbody
    exact .inr ⟨x, o, ho, haddr.trans (howners o)⟩

theorem Renumbered.distinct {old new : Objid} (hd : Distinct db) (h : Renumbered db old new db') : Distinct db' := by
  refine hd.of_old fun x o' ho' => .inr ?_
  have hx := mem_dom_of ho'
  rw [h.dom] at hx
  obtain ⟨z, hz, rfl⟩ := hx
  obtain ⟨o, ho⟩ := mem_dom.mp hz
  have hbody := h.body z hz
  rw [ho', ho, Option.map_some, Option.map_some, Option.some.injEq] at hbody
  have haddr := congrArg (fun o : Object => o.verbdefs.map Verbdef.addr) hbody
  exact ⟨z, o, ho, haddr.trans (addr_withOwners old new o)⟩

theorem UsersRewritten.distinct (h : UsersRewritten db db') (hd : Distinct db) : Distinct db' := by
  obtain rfl | ⟨users, users', shared, rfl⟩ := h
  · exact hd
  · refine hd.of_old fun x o' ho' => .inr ?_
    obtain ⟨o, ho, rfl⟩ := Option.map_eq_some_iff.mp ho'
    exact ⟨x, o, ho, rfl⟩

theorem changeParent_distinct {parent : Objid} {changed : Bool} (hi : Intact db) (hd : Distinct db) (hx : x ∈ db.dom)
    (hp : parent = nothing ∨ parent ∈ db.dom) (hacyc : x ∉ db.chain .family parent)
    (hdo : db.changeParent x parent = some (changed, db')) : Distinct db' := by
  obtain ⟨-, rfl⟩ | ⟨-, -, -, hre⟩ := changeParent_cases hi hx hp hacyc hdo
  · exact hd
  · exact hd.of_alike (.shows hre.agree.objects fun _ => rfl)

theorem Upkeeps.distinct (hi : Intact db) (hd : Distinct db) (h : Upkeeps db db') : Distinct db' :=
  hd.of_eq (h.standing hi).sameVerbs

theorem Creates.distinct {renumbers : Prop} {parent : Objid} {owner? : Option Objid} (hi : Intact db)
    (hd : Distinct db) (h : Creates renumbers p parent owner? db db') : Distinct db' := by
  obtain ⟨db₁, hup, rfl | ⟨hpar, -, new, owners, db₂, howners, m, o, changed, db₃, ho, hchange, hup'⟩⟩ := h
  · exact hup.distinct hi hd
  have hi₁ := hup.intact hi
  have haddr : ∀ o, (owners o).verbdefs.map Verbdef.addr = o.verbdefs.map Verbdef.addr := by
    intro o
    obtain rfl | ⟨-, rfl⟩ := howners
    · rfl
    · exact addr_withOwners _ _ o
  have hd₂ := m.distinct (hup.distinct hi hd) haddr
  set owner := if owner?.getD p = nothing then new else owner?.getD p
  have hi₂ := m.intact.named ho owner
  have ha : Agree Object.verbdefs db₂ (db₂.set new { o with name := [], owner }) := Agree.set ho rfl
  have hd₃ := hd₂.of_alike ha.objects
  obtain ⟨hp, hacyc⟩ := m.parent owner (hup.dom hi ▸ mayParent_mem hi.sound hpar) ho
  have hnew : new ∈ (db₂.set new { o with name := [], owner }).dom := mem_dom_of (Function.update_self _ _ _)
  exact hup'.distinct (hi₂.changeParent hnew hp hacyc hchange)
    (changeParent_distinct hi₂ hd₃ hnew hp hacyc hchange)

theorem destroyObject_distinct (hi : Intact db) (hd : Distinct db) (hdo : db.destroyObject oid = some db') :
    Distinct db' := by
  obtain ⟨o, users, -, -, -, -, -, -, rfl⟩ := destroyObject_cases hi hdo
  refine hd.of_old fun x o' ho' => .inr ⟨x, o', ?_, rfl⟩
  obtain rfl | hne := eq_or_ne x oid
  · exact absurd ho' (by simp)
  · exact (Function.update_of_ne hne _ _).symm.trans ho'

theorem setVerbs_distinct {verbs : List Verbdef} (hd : Distinct db) (hobj : db₁.objects = db.objects)
    (hverbs : (verbs.map Verbdef.addr).Nodup) : Distinct (db₁.set oid { o with verbdefs := verbs }) := by
  intro x
  obtain rfl | hne := eq_or_ne x oid
  · rwa [verbsOf_of (Function.update_self _ _ _)]
  · rw [verbsOf, set_objects, Function.update_of_ne hne, hobj]
    exact hd x

theorem modifyVerb_distinct {f : Verbdef → Verbdef} {h : VerbHandle} (hd : Distinct db)
    (hobj : db₁.objects = db.objects) (hdo : db₁.modifyVerb f h = some db') (haddr : ∀ v, (f v).addr = v.addr) :
    Distinct db' := by
  obtain ⟨o, v, ho, -, -, -, rfl⟩ := modifyVerb_eq_some hdo
  rw [hobj] at ho
  refine setVerbs_distinct hd hobj ?_
  have hsame : (o.verbdefs.map fun v => if v.addr = h.verbdef then f v else v).map Verbdef.addr =
      o.verbdefs.map Verbdef.addr := by
    rw [List.map_map]
    refine List.map_congr_left fun v _ => ?_
    rw [Function.comp_apply]
    split
    · exact haddr v
    · rfl
  rw [hsame, ← verbsOf_of ho]
  exact hd h.definer

theorem bfSetPropInfo_distinct {p x : Objid} {pname : CStr} {info : Value} {r : Package}
    (hi : Intact db) (hd : Distinct db)
    (hcall : db.bfSetPropInfo p x pname info = some (r, db')) : Distinct db' := by
  obtain rfl | ⟨pi, n, definer, pv, hx, hpi, -, -, -, -, hset | ⟨new, db₂, h, hnew, hrename, -, hset⟩⟩ :=
    bfSetPropInfo_cases hi pname.property info.property hcall
  · exact hd
  · exact hd.of_alike (.shows (setSlotInfo_agree hset).objects fun _ => rfl)
  · have ht := validatePropInfo_newName info.property hpi new hnew
    have ha := renamePropdef_agree hi hx pname.property ht hrename
    have hd₁ : Distinct db₂ := hd.of_alike (.shows ha.objects fun _ => rfl)
    exact hd₁.of_alike (.shows (setSlotInfo_agree hset).objects fun _ => rfl)

theorem bfAddProp_distinct {p x : Objid} {pname : CStr} {value info : Value} {r : Package}
    (hi : Intact db) (hd : Distinct db)
    (hcall : db.bfAddProp p x pname value info = some (r, db')) : Distinct db' := by
  obtain rfl | ⟨o, owner, flags, added, ho, -, -, hadd⟩ := bfAddProp_cases hi hcall
  · exact hd
  obtain ⟨hno, -⟩ | ⟨db₂, hyes, -, -, hexact⟩ :=
    addPropdef_cases owner flags hi (mem_dom_of ho) pname (value_ne_clear value)
  · obtain ⟨-, rfl⟩ := Prod.mk.inj (Option.some.inj (hadd.symm.trans hno))
    exact hd
  · obtain ⟨-, rfl⟩ := Prod.mk.inj (Option.some.inj (hadd.symm.trans hyes))
    exact hd.of_alike (.shows hexact.same.objects fun _ => rfl)

theorem bfDeleteProp_distinct {p x : Objid} {pname : CStr} {r : Package} (hi : Intact db) (hd : Distinct db)
    (hcall : db.bfDeleteProp p x pname = some (r, db')) : Distinct db' := by
  obtain rfl | ⟨o, deleted, ho, -, hdelete⟩ := bfDeleteProp_cases hi hcall
  · exact hd
  obtain ⟨hno, -⟩ | ⟨d, db₂, hyes, -, -, -, hexact⟩ := deletePropdef_cases hi (mem_dom_of ho) pname
  · obtain ⟨-, rfl⟩ := Prod.mk.inj (Option.some.inj (hdelete.symm.trans hno))
    exact hd
  · obtain ⟨-, rfl⟩ := Prod.mk.inj (Option.some.inj (hdelete.symm.trans hyes))
    exact hd.of_alike (.shows hexact.same.objects fun _ => rfl)

theorem putProp_distinct {p : Objid} {obj propname rhs : Value} {e : Error} (hi : Intact db) (hd : Distinct db)
    (hcall : db.putProp p obj propname rhs = some (e, db')) : Distinct db' := by
  obtain rfl | ⟨x, name, h, -, -, -, -, hset⟩ := putProp_cases hi hcall
  · exact hd
  · cases h with
    | builtIn prop y =>
        obtain ⟨users, ha⟩ := setBuiltIn_agree hset
        exact hd.of_alike (.shows ha.objects fun _ => rfl)
    | slot y n definer =>
        have ha := modifySlot_agree (f := fun s => { s with var := rhs.val }) hset
        exact hd.of_alike (.shows ha.objects fun _ => rfl)

theorem bfAddVerb_distinct {p x : Objid} {info args : List Value} {r : Package} (hi : Intact db) (hd : Distinct db)
    (hcall : db.bfAddVerb env p x (info.map Subtype.val) (args.map Subtype.val) = some (r, db')) : Distinct db' := by
  obtain rfl | ⟨-, vi, specs, count, -, -, -, -, -, -, hadd⟩ := bfAddVerb_cases hi hcall
  · exact hd
  obtain ⟨o, ho, hfresh, rfl⟩ := addVerb_eq_some hi.sound hadd
  refine setVerbs_distinct hd affected_objects ?_
  rw [List.map_append, List.map_singleton, List.nodup_append]
  refine ⟨verbsOf_of ho ▸ hd x, List.nodup_singleton _, fun a ha b hb => ?_⟩
  obtain ⟨v, hv, rfl⟩ := List.mem_map.mp ha
  obtain rfl := List.mem_singleton.mp hb
  exact freshAddr_ne hi.sound hfresh (verbsOf_of ho ▸ hv)

theorem bfDeleteVerb_distinct {p x : Objid} {desc : Value} {r : Package} (hi : Intact db) (hd : Distinct db)
    (hcall : db.bfDeleteVerb p x desc = some (r, db')) : Distinct db' := by
  obtain rfl | ⟨o, h, -, -, -, hdelete⟩ := bfDeleteVerb_cases hi hcall
  · exact hd
  obtain ⟨o, ho, rfl⟩ := deleteVerb_eq_some hi.sound hdelete
  refine setVerbs_distinct hd affected_objects ?_
  have hnodup := hd h.definer
  rw [verbsOf_of ho] at hnodup
  exact hnodup.sublist (List.eraseP_sublist.map _)

theorem perform_distinct (hi : Intact db) (hd : Distinct db) (hdo : db.perform env call = some db') :
    Distinct db' := by
  cases call with
  | findCallableVerb p x verb =>
      obtain ⟨⟨db₁, h⟩, hcall, rfl⟩ := Option.map_eq_some_iff.mp hdo
      exact Upkeeps.distinct hi hd (.single (.lookup verb.property hcall))
  | create p parent owner? =>
      obtain ⟨⟨r, db₁⟩, hcall, rfl⟩ := Option.map_eq_some_iff.mp hdo
      exact (bfCreate_cases hi hcall).distinct hi hd
  | createAndRenumber p parent owner? =>
      obtain ⟨⟨r, db₁⟩, hcall, rfl⟩ := Option.map_eq_some_iff.mp hdo
      exact (bfCreateAndRenumber_cases hi hcall).distinct hi hd
  | createWithId p id parent owner? =>
      obtain ⟨⟨r, db₁⟩, hcall, rfl⟩ := Option.map_eq_some_iff.mp hdo
      exact (bfCreateWithId_cases hi hcall).distinct hi hd
  | chparent p what parent =>
      obtain ⟨⟨r, db₁⟩, hcall, rfl⟩ := Option.map_eq_some_iff.mp hdo
      obtain rfl | ⟨o, changed, ho, -, hp, hacyc, -, hchange⟩ := bfChparent_cases hi hcall
      · exact hd
      · exact changeParent_distinct hi hd (mem_dom_of ho) hp hacyc hchange
  | move p what where' =>
      obtain ⟨⟨r, db₁⟩, hcall, rfl⟩ := Option.map_eq_some_iff.mp hdo
      exact (bfMove_tends (k := none) hi hcall).upkeeps.distinct hi hd
  | moveAccepted p what where' accepts =>
      obtain ⟨⟨r, db₁⟩, hcall, rfl⟩ := Option.map_eq_some_iff.mp hdo
      exact (moveAccepted_tends (k := none) hi hcall).upkeeps.distinct hi hd
  | moveExited p what where' =>
      obtain ⟨⟨r, db₁⟩, hcall, rfl⟩ := Option.map_eq_some_iff.mp hdo
      exact (moveExited_tends (k := none) hcall).upkeeps.distinct hi hd
  | recycle p x =>
      obtain ⟨⟨r, db₁⟩, hcall, rfl⟩ := Option.map_eq_some_iff.mp hdo
      obtain rfl | ⟨o, db₂, -, -, ht, rfl | hdestroy⟩ := bfRecycle_cases hi hcall
      · exact hd
      · exact ht.upkeeps.distinct hi hd
      · exact destroyObject_distinct (ht.intact hi) (ht.upkeeps.distinct hi hd) hdestroy
  | recycleResumed p x =>
      obtain ⟨⟨r, db₁⟩, hcall, rfl⟩ := Option.map_eq_some_iff.mp hdo
      obtain ⟨db₂, ht, rfl | ⟨-, hdestroy⟩⟩ := recycleResumed_cases hi hcall
      · exact ht.upkeeps.distinct hi hd
      · exact destroyObject_distinct (ht.intact hi) (ht.upkeeps.distinct hi hd) hdestroy
  | renumber p x =>
      obtain ⟨⟨r, db₁⟩, hcall, rfl⟩ := Option.map_eq_some_iff.mp hdo
      obtain rfl | ⟨new, hx, -, hre⟩ := bfRenumber_cases hi hcall
      · exact hd
      · obtain rfl | ⟨db₂, -, -, hre, hrewritten⟩ := renumberObject_cases hi hx hre
        · exact hd
        · exact hrewritten.distinct (hre.distinct hd)
  | resetMaxObject p =>
      obtain ⟨⟨r, db₁⟩, hcall, rfl⟩ := Option.map_eq_some_iff.mp hdo
      obtain rfl | ⟨-, hreset⟩ := bfResetMaxObject_cases hcall
      · exact hd
      · exact hd.of_alike fun x => by rw [(resetLastUsedObjid_intact hi hreset).2.1]
  | setPropInfo p x pname info =>
      obtain ⟨⟨r, db₁⟩, hcall, rfl⟩ := Option.map_eq_some_iff.mp hdo
      exact bfSetPropInfo_distinct hi hd hcall
  | addProp p x pname value info =>
      obtain ⟨⟨r, db₁⟩, hcall, rfl⟩ := Option.map_eq_some_iff.mp hdo
      exact bfAddProp_distinct hi hd hcall
  | deleteProp p x pname =>
      obtain ⟨⟨r, db₁⟩, hcall, rfl⟩ := Option.map_eq_some_iff.mp hdo
      exact bfDeleteProp_distinct hi hd hcall
  | clearProp p x pname =>
      obtain ⟨⟨r, db₁⟩, hcall, rfl⟩ := Option.map_eq_some_iff.mp hdo
      obtain rfl | ⟨n, definer, pv, -, -, -, -, -, hclear⟩ := bfClearProp_cases hi hcall
      · exact hd
      · exact hd.of_alike (.shows (modifySlot_agree hclear).objects fun _ => rfl)
  | putProp p obj propname rhs =>
      obtain ⟨⟨r, db₁⟩, hcall, rfl⟩ := Option.map_eq_some_iff.mp hdo
      exact putProp_distinct hi hd hcall
  | addVerb p x info args =>
      obtain ⟨⟨r, db₁⟩, hcall, rfl⟩ := Option.map_eq_some_iff.mp hdo
      exact bfAddVerb_distinct hi hd hcall
  | deleteVerb p x desc =>
      obtain ⟨⟨r, db₁⟩, hcall, rfl⟩ := Option.map_eq_some_iff.mp hdo
      exact bfDeleteVerb_distinct hi hd hcall
  | setVerbInfo p x desc info =>
      obtain ⟨⟨r, db₁⟩, hcall, rfl⟩ := Option.map_eq_some_iff.mp hdo
      obtain rfl | ⟨o, vi, -, v, -, h, -, -, -, -, -, -, -, -, -, -, hset⟩ := bfSetVerbInfo_cases hi hcall
      · exact hd
      · exact modifyVerb_distinct hd affected_objects hset fun _ => rfl
  | setVerbArgs p x desc args =>
      obtain ⟨⟨r, db₁⟩, hcall, rfl⟩ := Option.map_eq_some_iff.mp hdo
      obtain rfl | ⟨specs, h, v, -, -, -, hset⟩ := bfSetVerbArgs_cases hi hcall
      · exact hd
      · exact modifyVerb_distinct hd affected_objects hset fun _ => rfl
  | setVerbCode p x desc code =>
      obtain ⟨⟨r, db₁⟩, hcall, rfl⟩ := Option.map_eq_some_iff.mp hdo
      obtain rfl | ⟨program, h, v, -, -, -, hset⟩ := bfSetVerbCode_cases hi hcall
      · exact hd
      · exact modifyVerb_distinct hd rfl hset fun _ => rfl

theorem Run.distinct {ok : Env → Call → Db → Prop} (hi : Intact db) (hd : Distinct db) (hrun : Run ok db db') :
    Distinct db' := by
  have hboth : Intact db' ∧ Distinct db' := by
    refine hrun.invariant (I := fun db => Intact db ∧ Distinct db) ?_ ⟨hi, hd⟩
    rintro env call db db' ⟨hi, hd⟩ - hdo
    exact ⟨perform_intact hi hdo, perform_distinct hi hd hdo⟩
  exact hboth.2

theorem wizardAlone_distinct : Distinct wizardAlone := by
  have hempty : Distinct empty := fun _ => List.nodup_nil
  refine hempty.of_old fun x o' ho' => .inl ?_
  obtain rfl | hne := eq_or_ne x 0
  · obtain rfl := Option.some.inj ho'
    rfl
  · rw [wizardAlone, set_objects, Function.update_of_ne hne] at ho'
    exact absurd ((Function.update_of_ne hne _ _).symm.trans ho') (by simp [empty])

/-- In every state that calls lead to, a call of someone who is no wizard is confined, where it is no
`set_verb_info` that finds another verb once it has freed its descriptor. -/
theorem run_confined {db₀ : Db} (hi : Intact db₀) (hd : Distinct db₀) (hrun : Run (fun _ _ _ => True) db₀ db)
    (hp : call.progr ∈ db.dom) (hwiz : db.isWizard call.progr = false) (hagain : call.rematches env db)
    (hdo : db.perform env call = some db') : Confined (Reowned call db db') call db db' :=
  perform_confined (hrun.intact hi) (hrun.distinct hi hd) hp hwiz hagain hdo

/-- The wizard makes three objects, of which the second is to belong to the first, and recycles that
one. -/
def leaveOwner : List (Env × Call) :=
  [(calmEnv, .create 0 nothing none), (calmEnv, .create 0 nothing (some 1)), (calmEnv, .create 0 nothing none),
    (calmEnv, .recycle 0 1)]

def ownerGone : Db := (performAll leaveOwner wizardAlone).getD empty

theorem ownerGone_run : Run (fun _ _ _ => True) wizardAlone ownerGone :=
  performAll_run leaveOwner (fun _ _ _ => trivial) rfl

/-- Then the third makes an object, which gets the number of what was recycled. -/
def takeNumber : Call := .createAndRenumber 3 nothing none

theorem takeNumber_allowed : takeNumber.progr ∈ ownerGone.dom ∧ ownerGone.isWizard takeNumber.progr = false :=
  ⟨mem_dom.mpr (Option.isSome_iff_exists.mp rfl), rfl⟩

theorem run_confined_taken : ∃ db', ownerGone.perform calmEnv takeNumber = some db' ∧
    Confined (Reowned takeNumber ownerGone db') takeNumber ownerGone db' := by
  obtain ⟨db', hdo⟩ : ∃ db', ownerGone.perform calmEnv takeNumber = some db' := Option.isSome_iff_exists.mp rfl
  exact ⟨db', hdo, run_confined wizardAlone_intact wizardAlone_distinct ownerGone_run takeNumber_allowed.1
    takeNumber_allowed.2 trivial hdo⟩

end Db
end LambdaMoo
