import LambdaMoo.StoreInvariant

/-! The cache of verb lookups. An entry holds what a walk over the ancestors finds, for as
long as it is there. -/
namespace LambdaMoo

/-! A verb's names do not tell words apart that differ in case only. -/

theorem matchVerbName_lowered {w w' : Str} (v : Str) (star : Star) (h : lowered w = lowered w') :
    (matchVerbName v w star).1 = (matchVerbName v w' star).1 ∧
      (matchVerbName v w star).2.1.isEmpty = (matchVerbName v w' star).2.1.isEmpty ∧
      (matchVerbName v w star).2.2 = (matchVerbName v w' star).2.2 := by
  induction v generalizing w w' star with
  | nil =>
      have hlen := congrArg List.length h
      simp only [lowered, List.length_map] at hlen
      cases w <;> cases w' <;> simp_all [matchVerbName]
  | cons c v ih =>
      by_cases hstar : c = '*'
      · subst hstar
        simp only [matchVerbName]
        exact ih _ h
      · cases w with
        | nil =>
            cases w' with
            | nil => exact ⟨rfl, rfl, rfl⟩
            | cons y w' => cases h
        | cons x w =>
            cases w' with
            | nil => cases h
            | cons y w' =>
                obtain ⟨hxy, hw⟩ := List.cons.inj h
                simp only [matchVerbName]
                rw [hxy]
                split
                · exact ⟨rfl, rfl, rfl⟩
                · exact ih _ hw

theorem verbcasecmp_lowered {v w w' : Str} (h : lowered w = lowered w') : verbcasecmp v w = verbcasecmp v w' := by
  unfold verbcasecmp
  generalize v.length + 1 = fuel
  induction fuel generalizing v with
  | zero => rfl
  | succ fuel ih =>
      obtain ⟨hrest, hempty, hstar⟩ := matchVerbName_lowered v .none h
      simp only [verbcasecmpFrom, hrest, hempty, hstar, ih]

namespace Db

variable {db db' : Db} {oid a x : Objid} {o : Object} {verb word : Str} {env : Env} {call : Call}

def callableOn (verb : Str) (o : Object) : Option VerbHandle :=
  (findVerbdefByName o verb true).map fun v => { definer := o.id, verbdef := v.addr }

def callable (db : Db) (verb : Str) (oid : Objid) : Option VerbHandle :=
  (db.chain .family oid).findSome? fun i => (db.objects i).bind (callableOn verb)

theorem callableOn_lowered (h : lowered verb = lowered word) : callableOn verb o = callableOn word o := by
  unfold callableOn findVerbdefByName
  simp only [verbcasecmp_lowered h]

theorem callable_lowered (h : lowered verb = lowered word) : db.callable verb oid = db.callable word oid := by
  unfold callable
  congr 1
  funext i
  congr 1
  funext o
  exact callableOn_lowered h

theorem chain_notMem {h : Hier} (ha : a ∉ db.dom) : db.chain h a = [] := by
  have hno : db.objects a = none := by simpa [dom] using ha
  unfold chain fuel walkUp
  by_cases hn : a = nothing <;> simp [hn, hno]

theorem Sound.chain_lt_fuel {h : Hier} (hs : Sound db) (a : Objid) : (db.chain h a).length < db.fuel := by
  by_cases ha : a ∈ db.dom
  · have := hs.chain_length_le (h := h) (.inr ha)
    unfold fuel
    omega
  · rw [chain_notMem ha]
    exact Nat.succ_pos _

theorem Sound.find_notMem (hs : Sound db) (ha : a ∉ db.dom) : db.find a = none := by
  rw [hs.find_eq]
  simpa [dom] using ha

theorem callableVerbWalk_eq (hs : Sound db) (verb : Str) (a : Objid) :
    db.callableVerbWalk verb db.fuel a = some (db.callable verb a) := by
  have hlen := hs.chain_lt_fuel (h := .family) a
  unfold callable
  generalize db.fuel = fuel at hlen
  induction fuel generalizing a with
  | zero => simp at hlen
  | succ fuel ih =>
      by_cases had : a ∈ db.dom
      swap
      · simp [callableVerbWalk, hs.find_notMem had, chain_notMem had]
      · obtain ⟨o, ho⟩ := mem_dom.mp had
        have hcons := hs.chain_cons (h := .family) had
        rw [hcons, List.length_cons] at hlen
        have hup : db.upOf .family a = o.parent := upOf_of ho
        have hrest := ih (db.upOf .family a) (by omega)
        simp only [callableVerbWalk, hs.find_eq, ho]
        rw [hcons, List.findSome?_cons, ho, Option.bind_some, callableOn]
        cases findVerbdefByName o verb true with
        | some v => rfl
        | none =>
            rw [Option.map_none]
            exact hup ▸ hrest

theorem firstParentWithVerbs_spec (hs : Sound db) (a : Objid) :
    (db.firstParentWithVerbs db.fuel a = some none ∧ ∀ verb, db.callable verb a = none) ∨
      ∃ o, db.firstParentWithVerbs db.fuel a = some (some o) ∧ db.objects o.id = some o ∧
        o.verbdefs ≠ [] ∧ ∀ verb, db.callable verb a = db.callable verb o.id := by
  have hlen := hs.chain_lt_fuel (h := .family) a
  unfold callable
  generalize db.fuel = fuel at hlen
  induction fuel generalizing a with
  | zero => simp at hlen
  | succ fuel ih =>
      by_cases had : a ∈ db.dom
      swap
      · exact .inl ⟨by simp [firstParentWithVerbs, hs.find_notMem had], by simp [chain_notMem had]⟩
      · obtain ⟨o, ho⟩ := mem_dom.mp had
        have hcons := hs.chain_cons (h := .family) had
        have hid := (hs.ids ho).1
        rw [hcons, List.length_cons] at hlen
        have hup : db.upOf .family a = o.parent := upOf_of ho
        by_cases hv : o.verbdefs = []
        · have hskip : ∀ verb, callableOn verb o = none := fun verb => by
            simp [callableOn, findVerbdefByName, hv]
          have hrest := ih (db.upOf .family a) (by omega)
          simp only [firstParentWithVerbs, hs.find_eq, ho, hv, List.isEmpty_nil, if_true, hcons,
            List.findSome?_cons, Option.bind_some, hskip]
          rw [← hup]
          exact hrest
        · refine .inr ⟨o, ?_, hid.symm ▸ ho, hv, fun verb => by rw [hid]⟩
          simp [firstParentWithVerbs, hs.find_eq, ho, hv]

/-- Every entry holds what a walk finds for it. -/
def Cached (db : Db) : Prop :=
  ∀ b, ∀ vc ∈ db.vcTable b, Terminated vc.verbname ∧
    (vc.oidKey = nothing ∨ ∃ o, db.objects vc.oidKey = some o ∧ o.verbdefs ≠ []) ∧
    vc.h = db.callable vc.verbname vc.oidKey

theorem Cached.of_empty (h : db.vcTable = fun _ => []) : Cached db := by
  intro b vc hvc
  rw [h] at hvc
  cases hvc

theorem callable_of_objects (hobj : db'.objects = db.objects) (hnum : db'.numObjects = db.numObjects) :
    db'.callable = db.callable := by
  funext verb oid
  rw [callable, callable, chain_of_objects hobj hnum, hobj]

theorem Cached.insert (hc : Cached db) (bucket : Nat) {v : VcEntry} (ht : Terminated v.verbname)
    (hkey : v.oidKey = nothing ∨ ∃ o, db.objects v.oidKey = some o ∧ o.verbdefs ≠ [])
    (hh : v.h = db.callable v.verbname v.oidKey) :
    Cached { db with vcTable := Function.update db.vcTable bucket (v :: db.vcTable bucket) } := by
  have hsame : ({ db with vcTable := Function.update db.vcTable bucket (v :: db.vcTable bucket) } : Db).callable
      = db.callable := callable_of_objects rfl rfl
  intro b w hw
  rw [hsame]
  change w ∈ Function.update db.vcTable bucket (v :: db.vcTable bucket) b at hw
  by_cases hb : b = bucket
  · subst hb
    rw [Function.update_self, List.mem_cons] at hw
    obtain rfl | hw := hw
    · exact ⟨ht, hkey, hh⟩
    · exact hc b w hw
  · rw [Function.update_of_ne hb] at hw
    exact hc b w hw

theorem findCallableVerb_spec (hs : Sound db) (hc : Cached db) (hv : Terminated verb) (oid : Objid) :
    ∃ db', db.findCallableVerb oid verb = some (db', db.callable verb oid) ∧ Cached db' := by
  obtain ⟨first, hfirst, hkey, hsame⟩ : ∃ first, db.firstParentWithVerbs db.fuel oid = some first ∧
      (vcKey first = nothing ∨ ∃ o, db.objects (vcKey first) = some o ∧ o.verbdefs ≠ []) ∧
      ∀ verb, db.callable verb oid = db.callable verb (vcKey first) := by
    obtain ⟨hfirst, hnone⟩ | ⟨o, hfirst, ho, hne, hsame⟩ := firstParentWithVerbs_spec hs oid
    · refine ⟨none, hfirst, .inl rfl, fun verb => ?_⟩
      rw [hnone, vcKey, callable, hs.chain_nothing]
      rfl
    · exact ⟨some o, hfirst, .inr ⟨o, ho, hne⟩, hsame⟩
  unfold findCallableVerb
  rw [hfirst, Option.bind_eq_bind, Option.bind_some, hsame]
  generalize vcKey first = key at hkey hsame
  dsimp only
  cases hfind : (db.vcTable ((vcHash verb key).toNat % vcSize)).find? fun vc =>
      vcHash verb key == vc.hash && key == vc.oidKey && sameName verb vc.verbname with
  | some vc =>
      obtain ⟨ht, -, hentry⟩ := hc _ vc (List.mem_of_find?_eq_some hfind)
      have hmatch := List.find?_some hfind
      simp only [Bool.and_eq_true, beq_iff_eq] at hmatch
      have hname := (sameName_iff hv ht).mp hmatch.2
      refine ⟨db, ?_, hc⟩
      rw [callable_lowered hname, hmatch.1.2, ← hentry]
      rfl
  | none =>
      have hwalk := callableVerbWalk_eq hs verb key
      refine ⟨_, ?_, hc.insert ((vcHash verb key).toNat % vcSize)
        (v := ⟨vcHash verb key, key, verb, db.callable verb key⟩) hv hkey rfl⟩
      rw [hwalk]
      rfl

theorem verbOf_callable {vh : VerbHandle} (hs : Sound db) (hcall : db.callable verb oid = some vh) :
    ∃ v, db.verbOf vh = some v := by
  obtain ⟨i, -, hi⟩ := List.exists_of_findSome?_eq_some hcall
  obtain ⟨o, ho, hon⟩ := Option.bind_eq_some_iff.mp hi
  obtain ⟨v, hv, rfl⟩ := Option.map_eq_some_iff.mp hon
  have hmem : v ∈ o.verbdefs := List.mem_of_find?_eq_some hv
  have hfound : (o.verbdefs.find? fun w => w.addr == v.addr).isSome :=
    List.find?_isSome.mpr ⟨v, hmem, beq_self_eq_true _⟩
  obtain ⟨w, hw⟩ := Option.isSome_iff_exists.mp hfound
  exact ⟨w, by simp [verbOf, (hs.ids ho).1, ho, hw]⟩

def callOutcome (env : Env) (db : Db) (this : Objid) (verb : Str) : Error :=
  if db.valid this then
    match db.callable verb this with
    | none => .eVerbnf
    | some _ => if env.pushActivation then .eNone else .eMaxrec
  else .eInvind

/-- A call of a verb finds it or not, and only the cache can be another. -/
theorem callVerb_spec (env : Env) (hs : Sound db) (hc : Cached db) (hv : Terminated verb) (this : Objid) :
    ∃ db', callVerb env this verb db = some (db.callOutcome env this verb, db') ∧
      db'.objects = db.objects := by
  unfold callVerb callOutcome
  by_cases hvalid : db.valid this = true
  swap
  · exact ⟨db, by simp [hvalid], rfl⟩
  obtain ⟨db', hfind, -⟩ := findCallableVerb_spec hs hc hv this
  have hobj : db'.objects = db.objects := by rw [findCallableVerb_rest hfind]
  rw [if_neg (by simp [hvalid]), if_pos hvalid, hfind, Option.bind_eq_bind, Option.bind_some]
  cases hcall : db.callable verb this with
  | none => exact ⟨db', rfl, hobj⟩
  | some vh =>
      obtain ⟨v, hverb⟩ := verbOf_callable hs hcall
      have hverb' : db'.verbOf vh = some v := by
        rw [← hverb, verbOf, verbOf, hobj]
      by_cases hpush : env.pushActivation = true
      · exact ⟨db', by simp [hpush, hverb'], hobj⟩
      · exact ⟨db', by simp [hpush], hobj⟩

/-! What leaves the entries as true as they were. -/

def callView (o : Object) : Objid × List (Nat × Str × Bool) :=
  (o.id, o.verbdefs.map fun v => (v.addr, v.name, v.flags.exec))

theorem callableOn_eq (verb : Str) (o : Object) : callableOn verb o =
    ((callView o).2.find? fun v => verbcasecmp v.2.1 verb && v.2.2).map fun v =>
      { definer := (callView o).1, verbdef := v.1 } := by
  simp only [callableOn, findVerbdefByName, callView, List.find?_map, Option.map_map, Function.comp_def,
    Bool.not_true, Bool.false_or]

theorem callableOn_view {o' : Object} (h : callView o' = callView o) : callableOn verb o' = callableOn verb o := by
  rw [callableOn_eq, callableOn_eq, h]

theorem findSome_congr {α β : Type} {f g : α → Option β} {l : List α} (h : ∀ a ∈ l, f a = g a) :
    l.findSome? f = l.findSome? g := by
  induction l with
  | nil => rfl
  | cons a l ih =>
      rw [List.findSome?_cons, List.findSome?_cons, h a (by simp), ih fun b hb => h b (by simp [hb])]

theorem Cached.keep (hc : Cached db) (hs : Sound db) (hs' : Sound db') (hvc : db'.vcTable = db.vcTable)
    (hkeep : ∀ key o, db.objects key = some o → o.verbdefs ≠ [] → ∀ i ∈ db.chain .family key,
      (db'.objects i).map callView = (db.objects i).map callView ∧
        db'.upOf .family i = db.upOf .family i) : Cached db' := by
  intro b vc hvc'
  rw [hvc] at hvc'
  obtain ⟨ht, hkey, hh⟩ := hc b vc hvc'
  refine ⟨ht, ?_⟩
  obtain hkey | ⟨o, ho, hne⟩ := hkey
  · refine ⟨.inl hkey, ?_⟩
    rw [hh, hkey, callable, callable, hs.chain_nothing, hs'.chain_nothing]
    rfl
  · have hk := hkeep _ o ho hne
    have hmem : vc.oidKey ∈ db.chain .family vc.oidKey := by
      rw [hs.chain_cons (mem_dom_of ho)]
      exact List.mem_cons_self
    have hobj := (hk _ hmem).1
    rw [ho, Option.map_some, Option.map_eq_some_iff] at hobj
    obtain ⟨o', ho', hview⟩ := hobj
    have hchain : db'.chain .family vc.oidKey = db.chain .family vc.oidKey :=
      hs'.chain_eq (.inr (mem_dom_of ho'))
        ((hs.chain_spec (.inr (mem_dom_of ho))).1.congr fun i hi => (hk i hi).2)
    refine ⟨.inr ⟨o', ho', fun hempty => hne ?_⟩, ?_⟩
    · have := congrArg (fun s => s.2.length) hview
      simp only [callView, hempty, List.map_nil, List.length_nil, List.length_map] at this
      exact List.length_eq_zero_iff.mp this.symm
    · rw [hh, callable, callable, hchain]
      refine findSome_congr fun i hi => ?_
      have := (hk i hi).1
      cases hi' : db.objects i <;> cases hi'' : db'.objects i <;> simp_all
      exact (callableOn_view this).symm

theorem Cached.of_agree (hc : Cached db) (hs : Sound db) (hs' : Sound db')
    (ha : Agree (fun o => (callView o, o.parent)) db db') : Cached db' := by
  refine hc.keep hs hs' ha.vcTable fun key o _ _ i _ => ⟨?_, ?_⟩
  · have := congrArg (Option.map Prod.fst) (ha.objects i)
    simpa [Option.map_map, Function.comp_def] using this
  · exact (ha.mono (g := Object.up .family) fun he => congrArg Prod.snd he).elim nothing i

theorem Cached.of_objects (hc : Cached db) (hobj : db'.objects = db.objects) (hnum : db'.numObjects = db.numObjects)
    (hvc : db'.vcTable = db.vcTable) : Cached db' := by
  intro b vc hvc'
  rw [hvc] at hvc'
  rw [callable_of_objects hobj hnum, hobj]
  exact hc b vc hvc'

theorem Reparented.cached {p : Objid} (hc : Cached db) (hi : Intact db) (hi' : Intact db')
    (hre : Reparented db x p db') : Cached db' := by
  obtain ⟨hvc, hleaf⟩ | hvc := hre.vcTable
  swap
  · exact .of_empty hvc
  refine hc.keep hi.sound hi'.sound hvc fun key o ho hne i hmem => ⟨?_, ?_⟩
  · have hobj := hre.agree.objects i
    have := congrArg (Option.map callView) hobj
    simp only [Option.map_map, Function.comp_def] at this
    exact this
  · have hix : i ≠ x := by
      rintro rfl
      obtain ⟨oi, hoi⟩ := mem_dom.mp ((hi.sound.chain_spec (.inr (mem_dom_of ho))).2 i hmem)
      obtain ⟨hchild, hverbs⟩ := hleaf oi hoi
      by_cases hki : key = i
      · subst hki
        rw [ho] at hoi
        exact hne (Option.some.inj hoi ▸ hverbs)
      · exact hi.sound.notMem_chain_of_leaf hoi hchild (.inr (mem_dom_of ho)) hki hmem
    rw [hre.up, Function.update_of_ne hix]

theorem Upkeep.cached (hi : Intact db) (hc : Cached db) (h : Upkeep db db') : Cached db' := by
  have hi' := Upkeep.intact hi h
  cases h with
  | lookup hv hdo =>
      obtain ⟨db₁, hdo₁, hc₁⟩ := findCallableVerb_spec hi.sound hc hv _
      rw [hdo] at hdo₁
      exact (Prod.mk.inj (Option.some.inj hdo₁)).1 ▸ hc₁
  | quota hfind hdo =>
      have ha := modifySlot_agree (f := fun p => { p with var := .int _ }) hdo
      refine hc.of_agree hi.sound hi'.sound (ha.mono fun he => ?_)
      have hview := congrArg callView he
      have hparent := congrArg Object.parent he
      exact Prod.ext hview hparent
  | place hx hp hacyc hdo =>
      obtain ⟨o, ho⟩ := mem_dom.mp hx
      obtain ⟨db₁, hdo₁, -, ha, -⟩ := changeLocation_spec hi ho hp hacyc
      rw [hdo] at hdo₁
      obtain rfl := Option.some.inj hdo₁
      refine hc.of_agree hi.sound hi'.sound (ha.mono fun he => ?_)
      have hview := congrArg callView he
      have hparent := congrArg Object.parent he
      exact Prod.ext hview hparent
  | lift hx hp hdo =>
      obtain ⟨hp', hacyc⟩ := hi.sound.lift_acyclic hx hp
      obtain ⟨-, rfl⟩ | ⟨-, -, -, hre⟩ := changeParent_cases hi hx hp' hacyc hdo
      · exact hc
      · exact hre.cached hc hi hi'

theorem Upkeeps.cached (hi : Intact db) (hc : Cached db) (h : Upkeeps db db') : Cached db' := by
  induction h with
  | refl => exact hc
  | tail hbefore hlast ih => exact hlast.cached (Upkeeps.intact hi hbefore) ih

theorem changeParent_cached {p : Objid} {changed : Bool} (hi : Intact db) (hc : Cached db) (hx : x ∈ db.dom)
    (hp : p = nothing ∨ p ∈ db.dom) (hacyc : x ∉ db.chain .family p)
    (hdo : db.changeParent x p = some (changed, db')) : Cached db' := by
  obtain ⟨-, rfl⟩ | ⟨-, -, hi', hre⟩ := changeParent_cases hi hx hp hacyc hdo
  · exact hc
  · exact hre.cached hc hi hi'

theorem Made.cached {owners : Object → Object} (hi : Intact db) (hc : Cached db) (m : Made db oid owners db')
    (howners : ∀ o, (callView (owners o)).2 = (callView o).2) : Cached db' := by
  obtain hvc | hvc := m.vcTable
  swap
  · exact .of_empty hvc
  refine hc.keep hi.sound m.intact.sound hvc fun key o ho _ i hmem => ?_
  have hid := (hi.sound.chain_spec (.inr (mem_dom_of ho))).2 i hmem
  refine ⟨?_, m.up .family i hid⟩
  obtain ⟨oi, hoi⟩ := mem_dom.mp hid
  obtain ⟨oi', hoi', hbody⟩ := Option.map_eq_some_iff.mp (m.body i oi hoi)
  have hverbs : (callView oi').2 = (callView (owners oi)).2 := by
    have := congrArg (fun o => (callView o).2) hbody
    exact this
  rw [hoi, hoi', Option.map_some, Option.map_some, Option.some.injEq]
  refine Prod.ext ?_ (hverbs.trans (howners oi))
  exact (m.intact.sound.ids hoi').1.trans (hi.sound.ids hoi).1.symm

theorem Creates.cached {renumbers : Prop} {progr parent : Objid} {owner? : Option Objid} (hi : Intact db)
    (hc : Cached db) (h : Creates renumbers progr parent owner? db db') : Cached db' := by
  obtain ⟨db₁, hup, rfl | ⟨hpar, -, new, owners, db₂, howners, m, o, changed, db₃, ho, hchange, hup'⟩⟩ := h
  · exact hup.cached hi hc
  have hi₁ := hup.intact hi
  have hview : ∀ o, (callView (owners o)).2 = (callView o).2 := by
    intro o
    obtain rfl | ⟨-, rfl⟩ := howners
    · rfl
    · simp [callView, Object.withOwners, Function.comp_def]
  have hc₂ := m.cached hi₁ (hup.cached hi hc) hview
  set owner := if owner?.getD progr = nothing then new else owner?.getD progr
  have hi₂ := m.intact.named ho owner
  have hc₃ : Cached (db₂.set new { o with name := [], owner }) :=
    hc₂.of_agree m.intact.sound hi₂.sound (Agree.set ho rfl)
  obtain ⟨hp, hacyc⟩ := m.parent owner (hup.dom hi ▸ mayParent_mem hi.sound hpar) ho
  have hnew : new ∈ (db₂.set new { o with name := [], owner }).dom := mem_dom_of (Function.update_self _ _ _)
  exact hup'.cached (hi₂.changeParent hnew hp hacyc hchange)
    (changeParent_cached hi₂ hc₃ hnew hp hacyc hchange)

theorem modifyVerb_cached_empty {f : Verbdef → Verbdef} {h : VerbHandle}
    (hdo : db.affectedCallableVerbLookup.modifyVerb f h = some db') : Cached db' := by
  obtain ⟨o, v, -, -, -, -, rfl⟩ := modifyVerb_eq_some hdo
  exact .of_empty rfl

theorem Cached.of_withoutProps (hc : Cached db) (hs : Sound db) (hs' : Sound db')
    (ha : Agree Object.withoutProps db db') : Cached db' := by
  refine hc.of_agree hs hs' (ha.mono fun he => ?_)
  have hview := congrArg callView he
  have hparent := congrArg Object.parent he
  exact Prod.ext hview hparent

theorem renamePropdef_agree {old new : Str} {renamed : Bool} (hi : Intact db) (hx : oid ∈ db.dom)
    (hold : Terminated old) (hnew : Terminated new)
    (hdo : db.renamePropdef oid old new = some (renamed, db')) : Agree Object.withoutProps db db' := by
  obtain h | ⟨db₁, h, -, -, hre⟩ := renamePropdef_spec hi.sound hi.slotted hx hold hnew
  · rw [hdo] at h
    rw [(Prod.mk.inj (Option.some.inj h)).2]
    exact .refl _ _
  · rw [hdo] at h
    rw [(Prod.mk.inj (Option.some.inj h)).2]
    exact hre.agree.mono fun he => congrArg (fun o : Object => { o with propval := [] }) he

theorem setSlotInfo_agree {owner : Objid} {perms : PropPerms} {h : PropHandle}
    (hdo : setSlotInfo owner perms h db = some db') : Agree Object.withoutProps db db' := by
  cases h with
  | builtIn prop x => cases hdo
  | slot x n definer =>
      have ha := modifySlot_agree (f := fun p => { p with owner, perms }) (setSlotInfo_eq hdo)
      exact ha.mono fun he => congrArg (fun o : Object => { o with propdefs := [] }) he

theorem bfChparent_cached {p what parent : Objid} {r : Package} (hi : Intact db) (hc : Cached db)
    (hcall : db.bfChparent p what parent = some (r, db')) : Cached db' := by
  obtain rfl | ⟨o, changed, ho, -, hp, hacyc, -, hchange⟩ := bfChparent_cases hi hcall
  · exact hc
  · exact changeParent_cached hi hc (mem_dom_of ho) hp hacyc hchange

theorem bfRecycle_cached {p x : Objid} {r : Package} (hi : Intact db) (hc : Cached db)
    (hcall : db.bfRecycle env p x = some (r, db')) : Cached db' := by
  obtain rfl | ⟨o, db₂, -, -, hup, rfl | hdestroy⟩ := bfRecycle_cases hi hcall
  · exact hc
  · exact hup.upkeeps.cached hi hc
  · obtain ⟨_, _, -, -, -, -, -, -, rfl⟩ := destroyObject_cases (hup.intact hi) hdestroy
    exact .of_empty rfl

theorem recycleResumed_cached {x : Objid} {r : Package} (hi : Intact db) (hc : Cached db)
    (hcall : db.recycleResumed env x = some (r, db')) : Cached db' := by
  obtain ⟨db₂, hup, rfl | ⟨-, hdestroy⟩⟩ := recycleResumed_cases hi hcall
  · exact hup.upkeeps.cached hi hc
  · obtain ⟨_, _, -, -, -, -, -, -, rfl⟩ := destroyObject_cases (hup.intact hi) hdestroy
    exact .of_empty rfl

theorem bfRenumber_cached {p x : Objid} {r : Package} (hi : Intact db) (hc : Cached db)
    (hcall : db.bfRenumber env p x = some (r, db')) : Cached db' := by
  obtain rfl | ⟨new, hx, -, hre⟩ := bfRenumber_cases hi hcall
  · exact hc
  · obtain rfl | ⟨db₂, -, -, hre, hrewritten⟩ := renumberObject_cases hi hx hre
    · exact .of_empty rfl
    · exact .of_empty (hrewritten.vcTable.trans hre.vcTable)

theorem bfResetMaxObject_cached {p : Objid} {r : Package} (hi : Intact db) (hi' : Intact db') (hc : Cached db)
    (hcall : db.bfResetMaxObject p = some (r, db')) : Cached db' := by
  obtain rfl | ⟨-, hreset⟩ := bfResetMaxObject_cases hcall
  · exact hc
  · obtain ⟨-, hobj, hvc⟩ := resetLastUsedObjid_intact hi hreset
    refine hc.keep hi.sound hi'.sound hvc fun key o _ _ i _ => ⟨by rw [hobj], ?_⟩
    rw [upOf, upOf, hobj]

theorem bfSetPropInfo_cached {p x : Objid} {pname : CStr} {info : Value} {r : Package}
    (hi : Intact db) (hi' : Intact db') (hc : Cached db)
    (hcall : db.bfSetPropInfo p x pname info = some (r, db')) : Cached db' := by
  obtain rfl | ⟨pi, n, definer, pv, hx, hpi, -, -, -, -, hset | ⟨new, db₂, h, hnew, hrename, -, hset⟩⟩ :=
    bfSetPropInfo_cases hi pname.property info.property hcall
  · exact hc
  · exact hc.of_withoutProps hi.sound hi'.sound (setSlotInfo_agree hset)
  · have ht := validatePropInfo_newName info.property hpi new hnew
    exact hc.of_withoutProps hi.sound hi'.sound
      ((renamePropdef_agree hi hx pname.property ht hrename).trans (setSlotInfo_agree hset))

theorem bfAddProp_cached {p x : Objid} {pname : CStr} {value info : Value} {r : Package}
    (hi : Intact db) (hi' : Intact db') (hc : Cached db)
    (hcall : db.bfAddProp p x pname value info = some (r, db')) : Cached db' := by
  obtain rfl | ⟨o, owner, flags, added, ho, -, -, hadd⟩ := bfAddProp_cases hi hcall
  · exact hc
  · obtain h | ⟨db₂, h, -, -, hadded⟩ := addPropdef_spec owner flags hi.sound hi.slotted (mem_dom_of ho)
      pname.property (value_ne_clear value)
    · rw [hadd] at h
      exact (Prod.mk.inj (Option.some.inj h)).2 ▸ hc
    · rw [hadd] at h
      obtain rfl := (Prod.mk.inj (Option.some.inj h)).2
      have hc₁ : Cached { db with nextTag := db.nextTag + 1 } := hc.of_objects rfl rfl rfl
      exact hc₁.of_withoutProps (hi.sound.of_objects rfl rfl) hi'.sound hadded.agree

theorem bfDeleteProp_cached {p x : Objid} {pname : CStr} {r : Package} (hi : Intact db) (hi' : Intact db') (hc : Cached db)
    (hcall : db.bfDeleteProp p x pname = some (r, db')) : Cached db' := by
  obtain rfl | ⟨o, deleted, ho, -, hdelete⟩ := bfDeleteProp_cases hi hcall
  · exact hc
  · obtain h | ⟨k, db₂, -, h, -, -, hdeleted⟩ :=
      deletePropdef_spec pname.val hi.sound hi.slotted (mem_dom_of ho)
    · rw [hdelete] at h
      exact (Prod.mk.inj (Option.some.inj h)).2 ▸ hc
    · rw [hdelete] at h
      obtain rfl := (Prod.mk.inj (Option.some.inj h)).2
      exact hc.of_withoutProps hi.sound hi'.sound hdeleted.agree

theorem bfClearProp_cached {p x : Objid} {pname : CStr} {r : Package} (hi : Intact db) (hi' : Intact db') (hc : Cached db)
    (hcall : db.bfClearProp p x pname = some (r, db')) : Cached db' := by
  obtain rfl | ⟨n, definer, pv, -, -, -, -, -, hclear⟩ := bfClearProp_cases hi hcall
  · exact hc
  · refine hc.of_withoutProps hi.sound hi'.sound ((modifySlot_agree hclear).mono fun he => ?_)
    exact congrArg (fun o : Object => { o with propdefs := [] }) he

theorem putProp_cached {p : Objid} {obj propname rhs : Value} {e : Error}
    (hi : Intact db) (hi' : Intact db') (hc : Cached db)
    (hcall : db.putProp p obj propname rhs = some (e, db')) : Cached db' := by
  obtain rfl | ⟨x, name, h, -, -, -, -, hset⟩ := putProp_cases hi hcall
  · exact hc
  · cases h with
    | slot y n definer =>
        have ha := modifySlot_agree (f := fun p => { p with var := rhs.val }) hset
        exact hc.of_withoutProps hi.sound hi'.sound (ha.mono fun he =>
          congrArg (fun o : Object => { o with propdefs := [] }) he)
    | builtIn prop y =>
        obtain ⟨users, ha⟩ := setBuiltIn_agree hset
        have hc₁ : Cached { db with allUsers := users } := hc.of_objects rfl rfl rfl
        refine hc₁.of_agree (hi.sound.of_objects rfl rfl) hi'.sound (ha.mono fun he => ?_)
        have hview := congrArg callView he
        have hparent := congrArg Object.parent he
        exact Prod.ext hview hparent

theorem bfSetVerbCode_cached {p x : Objid} {desc : Value} {code : List Value} {r : Package}
    (hi : Intact db) (hi' : Intact db') (hc : Cached db)
    (hcall : db.bfSetVerbCode env p x desc (code.map Subtype.val) = some (r, db')) : Cached db' := by
  obtain rfl | ⟨program, h, v, -, -, -, hset⟩ := bfSetVerbCode_cases hi hcall
  · exact hc
  · -- neither a name nor an `x` flag is another one
    obtain ⟨o, v, ho, -, -, -, rfl⟩ := modifyVerb_eq_some hset
    refine hc.of_agree hi.sound hi'.sound (Agree.set ho (Prod.ext (Prod.ext rfl ?_) rfl))
    simp only [callView, List.map_map]
    refine List.map_congr_left fun w _ => ?_
    by_cases hw : w.addr = h.verbdef <;> simp [hw]

theorem perform_cached (hi : Intact db) (hc : Cached db) (hdo : db.perform env call = some db') : Cached db' := by
  have hi' := perform_intact hi hdo
  cases call with
  | findCallableVerb p x verb =>
      obtain ⟨⟨db₁, h⟩, hcall, rfl⟩ := Option.map_eq_some_iff.mp hdo
      exact Upkeep.cached hi hc (.lookup verb.property hcall)
  | create p parent owner? =>
      obtain ⟨⟨r, db₁⟩, hcall, rfl⟩ := Option.map_eq_some_iff.mp hdo
      exact (bfCreate_cases hi hcall).cached hi hc
  | createAndRenumber p parent owner? =>
      obtain ⟨⟨r, db₁⟩, hcall, rfl⟩ := Option.map_eq_some_iff.mp hdo
      exact (bfCreateAndRenumber_cases hi hcall).cached hi hc
  | createWithId p id parent owner? =>
      obtain ⟨⟨r, db₁⟩, hcall, rfl⟩ := Option.map_eq_some_iff.mp hdo
      exact (bfCreateWithId_cases hi hcall).cached hi hc
  | chparent p what parent =>
      obtain ⟨⟨r, db₁⟩, hcall, rfl⟩ := Option.map_eq_some_iff.mp hdo
      exact bfChparent_cached hi hc hcall
  | move p what where' =>
      obtain ⟨⟨r, db₁⟩, hcall, rfl⟩ := Option.map_eq_some_iff.mp hdo
      exact (bfMove_tends (k := none) hi hcall).upkeeps.cached hi hc
  | moveAccepted p what where' accepts =>
      obtain ⟨⟨r, db₁⟩, hcall, rfl⟩ := Option.map_eq_some_iff.mp hdo
      exact (moveAccepted_tends (k := none) hi hcall).upkeeps.cached hi hc
  | moveExited p what where' =>
      obtain ⟨⟨r, db₁⟩, hcall, rfl⟩ := Option.map_eq_some_iff.mp hdo
      exact (moveExited_tends (k := none) hcall).upkeeps.cached hi hc
  | recycle p x =>
      obtain ⟨⟨r, db₁⟩, hcall, rfl⟩ := Option.map_eq_some_iff.mp hdo
      exact bfRecycle_cached hi hc hcall
  | recycleResumed p x =>
      obtain ⟨⟨r, db₁⟩, hcall, rfl⟩ := Option.map_eq_some_iff.mp hdo
      exact recycleResumed_cached hi hc hcall
  | renumber p x =>
      obtain ⟨⟨r, db₁⟩, hcall, rfl⟩ := Option.map_eq_some_iff.mp hdo
      exact bfRenumber_cached hi hc hcall
  | resetMaxObject p =>
      obtain ⟨⟨r, db₁⟩, hcall, rfl⟩ := Option.map_eq_some_iff.mp hdo
      exact bfResetMaxObject_cached hi hi' hc hcall
  | setPropInfo p x pname info =>
      obtain ⟨⟨r, db₁⟩, hcall, rfl⟩ := Option.map_eq_some_iff.mp hdo
      exact bfSetPropInfo_cached hi hi' hc hcall
  | addProp p x pname value info =>
      obtain ⟨⟨r, db₁⟩, hcall, rfl⟩ := Option.map_eq_some_iff.mp hdo
      exact bfAddProp_cached hi hi' hc hcall
  | deleteProp p x pname =>
      obtain ⟨⟨r, db₁⟩, hcall, rfl⟩ := Option.map_eq_some_iff.mp hdo
      exact bfDeleteProp_cached hi hi' hc hcall
  | clearProp p x pname =>
      obtain ⟨⟨r, db₁⟩, hcall, rfl⟩ := Option.map_eq_some_iff.mp hdo
      exact bfClearProp_cached hi hi' hc hcall
  | putProp p obj propname rhs =>
      obtain ⟨⟨r, db₁⟩, hcall, rfl⟩ := Option.map_eq_some_iff.mp hdo
      exact putProp_cached hi hi' hc hcall
  | addVerb p x info args =>
      obtain ⟨⟨r, db₁⟩, hcall, rfl⟩ := Option.map_eq_some_iff.mp hdo
      obtain rfl | ⟨o, vi, specs, count, -, -, -, -, -, -, hadd⟩ := bfAddVerb_cases hi hcall
      · exact hc
      · obtain ⟨o, ho, -, rfl⟩ := addVerb_eq_some hi.sound hadd
        exact .of_empty rfl
  | deleteVerb p x desc =>
      obtain ⟨⟨r, db₁⟩, hcall, rfl⟩ := Option.map_eq_some_iff.mp hdo
      obtain rfl | ⟨o, h, -, -, -, hdelete⟩ := bfDeleteVerb_cases hi hcall
      · exact hc
      · obtain ⟨o, ho, rfl⟩ := deleteVerb_eq_some hi.sound hdelete
        exact .of_empty rfl
  | setVerbInfo p x desc info =>
      obtain ⟨⟨r, db₁⟩, hcall, rfl⟩ := Option.map_eq_some_iff.mp hdo
      obtain rfl | ⟨o, vi, -, v, -, h, -, -, -, -, -, -, -, -, -, -, hset⟩ := bfSetVerbInfo_cases hi hcall
      · exact hc
      · exact modifyVerb_cached_empty hset
  | setVerbArgs p x desc args =>
      obtain ⟨⟨r, db₁⟩, hcall, rfl⟩ := Option.map_eq_some_iff.mp hdo
      obtain rfl | ⟨specs, h, v, -, -, -, hset⟩ := bfSetVerbArgs_cases hi hcall
      · exact hc
      · exact modifyVerb_cached_empty hset
  | setVerbCode p x desc code =>
      obtain ⟨⟨r, db₁⟩, hcall, rfl⟩ := Option.map_eq_some_iff.mp hdo
      exact bfSetVerbCode_cached hi hi' hc hcall

/-- In every state that calls lead to, a lookup finds what a walk over the ancestors does, and
that is a verb that is there. -/
theorem run_findCallableVerb {db₀ : Db} (hi : Intact db₀) (hempty : db₀.vcTable = fun _ => [])
    (hrun : Run (fun _ _ _ => True) db₀ db) (oid : Objid) (verb : CStr) :
    ∃ found db', db.findCallableVerb oid verb = some (db', found) ∧
      db.callableVerbWalk verb db.fuel oid = some found ∧
      ∀ h, found = some h → (db.verbOf h).isSome := by
  obtain ⟨hi', hc'⟩ : Intact db ∧ Cached db :=
    Run.invariant (I := fun db => Intact db ∧ Cached db)
      (fun hi _ hdo => ⟨perform_intact hi.1 hdo, perform_cached hi.1 hi.2 hdo⟩) ⟨hi, .of_empty hempty⟩ hrun
  obtain ⟨db', hfind, -⟩ := findCallableVerb_spec hi'.sound hc' verb.property oid
  refine ⟨_, db', hfind, callableVerbWalk_eq hi'.sound _ oid, fun h hh => ?_⟩
  obtain ⟨v, hv⟩ := verbOf_callable hi'.sound hh
  exact Option.isSome_iff_exists.mpr ⟨v, hv⟩

theorem run_findCallableVerb_house : ∃ found db', house.findCallableVerb 5 "shutter".toList = some (db', found) ∧
    found.map VerbHandle.definer = some 3 ∧ house.callableVerbWalk "shutter".toList house.fuel 5 = some found ∧
    ∀ h, found = some h → (house.verbOf h).isSome := by
  obtain ⟨found, db', hfind, hwalk, hthere⟩ :=
    run_findCallableVerb empty_intact rfl house_run 5 ⟨"shutter".toList, by decide⟩
  have hdefiner : (house.callableVerbWalk "shutter".toList house.fuel 5).map (Option.map VerbHandle.definer) =
      some (some 3) := by decide +kernel
  rw [hwalk] at hdefiner
  exact ⟨found, db', hfind, Option.some.inj hdefiner, hwalk, hthere⟩

theorem house_cached : Cached house :=
  Run.invariant (I := fun db => Intact db ∧ Cached db)
    (fun hi _ hdo => ⟨perform_intact hi.1 hdo, perform_cached hi.1 hi.2 hdo⟩) ⟨empty_intact, .of_empty rfl⟩
    house_run |>.2

end Db
end LambdaMoo
