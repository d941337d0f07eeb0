import LambdaMoo.Guards

/-! The table stays intact in every sequence of calls. -/
namespace LambdaMoo

namespace Db

variable {db db' : Db} {progr oid x a : Objid} {o : Object} {env : Env} {r : Package} {call : Call}
  {shared : Sharing}

theorem destroyObject_cases (hi : Intact db) (hdo : db.destroyObject oid = some db') :
    ∃ o users, db.objects oid = some o ∧ o.location = nothing ∧ o.contents = nothing ∧
      o.parent = nothing ∧ o.child = nothing ∧ Intact db' ∧
      db' = { db with allUsers := users, vcTable := fun _ => [],
                      objects := Function.update db.objects oid none } := by
  have hdo' := hdo
  simp only [destroyObject, Option.bind_eq_bind, Option.bind_eq_some_iff] at hdo'
  obtain ⟨o, ho, hdo'⟩ := hdo'
  have ho' : db.objects oid = some o := by
    rw [← hi.sound.find_eq]
    exact ho
  split at hdo'
  · cases hdo'
  next hfree =>
  simp only [not_or, not_not] at hfree
  obtain ⟨users, db₁, hdo₁, hi', hdb⟩ :=
    destroyObject_spec hi ho' hfree.1 hfree.2.1 hfree.2.2.1 hfree.2.2.2
  rw [hdo] at hdo₁
  obtain rfl := Option.some.inj hdo₁
  exact ⟨o, users, ho', hfree.1, hfree.2.1, hfree.2.2.1, hfree.2.2.2, hi', hdb⟩

theorem renumberObject_cases {new : Objid} (hi : Intact db) (hx : oid ∈ db.dom)
    (hdo : db.renumberObject shared oid = some (new, db')) :
    db' = db.affectedCallableVerbLookup ∨
      ∃ db₁, Intact db₁ ∧ new ∉ db.dom ∧ Renumbered db oid new db₁ ∧ UsersRewritten db₁ db' := by
  obtain h | ⟨new', db₁, db₂, h, -, hnew, -, -, hi', -, hre, hrewritten, -⟩ :=
    renumberObject_spec shared hi rfl rfl (.inl rfl) hx
  · rw [hdo] at h
    exact .inl (Prod.mk.inj (Option.some.inj h)).2
  · rw [hdo] at h
    obtain ⟨rfl, rfl⟩ := Prod.mk.inj (Option.some.inj h)
    exact .inr ⟨db₁, hi', hnew, hre, hrewritten⟩

theorem setSlotInfo_eq {owner : Objid} {perms : PropPerms} {n : Nat} {definer : Objid}
    (hdo : setSlotInfo owner perms (.slot oid n definer) db = some db') :
    db.modifySlot (fun p => { p with owner, perms }) oid n = some db' := by
  obtain ⟨db₁, h₁, h₂⟩ := Option.bind_eq_some_iff.mp hdo
  obtain ⟨o, ho, hlt, rfl⟩ := modifySlot_eq_some h₁
  obtain ⟨o₁, ho₁, -, rfl⟩ := modifySlot_eq_some h₂
  simp only [set_objects, Function.update_self, Option.some.injEq] at ho₁
  subst ho₁
  have hnot : ¬ o.propval.length ≤ n := by omega
  simp only [modifySlot, ho, Option.bind_eq_bind, Option.bind_some, hnot, if_false, Option.pure_def]
  simp only [Db.set, Function.update_idem, List.modify_modify_eq]
  rfl

theorem Intact.setSlotInfo {owner : Objid} {perms : PropPerms} {h : PropHandle} (hi : Intact db)
    (hdo : setSlotInfo owner perms h db = some db') : Intact db' := by
  cases h with
  | builtIn prop x => cases hdo
  | slot x n definer =>
      exact hi.modifySlot (f := fun p => { p with owner, perms }) (fun _ => rfl) (fun _ h => .inl h)
        (setSlotInfo_eq hdo)

theorem Agree.withUsers {β : Type} {f : Object → β} (ha : Agree f db db') (users : List Objid) :
    Agree f { db with allUsers := users } { db' with allUsers := users } :=
  ⟨by rw [ha.numObjects, ha.vcTable, ha.nextTag], ha.objects⟩

def Object.structural (o : Object) : Object :=
  { o with name := [], owner := nothing, flags := fun _ => false }

theorem setBuiltIn_agree {prop : BiProp} {value : Var}
    (hdo : db.setPropertyValue (.builtIn prop oid) value = some db') :
    ∃ users, Agree Object.structural { db with allUsers := users } db' := by
  have hset : ∀ {f : Object → Object} {db₁ : Db}, db.modify f oid = some db₁ →
      (∀ o, Object.structural (f o) = Object.structural o) → Agree Object.structural db db₁ :=
    fun h hf => Agree.modify h hf
  have hflag : ∀ {f : ObjectFlag} {on : Bool}, db.setObjectFlag oid f on = some db' →
      ∃ users, Agree Object.structural { db with allUsers := users } db' := by
    intro f on hdo
    obtain ⟨db₁, h₁, hdo⟩ := Option.bind_eq_some_iff.mp hdo
    have ha := hset h₁ fun _ => rfl
    split at hdo
    · obtain rfl := Option.some.inj hdo
      exact ⟨_, ha.withUsers _⟩
    · obtain rfl := Option.some.inj hdo
      exact ⟨db.allUsers, ha⟩
  cases prop with
  | name =>
      cases value with
      | str s => exact ⟨db.allUsers, hset hdo fun _ => rfl⟩
      | _ => cases hdo
  | owner =>
      cases value with
      | obj x => exact ⟨db.allUsers, hset hdo fun _ => rfl⟩
      | _ => cases hdo
  | programmer | wizard | r | w | f => exact hflag hdo
  | location | contents => cases hdo

theorem Intact.setPropertyValue {h : PropHandle} {value : Var} (hi : Intact db) (hv : value ≠ .clear)
    (hdo : db.setPropertyValue h value = some db') : Intact db' := by
  cases h with
  | slot x n definer =>
      exact hi.modifySlot (f := fun p => { p with var := value }) (fun _ => rfl) (fun _ h => absurd h hv) hdo
  | builtIn prop x =>
      obtain ⟨users, ha⟩ := setBuiltIn_agree hdo
      have hi₁ : Intact { db with allUsers := users } := hi.of_objects rfl rfl rfl
      refine hi₁.of_agree (ha.mono fun he => ?_)
      have hlinks : ∀ k, _ := fun k => congrArg (Object.linksIn k) he
      have hdefs := congrArg Object.propdefs he
      have hslots := congrArg Object.propval he
      refine Prod.ext (funext fun k => ?_) (Prod.ext hdefs hslots)
      have := hlinks k
      cases k <;> exact this

theorem Intact.clearSlot {n : Nat} {definer : Objid} {pname : Str} (hi : Intact db)
    (hat : FoundAt db pname oid n definer) (hne : definer ≠ oid) (hx : oid ∈ db.dom)
    (hdo : db.modifySlot (fun p => { p with var := .clear }) oid n = some db') : Intact db' := by
  refine hi.modifySlot (f := fun p => { p with var := .clear }) (fun _ => rfl) (fun _ _ => .inr ?_) hdo
  -- the definer is further up, and so are its slots
  obtain ⟨p, rest, i, hc, rfl, -⟩ := hat
  rw [hi.sound.chain_cons hx] at hc
  cases p with
  | nil => exact absurd (List.cons.inj hc).1.symm hne
  | cons a p =>
      rw [List.cons_append, List.cons.injEq] at hc
      rw [← hc.1, List.flatMap_cons, List.length_append]
      omega

theorem Intact.addPropdef {pname : Str} {value : Var} {owner : Objid} {flags : PropPerms} {added : Bool}
    (hi : Intact db) (hx : oid ∈ db.dom) (ht : Terminated pname) (hv : value ≠ .clear)
    (hdo : db.addPropdef oid pname value owner flags = some (added, db')) : Intact db' := by
  obtain h | ⟨db₁, h, hs', hp', -⟩ := addPropdef_spec owner flags hi.sound hi.slotted hx ht hv
  · rw [hdo] at h
    exact (Prod.mk.inj (Option.some.inj h)).2 ▸ hi
  · rw [hdo] at h
    exact (Prod.mk.inj (Option.some.inj h)).2 ▸ ⟨hs', hp'⟩

theorem Intact.deletePropdef {pname : Str} {deleted : Bool} (hi : Intact db) (hx : oid ∈ db.dom)
    (hdo : db.deletePropdef oid pname = some (deleted, db')) : Intact db' := by
  obtain h | ⟨k, db₁, -, h, hs', hp', -⟩ := deletePropdef_spec pname hi.sound hi.slotted hx
  · rw [hdo] at h
    exact (Prod.mk.inj (Option.some.inj h)).2 ▸ hi
  · rw [hdo] at h
    exact (Prod.mk.inj (Option.some.inj h)).2 ▸ ⟨hs', hp'⟩

theorem Intact.renamePropdef {old new : Str} {renamed : Bool} (hi : Intact db) (hx : oid ∈ db.dom)
    (hold : Terminated old) (hnew : Terminated new)
    (hdo : db.renamePropdef oid old new = some (renamed, db')) : Intact db' := by
  obtain h | ⟨db₁, h, hs', hp', -⟩ := renamePropdef_spec hi.sound hi.slotted hx hold hnew
  · rw [hdo] at h
    exact (Prod.mk.inj (Option.some.inj h)).2 ▸ hi
  · rw [hdo] at h
    exact (Prod.mk.inj (Option.some.inj h)).2 ▸ ⟨hs', hp'⟩

theorem Intact.setVerbs {verbs : List Verbdef} (hi : Intact db) (ho : db.objects oid = some o) :
    Intact (db.set oid { o with verbdefs := verbs }) := by
  refine hi.of_agree (Agree.set ho (Prod.ext (funext fun h => ?_) rfl))
  cases h <;> rfl

theorem addVerb_eq_some {addr count : Nat} {names : Str} {owner : Objid} {flags : VerbFlags} {specs : ArgSpecs}
    (hs : Sound db) (hdo : db.addVerb oid addr names owner flags specs = some (count, db')) :
    ∃ o, db.objects oid = some o ∧ db.freshAddr addr ∧
      db' = db.affectedCallableVerbLookup.set oid { o with verbdefs := o.verbdefs ++
        [{ addr, name := names, program := none, owner, flags, dobj := specs.dobj
           prep := specs.prep, iobj := specs.iobj }] } := by
  simp only [addVerb, Option.bind_eq_bind, Option.bind_eq_some_iff] at hdo
  obtain ⟨o, ho, hdo⟩ := hdo
  split at hdo
  · cases hdo
  · next hfresh =>
      have ho' : db.objects oid = some o := by
        rw [← hs.find_eq]
        exact ho
      exact ⟨o, ho', not_not.mp hfresh, refused hdo⟩

theorem deleteVerb_eq_some {h : VerbHandle} (hs : Sound db) (hdo : db.deleteVerb h = some db') :
    ∃ o, db.objects h.definer = some o ∧
      db' = db.affectedCallableVerbLookup.set h.definer
        { o with verbdefs := o.verbdefs.eraseP fun v => v.addr == h.verbdef } := by
  simp only [deleteVerb, Option.bind_eq_bind, Option.bind_eq_some_iff] at hdo
  obtain ⟨o, ho, _, -, hdo⟩ := hdo
  have ho' : db.objects h.definer = some o := by
    rw [← hs.find_eq]
    exact ho
  exact ⟨o, ho', (Option.some.inj hdo).symm⟩

theorem value_ne_clear (v : Value) : v.val ≠ .clear := by
  intro h
  have := v.property
  rw [h] at this
  cases this

theorem perform_intact (hi : Intact db) (hdo : db.perform env call = some db') : Intact db' := by
  cases call with
  | findCallableVerb p x verb =>
      obtain ⟨⟨db₁, h⟩, hcall, rfl⟩ := Option.map_eq_some_iff.mp hdo
      exact Upkeep.intact hi (.lookup verb.property hcall)
  | create p parent owner? =>
      obtain ⟨⟨r, db₁⟩, hcall, rfl⟩ := Option.map_eq_some_iff.mp hdo
      exact (bfCreate_cases hi hcall).intact hi
  | createAndRenumber p parent owner? =>
      obtain ⟨⟨r, db₁⟩, hcall, rfl⟩ := Option.map_eq_some_iff.mp hdo
      exact (bfCreateAndRenumber_cases hi hcall).intact hi
  | createWithId p id parent owner? =>
      obtain ⟨⟨r, db₁⟩, hcall, rfl⟩ := Option.map_eq_some_iff.mp hdo
      exact (bfCreateWithId_cases hi hcall).intact hi
  | chparent p what parent =>
      obtain ⟨⟨r, db₁⟩, hcall, rfl⟩ := Option.map_eq_some_iff.mp hdo
      obtain rfl | ⟨o, changed, ho, -, hp, hacyc, -, hchange⟩ := bfChparent_cases hi hcall
      · exact hi
      · exact hi.changeParent (mem_dom_of ho) hp hacyc hchange
  | move p what where' =>
      obtain ⟨⟨r, db₁⟩, hcall, rfl⟩ := Option.map_eq_some_iff.mp hdo
      exact (bfMove_tends (k := none) hi hcall).intact hi
  | moveAccepted p what where' accepts =>
      obtain ⟨⟨r, db₁⟩, hcall, rfl⟩ := Option.map_eq_some_iff.mp hdo
      exact (moveAccepted_tends (k := none) hi hcall).intact hi
  | moveExited p what where' =>
      obtain ⟨⟨r, db₁⟩, hcall, rfl⟩ := Option.map_eq_some_iff.mp hdo
      exact (moveExited_tends (k := none) hcall).intact hi
  | recycle p x =>
      obtain ⟨⟨r, db₁⟩, hcall, rfl⟩ := Option.map_eq_some_iff.mp hdo
      obtain rfl | ⟨o, db₂, -, -, hup, rfl | hdestroy⟩ := bfRecycle_cases hi hcall
      · exact hi
      · exact hup.intact hi
      · obtain ⟨_, _, -, -, -, -, -, hi', -⟩ := destroyObject_cases (hup.intact hi) hdestroy
        exact hi'
  | recycleResumed p x =>
      obtain ⟨⟨r, db₁⟩, hcall, rfl⟩ := Option.map_eq_some_iff.mp hdo
      obtain ⟨db₂, hup, rfl | ⟨-, hdestroy⟩⟩ := recycleResumed_cases hi hcall
      · exact hup.intact hi
      · obtain ⟨_, _, -, -, -, -, -, hi', -⟩ := destroyObject_cases (hup.intact hi) hdestroy
        exact hi'
  | renumber p x =>
      obtain ⟨⟨r, db₁⟩, hcall, rfl⟩ := Option.map_eq_some_iff.mp hdo
      obtain rfl | ⟨new, hx, -, hre⟩ := bfRenumber_cases hi hcall
      · exact hi
      · obtain rfl | ⟨db₂, hi', -, -, hrewritten⟩ := renumberObject_cases hi hx hre
        · exact hi.affected
        · exact hrewritten.intact hi'
  | resetMaxObject p =>
      obtain ⟨⟨r, db₁⟩, hcall, rfl⟩ := Option.map_eq_some_iff.mp hdo
      obtain rfl | ⟨-, hreset⟩ := bfResetMaxObject_cases hcall
      · exact hi
      · exact (resetLastUsedObjid_intact hi hreset).1
  | setPropInfo p x pname info =>
      obtain ⟨⟨r, db₁⟩, hcall, rfl⟩ := Option.map_eq_some_iff.mp hdo
      obtain rfl | ⟨pi, n, definer, pv, hx, hpi, -, -, -, -, hset | ⟨new, db₂, h, hnew, hrename, -, hset⟩⟩ :=
        bfSetPropInfo_cases hi pname.property info.property hcall
      · exact hi
      · exact hi.setSlotInfo hset
      · have ht := validatePropInfo_newName info.property hpi new hnew
        exact (hi.renamePropdef hx pname.property ht hrename).setSlotInfo hset
  | addProp p x pname value info =>
      obtain ⟨⟨r, db₁⟩, hcall, rfl⟩ := Option.map_eq_some_iff.mp hdo
      obtain rfl | ⟨o, owner, flags, added, ho, -, -, hadd⟩ := bfAddProp_cases hi hcall
      · exact hi
      · exact hi.addPropdef (mem_dom_of ho) pname.property (value_ne_clear value) hadd
  | deleteProp p x pname =>
      obtain ⟨⟨r, db₁⟩, hcall, rfl⟩ := Option.map_eq_some_iff.mp hdo
      obtain rfl | ⟨o, deleted, ho, -, hdelete⟩ := bfDeleteProp_cases hi hcall
      · exact hi
      · exact hi.deletePropdef (mem_dom_of ho) hdelete
  | clearProp p x pname =>
      obtain ⟨⟨r, db₁⟩, hcall, rfl⟩ := Option.map_eq_some_iff.mp hdo
      obtain rfl | ⟨n, definer, pv, hx, hat, hne, -, -, hclear⟩ := bfClearProp_cases hi hcall
      · exact hi
      · exact hi.clearSlot hat hne hx hclear
  | putProp p obj propname rhs =>
      obtain ⟨⟨r, db₁⟩, hcall, rfl⟩ := Option.map_eq_some_iff.mp hdo
      obtain rfl | ⟨x, name, h, -, -, -, -, hset⟩ := putProp_cases hi hcall
      · exact hi
      · exact hi.setPropertyValue (value_ne_clear rhs) hset
  | addVerb p x info args =>
      obtain ⟨⟨r, db₁⟩, hcall, rfl⟩ := Option.map_eq_some_iff.mp hdo
      obtain rfl | ⟨o, vi, specs, count, -, -, -, -, -, -, hadd⟩ := bfAddVerb_cases hi hcall
      · exact hi
      · obtain ⟨o, ho, -, rfl⟩ := addVerb_eq_some hi.sound hadd
        exact hi.affected.setVerbs ho
  | deleteVerb p x desc =>
      obtain ⟨⟨r, db₁⟩, hcall, rfl⟩ := Option.map_eq_some_iff.mp hdo
      obtain rfl | ⟨o, h, -, -, -, hdelete⟩ := bfDeleteVerb_cases hi hcall
      · exact hi
      · obtain ⟨o, ho, rfl⟩ := deleteVerb_eq_some hi.sound hdelete
        exact hi.affected.setVerbs ho
  | setVerbInfo p x desc info =>
      obtain ⟨⟨r, db₁⟩, hcall, rfl⟩ := Option.map_eq_some_iff.mp hdo
      obtain rfl | ⟨o, vi, -, v, -, h, -, -, -, -, -, -, -, -, -, -, hset⟩ := bfSetVerbInfo_cases hi hcall
      · exact hi
      · exact hi.affected.modifyVerb hset
  | setVerbArgs p x desc args =>
      obtain ⟨⟨r, db₁⟩, hcall, rfl⟩ := Option.map_eq_some_iff.mp hdo
      obtain rfl | ⟨specs, h, v, -, -, -, hset⟩ := bfSetVerbArgs_cases hi hcall
      · exact hi
      · exact hi.affected.modifyVerb hset
  | setVerbCode p x desc code =>
      obtain ⟨⟨r, db₁⟩, hcall, rfl⟩ := Option.map_eq_some_iff.mp hdo
      obtain rfl | ⟨program, h, v, -, -, -, hset⟩ := bfSetVerbCode_cases hi hcall
      · exact hi
      · exact hi.modifyVerb hset

theorem Run.intact {ok : Env → Call → Db → Prop} (hi : Intact db) (hrun : Run ok db db') : Intact db' :=
  hrun.invariant (fun hi _ hdo => perform_intact hi hdo) hi

/-! What intact means for someone who reads the table. -/

def HangsUnder (db : Db) (h : Hier) (x y : Objid) : Prop :=
  ∃ o, db.objects x = some o ∧ o.up h = y ∧ y ≠ nothing

theorem Sound.hangsUnder_iff {h : Hier} (hs : Sound db) :
    Relation.TransGen (db.HangsUnder h) x a ↔ x ∈ db.dom ∧ a ∈ db.chain h (db.upOf h x) := by
  have hstep : ∀ {x a}, db.HangsUnder h x a → x ∈ db.dom ∧ a ∈ db.dom ∧ db.upOf h x = a := by
    rintro x a ⟨o, ho, rfl, hne⟩
    have hup := upOf_of (h := h) ho
    exact ⟨mem_dom_of ho, hup ▸ (hs.up_mem (mem_dom_of ho)).resolve_left (hup.symm ▸ hne), hup⟩
  constructor
  · intro hxa
    induction hxa using Relation.TransGen.head_induction_on with
    | single hlast =>
        obtain ⟨hx, ha, hup⟩ := hstep hlast
        refine ⟨hx, ?_⟩
        rw [hup, hs.chain_cons ha]
        exact List.mem_cons_self
    | head hfirst _ ih =>
        obtain ⟨hx, hy, hup⟩ := hstep hfirst
        refine ⟨hx, ?_⟩
        rw [hup, hs.chain_cons hy]
        exact List.mem_cons_of_mem _ ih.2
  · rintro ⟨hx, ha⟩
    generalize hn : (db.chain h x).length = n
    induction n generalizing x with
    | zero =>
        rw [hs.chain_cons hx] at hn
        cases hn
    | succ n ih =>
        obtain ⟨o, ho⟩ := mem_dom.mp hx
        have hup := upOf_of (h := h) ho
        obtain hnil | hy := hs.up_mem (h := h) hx
        · rw [hnil, hs.chain_nothing] at ha
          cases ha
        have hfirst : db.HangsUnder h x (db.upOf h x) := ⟨o, ho, hup.symm, hs.ne_nothing hy⟩
        rw [hs.chain_cons hx, List.length_cons, Nat.add_right_cancel_iff] at hn
        rw [hs.chain_cons hy, List.mem_cons] at ha
        obtain rfl | ha := ha
        · exact .single hfirst
        · exact .head hfirst (ih hy ha hn)

/-- The objects are where their numbers say, every link leads to an object or nowhere,
no object is above itself, and an object is on the list of what it hangs under, once, and on
no other one. -/
structure WellLinked (db : Db) : Prop where
  ids : ∀ x o, db.objects x = some o → o.id = x ∧ 0 ≤ x ∧ x < db.numObjects
  up : ∀ h x o, db.objects x = some o → o.up h = nothing ∨ o.up h ∈ db.dom
  head : ∀ h x o, db.objects x = some o → o.head h = nothing ∨ o.head h ∈ db.dom
  next : ∀ h x o, db.objects x = some o → o.up h ≠ nothing → o.nextIn h = nothing ∨ o.nextIn h ∈ db.dom
  acyclic : ∀ h x, ¬ Relation.TransGen (db.HangsUnder h) x x
  lists : ∀ h y o, db.objects y = some o → ∃ l, Chain (db.nextOf h) nothing (o.head h) l ∧ l.Nodup ∧
    ∀ x, x ∈ l ↔ ∃ o', db.objects x = some o' ∧ o'.up h = y

theorem Sound.wellLinked (hs : Sound db) : WellLinked db := by
  have hup : ∀ h x o, db.objects x = some o → o.up h = nothing ∨ o.up h ∈ db.dom := by
    intro h x o ho
    have := hs.up_mem (h := h) (mem_dom_of ho)
    rwa [upOf_of ho] at this
  refine ⟨fun x o ho => hs.ids ho, hup, fun h x o ho => ?_, fun h x o ho hne => ?_, fun h x hxx => ?_,
    fun h y o ho => ?_⟩
  · by_cases hn : o.head h = nothing
    · exact .inl hn
    · have := (hs.linked h).head_mem (mem_dom_of ho)
      rw [headOf_of ho] at this
      exact .inr (this hn).1
  · by_cases hn : o.nextIn h = nothing
    · exact .inl hn
    · have hupd := (hup h x o ho).resolve_left hne
      have := (hs.linked h).next_mem (mem_dom_of ho)
      rw [upOf_of ho, nextOf_of ho] at this
      exact .inr (this hupd hn).1
  · obtain ⟨hx, hmem⟩ := hs.hangsUnder_iff.mp hxx
    exact hs.up_notMem hx hmem
  · obtain ⟨l, hl, hm⟩ := (hs.linked h).members y (mem_dom_of ho)
    rw [headOf_of ho] at hl
    refine ⟨l, hl, hl.nodup, fun x => (hm x).trans ?_⟩
    constructor
    · rintro ⟨hx, hxy⟩
      obtain ⟨o', ho'⟩ := mem_dom.mp hx
      exact ⟨o', ho', by rwa [upOf_of ho'] at hxy⟩
    · rintro ⟨o', ho', hxy⟩
      exact ⟨mem_dom_of ho', by rwa [upOf_of ho']⟩

/-- A slot for every definition met on the way up and in that order, no name twice, none
that is built in, and a value in the definer's own. -/
structure WellSlotted (db : Db) : Prop where
  count : ∀ x o, db.objects x = some o → db.countProperties x = some o.propval.length
  slots : ∀ x o, db.objects x = some o → ∃ os, db.ancestry x = some os ∧
    o.propval.map Pval.tag = (os.flatMap Object.propdefs).map Propdef.tag ∧
    (o.propval.map Pval.tag).Nodup
  names : ∀ x o, db.objects x = some o → ∃ os, db.ancestry x = some os ∧
    (os.flatMap Object.propdefs).Pairwise fun d e => sameName d.name e.name = false
  reserved : ∀ x o, db.objects x = some o → ∀ d ∈ o.propdefs, ∀ e ∈ ptable, sameName e.1 d.name = false
  value : ∀ x o, db.objects x = some o → ∀ p ∈ o.propval.take o.propdefs.length, p.var ≠ .clear
  follow : ∀ x o, db.objects x = some o → ∀ n < o.propval.length,
    ∃ v, db.followClear db.fuel o n = some v ∧ v ≠ .clear

theorem exists_flatMap_index {α β : Type} {f : α → List β} {l : List α} {n : Nat}
    (h : n < (l.flatMap f).length) :
    ∃ p q rest i, l = p ++ q :: rest ∧ n = (p.flatMap f).length + i ∧ i < (f q).length := by
  induction l generalizing n with
  | nil => simp at h
  | cons x xs ih =>
      by_cases hn : n < (f x).length
      · exact ⟨[], x, xs, n, rfl, by simp, hn⟩
      · rw [List.flatMap_cons, List.length_append] at h
        obtain ⟨p, q, rest, i, rfl, hi, hlt⟩ := ih (n := n - (f x).length) (by omega)
        refine ⟨x :: p, q, rest, i, rfl, ?_, hlt⟩
        rw [List.flatMap_cons, List.length_append]
        omega

theorem Slotted.allDefs_nodup (hp : Slotted db) (hs : Sound db) (hx : oid ∈ db.dom) :
    ((db.allDefs oid).map Propdef.tag).Nodup := by
  have hnodup := (hs.chain_spec (h := .family) (.inr hx)).1.nodup
  rw [allDefs, List.map_flatMap, List.nodup_flatMap]
  refine ⟨fun i _ => hp.tag_nodup i, hnodup.imp fun {i j} hne => ?_⟩
  intro t hi hj
  obtain ⟨d, hd, rfl⟩ := List.mem_map.mp hi
  obtain ⟨e, he, heq⟩ := List.mem_map.mp hj
  exact hne (hp.tag_inj i j d hd e he heq.symm)

theorem Intact.wellSlotted (hi : Intact db) : WellSlotted db := by
  have hs := hi.sound
  have hp := hi.slotted
  have hanc : ∀ {x o}, db.objects x = some o → ∃ os, db.ancestry x = some os ∧
      os.flatMap Object.propdefs = db.allDefs x := fun ho =>
    ⟨_, hs.ancestry_eq (.inr (mem_dom_of ho)), filterMap_flatMap_propdefs _⟩
  refine ⟨fun x o ho => ?_, fun x o ho => ?_, fun x o ho => ?_, fun x o ho d hd => ?_, fun x o ho => ?_,
    fun x o ho n hn => ?_⟩
  · rw [hs.countProperties_eq (.inr (mem_dom_of ho)), hp.length ho]
  · obtain ⟨os, hos, hdefs⟩ := hanc ho
    have htags := hp.tags x (mem_dom_of ho)
    rw [slotsOf_of ho] at htags
    refine ⟨os, hos, by rw [htags, hdefs], ?_⟩
    rw [htags]
    exact hp.allDefs_nodup hs (mem_dom_of ho)
  · obtain ⟨os, hos, hdefs⟩ := hanc ho
    exact ⟨os, hos, hdefs ▸ hp.names x (mem_dom_of ho)⟩
  · exact hp.reserved x d (by rwa [defsOf_of ho])
  · have := hp.notClear x
    rwa [slotsOf_of ho, defsOf_of ho] at this
  · rw [hp.length ho] at hn
    obtain ⟨p, q, rest, i, hc, hni, hlt⟩ := exists_flatMap_index hn
    have hfuel : (db.chain .family x).length ≤ db.fuel := by
      have := hs.chain_length_le (h := .family) (.inr (mem_dom_of ho))
      unfold fuel
      omega
    obtain ⟨v, y, hv, _, _, _, _, -, -, -, -, hne, -⟩ := followClear_spec hs hp ho hc hni hlt hfuel
    exact ⟨v, hv, hne⟩

def empty : Db :=
  { objects := fun _ => none, numObjects := 0, allUsers := [], vcTable := fun _ => [], nextTag := 0 }

theorem empty_intact : Intact empty := by
  have hno : ∀ x, x ∉ empty.dom := fun x hx => by cases hx
  refine ⟨⟨Int.le_refl _, fun ho => (by cases ho), fun h => ⟨hno _, fun hx => absurd hx (hno _),
    fun y hy => absurd hy (hno y), fun hx => absurd hx (hno _)⟩⟩, ⟨⟨?_, ?_, ?_, ?_, ?_, ?_⟩, ?_, ?_⟩⟩
  · exact fun i d hd => absurd (mem_dom_of_defsOf hd) (hno i)
  · intro i
    rw [defsOf_nothing (hno i)]
    exact .nil
  · exact fun i j d hd => absurd (mem_dom_of_defsOf hd) (hno i)
  · exact fun i d hd => absurd (mem_dom_of_defsOf hd) (hno i)
  · exact fun i hx => absurd hx (hno i)
  · exact fun i d hd => absurd (mem_dom_of_defsOf hd) (hno i)
  · exact fun i hx => absurd hx (hno i)
  · intro i
    rw [slotsOf_nothing (hno i)]
    simp

def calmEnv : Env :=
  { pushActivation := true, addr := 0, matchPrep := fun _ => -1, parse := fun _ => none
    taskTimedOut := false, freed := fun _ s => s, players := fun _ _ _ => false }

def cstrOf (s : Str) : CStr := ⟨s.takeWhile (· != '\x00'), fun h => by simpa using List.all_eq_true.mp List.all_takeWhile _ h⟩

def strOf (s : Str) : Value := ⟨.str (cstrOf s).val, decide_eq_true (cstrOf s).property⟩

def intOf (n : Int) : Value := ⟨.int n, rfl⟩

def objOf (oid : Objid) : Value := ⟨.obj oid, rfl⟩

theorem areValues_map (l : List Value) : Var.areValues (l.map Subtype.val) = true := by
  induction l with
  | nil => rfl
  | cons v vs ih => rw [List.map_cons, Var.areValues, v.property, ih, Bool.and_self]

def listOf (l : List Value) : Value := ⟨.list (l.map Subtype.val), areValues_map l⟩

def verbArgs : List Value := List.replicate 3 (strOf "none".toList)

def verbInfo (owner : Objid) (names : Str) : List Value := [objOf owner, strOf "rx".toList, strOf names]

def propInfo : Value := listOf [objOf 0, strOf "rc".toList]

def named (oid : Objid) (name : Str) (aliases : List Value) : List Call :=
  [.putProp 0 (objOf oid) (strOf "name".toList) (strOf name),
    .putProp 0 (objOf oid) (strOf "aliases".toList) (listOf aliases)]

/-- `#0`, which anyone may have children of, defines `aliases` and has six children; one of them is hung
under another, `#5` under `#3`, and two get a verb. -/
def built : List Call :=
  [.create 0 nothing none, .putProp 0 (objOf 0) (strOf "f".toList) (intOf 1),
    .addProp 0 0 (cstrOf "aliases".toList) (listOf []) propInfo,
    .create 0 0 none, .create 0 0 none, .create 0 0 none, .create 0 0 none, .create 0 0 none, .create 0 0 none,
    .chparent 0 5 3, .addVerb 0 1 (verbInfo 0 "exitfunc".toList) verbArgs,
    .addVerb 0 3 (verbInfo 0 "open shut*".toList) verbArgs]

/-- A visitor `#2` comes into `#1`, where there are a box with a ring in it and a boxer, and has gloves. -/
def furnished : List Call :=
  named 3 "red box".toList [strOf "box".toList, intOf 7, strOf "thing".toList] ++
    named 4 "gloves".toList [strOf "thing".toList, strOf "blue gloves".toList] ++
    named 5 "red boxer".toList [strOf "boxer".toList] ++ named 6 "ring".toList [] ++
    [.moveAccepted 0 2 1 true, .moveAccepted 0 3 1 true, .moveAccepted 0 5 1 true, .moveAccepted 0 6 3 true,
      .moveAccepted 0 4 2 true]

def calmly (calls : List Call) : List (Env × Call) :=
  calls.zipIdx.map fun (call, n) => ({ calmEnv with addr := n }, call)

def house : Db := (performAll (calmly (built ++ furnished)) empty).getD empty

theorem house_built : performAll (calmly (built ++ furnished)) empty = some house := by
  have hsome : (performAll (calmly (built ++ furnished)) empty).isSome = true := by decide +kernel
  obtain ⟨db, hdb⟩ := Option.isSome_iff_exists.mp hsome
  rw [house, hdb, Option.getD_some]

attribute [irreducible] house

theorem house_run : Run (fun _ _ _ => True) empty house :=
  performAll_run (calmly (built ++ furnished)) (fun _ _ _ => trivial) house_built

theorem house_intact : Intact house := house_run.intact empty_intact

/-- In every state that calls lead to from an intact one, the table is well linked. -/
theorem run_wellLinked {db₀ : Db} (hi : Intact db₀) (hrun : Run (fun _ _ _ => True) db₀ db) :
    WellLinked db :=
  (hrun.intact hi).sound.wellLinked

theorem run_wellLinked_house : performAll (calmly (built ++ furnished)) empty = some house ∧
    (house.objects 3).map (fun o => (o.parent, o.child, o.location, o.contents)) = some (0, 5, 1, 6) ∧
    WellLinked house :=
  ⟨house_built, by decide +kernel, run_wellLinked empty_intact house_run⟩

/-- And it is well slotted. -/
theorem run_wellSlotted {db₀ : Db} (hi : Intact db₀) (hrun : Run (fun _ _ _ => True) db₀ db) :
    WellSlotted db :=
  (hrun.intact hi).wellSlotted

theorem run_wellSlotted_house : performAll (calmly (built ++ furnished)) empty = some house ∧
    (house.objects 5).map (fun o => o.propval.length) = some 1 ∧ WellSlotted house :=
  ⟨house_built, by decide +kernel, run_wellSlotted empty_intact house_run⟩

end Db
end LambdaMoo
