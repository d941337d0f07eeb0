import LambdaMoo.Confinement
import LambdaMoo.Creation

/-! Calls made with the permissions of someone who is no wizard are confined. -/
namespace LambdaMoo

namespace Db

variable {db db' db'' db₀ : Db} {call : Call} {p progr oid parent x y z : Objid} {o : Object} {env : Env}
  {r : Package} {same : Objid → Objid → Prop} {c : Creation}

/-! Moves and recycling. -/

theorem Tendings.confined (hi : Intact db) (hd : Distinct db) (h : Tendings none db db') :
    Confined Eq call db db' := by
  have hfades : Fades Eq ∅ db db' := h.upkeeps.fades hi
  refine hfades.confined_of_up hi (h.intact hi) hd (by simp) (h.upkeeps.dom hi).ge (fun x _ => ?_) fun x _ => ?_
  · exact h.spares x (by simp) (by simp)
  · rw [(h.upkeeps.standing hi).sameDefs]

theorem Tendings.slot_kept {s : Pval} (hi : Intact db) (ho : oid ∈ db.dom) (h : Tendings (some oid) db db')
    (hs : s ∈ db.slotsOf x) (hb : ¬ db.Below oid x) : ∃ s' ∈ db'.slotsOf x, s'.tag = s.tag := by
  have hx := mem_dom_of_slotsOf hs
  obtain ⟨hc, hsub⟩ := hi.sound.chain_spec (h := .family) (.inr hx)
  have hi' := h.intact hi
  have hx' : x ∈ db'.dom := (h.upkeeps.dom hi).symm ▸ hx
  have hoff : oid ∉ db.chain .family x := fun hmem => hb ⟨hx, hmem⟩
  have hchain : db'.chain .family x = db.chain .family x := by
    refine hi'.sound.chain_eq (.inr hx') (hc.congr fun z hz => h.spares z ?_ ?_)
    · intro heq
      exact hoff (Option.some.inj heq ▸ hz)
    · -- what `z` hangs under is on the way up as well
      intro heq
      obtain ⟨l, hl⟩ := hi.sound.chain_suffix (.inr hx) hz
      apply hoff
      rw [hl, hi.sound.chain_cons (hsub z hz), ← Option.some.inj heq, hi.sound.chain_cons ho]
      simp
  refine hi.slot_kept hi' hx' ?_ hs
  rw [allDefs, allDefs, hchain, (h.upkeeps.standing hi).sameDefs]

theorem recycled_confined (hi : Intact db) (hd : Distinct db) (ho : oid ∈ db.dom) (h : Tendings (some oid) db db'')
    (hend : db' = db'' ∨ db''.destroyObject oid = some db')
    (hreshapes : ∀ x, db.Below oid x → db.Reshapes x call) : Confined Eq call db db' := by
  have hfades : Fades Eq ∅ db db'' := h.upkeeps.fades hi
  have hi'' := h.intact hi
  have hlost : ∀ x, ∀ s ∈ db.slotsOf x, ¬ db.Below oid x → ∃ s' ∈ db''.slotsOf x, s'.tag = s.tag :=
    fun x s hs hb => h.slot_kept hi ho hs hb
  obtain rfl | hdestroy := hend
  · refine hfades.confined hi hi'' hd (by simp) fun x s hs hno => hreshapes x ?_
    by_contra hb
    obtain ⟨s', hs', htag⟩ := hlost x s hs hb
    exact hno s' hs' htag
  · obtain ⟨o, users, -, -, -, -, -, hi', hdb⟩ := destroyObject_cases hi'' hdestroy
    refine (hfades.trans (destroyObject_fades hi'' hdestroy) Eq.trans).confined hi hi' hd (by simp)
      fun x s hs hno => hreshapes x ?_
    by_contra hb
    obtain ⟨s', hs', htag⟩ := hlost x s hs hb
    refine hno s' ?_ htag
    have hne : x ≠ oid := by
      rintro rfl
      exact hb (hi.sound.below_self (mem_dom_of_slotsOf hs))
    have hobj : db'.objects x = db''.objects x := by
      rw [hdb]
      exact Function.update_of_ne hne _ _
    rwa [slotsOf, hobj]

/-! Creation. -/

/-- What an owner may have become in a table that has the new object `oid`. -/
def Reassigned (db : Db) (oid a b : Objid) : Prop := b = a ∨ a ∉ db.dom ∧ (b = nothing ∨ b = oid)

theorem renumberedOwner_reassigned (hs : Sound db) (hfresh : oid ∉ db.dom) (a : Objid) :
    db.Reassigned oid a (renumberedOwner db.numObjects oid a) := by
  unfold renumberedOwner
  split
  · next heq =>
      subst heq
      exact .inr ⟨hfresh, .inl rfl⟩
  · split
    · next heq =>
        subst heq
        exact .inr ⟨fun h => absurd (hs.range h).2 (Int.lt_irrefl _), .inr rfl⟩
    · exact .inl rfl

theorem Made.fades {owners : Object → Object} (hi : Intact db) (m : Made db oid owners db')
    (howners : owners = id ∧ same = Eq ∨ owners = Object.withOwners db.numObjects oid ∧ same = db.Reassigned oid) :
    Fades same {oid} db db' := by
  have hown : ∀ o : Object, same o.owner (owners o).owner ∧ Object.powers (owners o) = Object.powers o ∧
      (owners o).propdefs = o.propdefs ∧
      (∀ v' ∈ (owners o).verbdefs, ∃ v ∈ o.verbdefs, same v.owner v'.owner ∧ v' = { v with owner := v'.owner }) ∧
      ∀ s' ∈ (owners o).propval, ∃ s ∈ o.propval, same s.owner s'.owner ∧
        s' = { s with owner := s'.owner } := by
    intro o
    obtain ⟨rfl, rfl⟩ | ⟨rfl, rfl⟩ := howners
    · exact ⟨rfl, rfl, rfl, fun v hv => ⟨v, hv, rfl, rfl⟩, fun s hs => ⟨s, hs, rfl, rfl⟩⟩
    · have hre := renumberedOwner_reassigned hi.sound m.fresh
      refine ⟨hre _, rfl, rfl, fun v' hv' => ?_, fun s' hs' => ?_⟩
      · obtain ⟨v, hv, rfl⟩ := List.mem_map.mp hv'
        exact ⟨v, hv, hre _, rfl⟩
      · obtain ⟨s, hs, rfl⟩ := List.mem_map.mp hs'
        exact ⟨s, hs, hre _, rfl⟩
  have hold : ∀ x, x ≠ oid → ∀ o', db'.objects x = some o' → ∃ o, db.objects x = some o ∧
      o'.body = (owners o).body := by
    intro x hx o' ho'
    have hmem := mem_dom_of ho'
    rw [m.dom] at hmem
    obtain ⟨o, ho⟩ := mem_dom.mp (hmem.resolve_left hx)
    have hbody := m.body x o ho
    rw [ho', Option.map_some, Option.some.injEq] at hbody
    exact ⟨o, ho, hbody⟩
  refine ⟨fun x hx o' ho' => ?_, fun x hx v' hv' => ?_, fun x hx s' hs' => ?_, fun x d hd => ?_⟩
  · obtain ⟨o, ho, hbody⟩ := hold x hx o' ho'
    have howner := congrArg Object.owner hbody
    have hpowers := congrArg Object.powers hbody
    refine ⟨o, ho, ?_, hpowers.trans (hown o).2.1⟩
    rw [show o'.owner = (owners o).owner from howner]
    exact (hown o).1
  · obtain ⟨o', ho'⟩ := mem_dom.mp (mem_dom_of_verbsOf hv')
    obtain ⟨o, ho, hbody⟩ := hold x hx o' ho'
    have hverbs := congrArg Object.verbdefs hbody
    rw [verbsOf_of ho', show o'.verbdefs = (owners o).verbdefs from hverbs] at hv'
    rw [verbsOf_of ho]
    exact (hown o).2.2.2.1 v' hv'
  · obtain ⟨o', ho'⟩ := mem_dom.mp (mem_dom_of_slotsOf hs')
    obtain ⟨o, ho, hbody⟩ := hold x hx o' ho'
    have hslots := congrArg Object.propval hbody
    rw [slotsOf_of ho', show o'.propval = (owners o).propval from hslots] at hs'
    obtain ⟨s, hs, hsame, heq⟩ := (hown o).2.2.2.2 s' hs'
    refine ⟨s, by rwa [slotsOf_of ho], hsame, ?_, .inl ?_⟩
    · rw [heq]
    · rw [heq]
  · obtain ⟨o', ho'⟩ := mem_dom.mp (mem_dom_of_defsOf hd)
    by_cases hx : x = oid
    · subst hx
      obtain ⟨o, ho, hbody, -⟩ := m.object
      have hnone := congrArg Object.propdefs hbody
      rw [defsOf_of ho, show o.propdefs = [] from hnone] at hd
      cases hd
    · obtain ⟨o, ho, hbody⟩ := hold x hx o' ho'
      have hdefs := congrArg Object.propdefs hbody
      rwa [defsOf_of ho', show o'.propdefs = (owners o).propdefs from hdefs, (hown o).2.2.1,
        ← defsOf_of ho] at hd

theorem Reparented.fades (hre : Reparented db x p db') (hleaf : ∀ y, db.Below x y → y = x) :
    Fades Eq {x} db db' := by
  have h : Alike Object.standing db db' := .shows hre.agree.objects fun _ => rfl
  refine ⟨fun y _ o' ho' => ?_, fun y _ v' hv' => ⟨v', h.sameVerbs ▸ hv', rfl, rfl⟩, fun y hy s' hs' => ?_,
    fun y d hd => h.sameDefs ▸ hd⟩
  · obtain ⟨o, ho, he⟩ := h.belongs.of_objects ho'
    exact ⟨o, ho, (congrArg Prod.fst he).symm, congrArg Prod.snd he⟩
  · refine ⟨s', ?_, rfl, rfl, .inl rfl⟩
    rwa [hre.outside y fun hb => hy (hleaf y hb)] at hs'

theorem Made.begun {owners : Object → Object} {owner : Objid} {db₂ : Db} (hi : Intact db)
    (m : Made db oid owners db₂)
    (howners : owners = id ∧ same = Eq ∨ owners = Object.withOwners db.numObjects oid ∧ same = db.Reassigned oid)
    (hp : parent = nothing ∨ parent ∈ db.dom) (hne : owner ≠ nothing)
    (hdo : db₂.initializeCreated env oid parent owner = some (r, db')) :
    Intact db' ∧ Fades same {oid} db db' ∧ Untouched db db' ∧ oid ∈ db'.dom ∧
      ∀ o', db'.objects oid = some o' → Ordinary owner o' := by
  obtain ⟨o, changed, db₃, e, ho, hchange, hcall⟩ := initializeCreated_call hdo
  rw [if_neg hne] at hchange
  obtain ⟨o₂, ho₂, hbody, hlinks⟩ := m.object
  obtain rfl := Option.some.inj (ho.symm.trans ho₂)
  have hflags : o.flags = fun _ => false := congrArg Object.flags hbody
  have hverbs : o.verbdefs = [] := congrArg Object.verbdefs hbody
  set db₁ := db₂.set oid { o with name := [], owner } with hdb₁
  have hnew : db₁.objects oid = some { o with name := [], owner } := Function.update_self _ _ _
  have hother : ∀ x, x ≠ oid → db₁.objects x = db₂.objects x := fun x hx => Function.update_of_ne hx _ _
  have hset : Fades Eq {oid} db₂ db₁ := by
    refine ⟨fun x hx o' ho' => ⟨o', hother x hx ▸ ho', rfl, rfl⟩, fun x hx v' hv' => ⟨v', ?_, rfl, rfl⟩,
      fun x hx s' hs' => ⟨s', ?_, rfl, rfl, .inl rfl⟩, fun x d hd => ?_⟩
    · rwa [verbsOf, hother x hx] at hv'
    · rwa [slotsOf, hother x hx] at hs'
    · by_cases hx : x = oid
      · subst hx
        rwa [defsOf_of hnew, ← defsOf_of ho] at hd
      · rwa [defsOf, hother x hx] at hd
  have hin : Intact db₁ := m.intact.named ho owner
  obtain ⟨hp', hacyc⟩ := m.parent owner hp ho
  have hleaf : ∀ y, db₁.Below oid y → y = oid := by
    intro y hb
    by_contra hne
    exact hin.sound.notMem_chain_of_leaf hnew (hlinks .family).2 (.inr hb.1) hne hb.2
  have hun : Untouched db db₁ :=
    (m.untouched hi (howners.imp And.left And.left)).set m.fresh _ ho
  obtain ⟨hi₃, hfades, hun₃, o₃, ho₃, hord⟩ : Intact db₃ ∧ Fades Eq {oid} db₁ db₃ ∧ Untouched db db₃ ∧
      ∃ o₃, db₃.objects oid = some o₃ ∧ Ordinary owner o₃ := by
    have hord : Ordinary owner { o with name := [], owner } := ⟨rfl, by simp [hflags], by simp [hflags], hverbs⟩
    obtain ⟨-, rfl⟩ | ⟨-, -, hi₃, hre⟩ := changeParent_cases hin (mem_dom_of hnew) hp' hacyc hchange
    · exact ⟨hin, .refl _ _, hun, _, hnew, hord⟩
    · obtain ⟨o₃, ho₃, he⟩ := hre.agree.of_objects hnew
      have howner₃ := congrArg Object.owner he
      have hflags₃ := congrArg Object.flags he
      have hverbs₃ := congrArg Object.verbdefs he
      refine ⟨hi₃, hre.fades hleaf, hun.reparented m.fresh hre hleaf, o₃, ho₃, howner₃, ?_, ?_,
        hverbs₃.trans hord.verbs⟩
      · exact (congrFun hflags₃ .wizard).trans hord.wizard
      · exact (congrFun hflags₃ .programmer).trans hord.programmer
  have hobj : db'.objects = db₃.objects := by rw [callVerb_rest hcall]
  have hlast : Fades Eq {oid} db₃ db' := .of_standing (fun x => by rw [hobj]) fun x s' hs' => .inl <| by
    rwa [slotsOf, hobj] at hs'
  refine ⟨?_, ?_, hun₃.trans (.of_objects hobj), mem_dom_of (hobj ▸ ho₃), fun o' ho' => ?_⟩
  · exact (callVerb_tends (k := none) (by decide : Terminated "initialize".toList) hcall).intact hi₃
  · have hmade := (m.fades hi howners).trans (hset.trans (hfades.trans hlast Eq.trans) Eq.trans)
      (fun {a b c} hab hbc => hbc ▸ hab)
    exact hmade
  · rw [hobj, ho₃] at ho'
    exact Option.some.inj ho' ▸ hord

/-- What the functions that make an object have in common. Only one of them may give other
numbers to owners. -/
theorem createOwned_confined {renumbers : Prop} {make : Db → Option (Except Error Objid × Db)}
    (hmake : Makes renumbers make) (hi : Intact db) (hd : Distinct db)
    (hp : parent = nothing ∨ parent ∈ db.dom) (hne : call.progr ≠ nothing)
    (hcall : renumbers → ∃ p parent owner?, call = .createAndRenumber p parent owner?)
    (hdo : createOwned env make db parent call.progr = some (r, db')) :
    Confined (Reowned call db db') call db db' := by
  obtain ⟨granted, db₁, ht, hdo⟩ := charged_cases hi hdo
  have hi₁ := ht.intact hi
  have hcharged : Confined (Reowned call db db₁) call db db₁ := (ht.confined hi hd).mono fun _ _ h => .inl h.symm
  split at hdo
  · rwa [refused hdo]
  obtain ⟨⟨made, db₂⟩, hmade, hinit⟩ := Option.bind_eq_some_iff.mp hdo
  obtain ⟨e, rfl, rfl⟩ | ⟨oid, owners, rfl, howners, m⟩ := hmake hi₁ hmade
  · rwa [refused hinit]
  have hdom : db₁.dom = db.dom := ht.upkeeps.dom hi
  have hfresh : oid ∉ db.dom := hdom ▸ m.fresh
  have hconfined : ∀ {same}, (owners = id ∧ same = Eq ∨
      owners = Object.withOwners db₁.numObjects oid ∧ same = db₁.Reassigned oid) →
      (∀ a b, same a b → oid ∈ db'.dom → Reowned call db db' a b) → Confined (Reowned call db db') call db db' := by
    intro same howners hsame
    obtain ⟨hi', hfades, hun, hoid, hord⟩ := m.begun hi₁ howners (hdom ▸ hp) hne hinit
    have hall : Fades same {oid} db db' :=
      (ht.upkeeps.fades hi).trans hfades (fun {a b c} hab hbc => hab ▸ hbc)
    refine (hall.confined_of_up hi hi' hd ?_ (hdom ▸ hun.dom) (fun x hx => ?_) fun x hx => ?_).mono
      fun a b hab => hsame a b hab hoid
    · rintro x rfl
      exact ⟨hfresh, hord⟩
    · rw [hun.up x (hdom ▸ hx), ht.spares x (by simp) (by simp)]
    · rw [hun.defs x (hdom ▸ hx), (ht.upkeeps.standing hi).sameDefs]
  obtain rfl | ⟨hre, rfl⟩ := howners
  · exact hconfined (.inl ⟨rfl, rfl⟩) fun a b hab _ => .inl hab.symm
  · refine hconfined (.inr ⟨rfl, rfl⟩) fun a b hab hoid => ?_
    obtain hab | ⟨ha, hb⟩ := hab
    · exact .inl hab
    · refine .inr ⟨hcall hre, hdom ▸ ha, hb.imp id ?_⟩
      rintro rfl
      exact ⟨hoid, hfresh⟩

end Db
end LambdaMoo
