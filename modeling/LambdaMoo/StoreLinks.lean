import LambdaMoo.Store
import LambdaMoo.DbObjects

/-! Taking an object off the list it is on, and putting it at the end of another. -/
namespace LambdaMoo

namespace Object

variable {h k : Hier} {a : Objid} {o : Object}

@[simp] theorem head_setHead : (o.setHead a h).head h = a := by cases h <;> rfl
@[simp] theorem up_setHead : (o.setHead a h).up k = o.up k := by cases h <;> cases k <;> rfl
@[simp] theorem nextIn_setHead : (o.setHead a h).nextIn k = o.nextIn k := by
  cases h <;> cases k <;> rfl

@[simp] theorem nextIn_setNextIn : (o.setNextIn a h).nextIn h = a := by cases h <;> rfl
@[simp] theorem up_setNextIn : (o.setNextIn a h).up k = o.up k := by cases h <;> cases k <;> rfl
@[simp] theorem head_setNextIn : (o.setNextIn a h).head k = o.head k := by
  cases h <;> cases k <;> rfl

def withoutLists (h : Hier) (o : Object) : Object := (o.setHead nothing h).setNextIn nothing h

@[simp] theorem withoutLists_setHead : (o.setHead a h).withoutLists h = o.withoutLists h := by
  cases h <;> rfl
@[simp] theorem withoutLists_setNextIn : (o.setNextIn a h).withoutLists h = o.withoutLists h := by
  cases h <;> rfl

@[simp] theorem up_setUp : (o.setUp a h).up h = a := by cases h <;> rfl
@[simp] theorem head_setUp : (o.setUp a h).head k = o.head k := by cases h <;> cases k <;> rfl
@[simp] theorem nextIn_setUp : (o.setUp a h).nextIn k = o.nextIn k := by cases h <;> cases k <;> rfl

def withoutLinks (h : Hier) (o : Object) : Object := (o.withoutLists h).setUp nothing h

@[simp] theorem withoutLinks_setUp : (o.setUp a h).withoutLinks h = o.withoutLinks h := by
  cases h <;> rfl

theorem linksIn_of_withoutLinks {o' : Object} (hk : k ≠ h) (he : o'.withoutLinks h = o.withoutLinks h) :
    o'.linksIn k = o.linksIn k := by
  have := congrArg (Object.linksIn k) he
  cases h <;> cases k <;> first | exact absurd rfl hk | exact this

theorem id_of_withoutLinks {o' : Object} (he : o'.withoutLinks h = o.withoutLinks h) : o'.id = o.id := by
  have := congrArg Object.id he
  cases h <;> exact this

theorem up_of_withoutLists {o' : Object} (he : o'.withoutLists h = o.withoutLists h) :
    o'.up k = o.up k := by
  have := congrArg (Object.up k) he
  simpa [withoutLists] using this

end Object

namespace Db

variable {db : Db} {h : Hier} {w x lid next : Objid} {as bs : List Objid} {o : Object}

theorem exists_before {l : List Objid} {a : Objid} (ha : x ∈ a :: l) (hne : a ≠ x) :
    ∃ as p bs, a :: l = as ++ p :: x :: bs := by
  induction l generalizing a with
  | nil => exact absurd (by simpa using ha) hne.symm
  | cons b l ih =>
      have hx := (List.mem_cons.mp ha).resolve_left hne.symm
      obtain rfl | hbx := eq_or_ne b x
      · exact ⟨[], a, l, rfl⟩
      · obtain ⟨as, p, bs, heq⟩ := ih hx hbx
        exact ⟨a :: as, p, bs, by rw [heq]; rfl⟩

theorem unlinkNext_eq {p : Objid} (hp : db.objects p = some o)
    (hl : Chain (db.nextOf h) nothing lid (as ++ p :: x :: bs))
    (hsub : ∀ z ∈ as ++ p :: x :: bs, z ∈ db.dom) {fuel : Nat} (hfuel : as.length < fuel) :
    db.unlinkNext h x next fuel lid = some (db.set p (o.setNextIn next h)) := by
  have hnodup := hl.nodup
  induction as generalizing lid fuel with
  | nil =>
      obtain ⟨n, rfl⟩ := Nat.exists_eq_succ_of_ne_zero (Nat.ne_zero_of_lt hfuel)
      obtain ⟨rfl, hne, hx⟩ := Chain.cons_iff.mp hl
      have hnext := (Chain.cons_iff.mp hx).1
      rw [nextOf_of hp] at hnext
      simp [unlinkNext, hne, hp, hnext]
  | cons c cs ih =>
      obtain ⟨n, rfl⟩ := Nat.exists_eq_succ_of_ne_zero (Nat.ne_zero_of_lt hfuel)
      obtain ⟨rfl, hne, hcs⟩ := Chain.cons_iff.mp hl
      rw [List.cons_append, List.nodup_cons] at hnodup
      obtain ⟨oc, hoc⟩ := mem_dom.mp (hsub lid (by simp))
      rw [nextOf_of hoc] at hcs
      have hnx : oc.nextIn h ≠ x := by
        intro hx
        rw [hx] at hcs
        cases cs with
        | nil =>
            have := (Chain.cons_iff.mp hcs).1
            simp_all
        | cons d ds =>
            have := (Chain.cons_iff.mp hcs).1
            simp_all
      simp only [unlinkNext, hne, if_false, hoc, Option.bind_eq_bind, Option.bind_some, hnx]
      exact ih hcs (fun z hz => hsub z (by simp [hz])) (by simpa using hfuel) hnodup.2

theorem linkLast_eq {p : Objid} (hp : db.objects p = some o)
    (hl : Chain (db.nextOf h) nothing lid (as ++ [p])) (hsub : ∀ z ∈ as ++ [p], z ∈ db.dom)
    {fuel : Nat} (hfuel : as.length < fuel) :
    db.linkLast h x fuel lid = some (db.set p (o.setNextIn x h)) := by
  induction as generalizing lid fuel with
  | nil =>
      obtain ⟨n, rfl⟩ := Nat.exists_eq_succ_of_ne_zero (Nat.ne_zero_of_lt hfuel)
      obtain ⟨rfl, hne, hx⟩ := Chain.cons_iff.mp hl
      rw [Chain.nil_iff, nextOf_of hp] at hx
      simp [linkLast, hp, hx]
  | cons c cs ih =>
      obtain ⟨n, rfl⟩ := Nat.exists_eq_succ_of_ne_zero (Nat.ne_zero_of_lt hfuel)
      obtain ⟨rfl, hne, hcs⟩ := Chain.cons_iff.mp hl
      obtain ⟨oc, hoc⟩ := mem_dom.mp (hsub lid (by simp))
      rw [nextOf_of hoc] at hcs
      have hnx : oc.nextIn h ≠ nothing := by
        intro hx
        rw [hx] at hcs
        have := hcs.unique .nil
        simp at this
      simp only [linkLast, hoc, Option.bind_eq_bind, Option.bind_some, hnx, if_false]
      exact ih hcs (fun z hz => hsub z (by simp [hz])) (by simpa using hfuel)

abbrev Lists (db : Db) (h : Hier) (mem : Objid → Objid → Prop) : Prop :=
  Threaded db.dom nothing (db.headOf h) (db.nextOf h) mem

abbrev Hangs (db : Db) (h : Hier) (y z : Objid) : Prop := z ∈ db.dom ∧ db.upOf h z = y

theorem Hangs.unique {y y' z : Objid} (hy : db.Hangs h y z) (hy' : db.Hangs h y' z) : y = y' :=
  hy.2.symm.trans hy'.2

theorem llRemove_spec (hs : Sound db) (hw : w ∈ db.dom) (hx : x ∈ db.dom) (hup : db.upOf h x = w) :
    ∃ db', db.llRemove h w x = some db' ∧ Agree (Object.withoutLists h) db db' ∧
      db'.Lists h fun y z => db.Hangs h y z ∧ z ≠ x := by
  obtain ⟨ow, how⟩ := mem_dom.mp hw
  obtain ⟨ox, hox⟩ := mem_dom.mp hx
  have hlists := (hs.linked h).members
  obtain ⟨l, hl, hchain, hm⟩ := hs.listFrom_fuel (h := h) hw
  have hxl := (hm x).mpr ⟨hx, hup⟩
  by_cases hhead : ow.head h = x
  · have hagree := Agree.set (u := ow.setHead (ox.nextIn h) h) how
      (f := Object.withoutLists h) (by simp)
    obtain ⟨ox', hox', he⟩ := hagree.of_objects hox
    have hagree' := Agree.set (u := ox'.setNextIn nothing h) hox' (f := Object.withoutLists h) (by simp)
    refine ⟨_, ?_, hagree.trans hagree', ?_⟩
    · simp [llRemove, how, hox, hhead, modify_of _ hox']
    · have hx' : (db.set w (ow.setHead (ox.nextIn h) h)).headOf h x = ox'.head h := headOf_of hox'
      have hlink := hlists.unlink_head (fun hy hy' => Hangs.unique hy hy') hw
        (x := x) (by rw [headOf_of how]; exact hhead) (hs.ne_nothing hx)
      unfold Lists
      rw [hagree'.dom, hagree.dom, headOf_set, nextOf_set, Object.head_setNextIn, ← hx',
        Function.update_eq_self, headOf_set, nextOf_set, Object.head_setHead, Object.nextIn_setHead,
        Object.nextIn_setNextIn]
      rw [← nextOf_of (h := h) how, Function.update_eq_self, ← nextOf_of (h := h) hox]
      exact hlink
  · obtain ⟨as, p, bs, heq⟩ : ∃ as p bs, l = as ++ p :: x :: bs := by
      cases l with
      | nil => cases hxl
      | cons a l =>
          have ha := (Chain.cons_iff.mp hchain).1
          rw [headOf_of how] at ha
          exact exists_before hxl (ha ▸ hhead)
    subst heq
    have hsub : ∀ z ∈ as ++ p :: x :: bs, z ∈ db.dom := fun z hz => ((hm z).mp hz).1
    obtain ⟨op, hop⟩ := mem_dom.mp (hsub p (by simp))
    have hfuel := hs.length_lt_fuel hchain.nodup hsub
    rw [List.length_append] at hfuel
    have hunlink : db.unlinkNext h x (ox.nextIn h) db.fuel (db.headOf h w) =
        some (db.set p (op.setNextIn (ox.nextIn h) h)) := unlinkNext_eq hop hchain hsub (by omega)
    rw [headOf_of how] at hunlink
    have hagree := Agree.set (u := op.setNextIn (ox.nextIn h) h) hop
      (f := Object.withoutLists h) (by simp)
    obtain ⟨ox', hox', he⟩ := hagree.of_objects hox
    have hagree' := Agree.set (u := ox'.setNextIn nothing h) hox' (f := Object.withoutLists h) (by simp)
    refine ⟨_, ?_, hagree.trans hagree', ?_⟩
    · simp [llRemove, how, hox, hhead, hunlink, modify_of _ hox']
    · have hx' : (db.set p (op.setNextIn (ox.nextIn h) h)).headOf h x = ox'.head h := headOf_of hox'
      have hlink := hlists.unlink_next (fun hy hy' => Hangs.unique hy hy') hw hchain
      unfold Lists
      rw [hagree'.dom, hagree.dom, headOf_set, nextOf_set, Object.head_setNextIn, ← hx',
        Function.update_eq_self, headOf_set, nextOf_set, Object.head_setNextIn,
        Object.nextIn_setNextIn, Object.nextIn_setNextIn]
      rw [← headOf_of (h := h) hop, Function.update_eq_self, ← nextOf_of (h := h) hox]
      exact hlink

theorem llAppend_spec {mem : Objid → Objid → Prop} (hlists : db.Lists h mem)
    (hmem : ∀ {y y' z}, mem y z → mem y' z → y = y') (hdom : ∀ {y z}, mem y z → z ∈ db.dom)
    (hlen : ∀ {l : List Objid}, l.Nodup → (∀ z ∈ l, z ∈ db.dom) → l.length < db.fuel)
    (hw : w ∈ db.dom) (hx : x ∈ db.dom) (hne : x ≠ nothing) (hfree : ∀ y ∈ db.dom, ¬ mem y x) :
    ∃ db', db.llAppend h w x = some db' ∧ Agree (Object.withoutLists h) db db' ∧
      db'.Lists h fun y z => mem y z ∨ y = w ∧ z = x := by
  obtain ⟨ow, how⟩ := mem_dom.mp hw
  obtain ⟨ox, hox⟩ := mem_dom.mp hx
  obtain ⟨l, hchain, hm⟩ := hlists w hw
  by_cases hhead : ow.head h = nothing
  · have hagree := Agree.set (u := ow.setHead x h) how (f := Object.withoutLists h) (by simp)
    obtain ⟨ox', hox', he⟩ := hagree.of_objects hox
    have hagree' := Agree.set (u := ox'.setNextIn nothing h) hox' (f := Object.withoutLists h) (by simp)
    refine ⟨_, ?_, hagree.trans hagree', ?_⟩
    · simp [llAppend, how, hhead, modify_of _ hox']
    · have hx' : (db.set w (ow.setHead x h)).headOf h x = ox'.head h := headOf_of hox'
      have hlink := hlists.link_head (w := w) (by rw [headOf_of how]; exact hhead) hfree hne
      unfold Lists
      rw [hagree'.dom, hagree.dom, headOf_set, nextOf_set, Object.head_setNextIn, ← hx',
        Function.update_eq_self, headOf_set, nextOf_set, Object.head_setHead, Object.nextIn_setHead,
        Object.nextIn_setNextIn]
      rw [← nextOf_of (h := h) how, Function.update_eq_self]
      exact hlink
  · obtain ⟨as, p, rfl⟩ : ∃ as p, l = as ++ [p] := by
      obtain rfl | ⟨as, p, hl⟩ := l.eq_nil_or_concat
      · rw [headOf_of how, Chain.nil_iff] at hchain
        exact absurd hchain hhead
      · exact ⟨as, p, by simpa using hl⟩
    have hsub : ∀ z ∈ as ++ [p], z ∈ db.dom := fun z hz => hdom ((hm z).mp hz)
    obtain ⟨op, hop⟩ := mem_dom.mp (hsub p (by simp))
    have hfuel := hlen hchain.nodup hsub
    rw [List.length_append] at hfuel
    have hlast : db.linkLast h x db.fuel (db.headOf h w) = some (db.set p (op.setNextIn x h)) :=
      linkLast_eq hop hchain hsub (by omega)
    rw [headOf_of how] at hlast
    have hagree := Agree.set (u := op.setNextIn x h) hop (f := Object.withoutLists h) (by simp)
    obtain ⟨ox', hox', he⟩ := hagree.of_objects hox
    have hagree' := Agree.set (u := ox'.setNextIn nothing h) hox' (f := Object.withoutLists h) (by simp)
    refine ⟨_, ?_, hagree.trans hagree', ?_⟩
    · simp [llAppend, how, hhead, hlast, modify_of _ hox']
    · have hx' : (db.set p (op.setNextIn x h)).headOf h x = ox'.head h := headOf_of hox'
      have hlink := hlists.link_last (fun hy hy' => hmem hy hy') hw hchain hfree hne
      unfold Lists
      rw [hagree'.dom, hagree.dom, headOf_set, nextOf_set, Object.head_setNextIn, ← hx',
        Function.update_eq_self, headOf_set, nextOf_set, Object.head_setNextIn,
        Object.nextIn_setNextIn, Object.nextIn_setNextIn]
      rw [← headOf_of (h := h) hop, Function.update_eq_self]
      exact hlink

theorem upOf_of_withoutLists {db' : Db} (ha : Agree (Object.withoutLists h) db db') (k : Hier) :
    db'.upOf k = db.upOf k := by
  funext i
  exact (ha.mono (g := Object.up k) fun he => Object.up_of_withoutLists he).elim nothing i

theorem rehang_spec {p : Objid} (hs : Sound db) (hx : db.objects x = some o)
    (hp : p = nothing ∨ p ∈ db.dom) (hacyc : x ∉ db.chain h p) :
    ∃ db₁ db₂ db₃,
      (if o.up h ≠ nothing then db.llRemove h (o.up h) x else some db) = some db₁ ∧
      (if p ≠ nothing then db₁.llAppend h p x else some db₁) = some db₂ ∧
      db₂.modify (fun o => o.setUp p h) x = some db₃ ∧
      Agree (Object.withoutLists h) db db₂ ∧ Agree (Object.withoutLinks h) db db₃ ∧
      db₃.upOf h = Function.update (db.upOf h) x p ∧ Sound db₃ := by
  have hxd := mem_dom_of hx
  obtain ⟨db₁, h₁, ha₁, hl₁⟩ : ∃ db₁,
      (if o.up h ≠ nothing then db.llRemove h (o.up h) x else some db) = some db₁ ∧
      Agree (Object.withoutLists h) db db₁ ∧ db₁.Lists h fun y z => db.Hangs h y z ∧ z ≠ x := by
    by_cases hup : o.up h = nothing
    · refine ⟨db, by simp [hup], .refl _ _, ?_⟩
      refine (hs.linked h).members.congr (fun _ _ => rfl) (fun _ _ _ _ => rfl) fun y hy z => ?_
      constructor
      · rintro ⟨hz, -⟩
        exact hz
      · intro hz
        refine ⟨hz, ?_⟩
        rintro rfl
        rw [← hz.2, upOf_of hx, hup] at hy
        exact hs.nothing_notMem hy
    · have hupd : db.upOf h x = o.up h := upOf_of hx
      have hw := (hs.up_mem (h := h) hxd).resolve_left (by rwa [hupd])
      rw [hupd] at hw
      simpa [hup] using llRemove_spec hs hw hxd hupd
  obtain ⟨db₂, h₂, ha₂, hl₂⟩ : ∃ db₂,
      (if p ≠ nothing then db₁.llAppend h p x else some db₁) = some db₂ ∧
      Agree (Object.withoutLists h) db₁ db₂ ∧
      db₂.Lists h fun y z => (db.Hangs h y z ∧ z ≠ x) ∨ y = p ∧ z = x := by
    by_cases hpn : p = nothing
    · refine ⟨db₁, by simp [hpn], .refl _ _, ?_⟩
      refine hl₁.congr (fun _ _ => rfl) (fun _ _ _ _ => rfl) fun y hy z => ?_
      constructor
      · rintro (hz | ⟨rfl, rfl⟩)
        · exact hz
        · rw [ha₁.dom, hpn] at hy
          exact absurd hy hs.nothing_notMem
      · exact .inl
    · have hpd := hp.resolve_left hpn
      rw [← ha₁.dom] at hpd hxd
      have happ := llAppend_spec hl₁ (fun hy hy' => Hangs.unique hy.1 hy'.1)
        (fun hz => ha₁.dom ▸ hz.1.1)
        (fun hl hsub => by
          rw [ha₁.fuel]
          exact hs.length_lt_fuel hl (ha₁.dom ▸ hsub))
        hpd hxd (hs.ne_nothing (mem_dom_of hx)) fun y _ hy => hy.2 rfl
      simpa [hpn] using happ
  have ha := ha₁.trans ha₂
  obtain ⟨o₂, ho₂, he₂⟩ := ha.of_objects hx
  have ha₃ := Agree.set (u := o₂.setUp p h) ho₂ (f := Object.withoutLinks h) (by simp)
  have hall : Agree (Object.withoutLinks h) db (db₂.set x (o₂.setUp p h)) :=
    (ha.mono fun he => congrArg (Object.setUp nothing h) he).trans ha₃
  have hup : (db₂.set x (o₂.setUp p h)).upOf h = Function.update (db.upOf h) x p := by
    rw [upOf_set, upOf_of_withoutLists ha, Object.up_setUp]
  refine ⟨db₁, db₂, _, h₁, h₂, modify_of _ ho₂, ha, hall, hup, ?_, ?_, fun k => ?_⟩
  · rw [hall.numObjects]
    exact hs.numObjects_nonneg
  · exact (hall.mono fun he => Object.id_of_withoutLinks he).ids hs.ids
  · by_cases hk : k = h
    · subst hk
      have hlists := hl₂
      unfold Lists at hlists
      rw [ha.dom] at hlists
      have hre : Hierarchy db.dom nothing (Function.update (db.upOf k) x p) (db₂.headOf k)
          (db₂.nextOf k) :=
        (hs.linked k).reparent hp (mem_dom_of hx) (fun l hl => by rwa [← hs.chain_eq hp hl]) hlists
      have hhead : (db₂.set x (o₂.setUp p k)).headOf k = db₂.headOf k := by
        rw [headOf_set, Object.head_setUp, ← headOf_of ho₂, Function.update_eq_self]
      have hnext : (db₂.set x (o₂.setUp p k)).nextOf k = db₂.nextOf k := by
        rw [nextOf_set, Object.nextIn_setUp, ← nextOf_of ho₂, Function.update_eq_self]
      rw [Linked, hall.dom, hup, hhead, hnext]
      exact hre
    · exact (hall.mono fun he => Object.linksIn_of_withoutLinks hk he).linked (hs.linked k)

end Db
end LambdaMoo
