import LambdaMoo.StoreLinks
import LambdaMoo.SlotChanges

/-! Giving an object another number: every link to the old one is found and changed. -/
namespace LambdaMoo

namespace Object

def body (o : Object) : Object := { (o.withoutLinks .family).withoutLinks .place with id := 0 }

def withOwners (old new : Objid) (o : Object) : Object :=
  { o with
    owner := renumberedOwner old new o.owner
    verbdefs := o.verbdefs.map fun v => { v with owner := renumberedOwner old new v.owner }
    propval := o.propval.map fun p => { p with owner := renumberedOwner old new p.owner } }

def shape (o : Object) : (Hier → Objid × Objid × Objid × Objid) × List Propdef × List Nat :=
  (fun h => o.linksIn h, o.propdefs, o.propval.map Pval.tag)

@[simp] theorem shape_withOwners {old new : Objid} {o : Object} : (o.withOwners old new).shape = o.shape := by
  have hlinks : (fun h => (o.withOwners old new).linksIn h) = fun h => o.linksIn h := by
    funext h
    cases h <;> rfl
  rw [shape, shape, hlinks, withOwners, List.map_map]
  rfl

end Object

namespace Db

variable {db db' : Db} {h : Hier} {old new : Objid} {o : Object}

def renumbered (old new : Objid) : Objid → Objid := Function.update id old new

@[simp] theorem renumbered_old : renumbered old new old = new := by simp [renumbered]

theorem renumbered_ne {z : Objid} (hz : z ≠ old) : renumbered old new z = z := by
  simp [renumbered, Function.update_of_ne hz]

theorem foldlM_modify (f : Object → Object) (l : List Objid) (hl : l.Nodup)
    (hsub : ∀ z ∈ l, z ∈ db.dom) :
    ∃ db', l.foldlM (fun db oid => db.modify f oid) db = some db' ∧
      db' = { db with objects := db'.objects } ∧
      (∀ z ∈ l, db'.objects z = (db.objects z).map f) ∧ ∀ z ∉ l, db'.objects z = db.objects z := by
  induction l generalizing db with
  | nil => exact ⟨db, rfl, rfl, by simp, by simp⟩
  | cons c cs ih =>
      obtain ⟨hc, hcs⟩ := List.nodup_cons.mp hl
      obtain ⟨o, ho⟩ := mem_dom.mp (hsub c (by simp))
      have hdom : (db.set c (f o)).dom = db.dom := (Agree.set (f := fun _ => ()) ho rfl).dom
      obtain ⟨db', hdb', hrest, hin, hout⟩ := ih hcs
        (show ∀ z ∈ cs, z ∈ (db.set c (f o)).dom from fun z hz => hdom ▸ hsub z (by simp [hz]))
      refine ⟨db', ?_, ?_, fun z hz => ?_, fun z hz => ?_⟩
      · rw [List.foldlM_cons, modify_of f ho]
        exact hdb'
      · rw [hrest]
        rfl
      · obtain rfl | hz := List.mem_cons.mp hz
        · rw [hout z hc, set_objects, Function.update_self, ho]
          rfl
        · have hzc : z ≠ c := fun heq => hc (heq ▸ hz)
          rw [hin z hz, set_objects, Function.update_of_ne hzc]
      · rw [List.mem_cons, not_or] at hz
        rw [hout z hz.2, set_objects, Function.update_of_ne hz.1]

theorem replaceNext_eq {next : Objid → Objid} {lid p : Objid} {as bs : List Objid}
    (hp : db.objects p = some o) (hl : Chain next nothing lid (as ++ p :: old :: bs))
    (hnext : ∀ z ∈ as ++ [p], z ∈ db.dom ∧ db.nextOf h z = next z) {fuel : Nat}
    (hfuel : as.length < fuel) :
    replaceNext h old new db fuel lid = some (db.set p (o.setNextIn new h)) := by
  have hnodup := hl.nodup
  induction as generalizing lid fuel with
  | nil =>
      obtain ⟨n, rfl⟩ := Nat.exists_eq_succ_of_ne_zero (Nat.ne_zero_of_lt hfuel)
      obtain ⟨rfl, hne, hx⟩ := Chain.cons_iff.mp hl
      have hlink := (hnext lid (by simp)).2
      rw [(Chain.cons_iff.mp hx).1, nextOf_of hp] at hlink
      simp [replaceNext, hp, hlink]
  | cons c cs ih =>
      obtain ⟨n, rfl⟩ := Nat.exists_eq_succ_of_ne_zero (Nat.ne_zero_of_lt hfuel)
      obtain ⟨rfl, hne, hcs⟩ := Chain.cons_iff.mp hl
      rw [List.cons_append, List.nodup_cons] at hnodup
      obtain ⟨hld, hlink⟩ := hnext lid (by simp)
      obtain ⟨oc, hoc⟩ := mem_dom.mp hld
      rw [nextOf_of hoc] at hlink
      rw [← hlink] at hcs
      have hhead : oc.nextIn h ≠ old ∧ oc.nextIn h ≠ nothing := by
        cases cs with
        | nil =>
            obtain ⟨hp', hpn, -⟩ := Chain.cons_iff.mp hcs
            rw [hp']
            refine ⟨?_, hpn⟩
            rintro rfl
            simp at hnodup
        | cons d ds =>
            obtain ⟨hd, hdn, -⟩ := Chain.cons_iff.mp hcs
            rw [hd]
            refine ⟨?_, hdn⟩
            rintro rfl
            simp at hnodup
      simp only [replaceNext, hoc, Option.bind_eq_bind, Option.bind_some, hhead.1, hhead.2, if_false]
      exact ih hcs (fun z hz => hnext z (by simp [hz])) (by simpa using hfuel) hnodup.2

/-- A table in which an object has its new number already, and in which nothing else has
happened to the links of a hierarchy. -/
structure Relocated (S : Set Objid) (up head next : Objid → Objid) (h : Hier) (old new : Objid)
    (db : Db) : Prop where
  hier : Hierarchy S nothing up head next
  old_mem : old ∈ S
  new_notMem : new ∉ S
  dom : db.dom = renumbered old new '' S
  up_eq : ∀ z ∈ S, db.upOf h (renumbered old new z) = up z
  head_eq : ∀ z ∈ S, db.headOf h (renumbered old new z) = head z
  next_eq : ∀ z ∈ S, db.nextOf h (renumbered old new z) = next z
  fuel : ∀ l : List Objid, l.Nodup → (∀ z ∈ l, z ∈ S) → l.length < db.fuel

section Relocated

variable {S : Set Objid} {up head next : Objid → Objid} (m : Relocated S up head next h old new db)
include m

theorem Relocated.keep {z : Objid} (hz : z ∈ S) (hne : z ≠ old) :
    z ∈ db.dom ∧ db.headOf h z = head z ∧ db.nextOf h z = next z := by
  have hh := m.head_eq z hz
  have hn := m.next_eq z hz
  rw [renumbered_ne hne] at hh hn
  exact ⟨m.dom ▸ ⟨z, hz, renumbered_ne hne⟩, hh, hn⟩

theorem Relocated.up_old_ne : up old ≠ old := fun heq =>
  m.hier.acyclic m.old_mem (.single ⟨m.old_mem, heq⟩)

theorem Relocated.head_eq_old {z : Objid} (hz : z ∈ S) (heq : head z = old) : up old = z := by
  have := (m.hier.head_mem hz (heq ▸ m.hier.ne_nil m.old_mem)).2
  rwa [heq] at this

theorem Relocated.next_eq_old {z : Objid} (hz : z ∈ S) (hu : up z ∈ S) (heq : next z = old) :
    up old = up z := by
  have := (m.hier.next_mem hz hu (heq ▸ m.hier.ne_nil m.old_mem)).2
  rwa [heq] at this

theorem Relocated.replaceMember : ∃ db₁,
    (if up old ≠ nothing then db.replaceMember h old new (up old) else some db) = some db₁ ∧
    Agree (fun o => (o.withoutLinks h, o.up h)) db db₁ ∧
    (∀ z ∈ S, db₁.headOf h (renumbered old new z) = renumbered old new (head z)) ∧
    (∀ z ∈ S, up z ∈ S → db₁.nextOf h (renumbered old new z) = renumbered old new (next z)) ∧
    ∀ z ∈ S, up z ≠ up old → db₁.nextOf h (renumbered old new z) = next z := by
  by_cases hroot : up old = nothing
  · refine ⟨db, by simp [hroot], .refl _ _, fun z hz => ?_, fun z hz hu => ?_, fun z hz _ => m.next_eq z hz⟩
    · rw [m.head_eq z hz]
      exact (renumbered_ne fun heq => m.hier.ne_nil hz (m.head_eq_old hz heq ▸ hroot)).symm
    · rw [m.next_eq z hz]
      exact (renumbered_ne fun heq => m.hier.ne_nil hu (m.next_eq_old hz hu heq ▸ hroot)).symm
  · have hw : up old ∈ S := (m.hier.up_mem m.old_mem).resolve_left hroot
    obtain ⟨hwd, hwhead, -⟩ := m.keep hw m.up_old_ne
    obtain ⟨ow, how⟩ := mem_dom.mp hwd
    rw [headOf_of how] at hwhead
    by_cases hfirst : head (up old) = old
    · have hnext : (db.set (up old) (ow.setHead new h)).nextOf h = db.nextOf h := by
        rw [nextOf_set, Object.nextIn_setHead, ← nextOf_of (h := h) how, Function.update_eq_self]
      refine ⟨db.set (up old) (ow.setHead new h), ?_, Agree.set how (by simp [Object.withoutLinks]),
        fun z hz => ?_, fun z hz hu => ?_, fun z hz _ => by rw [hnext, m.next_eq z hz]⟩
      · simp [hroot, Db.replaceMember, how, hwhead, hfirst]
      · rw [headOf_set, Object.head_setHead]
        obtain rfl | hzw := eq_or_ne z (up old)
        · rw [renumbered_ne m.up_old_ne, Function.update_self, hfirst, renumbered_old]
        · rw [Function.update_of_ne, m.head_eq z hz]
          · exact (renumbered_ne fun heq => hzw (m.head_eq_old hz heq).symm).symm
          · obtain rfl | hzo := eq_or_ne z old
            · rw [renumbered_old]
              exact fun heq => m.new_notMem (heq ▸ hw)
            · rwa [renumbered_ne hzo]
      · rw [hnext, m.next_eq z hz]
        refine (renumbered_ne fun heq => ?_).symm
        exact m.hier.head_ne_next hw hz hu (heq ▸ m.hier.ne_nil m.old_mem) (hfirst.trans heq.symm)
    · obtain ⟨l, hl, hm⟩ := m.hier.members (up old) hw
      have hsub : ∀ z ∈ l, z ∈ S := fun z hz => ((hm z).mp hz).1
      obtain ⟨as, p, bs, rfl⟩ : ∃ as p bs, l = as ++ p :: old :: bs := by
        have hmem : old ∈ l := (hm old).mpr ⟨m.old_mem, rfl⟩
        cases l with
        | nil => cases hmem
        | cons a l => exact exists_before hmem ((Chain.cons_iff.mp hl).1 ▸ hfirst)
      have hne : ∀ z ∈ as ++ [p], z ≠ old := by
        have hnodup := hl.nodup
        rw [List.append_cons, List.nodup_append] at hnodup
        exact fun z hz heq => hnodup.2.2 z hz old (by simp) heq
      have hpS : p ∈ S := hsub p (by simp)
      have hpu : up p = up old := ((hm p).mp (by simp)).2
      have hpo := hne p (by simp)
      have hpold := hl.next_eq
      obtain ⟨op, hop⟩ := mem_dom.mp (m.keep hpS hpo).1
      have hlen := m.fuel _ hl.nodup hsub
      rw [List.length_append] at hlen
      have hrep : replaceNext h old new db db.fuel (head (up old)) = some (db.set p (op.setNextIn new h)) := by
        refine replaceNext_eq hop hl (fun z hz => ?_) (by omega)
        have hzS := hsub z (by
          simp only [List.mem_append, List.mem_cons, List.not_mem_nil, or_false] at hz ⊢
          tauto)
        obtain ⟨hzd, -, hzn⟩ := m.keep hzS (hne z hz)
        exact ⟨hzd, hzn⟩
      have hwne : head (up old) ≠ nothing := by
        intro hnil
        rw [hnil] at hl
        have := hl.unique .nil
        simp at this
      have hhead : (db.set p (op.setNextIn new h)).headOf h = db.headOf h := by
        rw [headOf_set, Object.head_setNextIn, ← headOf_of (h := h) hop, Function.update_eq_self]
      have hnext : ∀ z ∈ S, z ≠ p →
          (db.set p (op.setNextIn new h)).nextOf h (renumbered old new z) = next z := by
        intro z hz hzp
        rw [nextOf_set, Function.update_of_ne, m.next_eq z hz]
        obtain rfl | hzo := eq_or_ne z old
        · rw [renumbered_old]
          exact fun heq => m.new_notMem (heq ▸ hpS)
        · rwa [renumbered_ne hzo]
      refine ⟨db.set p (op.setNextIn new h), ?_, Agree.set hop (by simp [Object.withoutLinks]),
        fun z hz => ?_, fun z hz hu => ?_, fun z hz hu => hnext z hz fun heq => hu (heq ▸ hpu)⟩
      · simp only [hroot, ne_eq, not_false_eq_true, if_true, Db.replaceMember, how,
          Option.bind_eq_bind, Option.bind_some, hwhead, hfirst, hwne, if_false]
        exact hrep
      · rw [hhead, m.head_eq z hz]
        refine (renumbered_ne fun heq => ?_).symm
        exact m.hier.head_ne_next hz hpS (hpu ▸ hw) (hpold ▸ m.hier.ne_nil m.old_mem)
          (heq.trans hpold.symm)
      · obtain rfl | hzp := eq_or_ne z p
        · rw [renumbered_ne hpo, nextOf_set, Function.update_self, hpold, renumbered_old,
            Object.nextIn_setNextIn]
        · rw [hnext z hz hzp]
          refine (renumbered_ne fun heq => hzp ?_).symm
          exact m.hier.next_inj hz hpS hu (hpu ▸ hw) (heq.trans hpold.symm)
            (heq ▸ m.hier.ne_nil m.old_mem)

theorem Relocated.renumberLinks : ∃ db', db.renumberLinks h old new = some db' ∧
    Agree (Object.withoutLinks h) db db' ∧
    (∀ z ∈ S, db'.upOf h (renumbered old new z) = renumbered old new (up z)) ∧
    (∀ z ∈ S, db'.headOf h (renumbered old new z) = renumbered old new (head z)) ∧
    (∀ z ∈ S, up z ∈ S → db'.nextOf h (renumbered old new z) = renumbered old new (next z)) ∧
    ∀ z ∈ S, up z = nothing → db'.nextOf h (renumbered old new z) = next z := by
  obtain ⟨on, hon⟩ : ∃ on, db.objects new = some on :=
    mem_dom.mp (m.dom ▸ ⟨old, m.old_mem, renumbered_old⟩)
  have hon_up : on.up h = up old := by
    have := m.up_eq old m.old_mem
    rwa [renumbered_old, upOf_of hon] at this
  have hon_head : on.head h = head old := by
    have := m.head_eq old m.old_mem
    rwa [renumbered_old, headOf_of hon] at this
  obtain ⟨kids, hkids, hkidsm⟩ := m.hier.members old m.old_mem
  have hkidsS : ∀ z ∈ kids, z ∈ S ∧ z ≠ old ∧ up z = old := fun z hz => by
    obtain ⟨hzS, hzu⟩ := (hkidsm z).mp hz
    refine ⟨hzS, ?_, hzu⟩
    rintro rfl
    exact m.up_old_ne hzu
  obtain ⟨db₁, hdb₁, ha₁, hhead₁, hnext₁, hkeep₁⟩ := m.replaceMember
  have hkids₁ : Chain (db₁.nextOf h) nothing (head old) kids := hkids.congr fun z hz => by
    obtain ⟨hzS, hzo, hzu⟩ := hkidsS z hz
    have := hkeep₁ z hzS (by rw [hzu]; exact m.up_old_ne.symm)
    rwa [renumbered_ne hzo] at this
  have hkidsd : ∀ z ∈ kids, z ∈ db₁.dom := fun z hz => by
    obtain ⟨hzS, hzo, -⟩ := hkidsS z hz
    rw [ha₁.dom]
    exact (m.keep hzS hzo).1
  have hlist : db₁.listFrom h db₁.fuel (on.head h) = some kids := by
    rw [hon_head, ha₁.fuel]
    exact listFrom_eq hkids₁ hkidsd (m.fuel kids hkids.nodup fun z hz => (hkidsS z hz).1)
  obtain ⟨db₂, hdb₂, hrest₂, hin₂, hout₂⟩ := foldlM_modify (fun o => o.setUp new h) kids hkids.nodup hkidsd
  have ha₂ : Agree (fun o => (o.withoutLinks h, o.head h, o.nextIn h)) db₁ db₂ := by
    refine ⟨hrest₂, fun i => ?_⟩
    by_cases hi : i ∈ kids
    · rw [hin₂ i hi, Option.map_map]
      congr 1
      funext o
      cases h <;> rfl
    · rw [hout₂ i hi]
  have hnext₂ : ∀ z, db₂.nextOf h z = db₁.nextOf h z :=
    (ha₂.mono (g := Object.nextIn h) fun he => congrArg (·.2.2) he).elim nothing
  refine ⟨db₂, ?_, ?_, fun z hz => ?_, fun z hz => ?_, fun z hz huz => ?_, fun z hz huz => ?_⟩
  · unfold Db.renumberLinks
    simp only [hon, Option.bind_eq_bind, Option.bind_some]
    have hfin : (db₁.listFrom h db₁.fuel (on.head h)).bind
        (fun members => members.foldlM (fun db oid => db.modify (fun o => o.setUp new h) oid) db₁) =
        some db₂ := by
      rw [hlist]
      exact hdb₂
    rw [← hfin, hon_up]
    by_cases hroot : up old = nothing
    · simp only [hroot, ne_eq, not_true_eq_false, if_false, Option.some.injEq] at hdb₁ ⊢
      rw [hdb₁]
    · simp only [hroot, ne_eq, not_false_eq_true, if_true] at hdb₁ ⊢
      rw [hdb₁]
      rfl
  · have ha₁' : Agree (Object.withoutLinks h) db db₁ := ha₁.mono fun he => congrArg Prod.fst he
    exact ha₁'.trans (ha₂.mono fun he => congrArg Prod.fst he)
  · have hup₁ : db₁.upOf h (renumbered old new z) = up z := by
      rw [← m.up_eq z hz]
      exact (ha₁.mono (g := Object.up h) fun he => congrArg Prod.snd he).elim nothing _
    by_cases hzk : z ∈ kids
    · obtain ⟨hzS, hzo, hzu⟩ := hkidsS z hzk
      obtain ⟨oz, hoz⟩ := mem_dom.mp (hkidsd z hzk)
      rw [renumbered_ne hzo, upOf, hin₂ z hzk, hoz, hzu, renumbered_old]
      simp
    · have hne : up z ≠ old := fun heq => hzk ((hkidsm z).mpr ⟨hz, heq⟩)
      have hout : renumbered old new z ∉ kids := by
        obtain rfl | hzo := eq_or_ne z old
        · rw [renumbered_old]
          exact fun hmem => m.new_notMem (hkidsS new hmem).1
        · rwa [renumbered_ne hzo]
      rw [upOf, hout₂ _ hout]
      change db₁.upOf h _ = _
      rw [hup₁, renumbered_ne hne]
  · rw [← hhead₁ z hz]
    exact (ha₂.mono (g := Object.head h) fun he => congrArg (·.2.1) he).elim nothing _
  · rw [← hnext₁ z hz huz, hnext₂]
  · rw [hnext₂]
    by_cases hroot : up old = nothing
    · simp only [hroot, ne_eq, not_true_eq_false, if_false, Option.some.injEq] at hdb₁
      rw [← hdb₁, m.next_eq z hz]
    · exact hkeep₁ z hz fun heq => hroot (heq ▸ huz)

end Relocated

/-! The owners. -/

theorem Agree.allDefs_shape (ha : Agree Object.shape db db') : db'.allDefs = db.allDefs := by
  have hchain : db'.chain .family = db.chain .family := Agree.chain (ha.mono fun he =>
    congrArg (fun s => (s.1 .family).2.1) he)
  have hdefs : db'.defsOf = db.defsOf := by
    funext i
    exact (ha.mono (g := Object.propdefs) fun he => congrArg (fun s => s.2.1) he).elim [] i
  funext i
  rw [Db.allDefs, Db.allDefs, hchain, hdefs]

theorem Sound.of_shape (hs : Sound db) (ha : Agree Object.shape db db') : Sound db' :=
  hs.of_agree (ha.mono fun he => congrArg Prod.fst he)

theorem renumberOwners_eq (old new : Objid) (hs : Sound db) (ho : db.objects o.id = some o)
    (hlen : o.propval.length = (db.allDefs o.id).length) :
    db.renumberOwners old new o.id = some (db.set o.id (o.withOwners old new)) := by
  simp only [renumberOwners, ho, hs.countProperties_eq (.inr (mem_dom_of ho)), Option.bind_eq_bind,
    Option.bind_some, ← hlen, copySlots_eq (Nat.le_of_eq (Nat.zero_add _)), List.drop_zero,
    List.take_length, List.drop_length, List.append_nil]
  rfl

theorem foldlM_renumberOwners (old new : Objid) (hs : Sound db)
    (hlen : ∀ i o, db.objects i = some o → o.propval.length = (db.allDefs i).length) (l : List Objid)
    (hl : l.Nodup) {c : Db} (ha : Agree Object.shape db c) (hc : ∀ i ∈ l, c.objects i = db.objects i) :
    ∃ db', l.foldlM (renumberOwners old new) c = some db' ∧ Agree Object.shape db db' ∧
      (∀ i ∈ l, db'.objects i = (db.objects i).map (Object.withOwners old new)) ∧
      ∀ i ∉ l, db'.objects i = c.objects i := by
  induction l generalizing c with
  | nil => exact ⟨c, rfl, ha, by simp, fun _ _ => rfl⟩
  | cons i is ih =>
      obtain ⟨hi, his⟩ := List.nodup_cons.mp hl
      have hci := hc i (by simp)
      obtain ⟨c', hc', hac', hself, hother⟩ : ∃ c', c.renumberOwners old new i = some c' ∧
          Agree Object.shape db c' ∧ c'.objects i = (db.objects i).map (Object.withOwners old new) ∧
          ∀ j, j ≠ i → c'.objects j = c.objects j := by
        cases ho : db.objects i with
        | none =>
            rw [ho] at hci
            exact ⟨c, by simp [renumberOwners, hci], ha, hci, fun _ _ => rfl⟩
        | some o =>
            rw [ho] at hci
            have hid := (hs.ids ho).1
            have heq := renumberOwners_eq old new (hs.of_shape ha) (hid ▸ hci) (by
              rw [ha.allDefs_shape, hid]
              exact hlen i o ho)
            rw [hid] at heq
            refine ⟨_, heq, ha.trans (Agree.set hci Object.shape_withOwners), ?_, fun j hj => ?_⟩
            · rw [set_objects, Function.update_self]
              rfl
            · rw [set_objects, Function.update_of_ne hj]
      obtain ⟨db', hdb', ha', hin', hout'⟩ := ih his hac' (fun j hj => by
        rw [hother j fun heq => hi (heq ▸ hj)]
        exact hc j (by simp [hj]))
      refine ⟨db', ?_, ha', fun j hj => ?_, fun j hj => ?_⟩
      · rw [List.foldlM_cons, hc']
        exact hdb'
      · obtain rfl | hj := List.mem_cons.mp hj
        · rw [hout' j hi, hself]
        · exact hin' j hj
      · rw [List.mem_cons, not_or] at hj
        rw [hout' j hj.2, hother j hj.1]

structure Renumbered (db : Db) (old new : Objid) (db' : Db) : Prop where
  vcTable : db'.vcTable = fun _ => []
  nextTag : db'.nextTag = db.nextTag
  dom : db'.dom = renumbered old new '' db.dom
  up : ∀ h, ∀ z ∈ db.dom, db'.upOf h (renumbered old new z) = renumbered old new (db.upOf h z)
  body : ∀ z ∈ db.dom, (db'.objects (renumbered old new z)).map Object.body =
    (db.objects z).map fun o => (o.withOwners old new).body

/-- What else it carries over: the lists, and who the users are. An object that hangs under no
other is on no list, and keeps the link to a next one as it is. -/
structure Carried (db : Db) (old new : Objid) (db' : Db) : Prop where
  head : ∀ h, ∀ z ∈ db.dom, db'.headOf h (renumbered old new z) = renumbered old new (db.headOf h z)
  next : ∀ h, ∀ z ∈ db.dom, db.upOf h z ∈ db.dom →
    db'.nextOf h (renumbered old new z) = renumbered old new (db.nextOf h z)
  loose : ∀ h, ∀ z ∈ db.dom, db.upOf h z = nothing →
    db'.nextOf h (renumbered old new z) = db.nextOf h z
  users : db'.allUsers =
    if (db.objects old).elim false (fun o => o.flags .user) then db.allUsers.replace old new
    else db.allUsers

namespace Renumbered

variable (hs : Sound db) (hs' : Sound db') (r : Renumbered db old new db')
include hs hs' r

theorem chain (hold : old ∈ db.dom) {z : Objid} (hz : z = nothing ∨ z ∈ db.dom) :
    db'.chain h (renumbered old new z) = (db.chain h z).map (renumbered old new) := by
  have hnil : renumbered old new nothing = nothing := renumbered_ne (hs.ne_nothing hold).symm
  have hz' : renumbered old new z = nothing ∨ renumbered old new z ∈ db'.dom := by
    obtain rfl | hz := hz
    · exact .inl hnil
    · exact .inr (r.dom ▸ ⟨z, hz, rfl⟩)
  obtain ⟨hc, hsub⟩ := hs.chain_spec (h := h) hz
  refine hs'.chain_eq hz' (hc.map hnil (fun x hx => ?_) fun x hx => r.up h x (hsub x hx))
  exact hs'.ne_nothing (r.dom ▸ ⟨x, hsub x hx, rfl⟩)

omit hs hs' in
theorem observe {β : Type} (f : Object → β) (d : β) (hf : ∀ {o o' : Object}, o'.body = (o.withOwners old new).body → f o' = f o)
    {z : Objid} (hz : z ∈ db.dom) :
    (db'.objects (renumbered old new z)).elim d f = (db.objects z).elim d f := by
  obtain ⟨o, ho⟩ := mem_dom.mp hz
  have hb := r.body z hz
  rw [ho, Option.map_some, Option.map_eq_some_iff] at hb
  obtain ⟨o', ho', he⟩ := hb
  rw [ho, ho']
  exact hf he

omit hs hs' in
theorem defsOf {z : Objid} (hz : z ∈ db.dom) :
    db'.defsOf (renumbered old new z) = db.defsOf z :=
  r.observe Object.propdefs [] (fun he => by
    have := congrArg Object.propdefs he
    exact this) hz

omit hs hs' in
theorem slotsOf {z : Objid} (hz : z ∈ db.dom) :
    db'.slotsOf (renumbered old new z) =
      (db.slotsOf z).map fun p => { p with owner := renumberedOwner old new p.owner } := by
  obtain ⟨o, ho⟩ := mem_dom.mp hz
  have hb := r.body z hz
  rw [ho, Option.map_some, Option.map_eq_some_iff] at hb
  obtain ⟨o', ho', he⟩ := hb
  have hpv := congrArg Object.propval he
  rw [slotsOf_of ho, slotsOf_of ho']
  exact hpv

theorem allDefs (hold : old ∈ db.dom) {z : Objid} (hz : z ∈ db.dom) :
    db'.allDefs (renumbered old new z) = db.allDefs z := by
  rw [Db.allDefs, Db.allDefs, r.chain hs hs' hold (.inr hz), List.flatMap_map]
  exact List.flatMap_congr fun x hx => r.defsOf ((hs.chain_spec (.inr hz)).2 x hx)

theorem slotted (hp : Slotted db) (hold : old ∈ db.dom) : Slotted db' := by
  -- every object of the new table was one of the old
  have hback : ∀ i, (∃ z ∈ db.dom, i = renumbered old new z) ∨ i ∉ db'.dom := by
    intro i
    by_cases hi : i ∈ db'.dom
    · obtain ⟨z, hz, rfl⟩ := r.dom ▸ hi
      exact .inl ⟨z, hz, rfl⟩
    · exact .inr hi
  have hdefs : ∀ i, (∃ z ∈ db.dom, i = renumbered old new z ∧ db'.defsOf i = db.defsOf z) ∨
      db'.defsOf i = [] := by
    intro i
    obtain ⟨z, hz, rfl⟩ | hi := hback i
    · exact .inl ⟨z, hz, rfl, r.defsOf hz⟩
    · exact .inr (defsOf_nothing hi)
  refine ⟨⟨fun i d hd => ?_, fun i => ?_, fun i j d hd d' hd' heq => ?_, fun i d hd => ?_,
    fun i hi => ?_, fun i d hd => ?_⟩, fun i hi => ?_, fun i => ?_⟩
  · obtain ⟨z, -, -, hz⟩ | hi := hdefs i
    · rw [r.nextTag]
      exact hp.tag_lt z d (hz ▸ hd)
    · simp [hi] at hd
  · obtain ⟨z, -, -, hz⟩ | hi := hdefs i
    · rw [hz]
      exact hp.tag_nodup z
    · simp [hi]
  · obtain ⟨z, -, rfl, hz⟩ | hi := hdefs i
    · obtain ⟨y, -, rfl, hy⟩ | hj := hdefs j
      · rw [hp.tag_inj z y d (hz ▸ hd) d' (hy ▸ hd') heq]
      · simp [hj] at hd'
    · simp [hi] at hd
  · obtain ⟨z, -, -, hz⟩ | hi := hdefs i
    · exact hp.terminated z d (hz ▸ hd)
    · simp [hi] at hd
  · obtain ⟨z, hz, rfl⟩ := r.dom ▸ hi
    rw [r.allDefs hs hs' hold hz]
    exact hp.names z hz
  · obtain ⟨z, -, -, hz⟩ | hi := hdefs i
    · exact hp.reserved z d (hz ▸ hd)
    · simp [hi] at hd
  · obtain ⟨z, hz, rfl⟩ := r.dom ▸ hi
    rw [r.allDefs hs hs' hold hz, r.slotsOf hz, ← hp.tags z hz, List.map_map]
    rfl
  · obtain ⟨z, hz, rfl⟩ | hi := hback i
    · rw [r.defsOf hz, r.slotsOf hz, ← List.map_take]
      intro p hpm
      obtain ⟨q, hq, rfl⟩ := List.mem_map.mp hpm
      exact hp.notClear z q hq
    · simp [slotsOf_nothing hi]

end Renumbered

/-! Overwriting the list of the users where it stands. -/

@[simp] theorem shape_withUsers {users users' : List Objid} {here : Nat → List Nat → Bool} {o : Object} :
    (o.withUsers users users' here).shape = o.shape := by
  have hlinks : (fun h => (o.withUsers users users' here).linksIn h) = fun h => o.linksIn h := by
    funext h
    cases h <;> rfl
  have htags : (o.withUsers users users' here).propval.map Pval.tag = o.propval.map Pval.tag := by
    refine List.ext_getElem? fun n => ?_
    rw [Object.withUsers, List.getElem?_map, List.getElem?_map, List.getElem?_mapIdx, Option.map_map]
    rfl
  rw [Object.shape, Object.shape, hlinks, htags]
  rfl

theorem withOwners_withUsers {users users' : List Objid} {here : Nat → List Nat → Bool} {o : Object} :
    (o.withUsers users users' here).withOwners old new = (o.withOwners old new).withUsers users users' here := by
  have hslots : (o.withUsers users users' here).propval.map
        (fun p => { p with owner := renumberedOwner old new p.owner }) =
      ((o.withOwners old new).withUsers users users' here).propval := by
    refine List.ext_getElem? fun n => ?_
    unfold Object.withOwners Object.withUsers
    dsimp only
    rw [List.getElem?_map, List.getElem?_mapIdx, List.getElem?_mapIdx, List.getElem?_map, Option.map_map,
      Option.map_map]
    rfl
  unfold Object.withOwners
  rw [hslots]
  rfl

theorem withUsers_agree {β : Type} {f : Object → β} {users users' : List Objid} {shared : Sharing} (db : Db)
    (hf : ∀ o here, f (Object.withUsers users users' here o) = f o) :
    Agree f db (db.withUsers users users' shared) := by
  refine ⟨rfl, fun i => ?_⟩
  rw [Db.withUsers, Option.map_map]
  exact congrArg (fun g => (db.objects i).map g) (funext fun o => hf o _)

/-! `db_set_object_number`, phase by phase. -/

/-- What it is given: `dp` is the table, and `db` may have room for one object less, the one that gets its
number here. -/
structure Renumberable (dp db : Db) (old new : Objid) : Prop where
  sound : Sound dp
  slotted : Slotted dp
  objects : db.objects = dp.objects
  nextTag : db.nextTag = dp.nextTag
  numObjects : db.numObjects = dp.numObjects ∨ db.numObjects + 1 = dp.numObjects ∧ old = db.numObjects
  old_mem : old ∈ dp.dom
  new_notMem : new ∉ dp.dom
  nonneg : 0 ≤ new
  lt : new < db.numObjects

/-- The object has its number, and no link knows of it. -/
structure Rekeyed (dp db : Db) (old new : Objid) (db' : Db) : Prop where
  rest : db' = { db with vcTable := fun _ => [], objects := db'.objects }
  objects : ∀ z ∈ dp.dom, db'.objects (renumbered old new z) =
    (dp.objects z).map fun o => { o with id := renumbered old new z }
  dom : db'.dom = renumbered old new '' dp.dom

structure Relinked (dp db : Db) (old new : Objid) (db' : Db) : Prop where
  rest : db' = { db with vcTable := fun _ => [], objects := db'.objects }
  dom : db'.dom = renumbered old new '' dp.dom
  up : ∀ h, ∀ z ∈ dp.dom, db'.upOf h (renumbered old new z) = renumbered old new (dp.upOf h z)
  head : ∀ h, ∀ z ∈ dp.dom, db'.headOf h (renumbered old new z) = renumbered old new (dp.headOf h z)
  next : ∀ h, ∀ z ∈ dp.dom, dp.upOf h z ∈ dp.dom →
    db'.nextOf h (renumbered old new z) = renumbered old new (dp.nextOf h z)
  loose : ∀ h, ∀ z ∈ dp.dom, dp.upOf h z = nothing → db'.nextOf h (renumbered old new z) = dp.nextOf h z
  body : ∀ z ∈ dp.dom, ∃ o o', dp.objects z = some o ∧ db'.objects (renumbered old new z) = some o' ∧
    o'.id = renumbered old new z ∧ o'.body = o.body

namespace Renumberable

variable {dp : Db} (g : Renumberable dp db old new)
include g

theorem ne : new ≠ old := by
  rintro rfl
  exact g.new_notMem g.old_mem

theorem ne_nothing : new ≠ nothing := by
  have := g.nonneg
  unfold nothing
  lia

theorem rekeyed (ho : dp.objects old = some o) : ∃ db',
    ({ db.affectedCallableVerbLookup with
        objects := Function.update (Function.update db.objects new (some o)) old none } : Db).modify
      (fun o => { o with id := new }) new = some db' ∧ Rekeyed dp db old new db' := by
  set obs := Function.update (Function.update db.objects new (some o)) old none with hobs
  have hon : obs new = some o := by rw [hobs, Function.update_of_ne g.ne, Function.update_self]
  refine ⟨_, modify_of _ hon, rfl, fun z hz => ?_, ?_⟩
  · rw [set_objects]
    obtain rfl | hzo := eq_or_ne z old
    · rw [renumbered_old, Function.update_self, ho]
      rfl
    · have hzn : z ≠ new := fun heq => g.new_notMem (heq ▸ hz)
      obtain ⟨oz, hoz⟩ := mem_dom.mp hz
      have hid := (g.sound.ids hoz).1
      rw [renumbered_ne hzo, Function.update_of_ne hzn, hobs]
      dsimp only
      rw [Function.update_of_ne hzo, Function.update_of_ne hzn, g.objects, hoz, Option.map_some, ← hid]
  · ext z
    change (Db.objects _ z).isSome = true ↔ _
    rw [set_objects]
    constructor
    · intro hz
      obtain rfl | hzn := eq_or_ne z new
      · exact ⟨old, g.old_mem, renumbered_old⟩
      · rw [Function.update_of_ne hzn, hobs] at hz
        obtain rfl | hzo := eq_or_ne z old
        · simp at hz
        · dsimp only at hz
          rw [Function.update_of_ne hzo, Function.update_of_ne hzn, g.objects] at hz
          exact ⟨z, hz, renumbered_ne hzo⟩
    · rintro ⟨y, hy, rfl⟩
      obtain rfl | hyo := eq_or_ne y old
      · rw [renumbered_old, Function.update_self]
        rfl
      · have hyn : y ≠ new := fun heq => g.new_notMem (heq ▸ hy)
        rw [renumbered_ne hyo, Function.update_of_ne hyn, hobs]
        dsimp only
        rw [Function.update_of_ne hyo, Function.update_of_ne hyn, g.objects]
        exact hy

theorem length_lt {db' : Db} (hnum : db'.numObjects = db.numObjects) (l : List Objid) (hl : l.Nodup)
    (hsub : ∀ z ∈ l, z ∈ dp.dom) : l.length < db'.fuel := by
  have := g.sound.length_le hl hsub
  have hn := g.sound.numObjects_nonneg
  unfold fuel
  rw [hnum]
  obtain hnum | ⟨hnum, -⟩ := g.numObjects <;> lia

end Renumberable

theorem Rekeyed.relocated {dp db₀ : Db} (k : Rekeyed dp db old new db₀) (g : Renumberable dp db old new) (h : Hier) :
    Relocated dp.dom (dp.upOf h) (dp.headOf h) (dp.nextOf h) h old new db₀ := by
  have helim {β : Type} (f : Object → β) (d : β) (hf : ∀ (o : Object) i, f { o with id := i } = f o)
      (z : Objid) (hz : z ∈ dp.dom) :
      (db₀.objects (renumbered old new z)).elim d f = (dp.objects z).elim d f := by
    obtain ⟨o, ho⟩ := mem_dom.mp hz
    rw [k.objects z hz, ho]
    exact hf o _
  refine ⟨g.sound.linked h, g.old_mem, g.new_notMem, k.dom, fun z hz => helim _ _ (fun _ _ => by cases h <;> rfl) z hz,
    fun z hz => helim _ _ (fun _ _ => by cases h <;> rfl) z hz,
    fun z hz => helim _ _ (fun _ _ => by cases h <;> rfl) z hz, g.length_lt ?_⟩
  rw [k.rest]

theorem Rekeyed.relinked {dp db₀ : Db} (k : Rekeyed dp db old new db₀) (g : Renumberable dp db old new) :
    ∃ db₁ db₂, db₀.renumberLinks .family old new = some db₁ ∧ db₁.renumberLinks .place old new = some db₂ ∧
      Relinked dp db old new db₂ := by
  have m := k.relocated g
  obtain ⟨db₁, hdb₁, ha₁, hup₁, hhead₁, hnext₁, hloose₁⟩ := (m .family).renumberLinks
  have hl₁ : Agree (fun o => (o.up .place, o.head .place, o.nextIn .place)) db₀ db₁ :=
    ha₁.mono fun he => by
      have := Object.linksIn_of_withoutLinks (k := .place) (by decide) he
      exact congrArg Prod.snd this
  have m₁ : Relocated dp.dom (dp.upOf .place) (dp.headOf .place) (dp.nextOf .place) .place old new db₁ := by
    refine ⟨g.sound.linked _, g.old_mem, g.new_notMem, ha₁.dom.trans k.dom, fun z hz => ?_, fun z hz => ?_,
      fun z hz => ?_, fun l hl hsub => by rw [ha₁.fuel]; exact (m .place).fuel l hl hsub⟩
    · rw [← (m .place).up_eq z hz]
      exact (hl₁.mono (g := Object.up .place) fun he => congrArg (·.1) he).elim nothing _
    · rw [← (m .place).head_eq z hz]
      exact (hl₁.mono (g := Object.head .place) fun he => congrArg (·.2.1) he).elim nothing _
    · rw [← (m .place).next_eq z hz]
      exact (hl₁.mono (g := Object.nextIn .place) fun he => congrArg (·.2.2) he).elim nothing _
  obtain ⟨db₂, hdb₂, ha₂, hup₂, hhead₂, hnext₂, hloose₂⟩ := m₁.renumberLinks
  have hl₂ : Agree (fun o => (o.up .family, o.head .family, o.nextIn .family)) db₁ db₂ :=
    ha₂.mono fun he => by
      have := Object.linksIn_of_withoutLinks (k := .family) (by decide) he
      exact congrArg Prod.snd this
  have hup : ∀ i, db₂.upOf .family i = db₁.upOf .family i :=
    (hl₂.mono (g := Object.up .family) fun he => congrArg (·.1) he).elim nothing
  have hhead : ∀ i, db₂.headOf .family i = db₁.headOf .family i :=
    (hl₂.mono (g := Object.head .family) fun he => congrArg (·.2.1) he).elim nothing
  have hnext : ∀ i, db₂.nextOf .family i = db₁.nextOf .family i :=
    (hl₂.mono (g := Object.nextIn .family) fun he => congrArg (·.2.2) he).elim nothing
  refine ⟨db₁, db₂, hdb₁, hdb₂, ?_, by rw [ha₂.dom, ha₁.dom, k.dom], ?_, ?_, ?_, ?_, fun z hz => ?_⟩
  · rw [ha₂.rest, ha₁.rest, k.rest]
  · intro h z hz
    cases h with
    | family => exact (hup _).trans (hup₁ z hz)
    | place => exact hup₂ z hz
  · intro h z hz
    cases h with
    | family => exact (hhead _).trans (hhead₁ z hz)
    | place => exact hhead₂ z hz
  · intro h z hz huz
    cases h with
    | family => exact (hnext _).trans (hnext₁ z hz huz)
    | place => exact hnext₂ z hz huz
  · intro h z hz huz
    cases h with
    | family => exact (hnext _).trans (hloose₁ z hz huz)
    | place => exact hloose₂ z hz huz
  · obtain ⟨o, ho⟩ := mem_dom.mp hz
    have h₀ := k.objects z hz
    rw [ho, Option.map_some] at h₀
    obtain ⟨o₁, ho₁, he₁⟩ := ha₁.of_objects h₀
    obtain ⟨o₂, ho₂, he₂⟩ := ha₂.of_objects ho₁
    refine ⟨o, o₂, ho, ho₂, ?_, ?_⟩
    · exact (Object.id_of_withoutLinks he₂).trans (Object.id_of_withoutLinks he₁)
    · have hb₂ := congrArg (fun o : Object => { o.withoutLinks .family with id := 0 }) he₂
      have hb₁ := congrArg (fun o : Object => { o.withoutLinks .place with id := 0 }) he₁
      exact hb₂.trans hb₁

namespace Relinked

variable {dp db₂ : Db} (l : Relinked dp db old new db₂) (g : Renumberable dp db old new)
include l g

theorem sound : Sound db₂ := by
  have hnum : db₂.numObjects = db.numObjects := by rw [l.rest]
  refine ⟨?_, fun {i o'} ho' => ?_, fun h => ?_⟩
  · rw [hnum]
    exact Int.le_trans g.nonneg (Int.le_of_lt g.lt)
  · obtain ⟨z, hz, rfl⟩ := l.dom ▸ mem_dom_of ho'
    obtain ⟨o, o₂, ho, ho₂, hid, -⟩ := l.body z hz
    obtain rfl := Option.some.inj (ho'.symm.trans ho₂)
    rw [hnum]
    refine ⟨hid, ?_⟩
    obtain rfl | hzo := eq_or_ne z old
    · rw [renumbered_old]
      exact ⟨g.nonneg, g.lt⟩
    · rw [renumbered_ne hzo]
      have hr := g.sound.range hz
      obtain hnum | ⟨hnum, holdn⟩ := g.numObjects
      · rwa [hnum]
      · have : z ≠ db.numObjects := holdn ▸ hzo
        exact ⟨hr.1, by lia⟩
  · unfold Linked
    rw [l.dom]
    exact (g.sound.linked h).rename g.old_mem g.new_notMem g.ne_nothing _ rfl (l.up h) (l.head h) (l.next h)

theorem allDefs {z : Objid} (hz : z ∈ dp.dom) : db₂.allDefs (renumbered old new z) = dp.allDefs z := by
  have hs := l.sound g
  obtain ⟨hc, hsub⟩ := g.sound.chain_spec (h := .family) (.inr hz)
  have hchain : db₂.chain .family (renumbered old new z) = (dp.chain .family z).map (renumbered old new) := by
    refine hs.chain_eq (.inr (l.dom ▸ ⟨z, hz, rfl⟩))
      (hc.map (renumbered_ne (g.sound.ne_nothing g.old_mem).symm) (fun x hx => ?_) fun x hx => l.up _ x (hsub x hx))
    exact hs.ne_nothing (l.dom ▸ ⟨x, hsub x hx, rfl⟩)
  rw [Db.allDefs, Db.allDefs, hchain, List.flatMap_map]
  refine List.flatMap_congr fun x hx => ?_
  obtain ⟨o, o₂, ho, ho₂, -, hb⟩ := l.body x (hsub x hx)
  rw [defsOf_of ho, defsOf_of ho₂]
  have := congrArg Object.propdefs hb
  exact this

theorem length {i : Objid} {o' : Object} (ho' : db₂.objects i = some o') :
    o'.propval.length = (db₂.allDefs i).length := by
  obtain ⟨z, hz, rfl⟩ := l.dom ▸ mem_dom_of ho'
  obtain ⟨o, o₂, ho, ho₂, -, hb⟩ := l.body z hz
  obtain rfl := Option.some.inj (ho'.symm.trans ho₂)
  rw [l.allDefs g hz, ← g.slotted.length ho]
  have := congrArg Object.propval hb
  exact congrArg List.length this

theorem isUser (ho : dp.objects old = some o) : db₂.isUser new = o.flags .user := by
  obtain ⟨oz, o₂, hoz, ho₂, -, hb⟩ := l.body old g.old_mem
  obtain rfl := Option.some.inj (ho.symm.trans hoz)
  rw [renumbered_old] at ho₂
  have hflags := congrArg Object.flags hb
  rw [Db.isUser, hasFlag, (l.sound g).find_eq, ho₂]
  exact congrFun hflags .user

end Relinked

def reowned (old new : Objid) (users : List Objid) (db : Db) : Db :=
  { db with allUsers := users, objects := fun i => (db.objects i).map (Object.withOwners old new) }

theorem reowned_agree (old new : Objid) (users : List Objid) (db : Db) :
    Agree Object.shape { db with allUsers := users } (db.reowned old new users) := by
  refine ⟨rfl, fun i => ?_⟩
  rw [reowned, Option.map_map]
  exact congrArg (fun g => (db.objects i).map g) (funext fun o => Object.shape_withOwners)

theorem foldlM_range_renumberOwners (hs : Sound db)
    (hlen : ∀ i o, db.objects i = some o → o.propval.length = (db.allDefs i).length) :
    ((List.range db.numObjects.toNat).map Int.ofNat).foldlM (renumberOwners old new) db =
      some (db.reowned old new db.allUsers) := by
  set range := (List.range db.numObjects.toNat).map Int.ofNat with hrange
  have hnodup : range.Nodup := List.nodup_range.map fun a b h => Int.ofNat.inj h
  obtain ⟨db', hdb', ha, hin, hout⟩ := foldlM_renumberOwners old new hs hlen range hnodup (.refl _ _) fun _ _ => rfl
  have hall : ∀ i, db'.objects i = (db.objects i).map (Object.withOwners old new) := by
    intro i
    by_cases hi : i ∈ range
    · exact hin i hi
    · have hnone : db.objects i = none := by
        rw [Option.eq_none_iff_forall_ne_some]
        intro o ho
        have hr := (hs.ids ho).2
        exact hi (List.mem_map.mpr ⟨i.toNat, List.mem_range.mpr (by lia), Int.toNat_of_nonneg hr.1⟩)
      rw [hout i hi, hnone]
      rfl
  rw [hdb', ha.rest, reowned, ← funext hall]

theorem Relinked.renumbered {dp db₂ : Db} (l : Relinked dp db old new db₂) (g : Renumberable dp db old new)
    (users : List Objid) : Sound (db₂.reowned old new users) ∧ Renumbered dp old new (db₂.reowned old new users) := by
  have ha := reowned_agree old new users db₂
  have hs : Sound ({ db₂ with allUsers := users } : Db) := (l.sound g).of_objects rfl rfl
  refine ⟨hs.of_shape ha, ?_, ?_, ha.dom.trans l.dom, fun h z hz => ?_, fun z hz => ?_⟩
  · rw [ha.vcTable, l.rest]
  · rw [ha.nextTag, ← g.nextTag, l.rest]
  · rw [← l.up h z hz]
    exact (ha.mono (g := Object.up h) fun he => congrArg (fun s => (s.1 h).2.1) he).elim nothing _
  · obtain ⟨o, o₂, ho, ho₂, -, hb⟩ := l.body z hz
    have hobj : (db₂.reowned old new users).objects (Db.renumbered old new z) = some (o₂.withOwners old new) := by
      change Option.map _ (db₂.objects _) = _
      rw [ho₂]
      rfl
    rw [hobj, ho]
    have := congrArg (Object.withOwners old new) hb
    exact congrArg some this

theorem Relinked.carried {dp db₂ : Db} (l : Relinked dp db old new db₂)
    (ho : dp.objects old = some o) (husers : db.allUsers = dp.allUsers) :
    Carried dp old new (db₂.reowned old new
      (if o.flags .user then db.allUsers.replace old new else db.allUsers)) := by
  have ha := reowned_agree old new (if o.flags .user then db.allUsers.replace old new else db.allUsers) db₂
  have hhead : ∀ h, Agree (Object.head h) _ _ := fun h =>
    ha.mono fun he => congrArg (fun s => (s.1 h).2.2.1) he
  have hnext : ∀ h, Agree (Object.nextIn h) _ _ := fun h =>
    ha.mono fun he => congrArg (fun s => (s.1 h).2.2.2) he
  refine ⟨fun h z hz => ((hhead h).elim nothing _).trans (l.head h z hz),
    fun h z hz huz => ((hnext h).elim nothing _).trans (l.next h z hz huz),
    fun h z hz huz => ((hnext h).elim nothing _).trans (l.loose h z hz huz), ?_⟩
  rw [ha.allUsers, ho, ← husers]
  rfl

/-- What becomes of the table: everything has the new number, and where the list of the users stands itself
and the object is a user, the list has it too. -/
theorem setObjectNumber_spec {dp : Db} (g : Renumberable dp db old new) : ∃ db',
    (∀ shared, db.setObjectNumber shared old new =
      some (if (dp.objects old).elim false (fun o => o.flags .user) then
        db'.withUsers db.allUsers (db.allUsers.replace old new) (shared.moved old new) else db')) ∧
    Sound db' ∧ Slotted db' ∧ db'.numObjects = db.numObjects ∧ Renumbered dp old new db' ∧
      (db.allUsers = dp.allUsers → Carried dp old new db') := by
  obtain ⟨o, ho⟩ := mem_dom.mp g.old_mem
  obtain ⟨db₀, hkey, k⟩ := g.rekeyed ho
  obtain ⟨db₁, db₂, hfamily, hplace, l⟩ := k.relinked g
  have hs₂ := l.sound g
  obtain ⟨hs', r⟩ := l.renumbered g (if o.flags .user then db.allUsers.replace old new else db.allUsers)
  refine ⟨_, fun shared => ?_, hs', r.slotted g.sound hs' g.slotted g.old_mem, ?_, r, l.carried ho⟩
  swap
  · rw [reowned, l.rest]
  have husers : db₂.allUsers = db.allUsers := by rw [l.rest]
  have hflag : (dp.objects old).elim false (fun o => o.flags .user) = o.flags .user := by rw [ho, Option.elim_some]
  have hread : db.affectedCallableVerbLookup.objects old = some o := by
    rw [← ho, ← g.objects]
    rfl
  have hfind : db.affectedCallableVerbLookup.valid new = false := by
    have hnone : db.affectedCallableVerbLookup.objects new = none := by
      have hnew : dp.objects new = none := by simpa [dom] using g.new_notMem
      rw [← hnew, ← g.objects]
      rfl
    unfold valid find
    split
    · rfl
    · rw [hnone]
      rfl
  unfold setObjectNumber
  simp only [hfind, hread, Bool.false_eq_true, if_false, Option.bind_eq_bind, Option.bind_some]
  rw [show db.affectedCallableVerbLookup.objects = db.objects from rfl, hkey, Option.bind_some, hfamily,
    Option.bind_some, hplace, Option.bind_some, l.isUser g ho, hflag]
  by_cases huser : o.flags .user = true
  swap
  · rw [if_neg huser, if_neg huser, if_neg huser,
      foldlM_range_renumberOwners hs₂ fun i o ho => l.length g ho, husers]
  · rw [if_pos huser, if_pos huser, if_pos huser]
    have ha : Agree Object.shape db₂ (db₂.withUsers db₂.allUsers (db₂.allUsers.replace old new)
        (shared.moved old new)) := withUsers_agree db₂ fun _ _ => shape_withUsers
    have hs₃ : Sound (db₂.replaceUser shared old new) := (hs₂.of_shape ha).of_objects rfl rfl
    have hlen : ∀ i o, (db₂.replaceUser shared old new).objects i = some o →
        o.propval.length = ((db₂.replaceUser shared old new).allDefs i).length := by
      intro i o' ho'
      obtain ⟨o₂, ho₂, rfl⟩ := Option.map_eq_some_iff.mp ho'
      have hchain : (db₂.replaceUser shared old new).chain .family =
          (db₂.withUsers db₂.allUsers (db₂.allUsers.replace old new) (shared.moved old new)).chain .family :=
        chain_of_objects rfl rfl
      have hall : (db₂.replaceUser shared old new).allDefs = db₂.allDefs := by
        rw [← ha.allDefs_shape]
        funext i
        rw [Db.allDefs, Db.allDefs, hchain]
        rfl
      rw [hall, ← l.length g ho₂, Object.withUsers, List.length_mapIdx]
    rw [foldlM_range_renumberOwners hs₃ hlen, Option.some.injEq]
    unfold reowned replaceUser withUsers
    rw [husers]
    dsimp only
    congr 1
    funext i
    rw [Option.map_map, Option.map_map]
    exact congrArg (fun f => (db₂.objects i).map f) (funext fun o => withOwners_withUsers)

end Db
end LambdaMoo
