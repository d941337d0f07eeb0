import LambdaMoo.SlotChanges
import LambdaMoo.StoreLinks

/-! Hanging an object with all that is below it under another parent. The slots of the
ancestors that are left behind go, those of the ancestors that are new come, and those of
the ancestors that are kept stay. -/
namespace LambdaMoo

def inheritedSlot (owner : Objid) (pv : Pval) : Pval :=
  { pv with var := .clear, owner := if pv.perms.chown then owner else pv.owner }

namespace Db

variable {db db' db₂ : Db} {x p a y : Objid} {o : Object}

/-- One object hangs elsewhere, which is not below it, and all is defined as before. -/
structure Moved (db : Db) (x p : Objid) (db₂ : Db) : Prop where
  sound : Sound db
  sound' : Sound db₂
  mem : x ∈ db.dom
  parent : p = nothing ∨ p ∈ db.dom
  acyclic : x ∉ db.chain .family p
  dom : db₂.dom = db.dom
  up : db₂.upOf .family = Function.update (db.upOf .family) x p
  defs : db₂.defsOf = db.defsOf

namespace Moved

variable (m : Moved db x p db₂)
include m

theorem chain_eq (ha : a = nothing ∨ a ∈ db.dom) (hx : x ∉ db.chain .family a) :
    db₂.chain .family a = db.chain .family a := by
  refine m.sound'.chain_eq (by rwa [m.dom]) ?_
  refine (m.sound.chain_spec ha).1.congr fun z hz => ?_
  rw [m.up, Function.update_of_ne]
  rintro rfl
  exact hx hz

theorem chain_self : db₂.chain .family x = x :: db.chain .family p := by
  have hup : db₂.upOf .family x = p := by rw [m.up, Function.update_self]
  rw [m.sound'.chain_cons (m.dom ▸ m.mem), hup, m.chain_eq m.parent m.acyclic]

theorem upOf_ne (hy : y ≠ x) : db₂.upOf .family y = db.upOf .family y := by
  rw [m.up, Function.update_of_ne hy]

theorem chain_below (hb : db.Below x y) :
    db₂.chain .family y = db.between x y ++ x :: db.chain .family p := by
  generalize hn : (db.chain .family y).length = n
  induction n generalizing y with
  | zero =>
      rw [m.sound.chain_cons hb.1] at hn
      cases hn
  | succ n ih =>
      obtain rfl | hne := eq_or_ne y x
      · rw [m.chain_self, m.sound.between_self hb.1]
        rfl
      · rw [m.sound.chain_cons hb.1, List.length_cons] at hn
        rw [m.sound'.chain_cons (m.dom ▸ hb.1), m.upOf_ne hne, m.sound.between_child hb.1 hne,
          ih (m.sound.below_up hb hne) (by omega)]
        rfl

theorem below_iff : db₂.Below x y ↔ db.Below x y := by
  constructor
  · rintro ⟨hy, hmem⟩
    rw [m.dom] at hy
    refine ⟨hy, ?_⟩
    by_contra hx
    rw [m.chain_eq (.inr hy) hx] at hmem
    exact hx hmem
  · intro hb
    refine ⟨m.dom ▸ hb.1, ?_⟩
    rw [m.chain_below hb]
    simp

theorem allDefs_eq (ha : a = nothing ∨ a ∈ db.dom) (hx : x ∉ db.chain .family a) :
    db₂.allDefs a = db.allDefs a := by
  rw [allDefs, allDefs, m.chain_eq ha hx, m.defs]

theorem allDefs_below (hb : db.Below x y) :
    db₂.allDefs y = db.localDefs x y ++ (db.defsOf x ++ db.allDefs p) := by
  rw [allDefs, m.chain_below hb, m.defs, List.flatMap_append, List.flatMap_cons]
  rfl

theorem up_notMem : x ∉ db.chain .family (db.upOf .family x) := fun hmem =>
  m.sound.not_below_child m.mem rfl
    ⟨(m.sound.up_mem m.mem).resolve_left (fun hn => by
      rw [hn, m.sound.chain_nothing] at hmem
      cases hmem), hmem⟩

end Moved

/-- The ancestors that two objects share are the end of both ways up. -/
structure Shares (db : Db) (a b : Objid) (onlyA onlyB common : List Objid) : Prop where
  left : db.chain .family a = onlyA ++ common
  right : db.chain .family b = onlyB ++ common
  apart : ∀ z ∈ onlyA, z ∉ db.chain .family b

theorem exists_shares (hs : Sound db) {b : Objid} (ha : a = nothing ∨ a ∈ db.dom)
    (hb : b = nothing ∨ b ∈ db.dom) : ∃ onlyA onlyB common, Shares db a b onlyA onlyB common ∧
      (match (db.chain .family a).find? fun z => z ∈ db.chain .family b with
        | some c => common = db.chain .family c ∧ c ∈ db.dom
        | none => common = []) := by
  cases hc : (db.chain .family a).find? fun z => z ∈ db.chain .family b with
  | none =>
      refine ⟨db.chain .family a, db.chain .family b, [], ⟨by simp, by simp, ?_⟩, rfl⟩
      simpa using hc
  | some c =>
      have hcb : c ∈ db.chain .family b := by simpa using List.find?_some hc
      obtain ⟨-, as, bs, hac, has⟩ := List.find?_eq_some_iff_append.mp hc
      have hca : c ∈ db.chain .family a := by
        rw [hac]
        simp
      obtain ⟨ys, hys⟩ := hs.chain_suffix ha hca
      obtain ⟨zs, hzs⟩ := hs.chain_suffix hb hcb
      have hcd := (hs.chain_spec (h := .family) ha).2 c hca
      refine ⟨ys, zs, db.chain .family c, ⟨hys, hzs, ?_⟩, rfl, hcd⟩
      have heq : ys = as := by
        have hnodup := (hs.chain_spec (h := .family) ha).1.nodup
        rw [hs.chain_cons hcd] at hys
        rw [hys] at hac hnodup
        refine ((List.append_cons_inj_of_notMem ?_ ?_).mp hac).1
        · intro hmem
          rw [List.nodup_append] at hnodup
          exact hnodup.2.2 c hmem c (by simp) rfl
        · rw [List.nodup_append] at hnodup
          exact (List.nodup_cons.mp hnodup.2.1).1
      subst heq
      simpa using has

def pathDefs (db : Db) (x y : Objid) : List Propdef := db.localDefs x y ++ db.defsOf x

/-- The slots of an object below `x`, its parent having the slots `q` already: `old` are
left behind, and `new` are taken over from the parent. -/
def fixedSlots (db : Db) (x : Objid) (old new : Nat) (q : List Pval) (y : Objid) (o : Object) :
    List Pval :=
  let loc := (db.pathDefs x y).length
  o.propval.take loc ++ ((q.drop (loc - (db.defsOf y).length)).take new).map (inheritedSlot o.owner) ++
    o.propval.drop (loc + old)

theorem Sound.allDefs_path (hs : Sound db) (hb : db.Below x y) :
    db.allDefs y = db.pathDefs x y ++ db.allDefs (db.upOf .family x) := by
  rw [hs.allDefs_below hb, hs.allDefs_cons (hs.below_mem hb), pathDefs, List.append_assoc]

theorem Moved.allDefs_path (m : Moved db x p db₂) (hb : db.Below x y) :
    db₂.allDefs y = db.pathDefs x y ++ db.allDefs p := by
  rw [m.allDefs_below hb, pathDefs, List.append_assoc]

theorem Moved.allDefs_up (m : Moved db x p db₂) (hb : db.Below x y) :
    ∃ P, db₂.allDefs (db₂.upOf .family y) = P ++ db.allDefs p ∧ db.pathDefs x y = db.defsOf y ++ P := by
  obtain rfl | hne := eq_or_ne y x
  · refine ⟨[], ?_, by simp [pathDefs, m.sound.localDefs_self hb.1]⟩
    rw [m.up, Function.update_self, m.allDefs_eq m.parent m.acyclic]
    rfl
  · have hup := m.sound.below_up hb hne
    refine ⟨db.pathDefs x (db.upOf .family y), ?_, ?_⟩
    · rw [m.upOf_ne hne, m.allDefs_path hup]
    · rw [pathDefs, m.sound.localDefs_child hb.1 hup, List.append_assoc]
      rfl

theorem fixPropsOf_eq {old new com g : Nat} {q : List Pval} {c : Db} (hs : Sound c)
    (ho : c.objects y = some o) (hlen : o.propval.length = g + o.propdefs.length + old + com)
    (hq : new ≠ 0 → ∃ op, c.objects o.parent = some op ∧ op.propval = q ∧ g + new ≤ q.length) :
    fixPropsOf old new com g y c = some (c.set y { o with
      propval := o.propval.take (g + o.propdefs.length) ++
        ((q.drop g).take new).map (inheritedSlot o.owner) ++
        o.propval.drop (g + o.propdefs.length + old) }) := by
  have hcom : com = (o.propval.drop (g + o.propdefs.length + old)).length := by
    rw [List.length_drop]
    omega
  unfold fixPropsOf
  simp only [hs.find_eq, ho, Option.bind_eq_bind, Option.bind_some]
  rw [copySlots_eq (by omega), copySlots_eq (by omega), hcom, List.take_length, List.drop_zero]
  by_cases hnew : new = 0
  · subst hnew
    simp
  · obtain ⟨op, hop, rfl, hle⟩ := hq hnew
    simp only [hnew, if_false, hop, Option.bind_some, copySlots_eq hle]
    rfl

theorem Moved.visits {N O K : List Propdef} (m : Moved db x p db₂) (hp : Slotted db) (hslots : db₂.slotsOf = db.slotsOf)
    (hnews : db.allDefs p = N ++ K) (holds : db.allDefs (db.upOf .family x) = O ++ K) :
    Visits db₂ x (fixPropsOf O.length N.length K.length)
      (fun y g => (db.pathDefs x y).length = g + (db.defsOf y).length)
      fun q y slots => ∀ o, db₂.objects y = some o →
        slots = db.fixedSlots x O.length N.length q y o ∧
        slots.map Pval.tag = (db₂.allDefs y).map Propdef.tag := by
  have hs := m.sound
  intro y g o c hc hb hg ho hoc hout hparent
  rw [m.below_iff] at hb
  have hyd := mem_dom_of ho
  have hdefs : db.defsOf y = o.propdefs := by rw [← m.defs, defsOf_of ho]
  have hpv : o.propval = db.slotsOf y := by rw [← hslots, slotsOf_of ho]
  obtain ⟨P, hP, hpath⟩ := m.allDefs_up hb
  have hgP : g = P.length := by
    rw [hpath, List.length_append] at hg
    omega
  have htagsy := hp.tags y hb.1
  rw [hs.allDefs_path hb, holds, ← hpv] at htagsy
  -- the parent has the slots it should have
  have hq : db₂.upOf .family y ∈ db₂.dom →
      (c.slotsOf (db₂.upOf .family y)).map Pval.tag = (P ++ (N ++ K)).map Propdef.tag := by
    intro hup
    obtain ⟨ou, hou⟩ := mem_dom.mp hup
    rw [← hnews, ← hP]
    obtain rfl | ⟨q, hq⟩ := hparent
    · have hupx : db₂.upOf .family y = p := by rw [m.up, Function.update_self]
      rw [hupx] at hup ⊢
      have hpb : ¬ db₂.Below y p := by
        rw [m.below_iff]
        exact fun h => m.acyclic h.2
      rw [m.dom] at hup
      rw [slotsOf, hout p hpb]
      change (db₂.slotsOf p).map _ = _
      rw [hslots, m.allDefs_eq m.parent m.acyclic]
      exact hp.tags p hup
    · exact (hq ou hou).2
  have hupper : N.length ≠ 0 → db₂.upOf .family y ∈ db₂.dom := by
    refine fun hN => (m.sound'.up_mem (m.dom ▸ hb.1)).resolve_left fun hnone => hN ?_
    rw [hnone, m.sound'.allDefs_nothing, hnews] at hP
    have := congrArg List.length hP
    simp only [List.length_nil, List.length_append] at this
    omega
  have hloc : g + o.propdefs.length = (db.pathDefs x y).length := by rw [hg, hdefs]
  refine ⟨_, fixPropsOf_eq (q := c.slotsOf (db₂.upOf .family y)) (m.sound'.withoutSlots hc) hoc ?_ ?_,
    fun o' ho' => ?_⟩
  · rw [hloc]
    simpa [Nat.add_assoc] using congrArg List.length htagsy
  · intro hN
    have hup := hupper hN
    have hlen := congrArg List.length (hq hup)
    rw [← hc.dom] at hup
    obtain ⟨op, hop⟩ := mem_dom.mp hup
    rw [upOf_of ho] at hop
    refine ⟨op, hop, by rw [upOf_of ho, ← slotsOf_of hop], ?_⟩
    simp only [List.length_map, List.length_append] at hlen
    omega
  · obtain rfl := Option.some.inj (ho.symm.trans ho')
    have hg' : (db.pathDefs x y).length - (db.defsOf y).length = g := by omega
    refine ⟨by rw [fixedSlots, hg', hloc], ?_⟩
    have hmid : (((c.slotsOf (db₂.upOf .family y)).drop g).take N.length).map Pval.tag =
        N.map Propdef.tag := by
      by_cases hN : N.length = 0
      · rw [hN, List.length_eq_zero_iff.mp hN]
        rfl
      · have hup := hupper hN
        rw [List.map_take, List.map_drop, hq hup, hgP, List.map_append, List.map_append]
        simp
    have hinh : (Pval.tag ∘ inheritedSlot o.owner) = Pval.tag := rfl
    rw [List.map_append, List.map_append, List.map_map, hinh, hmid, List.map_take, List.map_drop,
      htagsy, hloc, m.allDefs_path hb, hnews]
    rw [← List.append_assoc (db.pathDefs x y), ← List.map_take, ← List.map_drop,
      ← List.length_append, List.drop_left, List.append_assoc (db.pathDefs x y) O K, List.take_left]
    simp

theorem Moved.passes (m : Moved db x p db₂) : Passes db₂ x (fun me _ loc => loc + me.propdefs.length)
    fun y g => (db.pathDefs x y).length = g + (db.defsOf y).length := by
  have hs := m.sound
  intro y c g o oc hb hc hup hg ho hoc
  rw [m.below_iff] at hb
  have hne : c ≠ x := by
    rintro rfl
    exact m.sound'.not_below_child hc hup (m.below_iff.mpr hb)
  rw [m.upOf_ne hne] at hup
  subst hup
  have hdefs : db.defsOf (db.upOf .family c) = o.propdefs := by
    rw [← m.defs]
    obtain ⟨oy, hoy, he⟩ := Option.map_eq_some_iff.mp ho
    rw [defsOf_of hoy]
    have := congrArg Object.propdefs he
    exact this
  rw [pathDefs, hs.localDefs_child (m.dom ▸ hc) hb, List.append_assoc, List.length_append]
  change _ + (db.pathDefs x (db.upOf .family c)).length = _
  rw [hg, hdefs]
  exact Nat.add_comm _ _

theorem fixProps_spec {newOnly oldOnly common : List Objid} (m : Moved db x p db₂)
    (hp : Slotted db) (hslots : db₂.slotsOf = db.slotsOf)
    (hsh : Shares db p (db.upOf .family x) newOnly oldOnly common) :
    ∃ db', db₂.fixProps x 0 (oldOnly.flatMap db.defsOf).length (newOnly.flatMap db.defsOf).length
        (common.flatMap db.defsOf).length = some db' ∧
      Agree Object.withoutSlots db₂ db' ∧ (∀ y, ¬ db.Below x y → db'.objects y = db₂.objects y) ∧
      ∀ y o, db.Below x y → db₂.objects y = some o →
        db'.slotsOf y = db.fixedSlots x (oldOnly.flatMap db.defsOf).length
          (newOnly.flatMap db.defsOf).length (db'.slotsOf (db₂.upOf .family y)) y o ∧
        (db'.slotsOf y).map Pval.tag = (db₂.allDefs y).map Propdef.tag := by
  have hs := m.sound
  have hnews : db.allDefs p = newOnly.flatMap db.defsOf ++ common.flatMap db.defsOf := by
    rw [allDefs, hsh.left, List.flatMap_append]
  have holds : db.allDefs (db.upOf .family x) =
      oldOnly.flatMap db.defsOf ++ common.flatMap db.defsOf := by
    rw [allDefs, hsh.right, List.flatMap_append]
  generalize newOnly.flatMap db.defsOf = N at hnews ⊢
  generalize oldOnly.flatMap db.defsOf = O at holds ⊢
  generalize common.flatMap db.defsOf = K at hnews holds ⊢
  have hfuel : db₂.numObjects.toNat < db₂.fuel + (db₂.chain .family x).length := by
    unfold Db.fuel
    omega
  have hxd : x ∈ db₂.dom := m.dom ▸ m.mem
  obtain ⟨db', hdb', hvisited⟩ := forSubtree_rule m.sound' (m.visits hp hslots hnews holds) m.passes (g := 0)
    (m.sound'.below_self hxd) (by simp [pathDefs, hs.localDefs_self m.mem]) (.refl _ db₂)
    (fun _ _ => rfl) (fun _ _ => rfl) (.inl rfl) hfuel
  refine ⟨db', hdb', hvisited.agree, fun y hy => hvisited.outside y (by simpa [m.below_iff] using hy), fun y o hb ho => ?_⟩
  exact hvisited.inside x (.head _) y (m.below_iff.mpr hb) o ho

theorem fixPropertiesAfterChparent_eq (m : Moved db x p db₂) :
    ∃ newOnly oldOnly common, Shares db p (db.upOf .family x) newOnly oldOnly common ∧
      db₂.fixPropertiesAfterChparent x (db.upOf .family x) =
        db₂.fixProps x 0 (oldOnly.flatMap db.defsOf).length (newOnly.flatMap db.defsOf).length
          (common.flatMap db.defsOf).length := by
  have hs := m.sound
  have hup := hs.up_mem (h := .family) m.mem
  obtain ⟨newOnly, oldOnly, common, hsh, hfind⟩ := exists_shares hs m.parent hup
  refine ⟨newOnly, oldOnly, common, hsh, ?_⟩
  obtain ⟨o, ho⟩ := mem_dom.mp (m.dom ▸ m.mem : x ∈ db₂.dom)
  have hpar : o.parent = p := by
    have : db₂.upOf .family x = o.parent := upOf_of ho
    rw [← this, m.up, Function.update_self]
  have hcount (a : Objid) (ha : a = nothing ∨ a ∈ db.dom) (hx : x ∉ db.chain .family a) :
      db₂.countProperties a = some (db.allDefs a).length := by
    rw [m.sound'.countProperties_eq (m.dom ▸ ha), m.allDefs_eq ha hx]
  have hnews : (db.allDefs p).length =
      (newOnly.flatMap db.defsOf).length + (common.flatMap db.defsOf).length := by
    rw [allDefs, hsh.left, List.flatMap_append, List.length_append]
  have holds : (db.allDefs (db.upOf .family x)).length =
      (oldOnly.flatMap db.defsOf).length + (common.flatMap db.defsOf).length := by
    rw [allDefs, hsh.right, List.flatMap_append, List.length_append]
  unfold fixPropertiesAfterChparent
  simp only [ho, Option.bind_eq_bind, Option.bind_some, hpar, m.sound'.walkUp_fuel (m.dom ▸ m.parent),
    m.sound'.walkUp_fuel (m.dom ▸ hup), m.chain_eq m.parent m.acyclic, m.chain_eq hup m.up_notMem,
    hcount p m.parent m.acyclic, hcount _ hup m.up_notMem]
  cases hf : (db.chain .family p).find? fun z => z ∈ db.chain .family (db.upOf .family x) with
  | none =>
      rw [hf] at hfind
      subst hfind
      simp only [List.flatMap_nil, List.length_nil, Nat.add_zero] at hnews holds
      simp [hnews, holds]
  | some c =>
      rw [hf] at hfind
      obtain ⟨rfl, hc⟩ := hfind
      have hcx : x ∉ db.chain .family c := by
        intro hx
        refine m.acyclic ?_
        rw [hsh.left]
        exact List.mem_append_right _ hx
      have hcc := hcount c (.inr hc) hcx
      rw [allDefs] at hcc
      simp only [hcc, Option.bind_some, hnews, holds]
      simp

theorem anyM_eq_any {α : Type} {f : α → Option Bool} {l : List α} (h : ∀ a ∈ l, (f a).isSome) :
    l.anyM f = some (l.any fun a => (f a).getD false) := by
  induction l with
  | nil => rfl
  | cons a l ih =>
      obtain ⟨b, hb⟩ := Option.isSome_iff_exists.mp (h a (by simp))
      have hl := ih fun c hc => h c (by simp [hc])
      cases b with
      | true => simp [List.anyM, hb]
      | false =>
          simp only [List.anyM, hb, Option.bind_eq_bind, Option.bind_some, hl]
          simp [hb]

/-- The names defined at or below `x` are not those defined at or above `p`. -/
def Disjoint (db : Db) (x p : Objid) : Prop :=
  ∀ d ∈ db.allDefs p, ∀ y, db.Below x y → ∀ e ∈ db.defsOf y, sameName e.name d.name = false

theorem checkPropertiesForChparent_spec (hs : Sound db) (hp : Defined db) (hx : x ∈ db.dom)
    (hpar : p = nothing ∨ p ∈ db.dom) :
    ∃ b, db.checkPropertiesForChparent x p = some b ∧ (b = true ↔ db.Disjoint x p) := by
  have hterm : ∀ d ∈ db.allDefs p, Terminated d.name := fun d hd => by
    obtain ⟨q, -, hq⟩ := List.mem_flatMap.mp hd
    exact hp.terminated q d hq
  have hany := anyM_eq_any (l := db.allDefs p) (f := fun d => db.propertyDefinedAtOrBelow d.name x)
    fun _ _ => hs.propertyDefinedAtOrBelow_isSome hx
  refine ⟨!((db.allDefs p).any fun d => (db.propertyDefinedAtOrBelow d.name x).getD false), ?_, ?_⟩
  · unfold checkPropertiesForChparent
    simp only [hs.ancestry_eq hpar, Option.bind_eq_bind, Option.bind_some, filterMap_flatMap_propdefs]
    rw [allDefs] at hany
    rw [hany]
    rfl
  · rw [Bool.not_eq_true', List.any_eq_false]
    constructor
    · intro hno d hd y hb e he
      obtain ⟨b, hf⟩ : ∃ b, db.propertyDefinedAtOrBelow d.name x = some b :=
        Option.isSome_iff_exists.mp (hs.propertyDefinedAtOrBelow_isSome hx)
      have hfalse := hno d hd
      rw [hf] at hfalse
      simp only [Option.getD_some, Bool.not_eq_true] at hfalse
      subst hfalse
      rw [← nameMatches_eq (hp.terminated y e he) (hterm d hd)]
      exact hs.propertyDefinedAtOrBelow_false hf hb e he
    · intro hdis d hd htrue
      obtain ⟨b, hf⟩ : ∃ b, db.propertyDefinedAtOrBelow d.name x = some b :=
        Option.isSome_iff_exists.mp (hs.propertyDefinedAtOrBelow_isSome hx)
      rw [hf, Option.getD_some] at htrue
      subst htrue
      obtain ⟨y, o, hb, ho, hany⟩ := hs.anyBelow_true hx hf
      simp only [Option.some.injEq, List.any_eq_true] at hany
      obtain ⟨e, he, hm⟩ := hany
      rw [← defsOf_of ho] at he
      rw [nameMatches_iff (hp.terminated y e he) (hterm d hd), hdis d hd y hb e he] at hm
      exact Bool.false_ne_true hm

structure Reparented (db : Db) (x p : Objid) (db' : Db) : Prop where
  vcTable : db'.vcTable = db.vcTable ∧ (∀ o, db.objects x = some o → o.child = nothing ∧ o.verbdefs = []) ∨
    db'.vcTable = fun _ => []
  agree : Agree (fun o => (o.withoutLinks .family).withoutSlots) { db with vcTable := db'.vcTable } db'
  up : db'.upOf .family = Function.update (db.upOf .family) x p
  outside : ∀ y, ¬ db.Below x y → db'.slotsOf y = db.slotsOf y
  inside : ∃ newOnly oldOnly common, Shares db p (db.upOf .family x) newOnly oldOnly common ∧
    ∀ y o, db.Below x y → db.objects y = some o →
      db'.slotsOf y = db.fixedSlots x (oldOnly.flatMap db.defsOf).length
        (newOnly.flatMap db.defsOf).length (db'.slotsOf (db'.upOf .family y)) y o

theorem Moved.defined (m : Moved db x p db₂) (hd : Defined db) (hdis : db.Disjoint x p)
    (htag : db₂.nextTag = db.nextTag) : Defined db₂ := by
  have hs := m.sound
  refine ⟨?_, ?_, ?_, ?_, fun i hi => ?_, ?_⟩
  · rw [m.defs, htag]
    exact hd.tag_lt
  · rw [m.defs]
    exact hd.tag_nodup
  · rw [m.defs]
    exact hd.tag_inj
  · rw [m.defs]
    exact hd.terminated
  · rw [m.dom] at hi
    by_cases hb : db.Below x i
    · have hold := hd.names i hi
      rw [hs.allDefs_path hb, List.pairwise_append] at hold
      rw [m.allDefs_path hb, List.pairwise_append]
      refine ⟨hold.1, ?_, fun d hdi e he => ?_⟩
      · obtain rfl | hpd := m.parent
        · simp [hs.allDefs_nothing]
        · exact hd.names p hpd
      · obtain ⟨z, hz, hdz⟩ : ∃ z, db.Below x z ∧ d ∈ db.defsOf z := by
          obtain hdi | hdi := List.mem_append.mp hdi
          · obtain ⟨z, hz, -, hdz⟩ := hs.mem_localDefs hb hdi
            exact ⟨z, hz, hdz⟩
          · exact ⟨x, hs.below_self m.mem, hdi⟩
        exact hdis e he z hz d hdz
    · rw [m.allDefs_eq (.inr hi) fun hx => hb ⟨hi, hx⟩]
      exact hd.names i hi
  · rw [m.defs]
    exact hd.reserved

/-- The slots below `x` that are its own stay at the front, and those of the others stay as they are. -/
theorem Moved.slotted (m : Moved db x p db') (hp : Slotted db) (hd : Defined db')
    (houtside : ∀ y, ¬ db.Below x y → db'.slotsOf y = db.slotsOf y)
    (hinside : ∀ y oy, db.Below x y → db.objects y = some oy → ∃ a b parent, db'.slotsOf y = db.fixedSlots x a b parent y oy)
    (htags : ∀ y, db.Below x y → (db'.slotsOf y).map Pval.tag = (db'.allDefs y).map Propdef.tag) : Slotted db' := by
  have hs := m.sound
  refine ⟨hd, fun i hi => ?_, fun i => ?_⟩
  · rw [m.dom] at hi
    by_cases hby : db.Below x i
    · exact htags i hby
    · rw [houtside i hby, m.allDefs_eq (.inr hi) fun hx => hby ⟨hi, hx⟩]
      exact hp.tags i hi
  · rw [m.defs]
    by_cases hby : db.Below x i
    · obtain ⟨oi, hoi⟩ := mem_dom.mp hby.1
      obtain ⟨a, b, parent, hslots⟩ := hinside i oi hby hoi
      have hlen := hp.length hoi
      have hclear := hp.notClear i
      rw [slotsOf_of hoi] at hclear
      have hown : (db.defsOf i).length ≤ (db.pathDefs x i).length := by
        obtain ⟨P, -, hP⟩ := m.allDefs_up hby
        rw [hP, List.length_append]
        omega
      rw [hs.allDefs_path hby, List.length_append] at hlen
      rw [hslots, fixedSlots]
      intro pv hpv
      rw [List.append_assoc, List.take_append_of_le_length, List.take_take, Nat.min_eq_left hown] at hpv
      · exact hclear pv hpv
      · rw [List.length_take]
        omega
    · rw [houtside i hby]
      exact hp.notClear i

theorem changeParent_spec (hs : Sound db) (hp : Slotted db) (hx : x ∈ db.dom)
    (hpar : p = nothing ∨ p ∈ db.dom) (hacyc : x ∉ db.chain .family p) :
    (¬ db.Disjoint x p ∧ db.changeParent x p = some (false, db)) ∨
      db.Disjoint x p ∧ ∃ db', db.changeParent x p = some (true, db') ∧ Sound db' ∧ Slotted db' ∧
        Reparented db x p db' := by
  obtain ⟨o, ho⟩ := mem_dom.mp hx
  obtain ⟨b, hcheck, hb⟩ := checkPropertiesForChparent_spec hs hp.toDefined hx hpar
  cases b with
  | false =>
      refine .inl ⟨fun h => Bool.false_ne_true (hb.mpr h), ?_⟩
      simp [changeParent, hcheck]
  | true =>
      have hdis := hb.mp rfl
      refine .inr ⟨hdis, ?_⟩
      unfold changeParent
      simp only [hcheck, ho, Option.bind_eq_bind, Option.bind_some, Bool.not_true, Bool.false_eq_true,
        if_false]
      set dbf := if o.child = nothing ∧ o.verbdefs.isEmpty = true then db
        else db.affectedCallableVerbLookup with hdbf
      have hrest : dbf = { db with vcTable := dbf.vcTable } := by
        rw [hdbf]
        split <;> rfl
      have hobj : dbf.objects = db.objects := by rw [hrest]
      have hnum : dbf.numObjects = db.numObjects := by rw [hrest]
      have hsf : Sound dbf := hs.of_objects hobj hnum
      have hdomf : dbf.dom = db.dom := by rw [dom, dom, hobj]
      have hupf : dbf.upOf = db.upOf := by
        funext h i
        rw [upOf, upOf, hobj]
      have hchainf : dbf.chain .family = db.chain .family := chain_of_objects hobj hnum
      obtain ⟨db₁, db₂, db₃, h₁, h₂, h₃, -, ha₃, hup₃, hs₃⟩ := rehang_spec (h := .family) (x := x) (p := p)
        hsf (hobj ▸ ho) (hdomf ▸ hpar) (hchainf ▸ hacyc)
      change (if o.parent ≠ nothing then dbf.llRemove .family o.parent x else some dbf) = some db₁ at h₁
      change db₂.modify (fun o => { o with parent := p }) x = some db₃ at h₃
      have hdefs₃ : db₃.defsOf = db.defsOf := by
        have : Agree Object.propdefs dbf db₃ := ha₃.mono fun he => by
          have := congrArg Object.propdefs he
          exact this
        rw [this.defsOf]
        funext i
        rw [defsOf, defsOf, hobj]
      have hslots₃ : db₃.slotsOf = db.slotsOf := by
        have : Agree Object.propval dbf db₃ := ha₃.mono fun he => by
          have := congrArg Object.propval he
          exact this
        funext i
        have hi := this.elim [] i
        rw [hobj] at hi
        exact hi
      have m : Moved db x p db₃ := ⟨hs, hs₃, hx, hpar, hacyc, ha₃.dom.trans hdomf, by rw [hup₃, hupf],
        hdefs₃⟩
      obtain ⟨newOnly, oldOnly, common, hsh, hfix⟩ := fixPropertiesAfterChparent_eq m
      obtain ⟨db', hdb', ha', hout', hin'⟩ := fixProps_spec m hp hslots₃ hsh
      have hupo : db.upOf .family x = o.parent := upOf_of ho
      have hup' : db'.upOf .family = db₃.upOf .family := ha'.upOf_withoutSlots
      have htag' : db'.nextTag = db.nextTag := by
        rw [ha'.nextTag, ha₃.nextTag, hrest]
      have hvc' : db'.vcTable = dbf.vcTable := by rw [ha'.vcTable, ha₃.vcTable]
      have hs' := hs₃.withoutSlots ha'
      have m' : Moved db x p db' := ⟨hs, hs', hx, hpar, hacyc, ha'.dom.trans m.dom, hup'.trans m.up,
        ha'.defsOf_withoutSlots.trans m.defs⟩
      have houtside : ∀ y, ¬ db.Below x y → db'.slotsOf y = db.slotsOf y := fun y hy => by
        rw [slotsOf, hout' y hy, ← hslots₃]
        rfl
      have hagree : Agree (fun o => (o.withoutLinks .family).withoutSlots)
          { db with vcTable := db'.vcTable } db' := by
        have hf : Agree (fun o => (o.withoutLinks .family).withoutSlots) dbf db' :=
          (ha₃.mono fun he => congrArg Object.withoutSlots he).trans
            (ha'.mono fun he => congrArg (Object.withoutLinks .family) he)
        rw [hvc', ← hrest]
        exact hf
      have hobj₃ : ∀ y oy, db.objects y = some oy → ∃ oy', db₃.objects y = some oy' ∧
          oy'.propval = oy.propval ∧ oy'.owner = oy.owner := by
        intro y oy hoy
        obtain ⟨oy', hoy', he⟩ := ha₃.of_objects (hobj ▸ hoy)
        have hown := congrArg Object.owner he
        have hpv := congrArg Object.propval he
        exact ⟨oy', hoy', hpv, hown⟩
      have hinside : ∀ y oy, db.Below x y → db.objects y = some oy →
          db'.slotsOf y = db.fixedSlots x (oldOnly.flatMap db.defsOf).length
            (newOnly.flatMap db.defsOf).length (db'.slotsOf (db'.upOf .family y)) y oy := by
        intro y oy hby hoy
        obtain ⟨oy', hoy', hpv, hown⟩ := hobj₃ y oy hoy
        rw [(hin' y oy' hby hoy').1, hup', fixedSlots, fixedSlots, hpv, hown]
      refine ⟨db', ?_, hs', m'.slotted hp (m'.defined hp.toDefined hdis htag') houtside (fun y oy hby hoy =>
        ⟨_, _, _, hinside y oy hby hoy⟩) fun y hby => ?_, ?_⟩
      · have hlast : (db₃.fixPropertiesAfterChparent x o.parent).bind (fun db => some (true, db)) =
            some (true, db') := by
          rw [← hupo, hfix, hdb']
          rfl
        rw [← hlast]
        by_cases hop : o.parent = nothing <;> by_cases hpn : p = nothing <;>
          simp only [hop, hpn, ne_eq, not_true_eq_false, not_false_eq_true, if_true, if_false,
            Option.some.injEq] at h₁ h₂ h₃ ⊢ <;>
          simp only [h₁, h₂, h₃, Option.bind_some] <;> rfl
      · obtain ⟨oy, hoy⟩ := mem_dom.mp (m.dom ▸ hby.1 : y ∈ db₃.dom)
        rw [(hin' y oy hby hoy).2, ha'.allDefs]
      · refine ⟨?_, hagree, hup'.trans m.up, houtside, newOnly, oldOnly, common, hsh, hinside⟩
        by_cases hleaf : o.child = nothing ∧ o.verbdefs.isEmpty = true
        · refine .inl ⟨by rw [hvc', hdbf, if_pos hleaf], fun o' ho' => ?_⟩
          obtain rfl := Option.some.inj (ho.symm.trans ho')
          exact ⟨hleaf.1, by simpa using hleaf.2⟩
        · refine .inr ?_
          rw [hvc', hdbf, if_neg hleaf]
          rfl

end Db
end LambdaMoo
