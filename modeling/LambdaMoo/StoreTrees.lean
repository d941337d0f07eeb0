import LambdaMoo.Store

/-! Going over an object and all that is below it: parents before children, each child
with its own below it before the next. -/
namespace LambdaMoo

def Object.withoutSlots (o : Object) : Object := { o with propval := [] }

namespace Db

variable {db db' db₀ : Db} {h : Hier} {r c y z oid : Objid} {o : Object} {fuel : Nat}

theorem Agree.walkUp (ha : Agree (Object.up h) db db') (fuel : Nat) (a : Objid) :
    db'.walkUp h fuel a = db.walkUp h fuel a := by
  induction fuel generalizing a with
  | zero => rfl
  | succ n ih =>
      unfold Db.walkUp
      split
      · rfl
      · cases ho : db.objects a with
        | none =>
            have := ha.objects a
            rw [ho, Option.map_none, Option.map_eq_none_iff] at this
            simp [this]
        | some o =>
            obtain ⟨o', ho', hup⟩ := ha.of_objects ho
            simp [ho', hup, ih]

theorem Agree.chain (ha : Agree (Object.up h) db db') : db'.chain h = db.chain h := by
  funext a
  rw [Db.chain, Db.chain, ha.fuel, ha.walkUp]

def slotsOf (db : Db) (oid : Objid) : List Pval := (db.objects oid).elim [] Object.propval

@[simp] theorem slotsOf_of (ho : db.objects oid = some o) : db.slotsOf oid = o.propval := by
  simp [slotsOf, ho]

def Below (db : Db) (r y : Objid) : Prop := y ∈ db.dom ∧ r ∈ db.chain .family y

theorem Agree.below (ha : Agree Object.withoutSlots db db') : db'.Below = db.Below := by
  have hup : Agree (Object.up .family) db db' := ha.mono fun he => by
    have := congrArg Object.parent he
    exact this
  funext r y
  rw [Below, Below, ha.dom, hup.chain]

theorem Agree.upOf_withoutSlots (ha : Agree Object.withoutSlots db db') : db'.upOf .family = db.upOf .family := by
  have hup : Agree (Object.up .family) db db' := ha.mono fun he => by
    have := congrArg Object.parent he
    exact this
  funext i
  exact hup.elim nothing i

theorem Sound.withoutSlots (hs : Sound db) (ha : Agree Object.withoutSlots db db') : Sound db' :=
  hs.of_agree (ha.mono fun he => by
    funext k
    have := congrArg (Object.linksIn k) he
    cases k <;> exact this)

/-- The objects from `y` up to `r`, which is left out. -/
def between (db : Db) (r y : Objid) : List Objid := (db.chain .family y).takeWhile (· ≠ r)

namespace Sound

variable (hs : Sound db)
include hs

theorem below_self (hr : r ∈ db.dom) : db.Below r r := ⟨hr, by simp [hs.chain_cons hr]⟩

theorem below_mem (hb : db.Below r y) : r ∈ db.dom := (hs.chain_spec (.inr hb.1)).2 r hb.2

theorem below_trans (hrc : db.Below r c) (hcy : db.Below c y) : db.Below r y := by
  obtain ⟨p, hp⟩ := hs.chain_suffix (.inr hcy.1) hcy.2
  refine ⟨hcy.1, ?_⟩
  rw [hp]
  exact List.mem_append_right _ hrc.2

theorem below_child (hc : c ∈ db.dom) (hup : db.upOf .family c = r) (hr : r ∈ db.dom) :
    db.Below r c := by
  refine ⟨hc, ?_⟩
  rw [hs.chain_cons hc, hup, hs.chain_cons hr]
  simp

theorem below_length (hb : db.Below r y) :
    (db.chain .family r).length ≤ (db.chain .family y).length := by
  obtain ⟨p, hp⟩ := hs.chain_suffix (.inr hb.1) hb.2
  rw [hp, List.length_append]
  exact Nat.le_add_left _ _

theorem child_length (hc : c ∈ db.dom) (hup : db.upOf .family c = r) :
    (db.chain .family c).length = (db.chain .family r).length + 1 := by
  rw [hs.chain_cons hc, hup, List.length_cons]

theorem below_cases (hb : db.Below r y) :
    y = r ∨ ∃ c ∈ db.dom, db.upOf .family c = r ∧ db.Below c y := by
  obtain ⟨hy, hmem⟩ := hb
  obtain ⟨l, hl⟩ := (hs.linked .family).rooted hy
  rw [hs.chain_eq (.inr hy) hl] at hmem
  have hsub := (hs.linked .family).chain_subset hl (.inr hy)
  induction hl with
  | nil => cases hmem
  | @cons y ys hne hys ih =>
      obtain rfl | hmem := List.mem_cons.mp hmem
      · exact .inl rfl
      · refine .inr ?_
        have hup : db.upOf .family y ∈ db.dom := by
          cases ys with
          | nil => cases hmem
          | cons z zs =>
              rw [(Chain.cons_iff.mp hys).1]
              exact hsub z (by simp)
        obtain hup' | ⟨c, hc, hcr, hcy⟩ := ih hup hmem fun z hz => hsub z (by simp [hz])
        · exact ⟨y, hy, hup', hs.below_self hy⟩
        · exact ⟨c, hc, hcr, hs.below_trans hcy (hs.below_child hy rfl hup)⟩

theorem below_child_unique {c' : Objid} (hc : c ∈ db.dom) (hc' : c' ∈ db.dom)
    (hup : db.upOf .family c = r) (hup' : db.upOf .family c' = r) (hb : db.Below c y)
    (hb' : db.Below c' y) : c = c' := by
  obtain ⟨p, hp⟩ := hs.chain_suffix (.inr hb.1) hb.2
  obtain ⟨p', hp'⟩ := hs.chain_suffix (.inr hb.1) hb'.2
  have hlen := hs.child_length hc hup
  have hlen' := hs.child_length hc' hup'
  have heq := (List.append_inj' (hp.symm.trans hp') (hlen.trans hlen'.symm)).2
  rw [hs.chain_cons hc, hs.chain_cons hc'] at heq
  exact (List.cons.inj heq).1

theorem not_below_child (hc : c ∈ db.dom) (hup : db.upOf .family c = r) : ¬ db.Below c r := by
  intro hb
  have := hs.below_length hb
  rw [hs.child_length hc hup] at this
  omega

theorem chain_between (hb : db.Below r y) : db.chain .family y = db.between r y ++ db.chain .family r := by
  obtain ⟨p, hp⟩ := hs.chain_suffix (.inr hb.1) hb.2
  have hr := hs.chain_cons (h := .family) (hs.below_mem hb)
  have hnodup := (hs.chain_spec (h := .family) (.inr hb.1)).1.nodup
  have hpr : ∀ z ∈ p, z ≠ r := by
    rintro z hz rfl
    rw [hp, hr, List.nodup_append] at hnodup
    exact hnodup.2.2 z hz z (by simp) rfl
  have hbetween : db.between r y = p := by
    rw [between, hp, hr, List.takeWhile_append_of_pos (by simpa using hpr)]
    simp
  rw [hp, hbetween]

@[simp] theorem between_self (hr : r ∈ db.dom) : db.between r r = [] := by
  simp [between, hs.chain_cons hr]

theorem between_child (hc : c ∈ db.dom) (hne : c ≠ r) :
    db.between r c = c :: db.between r (db.upOf .family c) := by
  simp [between, hs.chain_cons hc, hne]

theorem mem_between (hb : db.Below r y) (hz : z ∈ db.between r y) : db.Below r z ∧ z ≠ r := by
  have hchain := hs.chain_between hb
  have hnodup := (hs.chain_spec (h := .family) (.inr hb.1)).1.nodup
  have hzy : z ∈ db.chain .family y := by
    rw [hchain]
    exact List.mem_append_left _ hz
  have hzd := (hs.chain_spec (h := .family) (.inr hb.1)).2 z hzy
  have hout : z ∉ db.chain .family r := by
    intro hzr
    rw [hchain, List.nodup_append] at hnodup
    exact hnodup.2.2 z hz z hzr rfl
  have hr := hs.chain_cons (h := .family) (hs.below_mem hb)
  have hsuffix : db.chain .family r <:+ db.chain .family y := ⟨_, hchain.symm⟩
  obtain ⟨p, hp⟩ := hs.chain_suffix (.inr hb.1) hzy
  refine ⟨⟨hzd, ?_⟩, ?_⟩
  · obtain h | h := List.suffix_or_suffix_of_suffix hsuffix ⟨p, hp.symm⟩
    · exact h.subset (by simp [hr])
    · exact absurd (h.subset (by simp [hs.chain_cons hzd])) hout
  · rintro rfl
    exact hout (by simp [hr])

/-! Searches. -/

theorem anyBelow_false {p : Object → Option Bool} (ho : db.anyBelow p fuel r = some false)
    (hb : db.Below r y) (hy : db.objects y = some o) : p o = some false := by
  induction fuel generalizing r with
  | zero => cases ho
  | succ n ih =>
      obtain ⟨or, hor⟩ := mem_dom.mp (hs.below_mem hb)
      obtain ⟨l, hl, -, hm⟩ := hs.listFrom_fuel (h := .family) (mem_dom_of hor)
      rw [headOf_of hor, Object.head] at hl
      simp only [anyBelow, hor, hl, Option.bind_eq_bind, Option.bind_some, Option.bind_eq_some_iff] at ho
      obtain ⟨b, hpo, ho⟩ := ho
      cases b with
      | true => simp at ho
      | false =>
          obtain rfl | ⟨c, hc, hcr, hcy⟩ := hs.below_cases hb
          · rw [hor] at hy
            exact Option.some.inj hy ▸ hpo
          · have hcl := (hm c).mpr ⟨hc, hcr⟩
            simp only [if_neg Bool.false_ne_true] at ho
            clear hl hm
            induction l with
            | nil => cases hcl
            | cons d ds ihl =>
                simp only [List.anyM, Option.bind_eq_bind, Option.bind_eq_some_iff] at ho
                obtain ⟨b, hd, ho⟩ := ho
                cases b with
                | true => simp at ho
                | false =>
                    obtain rfl | hcl := List.mem_cons.mp hcl
                    · exact ih hd hcy
                    · exact ihl hcl ho

theorem anyBelow_true {p : Object → Option Bool} (hr : r ∈ db.dom)
    (ho : db.anyBelow p fuel r = some true) :
    ∃ y o, db.Below r y ∧ db.objects y = some o ∧ p o = some true := by
  induction fuel generalizing r with
  | zero => cases ho
  | succ n ih =>
      obtain ⟨or, hor⟩ := mem_dom.mp hr
      obtain ⟨l, hl, -, hm⟩ := hs.listFrom_fuel (h := .family) hr
      rw [headOf_of hor, Object.head] at hl
      simp only [anyBelow, hor, hl, Option.bind_eq_bind, Option.bind_some, Option.bind_eq_some_iff] at ho
      obtain ⟨b, hpo, ho⟩ := ho
      cases b with
      | true => exact ⟨r, or, hs.below_self hr, hor, hpo⟩
      | false =>
          simp only [if_neg Bool.false_ne_true] at ho
          replace hm := fun z hz => (hm z).mp hz
          clear hl
          induction l with
          | nil => simp [List.anyM] at ho
          | cons d ds ihl =>
              simp only [List.anyM, Option.bind_eq_bind, Option.bind_eq_some_iff] at ho
              obtain ⟨b, hd, ho⟩ := ho
              cases b with
              | true =>
                  obtain ⟨hdd, hdr⟩ := hm d (by simp)
                  obtain ⟨y, o, hby, hy, hp⟩ := ih hdd hd
                  exact ⟨y, o, hs.below_trans (hs.below_child hdd hdr hr) hby, hy, hp⟩
              | false => exact ihl ho fun z hz => hm z (by simp [hz])

theorem anyBelow_isSome {p : Object → Option Bool} (hp : ∀ o, (p o).isSome) (hr : r ∈ db.dom)
    (hfuel : db.numObjects.toNat < fuel + (db.chain .family r).length) :
    (db.anyBelow p fuel r).isSome := by
  induction fuel generalizing r with
  | zero =>
      have := hs.chain_length_le (h := .family) (.inr hr)
      omega
  | succ n ih =>
      obtain ⟨or, hor⟩ := mem_dom.mp hr
      obtain ⟨l, hl, -, hm⟩ := hs.listFrom_fuel (h := .family) hr
      rw [headOf_of hor, Object.head] at hl
      obtain ⟨b, hb⟩ := Option.isSome_iff_exists.mp (hp or)
      simp only [anyBelow, hor, hl, hb, Option.bind_eq_bind, Option.bind_some]
      cases b with
      | true => rfl
      | false =>
          replace hm := fun z hz => (hm z).mp hz
          clear hl
          simp only [if_neg Bool.false_ne_true]
          induction l with
          | nil => rfl
          | cons d ds ihl =>
              obtain ⟨hdd, hdr⟩ := hm d (by simp)
              have hlen := hs.child_length hdd hdr
              obtain ⟨b, hd⟩ := Option.isSome_iff_exists.mp (ih hdd (by omega))
              simp only [List.anyM, hd, Option.bind_eq_bind, Option.bind_some]
              cases b with
              | true => rfl
              | false => exact ihl fun z hz => hm z (by simp [hz])

end Sound

/-! Changes of slots. -/

/-- What one visit does, given that its argument is the right one for the object:
the object gets the slots `Post` says, which may depend on those of its parent. -/
def Visits {γ : Type} (db₀ : Db) (root : Objid) (visit : γ → Objid → Db → Option Db)
    (Arg : Objid → γ → Prop) (Post : List Pval → Objid → List Pval → Prop) : Prop :=
  ∀ ⦃y g o db⦄, Agree Object.withoutSlots db₀ db → db₀.Below root y → Arg y g →
    db₀.objects y = some o → db.objects y = some o →
    (∀ z, ¬ db₀.Below root z → db.objects z = db₀.objects z) →
    (y = root ∨ ∃ q, Post q (db₀.upOf .family y) (db.slotsOf (db₀.upOf .family y))) →
    ∃ pv, visit g y db = some (db.set y { o with propval := pv }) ∧
      Post (db.slotsOf (db₀.upOf .family y)) y pv

def Passes {γ : Type} (db₀ : Db) (root : Objid) (arg : Object → Object → γ → γ)
    (Arg : Objid → γ → Prop) : Prop :=
  ∀ ⦃y c g o oc⦄, db₀.Below root y → c ∈ db₀.dom → db₀.upOf .family c = y → Arg y g →
    ((db₀.objects y).map Object.withoutSlots = some o.withoutSlots) →
    db₀.objects c = some oc → Arg c (arg o oc g)

/-- Visits of some kind, from the objects of a list on, have led from `db` to `db'`: nothing else is another one, and
each object there has the slots that it is to have. -/
structure Visited (db₀ : Db) (Post : List Pval → Objid → List Pval → Prop) (roots : List Objid) (db db' : Db) : Prop where
  agree : Agree Object.withoutSlots db₀ db'
  outside : ∀ y, (∀ c ∈ roots, ¬ db₀.Below c y) → db'.objects y = db.objects y
  inside : ∀ c ∈ roots, ∀ y, db₀.Below c y → Post (db'.slotsOf (db₀.upOf .family y)) y (db'.slotsOf y)

section

variable {Post : List Pval → Objid → List Pval → Prop} {roots : List Objid} {c : Objid} {db₁ db₂ : Db} (hs : Sound db₀)
include hs

/-- The object above one below a child is below the child too, unless it is the parent of the child. -/
theorem up_below (hcr : db₀.upOf .family c = r) {y : Objid} (hy : db₀.Below c y) :
    db₀.upOf .family y = r ∨ db₀.Below c (db₀.upOf .family y) := by
  obtain rfl | ⟨c', hc', hcd', hcy⟩ := hs.below_cases hy
  · exact .inl hcr
  · refine .inr ?_
    obtain ⟨hyd, hmem⟩ := hy
    rw [hs.chain_cons hyd, List.mem_cons] at hmem
    obtain rfl | hmem := hmem
    · exact absurd hcy (hs.not_below_child hc' hcd')
    · refine ⟨(hs.up_mem hyd).resolve_left fun hn => ?_, hmem⟩
      rw [hn, hs.chain_nothing] at hmem
      cases hmem

/-- The children one after the other. -/
theorem Visited.cons {cs : List Objid} (hch : ∀ d ∈ c :: cs, d ∈ db₀.dom ∧ db₀.upOf .family d = r)
    (hother : ∀ d ∈ cs, ∀ y, db₀.Below d y → ¬ db₀.Below c y) (h : Visited db₀ Post [c] db db₁)
    (ht : Visited db₀ Post cs db₁ db₂) : Visited db₀ Post (c :: cs) db db₂ := by
  refine ⟨ht.agree, fun y hy => ?_, fun d hd y hy => ?_⟩
  · rw [ht.outside y fun d hd => hy d (.tail _ hd), h.outside y (by simpa using hy c (.head _))]
  · obtain rfl | hd := List.mem_cons.mp hd
    · have hkeep : ∀ z, z = r ∨ db₀.Below d z → db₂.slotsOf z = db₁.slotsOf z := by
        intro z hz
        rw [slotsOf, slotsOf, ht.outside z]
        intro e he hez
        obtain rfl | hz := hz
        · exact hs.not_below_child (hch e (.tail _ he)).1 (hch e (.tail _ he)).2 hez
        · exact hother e he z hez hz
      rw [hkeep _ (up_below hs (hch d (.head _)).2 hy), hkeep _ (.inr hy)]
      exact h.inside d (.head _) y hy
    · exact ht.inside d hd y hy

/-- A loop over children, where each visit finds what is below its child as it was. -/
theorem visited_children {root : Objid} {visitChild : Objid → Db → Option Db} {pv : List Pval} (hr : db₀.Below root r)
    (hvisit : ∀ {c db}, c ∈ db₀.dom → db₀.upOf .family c = r → Agree Object.withoutSlots db₀ db → db.slotsOf r = pv →
      (∀ y, db₀.Below c y → db.objects y = db₀.objects y) → (∀ z, ¬ db₀.Below root z → db.objects z = db₀.objects z) →
      ∃ db', visitChild c db = some db' ∧ Visited db₀ Post [c] db db') :
    ∀ {cs : List Objid}, cs.Nodup → (∀ c ∈ cs, c ∈ db₀.dom ∧ db₀.upOf .family c = r) → ∀ {db},
      Agree Object.withoutSlots db₀ db → db.slotsOf r = pv → (∀ c ∈ cs, ∀ y, db₀.Below c y → db.objects y = db₀.objects y) →
      (∀ z, ¬ db₀.Below root z → db.objects z = db₀.objects z) →
      ∃ db', cs.foldlM (fun db c => visitChild c db) db = some db' ∧ Visited db₀ Post cs db db' := by
  intro cs
  induction cs with
  | nil =>
      intro _ _ db ha _ _ _
      exact ⟨db, rfl, ha, fun _ _ => rfl, fun c hc => absurd hc List.not_mem_nil⟩
  | cons c cs ih =>
      intro hnd hch db ha hslots hfresh houtside
      obtain ⟨hcn, hnd⟩ := List.nodup_cons.mp hnd
      obtain ⟨hcd, hcr⟩ := hch c (.head _)
      obtain ⟨db₁, hdb₁, hvisited⟩ := hvisit hcd hcr ha hslots (hfresh c (.head _)) houtside
      have hother : ∀ d ∈ cs, ∀ y, db₀.Below d y → ¬ db₀.Below c y := by
        intro d hd y hdy hcy
        obtain ⟨hdd, hdr⟩ := hch d (.tail _ hd)
        exact hcn (hs.below_child_unique hcd hdd hcr hdr hcy hdy ▸ hd)
      have hout : ∀ y, ¬ db₀.Below c y → db₁.objects y = db.objects y := fun y hy =>
        hvisited.outside y (by simpa using hy)
      obtain ⟨db₂, hdb₂, hrest⟩ := ih hnd (fun d hd => hch d (.tail _ hd)) hvisited.agree
        (by rw [slotsOf, hout r (hs.not_below_child hcd hcr)]; exact hslots)
        (fun d hd y hy => by rw [hout y (hother d hd y hy)]; exact hfresh d (.tail _ hd) y hy)
        (fun z hz => by
          rw [hout z fun hcz => hz (hs.below_trans hr (hs.below_trans (hs.below_child hcd hcr hr.1) hcz))]
          exact houtside z hz)
      refine ⟨db₂, ?_, hvisited.cons hs hch hother hrest⟩
      rw [List.foldlM, hdb₁]
      exact hdb₂

end

theorem forSubtree_rule {γ : Type} {visit : γ → Objid → Db → Option Db}
    {arg : Object → Object → γ → γ} {Arg : Objid → γ → Prop}
    {Post : List Pval → Objid → List Pval → Prop} {root : Objid} {g : γ} (hs : Sound db₀)
    (hvisit : Visits db₀ root visit Arg Post) (hpass : Passes db₀ root arg Arg)
    (hr : db₀.Below root r) (harg : Arg r g) (ha : Agree Object.withoutSlots db₀ db)
    (hfresh : ∀ y, db₀.Below r y → db.objects y = db₀.objects y)
    (houtside : ∀ z, ¬ db₀.Below root z → db.objects z = db₀.objects z)
    (hparent : r = root ∨ ∃ q, Post q (db₀.upOf .family r) (db.slotsOf (db₀.upOf .family r)))
    (hfuel : db₀.numObjects.toNat < fuel + (db₀.chain .family r).length) :
    ∃ db', forSubtree visit arg fuel g r db = some db' ∧ Visited db₀ Post [r] db db' := by
  induction fuel generalizing r g db with
  | zero =>
      have := hs.chain_length_le (h := .family) (.inr hr.1)
      omega
  | succ n ih =>
      obtain ⟨o, ho⟩ := mem_dom.mp hr.1
      have hself := hs.below_self hr.1
      have ho' : db.objects r = some o := by rw [hfresh r hself, ho]
      obtain ⟨pv, hv, hpost⟩ := hvisit ha hr harg ho ho' houtside hparent
      set db₁ := db.set r { o with propval := pv } with hdb₁
      have ha₁ : Agree Object.withoutSlots db₀ db₁ := ha.trans (Agree.set ho' rfl)
      have hr₁ : db₁.objects r = some { o with propval := pv } := by
        rw [hdb₁, set_objects, Function.update_self]
      have hne₁ : ∀ y, y ≠ r → db₁.objects y = db.objects y := fun y hy => by
        rw [hdb₁, set_objects, Function.update_of_ne hy]
      obtain ⟨l, hl, hchain, hm⟩ := (hs.withoutSlots ha₁).listFrom_fuel (h := .family) (mem_dom_of hr₁)
      rw [headOf_of hr₁] at hl
      rw [ha₁.dom, ha₁.upOf_withoutSlots] at hm
      have hbelow : ∀ c ∈ l, db₀.Below r c ∧ ¬ db₀.Below c r := fun c hc =>
        ⟨hs.below_child ((hm c).mp hc).1 ((hm c).mp hc).2 hr.1, hs.not_below_child ((hm c).mp hc).1 ((hm c).mp hc).2⟩
      let visitChild : Objid → Db → Option Db := fun c db => (db.objects c).bind fun child =>
        forSubtree visit arg n (arg { o with propval := pv } child g) c db
      obtain ⟨db', hdb', hvisited⟩ : ∃ db', l.foldlM (fun db c => visitChild c db) db₁ = some db' ∧
          Visited db₀ Post l db₁ db' := by
        refine visited_children hs hr (fun {c db₂} hcd hcr ha₂ hslots hfr hrt => ?_) hchain.nodup (fun c hc => (hm c).mp hc)
          ha₁ (by rw [slotsOf_of hr₁]) (fun c hc y hy => ?_) fun z hz => ?_
        · obtain ⟨oc, hoc⟩ := mem_dom.mp hcd
          have hlen := hs.child_length hcd hcr
          change ∃ db', (db₂.objects c).bind _ = some db' ∧ _
          rw [hfr c (hs.below_self hcd), hoc, Option.bind_some]
          exact ih (hs.below_trans hr (hs.below_child hcd hcr hr.1)) (hpass hr hcd hcr harg (by rw [ho]; rfl) hoc) ha₂ hfr
            hrt (.inr ⟨_, by rw [hcr, hslots]; exact hpost⟩) (by omega)
        · rw [hne₁ y (fun heq => (hbelow c hc).2 (heq ▸ hy))]
          exact hfresh y (hs.below_trans (hbelow c hc).1 hy)
        · rw [hne₁ z (fun heq => hz (heq ▸ hr))]
          exact houtside z hz
      have hkeep : ∀ y, ¬ db₀.Below r y → db'.objects y = db.objects y := fun y hy => by
        rw [hvisited.outside y fun c hc hcy => hy (hs.below_trans (hbelow c hc).1 hcy),
          hne₁ y fun heq => hy (heq ▸ hself)]
      refine ⟨db', ?_, hvisited.agree, fun y hy => hkeep y (hy r (.head _)), fun r' hr' y hy => ?_⟩
      · simp only [forSubtree, hv, hr₁, Option.bind_eq_bind, Option.bind_some]
        rw [Object.head] at hl
        rw [hl]
        exact hdb'
      · obtain rfl := List.mem_singleton.mp hr'
        obtain rfl | ⟨c, hcd, hcr, hcy⟩ := hs.below_cases hy
        · -- the slots of the parent were not touched
          have hslots : db'.slotsOf y = pv := by
            rw [slotsOf, hvisited.outside y fun c hc => (hbelow c hc).2, hr₁]
            rfl
          rw [slotsOf, hkeep _ (hs.not_below_child hr.1 rfl), hslots]
          exact hpost
        · exact hvisited.inside c ((hm c).mpr ⟨hcd, hcr⟩) y hcy

end Db
end LambdaMoo
