import LambdaMoo.Names
import LambdaMoo.StoreTrees

/-! The slots of an object and the definitions they stand for. -/
namespace LambdaMoo

namespace Db

variable {db db' : Db} {oid a r y q : Objid} {o : Object} {name : Str}

def defsOf (db : Db) (oid : Objid) : List Propdef := (db.objects oid).elim [] Object.propdefs

def allDefs (db : Db) (oid : Objid) : List Propdef := (db.chain .family oid).flatMap db.defsOf

@[simp] theorem defsOf_of (ho : db.objects oid = some o) : db.defsOf oid = o.propdefs := by
  simp [defsOf, ho]

theorem mem_dom_of_defsOf {d : Propdef} (hd : d ∈ db.defsOf oid) : oid ∈ db.dom := by
  cases ho : db.objects oid with
  | none => simp [defsOf, ho] at hd
  | some o => exact mem_dom_of ho

theorem filterMap_flatMap_propdefs (l : List Objid) :
    (l.filterMap db.objects).flatMap (fun o => o.propdefs) = l.flatMap db.defsOf := by
  induction l with
  | nil => rfl
  | cons x xs ih =>
      cases hx : db.objects x with
      | none => simp [hx, ih, defsOf]
      | some o => simp [hx, ih, defsOf]

/-- What is defined has a name that no other definition on a way up and no built-in
property has. -/
structure Defined (db : Db) : Prop where
  tag_lt : ∀ i, ∀ d ∈ db.defsOf i, d.tag < db.nextTag
  tag_nodup : ∀ i, ((db.defsOf i).map Propdef.tag).Nodup
  tag_inj : ∀ i j, ∀ d ∈ db.defsOf i, ∀ d' ∈ db.defsOf j, d.tag = d'.tag → i = j
  terminated : ∀ i, ∀ d ∈ db.defsOf i, Terminated d.name
  names : ∀ i ∈ db.dom, (db.allDefs i).Pairwise fun d e => sameName d.name e.name = false
  reserved : ∀ i, ∀ d ∈ db.defsOf i, ∀ e ∈ ptable, sameName e.1 d.name = false

/-- The slots of every object are those of the definitions met walking up, in that
order, and the definer's own slot has a value. -/
structure Slotted (db : Db) : Prop extends Defined db where
  tags : ∀ i ∈ db.dom, (db.slotsOf i).map Pval.tag = (db.allDefs i).map Propdef.tag
  notClear : ∀ i, ∀ p ∈ (db.slotsOf i).take (db.defsOf i).length, p.var ≠ .clear

theorem ptable_terminated : ∀ e ∈ ptable, Terminated e.1 := by decide

namespace Sound

variable (hs : Sound db)
include hs

@[simp] theorem allDefs_nothing : db.allDefs nothing = [] := by
  rw [allDefs, hs.chain_nothing]
  rfl

theorem allDefs_cons (ha : a ∈ db.dom) :
    db.allDefs a = db.defsOf a ++ db.allDefs (db.upOf .family a) := by
  rw [allDefs, hs.chain_cons ha, List.flatMap_cons]
  rfl

theorem countProperties_eq (ha : a = nothing ∨ a ∈ db.dom) :
    db.countProperties a = some (db.allDefs a).length := by
  simp only [countProperties, hs.ancestry_eq ha, allDefs, ← filterMap_flatMap_propdefs,
    List.length_flatMap, Option.bind_eq_bind, Option.bind_some, Option.pure_def]

theorem propertyDefinedAtOrBelow_false
    (hf : db.propertyDefinedAtOrBelow name r = some false) (hb : db.Below r y) :
    ∀ d ∈ db.defsOf y, nameMatches d.name name = false := by
  obtain ⟨o, ho⟩ := mem_dom.mp hb.1
  have := hs.anyBelow_false hf hb ho
  rw [defsOf_of ho]
  simpa using this

theorem propertyDefinedAtOrBelow_isSome (hr : r ∈ db.dom) :
    (db.propertyDefinedAtOrBelow name r).isSome := by
  refine hs.anyBelow_isSome (fun _ => rfl) hr ?_
  unfold fuel
  omega

end Sound

def FoundAt (db : Db) (name : Str) (oid : Objid) (n : Nat) (q : Objid) : Prop :=
  ∃ p rest i, db.chain .family oid = p ++ q :: rest ∧ n = (p.flatMap db.defsOf).length + i ∧
    ((db.defsOf q).findIdx? fun d => nameMatches d.name name) = some i ∧
    ∀ d ∈ p.flatMap db.defsOf, nameMatches d.name name = false

theorem FoundAt.mem {n : Nat} (hf : FoundAt db name oid n q) : q ∈ db.chain .family oid := by
  obtain ⟨p, rest, i, hc, -⟩ := hf
  rw [hc]
  simp

theorem FoundAt.getElem {n : Nat} (hf : FoundAt db name oid n q) :
    ∃ d ∈ db.defsOf q, (db.allDefs oid)[n]? = some d ∧ nameMatches d.name name = true := by
  obtain ⟨p, rest, i, hc, rfl, hi, -⟩ := hf
  obtain ⟨hlt, hd, -⟩ := List.findIdx?_eq_some_iff_getElem.mp hi
  refine ⟨(db.defsOf q)[i], List.getElem_mem hlt, ?_, hd⟩
  rw [allDefs, hc, List.flatMap_append, List.flatMap_cons, List.getElem?_append_right (by omega),
    Nat.add_sub_cancel_left, List.getElem?_append_left hlt, List.getElem?_eq_getElem hlt]

theorem slotsOf_nothing (ho : oid ∉ db.dom) : db.slotsOf oid = [] := by
  have : db.objects oid = none := by simpa [dom] using ho
  simp [slotsOf, this]

theorem defsOf_nothing (ho : oid ∉ db.dom) : db.defsOf oid = [] := by
  have : db.objects oid = none := by simpa [dom] using ho
  simp [defsOf, this]

theorem findPropdef_spec (hs : Sound db) (ha : a = nothing ∨ a ∈ db.dom) (n : Nat) {fuel : Nat}
    (hfuel : (db.chain .family a).length < fuel) :
    (db.findPropdef name fuel a n = some none ∧
        ∀ d ∈ db.allDefs a, nameMatches d.name name = false) ∨
      ∃ k q, db.findPropdef name fuel a n = some (some (n + k, q)) ∧ FoundAt db name a k q := by
  induction fuel generalizing a n with
  | zero => simp at hfuel
  | succ m ih =>
      obtain rfl | had := ha
      · refine .inl ⟨?_, by simp [hs]⟩
        simp [findPropdef, find, nothing]
      · obtain ⟨o, ho⟩ := mem_dom.mp had
        have hcons := hs.chain_cons (h := .family) had
        have hup : db.upOf .family a = o.parent := upOf_of ho
        simp only [findPropdef, hs.find_eq, ho]
        cases hi : o.propdefs.findIdx? fun d => nameMatches d.name name with
        | some i =>
            refine .inr ⟨i, a, by rw [(hs.ids ho).1], [], _, i, hcons, by simp, ?_, by simp⟩
            rwa [defsOf_of ho]
        | none =>
            have hno := List.findIdx?_eq_none_iff.mp hi
            have hlen : (db.chain .family o.parent).length < m := by
              rw [hcons, List.length_cons, hup] at hfuel
              omega
            obtain ⟨hfind, hall⟩ | ⟨k, q, hfind, p, rest, i, hc, hk, hi', hp⟩ :=
              ih (hup ▸ hs.up_mem had) (n + o.propdefs.length) hlen
            · refine .inl ⟨hfind, ?_⟩
              rw [hs.allDefs_cons had, defsOf_of ho, hup]
              intro d hd
              obtain hd | hd := List.mem_append.mp hd
              · exact hno d hd
              · exact hall d hd
            · refine .inr ⟨o.propdefs.length + k, q, by rw [hfind, Nat.add_assoc], a :: p, rest, i, ?_, ?_,
                hi', ?_⟩
              · rw [hcons, hup, hc]
                rfl
              · rw [List.flatMap_cons, List.length_append, defsOf_of ho]
                omega
              · intro d hd
                rw [List.flatMap_cons, defsOf_of ho] at hd
                obtain hd | hd := List.mem_append.mp hd
                · exact hno d hd
                · exact hp d hd

theorem findProperty_spec (hs : Sound db) (ha : a ∈ db.dom) (name : Str) :
    (∃ e ∈ ptable, nameMatches e.1 name = true ∧
        db.findProperty a name = some (some (.builtIn e.2 a))) ∨
      (∀ e ∈ ptable, nameMatches e.1 name = false) ∧
        ((db.findProperty a name = some none ∧
            ∀ d ∈ db.allDefs a, nameMatches d.name name = false) ∨
          ∃ k q, db.findProperty a name = some (some (.slot a k q)) ∧ FoundAt db name a k q) := by
  cases hb : ptable.find? fun e => nameMatches e.1 name with
  | some e =>
      refine .inl ⟨e, List.mem_of_find?_eq_some hb, by simpa using List.find?_some hb, ?_⟩
      simp [findProperty, hb]
  | none =>
      have hfuel : (db.chain .family a).length < db.fuel := by
        have := hs.chain_length_le (h := .family) (.inr ha)
        unfold fuel
        omega
      refine .inr ⟨by simpa using hb, ?_⟩
      obtain ⟨hfind, hall⟩ | ⟨k, q, hfind, hf⟩ := findPropdef_spec hs (.inr ha) 0 hfuel
      · exact .inl ⟨by simp [findProperty, hb, hfind], hall⟩
      · exact .inr ⟨k, q, by simp [findProperty, hb, hfind], hf⟩

theorem findProperty_none (hs : Sound db) (ha : a ∈ db.dom)
    (hf : db.findProperty a name = some none) :
    (∀ e ∈ ptable, nameMatches e.1 name = false) ∧
      ∀ d ∈ db.allDefs a, nameMatches d.name name = false := by
  obtain ⟨e, -, -, hfe⟩ | ⟨hb, ⟨-, hall⟩ | ⟨k, q, hfk, -⟩⟩ := findProperty_spec hs ha name
  · rw [hf] at hfe
    cases hfe
  · exact ⟨hb, hall⟩
  · rw [hf] at hfk
    cases hfk

theorem findProperty_slot (hs : Sound db) (ha : a ∈ db.dom) {b : Objid} {n : Nat}
    (hf : db.findProperty a name = some (some (.slot b n q))) : b = a ∧ FoundAt db name a n q := by
  obtain ⟨e, -, -, hfe⟩ | ⟨hb, ⟨hfn, -⟩ | ⟨k, q', hfk, hat⟩⟩ := findProperty_spec hs ha name
  · rw [hf] at hfe
    cases hfe
  · rw [hf] at hfn
    cases hfn
  · rw [hf] at hfk
    simp only [Option.some.injEq, PropHandle.slot.injEq] at hfk
    obtain ⟨rfl, rfl, rfl⟩ := hfk
    exact ⟨rfl, hat⟩

theorem Slotted.length (hp : Slotted db) (ho : db.objects oid = some o) :
    o.propval.length = (db.allDefs oid).length := by
  have := congrArg List.length (hp.tags oid (mem_dom_of ho))
  simpa [slotsOf_of ho] using this

/-- Where the value of a property is taken from: the first object on the way up whose
slot is not `CLEAR`. The slot is the `n`-th of the object the walk starts from. -/
def ValueAt (db : Db) (n : Nat) (oid x : Objid) (v : Var) : Prop :=
  ∃ p rest m pv, db.chain .family oid = p ++ x :: rest ∧ n = (p.flatMap db.defsOf).length + m ∧
    (db.slotsOf x)[m]? = some pv ∧ pv.var = v ∧ v ≠ .clear ∧
    ∀ p₁ z p₂, p = p₁ ++ z :: p₂ → ∀ j, n = (p₁.flatMap db.defsOf).length + j →
      ∃ pz, (db.slotsOf z)[j]? = some pz ∧ pz.var = .clear

theorem followClear_spec (hs : Sound db) (hp : Slotted db) (ho : db.objects a = some o) {n i : Nat}
    {p rest : List Objid} (hc : db.chain .family a = p ++ q :: rest)
    (hn : n = (p.flatMap db.defsOf).length + i) (hi : i < (db.defsOf q).length) {fuel : Nat}
    (hfuel : (db.chain .family a).length ≤ fuel) :
    ∃ v x, db.followClear fuel o n = some v ∧ ValueAt db n a x v := by
  induction fuel generalizing a o n p with
  | zero =>
      rw [hc] at hfuel
      simp at hfuel
  | succ m ih =>
      have had := mem_dom_of ho
      have hup : db.upOf .family a = o.parent := upOf_of ho
      have hlt : n < o.propval.length := by
        rw [hp.length ho, allDefs, hc, hn]
        simp only [List.flatMap_append, List.flatMap_cons, List.length_append]
        omega
      have hcons := hs.chain_cons (h := .family) had
      have hread : ((n : Int) < 0) = False := by simp
      by_cases hclear : o.propval[n].var = .clear
      · cases p with
        | nil =>
            -- the definer's own slot is not clear
            rw [hcons] at hc
            obtain ⟨rfl, -⟩ := List.cons.inj hc
            rw [defsOf_of ho] at hi
            refine absurd hclear (hp.notClear a _ ?_)
            rw [defsOf_of ho, slotsOf_of ho, List.mem_take_iff_getElem]
            exact ⟨n, by simp at hn; omega, rfl⟩
        | cons b p =>
            rw [hcons, hup, List.cons_append, List.cons.injEq] at hc
            obtain ⟨hab, hc⟩ := hc
            rw [← hab, List.flatMap_cons, defsOf_of ho, List.length_append] at hn
            have hpar : o.parent ∈ db.dom := by
              have hmem : o.parent = nothing ∨ o.parent ∈ db.dom := hup ▸ hs.up_mem had
              refine hmem.resolve_left fun hnone => ?_
              rw [hnone, hs.chain_nothing] at hc
              simp at hc
            obtain ⟨op, hop⟩ := mem_dom.mp hpar
            obtain ⟨n', rfl⟩ : ∃ n', n = n' + o.propdefs.length := ⟨n - o.propdefs.length, by omega⟩
            have hlen : (db.chain .family o.parent).length ≤ m := by
              rw [hcons, List.length_cons, hup] at hfuel
              omega
            obtain ⟨v, x, hv, p', rest', k, pv, hc', hn', hpv, hvar, hne, hbefore⟩ :=
              ih hop (n := n') (p := p) hc (by omega) hlen
            refine ⟨v, x, ?_, a :: p', rest', k, pv, ?_, ?_, hpv, hvar, hne, ?_⟩
            · simp only [followClear, hread, if_false, Int.toNat_natCast, List.getElem?_eq_getElem hlt,
                Option.bind_eq_bind, Option.bind_some, hclear, hs.find_eq, hop]
              rw [← hv]
              congr 1
              omega
            · rw [hcons, hup, hc']
              rfl
            · rw [List.flatMap_cons, defsOf_of ho, List.length_append]
              omega
            · intro p₁ z p₂ hsplit j hj
              cases p₁ with
              | nil =>
                  obtain ⟨rfl, -⟩ := List.cons.inj hsplit
                  simp only [List.flatMap_nil, List.length_nil, Nat.zero_add] at hj
                  subst hj
                  exact ⟨_, by rw [slotsOf_of ho]; exact List.getElem?_eq_getElem hlt, hclear⟩
              | cons b p₁ =>
                  rw [List.cons_append, List.cons.injEq] at hsplit
                  rw [← hsplit.1, List.flatMap_cons, defsOf_of ho, List.length_append] at hj
                  exact hbefore p₁ z p₂ hsplit.2 j (by omega)
      · refine ⟨o.propval[n].var, a, ?_, [], _, n, o.propval[n], hcons, by simp, ?_, rfl, hclear, ?_⟩
        · simp only [followClear, hread, if_false, Int.toNat_natCast, List.getElem?_eq_getElem hlt,
            Option.bind_eq_bind, Option.bind_some]
          rfl
        · rw [slotsOf_of ho]
          exact List.getElem?_eq_getElem hlt
        · intro p₁ z p₂ hsplit
          simp at hsplit

end Db
end LambdaMoo
