import Mathlib.Data.Set.Insert
import LambdaMoo.Lib.Chain

/-! Nodes that each hang under at most one other node, the nodes under one node being
threaded on a list: `up` leads from a node to the one it hangs under, `head` to the
first node under it, and `next` to the next node under the same one. -/

def Threaded {α : Type*} (dom : Set α) (nil : α) (head next : α → α) (mem : α → α → Prop) : Prop :=
  ∀ y ∈ dom, ∃ ys, Chain next nil (head y) ys ∧ ∀ z, z ∈ ys ↔ mem y z

structure Hierarchy {α : Type*} (dom : Set α) (nil : α) (up head next : α → α) : Prop where
  nil_notMem : nil ∉ dom
  up_mem : ∀ {x}, x ∈ dom → up x = nil ∨ up x ∈ dom
  members : Threaded dom nil head next fun y z => z ∈ dom ∧ up z = y
  rooted : ∀ {x}, x ∈ dom → ∃ l, Chain up nil x l

namespace Threaded

variable {α : Type*} {dom : Set α} {nil : α} {head head' next next' : α → α}
  {mem mem' : α → α → Prop}

theorem congr (h : Threaded dom nil head next mem) (hhead : ∀ y ∈ dom, head' y = head y)
    (hnext : ∀ y ∈ dom, ∀ z, mem y z → next' z = next z) (hmem : ∀ y ∈ dom, ∀ z, mem' y z ↔ mem y z) :
    Threaded dom nil head' next' mem' := by
  intro y hy
  obtain ⟨ys, hys, hm⟩ := h y hy
  refine ⟨ys, ?_, fun z => (hm z).trans (hmem y hy z).symm⟩
  rw [hhead y hy]
  exact hys.congr fun z hz => hnext y hy z ((hm z).mp hz)

variable [DecidableEq α]

theorem unlink_head (h : Threaded dom nil head next mem)
    (hmem : ∀ {y y' z}, mem y z → mem y' z → y = y') {w x : α} (hw : w ∈ dom) (hx : head w = x)
    (hne : x ≠ nil) :
    Threaded dom nil (Function.update head w (next x)) (Function.update next x nil)
      fun y z => mem y z ∧ z ≠ x := by
  have hwx : mem w x := by
    obtain ⟨ys, hys, hm⟩ := h w hw
    cases hys with
    | nil => exact absurd hx.symm hne
    | cons => exact (hm x).mp (by simp [hx])
  intro y hy
  obtain ⟨ys, hys, hm⟩ := h y hy
  obtain rfl | hyw := eq_or_ne y w
  · rw [Function.update_self]
    cases hys with
    | nil => exact absurd hx.symm hne
    | @cons _ ys hne hys =>
        have hnodup := (Chain.cons hne hys).nodup
        rw [hx] at *
        have hxs := (List.nodup_cons.mp hnodup).1
        refine ⟨ys, hys.congr fun z hz => ?_, fun z => ?_⟩
        · rw [Function.update_of_ne]
          rintro rfl
          exact hxs hz
        · simp only [← hm, List.mem_cons]
          constructor
          · rintro hz
            exact ⟨.inr hz, by rintro rfl; exact hxs hz⟩
          · rintro ⟨rfl | hz, hzx⟩
            · exact absurd rfl hzx
            · exact hz
  · rw [Function.update_of_ne hyw]
    have hxs : x ∉ ys := fun hz => hyw (hmem ((hm x).mp hz) hwx)
    refine ⟨ys, hys.congr fun z hz => ?_, fun z => ?_⟩
    · rw [Function.update_of_ne]
      rintro rfl
      exact hxs hz
    · simp only [← hm]
      refine ⟨fun hz => ⟨hz, ?_⟩, And.left⟩
      rintro rfl
      exact hxs hz

theorem unlink_next (h : Threaded dom nil head next mem)
    (hmem : ∀ {y y' z}, mem y z → mem y' z → y = y') {w x p : α} {as bs : List α} (hw : w ∈ dom)
    (hx : Chain next nil (head w) (as ++ p :: x :: bs)) :
    Threaded dom nil head (Function.update (Function.update next p (next x)) x nil)
      fun y z => mem y z ∧ z ≠ x := by
  intro y hy
  obtain ⟨ys, hys, hm⟩ := h y hy
  obtain ⟨xs, hxs, hmw⟩ := h w hw
  obtain rfl := hxs.unique hx
  have hnodup := hx.nodup
  have hpx : mem w p ∧ mem w x := ⟨(hmw p).mp (by simp), (hmw x).mp (by simp)⟩
  obtain rfl | hyw := eq_or_ne y w
  · obtain rfl := hys.unique hx
    have hxas : x ∉ as ++ p :: bs := by
      have hperm : (as ++ p :: x :: bs).Perm (x :: (as ++ p :: bs)) := by
        rw [List.append_cons, List.append_cons as p bs]
        exact List.perm_middle
      exact (List.nodup_cons.mp (hnodup.perm hperm)).1
    refine ⟨as ++ p :: bs, hx.bypass.congr fun z hz => ?_, fun z => ?_⟩
    · rw [Function.update_of_ne]
      rintro rfl
      exact hxas hz
    · simp only [← hm]
      constructor
      · intro hz
        refine ⟨?_, by rintro rfl; exact hxas hz⟩
        simp only [List.mem_append, List.mem_cons] at hz ⊢
        tauto
      · rintro ⟨hz, hzx⟩
        simp only [List.mem_append, List.mem_cons] at hz ⊢
        tauto
  · have hxs : x ∉ ys := fun hz => hyw (hmem ((hm x).mp hz) hpx.2)
    have hps : p ∉ ys := fun hz => hyw (hmem ((hm p).mp hz) hpx.1)
    refine ⟨ys, hys.congr fun z hz => ?_, fun z => ?_⟩
    · rw [Function.update_of_ne, Function.update_of_ne]
      · rintro rfl
        exact hps hz
      · rintro rfl
        exact hxs hz
    · simp only [← hm]
      refine ⟨fun hz => ⟨hz, ?_⟩, And.left⟩
      rintro rfl
      exact hxs hz

theorem link_head (h : Threaded dom nil head next mem) {w x : α} (hempty : head w = nil)
    (hx : ∀ y ∈ dom, ¬ mem y x) (hne : x ≠ nil) :
    Threaded dom nil (Function.update head w x) (Function.update next x nil)
      fun y z => mem y z ∨ y = w ∧ z = x := by
  intro y hy
  obtain ⟨ys, hys, hm⟩ := h y hy
  have hxs : x ∉ ys := fun hz => hx y hy ((hm x).mp hz)
  obtain rfl | hyw := eq_or_ne y w
  · rw [hempty] at hys
    obtain rfl := hys.unique .nil
    refine ⟨[x], ?_, fun z => ?_⟩
    · rw [Function.update_self]
      refine .cons hne ?_
      rw [Function.update_self]
      exact .nil
    · simp only [← hm]
      simp
  · refine ⟨ys, ?_, fun z => ?_⟩
    · rw [Function.update_of_ne hyw]
      refine hys.congr fun z hz => Function.update_of_ne ?_ _ _
      rintro rfl
      exact hxs hz
    · simp only [← hm]
      simp [hyw]

theorem link_last (h : Threaded dom nil head next mem)
    (hmem : ∀ {y y' z}, mem y z → mem y' z → y = y') {w x p : α} {as : List α} (hw : w ∈ dom)
    (hlast : Chain next nil (head w) (as ++ [p])) (hx : ∀ y ∈ dom, ¬ mem y x) (hne : x ≠ nil) :
    Threaded dom nil head (Function.update (Function.update next p x) x nil)
      fun y z => mem y z ∨ y = w ∧ z = x := by
  intro y hy
  obtain ⟨ys, hys, hm⟩ := h y hy
  obtain ⟨xs, hxs, hmw⟩ := h w hw
  obtain rfl := hxs.unique hlast
  have hxs : x ∉ ys := fun hz => hx y hy ((hm x).mp hz)
  obtain rfl | hyw := eq_or_ne y w
  · obtain rfl := hys.unique hlast
    refine ⟨as ++ [p, x], hlast.snoc hxs hne, fun z => ?_⟩
    simp only [← hm]
    simp only [List.mem_append, List.mem_cons, List.not_mem_nil, or_false, true_and]
    tauto
  · have hps : p ∉ ys := fun hz => hyw (hmem ((hm p).mp hz) ((hmw p).mp (by simp)))
    refine ⟨ys, hys.congr fun z hz => ?_, fun z => ?_⟩
    · rw [Function.update_of_ne, Function.update_of_ne]
      · rintro rfl
        exact hps hz
      · rintro rfl
        exact hxs hz
    · simp only [← hm]
      simp [hyw]

end Threaded

namespace Hierarchy

variable {α : Type*} {dom : Set α} {nil : α} {up up' head head' next next' : α → α} {x p r : α}

theorem ne_nil (h : Hierarchy dom nil up head next) (hx : x ∈ dom) : x ≠ nil := by
  rintro rfl
  exact h.nil_notMem hx

theorem chain_subset (h : Hierarchy dom nil up head next) {l : List α} (hl : Chain up nil x l)
    (hx : x = nil ∨ x ∈ dom) : ∀ z ∈ l, z ∈ dom := by
  induction hl with
  | nil => simp
  | @cons c cs hne _ ih =>
      have hc := hx.resolve_left hne
      intro z hz
      obtain rfl | hz := List.mem_cons.mp hz
      · exact hc
      · exact ih (h.up_mem hc) z hz

theorem acyclic (h : Hierarchy dom nil up head next) (hx : x ∈ dom) :
    ¬ Relation.TransGen (fun a b => a ∈ dom ∧ up a = b) x x := by
  obtain ⟨l, hl⟩ := h.rooted hx
  have hlen {a b : α} (hab : Relation.TransGen (fun a b => a ∈ dom ∧ up a = b) a b) :
      ∀ l l', Chain up nil a l → Chain up nil b l' → l'.length < l.length := by
    induction hab with
    | @single b hab =>
        intro l l' hl hl'
        obtain ⟨ha, rfl⟩ := hab
        rw [hl.unique (.cons (h.ne_nil ha) hl'), List.length_cons]
        exact Nat.lt_succ_self _
    | @tail b c _ hbc ih =>
        intro l l' hl hl'
        obtain ⟨hb, rfl⟩ := hbc
        have := ih l _ hl (.cons (h.ne_nil hb) hl')
        rw [List.length_cons] at this
        omega
  intro hcycle
  exact absurd (hlen hcycle l l hl hl) (Nat.lt_irrefl _)

theorem head_mem (h : Hierarchy dom nil up head next) (hx : x ∈ dom) (hne : head x ≠ nil) :
    head x ∈ dom ∧ up (head x) = x := by
  obtain ⟨l, hl, hm⟩ := h.members x hx
  cases l with
  | nil => exact absurd (Chain.nil_iff.mp hl) hne
  | cons a l =>
      rw [(Chain.cons_iff.mp hl).1]
      exact (hm a).mp (by simp)

theorem next_mem (h : Hierarchy dom nil up head next) (hx : x ∈ dom) (hup : up x ∈ dom)
    (hne : next x ≠ nil) : next x ∈ dom ∧ up (next x) = up x := by
  obtain ⟨l, hl, hm⟩ := h.members (up x) hup
  obtain ⟨ys, zs, rfl⟩ := hl.exists_next ((hm x).mpr ⟨hx, rfl⟩) hne
  exact (hm (next x)).mp (by simp)

theorem next_inj (h : Hierarchy dom nil up head next) {y : α} (hx : x ∈ dom) (hy : y ∈ dom)
    (hupx : up x ∈ dom) (hupy : up y ∈ dom) (heq : next x = next y) (hne : next x ≠ nil) : x = y := by
  have hux := (h.next_mem hx hupx hne).2
  have huy := (h.next_mem hy hupy (heq ▸ hne)).2
  rw [heq, huy] at hux
  obtain ⟨l, hl, hm⟩ := h.members (up x) hupx
  obtain ⟨ys, zs, hsplit⟩ := hl.exists_next ((hm x).mpr ⟨hx, rfl⟩) hne
  obtain ⟨ys', zs', hsplit'⟩ := hl.exists_next ((hm y).mpr ⟨hy, hux⟩) (heq ▸ hne)
  have hnodup := hl.nodup
  rw [List.append_cons] at hsplit hsplit'
  rw [hsplit', ← heq] at hnodup hsplit
  rw [List.nodup_append] at hnodup
  have hcut : ys' ++ [y] = ys ++ [x] := by
    refine ((List.append_cons_inj_of_notMem ?_ ?_).mp hsplit).1
    · exact fun hmem => hnodup.2.2 _ hmem _ (by simp) rfl
    · exact (List.nodup_cons.mp hnodup.2.1).1
  exact (List.cons.inj (List.append_inj' hcut rfl).2).1.symm

theorem head_ne_next (h : Hierarchy dom nil up head next) {y : α} (hx : x ∈ dom) (hy : y ∈ dom)
    (hup : up y ∈ dom) (hne : next y ≠ nil) : head x ≠ next y := by
  intro heq
  have hux := (h.head_mem hx (heq ▸ hne)).2
  rw [heq, (h.next_mem hy hup hne).2] at hux
  obtain ⟨l, hl, hm⟩ := h.members x hx
  obtain ⟨ys, zs, rfl⟩ := hl.exists_next ((hm y).mpr ⟨hy, hux⟩) hne
  have hnodup := hl.nodup
  rw [heq] at hl
  cases ys with
  | nil =>
      rw [(Chain.cons_iff.mp hl).1] at hnodup
      simp at hnodup
  | cons c cs =>
      rw [(Chain.cons_iff.mp hl).1] at hnodup
      simp at hnodup

theorem congr (h : Hierarchy dom nil up head next) (hup : ∀ z ∈ dom, up' z = up z)
    (hhead : ∀ z ∈ dom, head' z = head z) (hnext : ∀ z ∈ dom, up z ∈ dom → next' z = next z) :
    Hierarchy dom nil up' head' next' where
  nil_notMem := h.nil_notMem
  up_mem := fun hx => by rw [hup _ hx]; exact h.up_mem hx
  members := h.members.congr hhead
    (fun y hy z hz => hnext z hz.1 (hz.2 ▸ hy))
    fun y _ z => and_congr_right fun hz => by rw [hup z hz]
  rooted := fun hx => by
    obtain ⟨l, hl⟩ := h.rooted hx
    exact ⟨l, hl.congr fun z hz => hup z (h.chain_subset hl (.inr hx) z hz)⟩

theorem insert (h : Hierarchy dom nil up head next) {n : α} (hn : n ∉ dom) (hne : n ≠ nil)
    (hupn : up' n = nil) (hheadn : head' n = nil) (hup : ∀ z ∈ dom, up' z = up z)
    (hhead : ∀ z ∈ dom, head' z = head z) (hnext : ∀ z ∈ dom, up z ∈ dom → next' z = next z) :
    Hierarchy (Insert.insert n dom) nil up' head' next' := by
  have h' := h.congr hup hhead hnext
  refine ⟨?_, ?_, ?_, ?_⟩
  · rintro (rfl | hmem)
    · exact hne rfl
    · exact h.nil_notMem hmem
  · rintro x (rfl | hx)
    · exact .inl hupn
    · exact (h'.up_mem hx).imp_right .inr
  · rintro y (rfl | hy)
    · refine ⟨[], by rw [hheadn]; exact .nil, fun z => ?_⟩
      simp only [List.not_mem_nil, false_iff, not_and]
      rintro (rfl | hz) hzy
      · exact hne (hzy.symm.trans hupn)
      · obtain hz | hz := h'.up_mem hz
        · exact hne (hzy.symm.trans hz)
        · exact hn (hzy ▸ hz)
    · obtain ⟨ys, hys, hm⟩ := h'.members y hy
      refine ⟨ys, hys, fun z => (hm z).trans ⟨fun hz => ⟨.inr hz.1, hz.2⟩, ?_⟩⟩
      rintro ⟨rfl | hz, hzy⟩
      · exact absurd hy (by rw [← hzy, hupn]; exact h.nil_notMem)
      · exact ⟨hz, hzy⟩
  · rintro x (rfl | hx)
    · exact ⟨[x], .cons hne (by rw [hupn]; exact .nil)⟩
    · exact h'.rooted hx

theorem erase (h : Hierarchy dom nil up head next) (hx : x ∈ dom) (hupx : up x = nil)
    (hheadx : head x = nil) (hup : ∀ z ∈ dom, z ≠ x → up' z = up z)
    (hhead : ∀ z ∈ dom, z ≠ x → head' z = head z)
    (hnext : ∀ z ∈ dom, z ≠ x → next' z = next z) :
    Hierarchy (dom \ {x}) nil up' head' next' := by
  have hchild : ∀ z ∈ dom, up z ≠ x := by
    intro z hz hzx
    obtain ⟨ys, hys, hm⟩ := h.members x hx
    rw [hheadx] at hys
    obtain rfl := hys.unique .nil
    exact absurd ((hm z).mpr ⟨hz, hzx⟩) (by simp)
  refine ⟨fun hn => h.nil_notMem hn.1, ?_, ?_, ?_⟩
  · rintro z ⟨hz, hzx⟩
    rw [hup z hz hzx]
    exact (h.up_mem hz).imp_right fun hz' => ⟨hz', hchild z hz⟩
  · rintro y ⟨hy, hyx⟩
    obtain ⟨ys, hys, hm⟩ := h.members y hy
    have hzx : ∀ z ∈ dom, up z = y → z ≠ x := by
      rintro z hz hzy rfl
      rw [hupx] at hzy
      exact h.nil_notMem (hzy ▸ hy)
    refine ⟨ys, ?_, fun z => (hm z).trans ?_⟩
    · rw [hhead y hy hyx]
      exact hys.congr fun z hz => hnext z ((hm z).mp hz).1 (hzx z ((hm z).mp hz).1 ((hm z).mp hz).2)
    · constructor
      · rintro ⟨hz, hzy⟩
        exact ⟨⟨hz, hzx z hz hzy⟩, by rw [hup z hz (hzx z hz hzy)]; exact hzy⟩
      · rintro ⟨⟨hz, hzx⟩, hzy⟩
        exact ⟨hz, by rw [← hup z hz hzx]; exact hzy⟩
  · rintro z ⟨hz, hzx⟩
    obtain ⟨l, hl⟩ := h.rooted hz
    have hxl : x ∉ l := by
      intro hxl
      cases hl with
      | nil => cases hxl
      | @cons _ cs hne hcs =>
          have hxc := (List.mem_cons.mp hxl).resolve_left (Ne.symm hzx)
          -- the node before `x` on the way up would hang under it
          clear hxl hzx
          induction cs generalizing z with
          | nil => cases hxc
          | cons c cs ih =>
              obtain ⟨huz, hc, hcs'⟩ := Chain.cons_iff.mp hcs
              obtain rfl | hxc := List.mem_cons.mp hxc
              · exact hchild z hz huz
              · have hcd : c ∈ dom := by
                  rw [← huz]
                  exact (h.up_mem hz).resolve_left (huz ▸ hc)
                exact ih hcd hc hcs' hxc
    refine ⟨l, hl.congr fun w hw => hup w (h.chain_subset hl (.inr hz) w hw) ?_⟩
    rintro rfl
    exact hxl hw

variable [DecidableEq α]

theorem reparent (h : Hierarchy dom nil up head next) (hp : p = nil ∨ p ∈ dom)
    (hx : x ∈ dom) (hacyc : ∀ l, Chain up nil p l → x ∉ l)
    (hlists : Threaded dom nil head' next'
      fun y z => (z ∈ dom ∧ up z = y) ∧ z ≠ x ∨ y = p ∧ z = x) :
    Hierarchy dom nil (Function.update up x p) head' next' where
  nil_notMem := h.nil_notMem
  up_mem := by
    intro z hz
    obtain rfl | hzx := eq_or_ne z x
    · rwa [Function.update_self]
    · rw [Function.update_of_ne hzx]
      exact h.up_mem hz
  members := by
    refine hlists.congr (fun _ _ => rfl) (fun _ _ _ _ => rfl) fun y hy z => ?_
    obtain rfl | hzx := eq_or_ne z x
    · simp [hx, eq_comm]
    · simp [hzx]
  rooted := by
    intro z hz
    obtain ⟨l, hl⟩ := h.rooted hz
    clear hz
    induction hl with
    | nil => exact ⟨[], .nil⟩
    | @cons c cs hne _ ih =>
        obtain rfl | hcx := eq_or_ne c x
        · obtain ⟨lp, hlp⟩ : ∃ lp, Chain up nil p lp := by
            obtain rfl | hp := hp
            · exact ⟨[], .nil⟩
            · exact h.rooted hp
          refine ⟨c :: lp, .cons hne ?_⟩
          rw [Function.update_self]
          refine hlp.congr fun w hw => Function.update_of_ne ?_ _ _
          rintro rfl
          exact hacyc lp hlp hw
        · obtain ⟨l', hl'⟩ := ih
          refine ⟨c :: l', .cons hne ?_⟩
          rwa [Function.update_of_ne hcx]

theorem rename (h : Hierarchy dom nil up head next) {old new : α} (hold : old ∈ dom)
    (hnew : new ∉ dom) (hne : new ≠ nil) (ρ : α → α) (hρ : ρ = Function.update id old new)
    (hup : ∀ z ∈ dom, up' (ρ z) = ρ (up z)) (hhead : ∀ z ∈ dom, head' (ρ z) = ρ (head z))
    (hnext : ∀ z ∈ dom, up z ∈ dom → next' (ρ z) = ρ (next z)) :
    Hierarchy (ρ '' dom) nil up' head' next' := by
  have hnil : ρ nil = nil := by
    rw [hρ, Function.update_of_ne (h.ne_nil hold).symm]
    rfl
  have hinj : ∀ a ∈ dom, ∀ b ∈ dom, ρ a = ρ b → a = b := by
    intro a ha b hb hab
    have hρ' (z : α) (hz : z ∈ dom) : ρ z = new ↔ z = old := by
      rw [hρ]
      by_cases hzo : z = old
      · simp [hzo]
      · simp only [Function.update_of_ne hzo, id, hzo, iff_false]
        rintro rfl
        exact hnew hz
    by_cases hao : a = old
    · rw [hao, (hρ' b hb).mp (hab ▸ (hρ' a ha).mpr hao)]
    · have hbo : b ≠ old := fun hbo => hao ((hρ' a ha).mp (hab ▸ (hρ' b hb).mpr hbo))
      simpa only [hρ, Function.update_of_ne hao, Function.update_of_ne hbo, id] using hab
  have hρne : ∀ z ∈ dom, ρ z ≠ nil := by
    intro z hz
    obtain rfl | hzo := eq_or_ne z old
    · rwa [hρ, Function.update_self]
    · rw [hρ, Function.update_of_ne hzo]
      exact h.ne_nil hz
  refine ⟨?_, ?_, ?_, ?_⟩
  · rintro ⟨z, hz, hzn⟩
    exact hρne z hz hzn
  · rintro _ ⟨z, hz, rfl⟩
    rw [hup z hz]
    obtain hn | hn := h.up_mem hz
    · rw [hn]
      exact .inl hnil
    · exact .inr ⟨_, hn, rfl⟩
  · rintro _ ⟨y, hy, rfl⟩
    obtain ⟨ys, hys, hm⟩ := h.members y hy
    refine ⟨ys.map ρ, ?_, fun z => ?_⟩
    · rw [hhead y hy]
      refine hys.map hnil (fun z hz => hρne z ((hm z).mp hz).1) fun z hz => ?_
      obtain ⟨hzd, hzy⟩ := (hm z).mp hz
      exact hnext z hzd (hzy ▸ hy)
    · rw [List.mem_map]
      constructor
      · rintro ⟨z, hz, rfl⟩
        obtain ⟨hzd, rfl⟩ := (hm z).mp hz
        exact ⟨⟨z, hzd, rfl⟩, hup z hzd⟩
      · rintro ⟨⟨z, hz, rfl⟩, hzy⟩
        refine ⟨z, (hm z).mpr ⟨hz, ?_⟩, rfl⟩
        rw [hup z hz] at hzy
        obtain hn | hn := h.up_mem hz
        · rw [hn, hnil] at hzy
          exact absurd hzy.symm (hρne y hy)
        · exact hinj _ hn _ hy hzy
  · rintro _ ⟨z, hz, rfl⟩
    obtain ⟨l, hl⟩ := h.rooted hz
    have hsub := h.chain_subset hl (.inr hz)
    exact ⟨l.map ρ, hl.map hnil (fun w hw => hρne w (hsub w hw)) fun w hw => hup w (hsub w hw)⟩

end Hierarchy
