import LambdaMoo.TaskBalance

/-! The order of the active queues, and how many tasks a queue is charged for. -/
namespace LambdaMoo

namespace Server

variable {s s' : Server} {q x : Nat} {tq tq' : Tqueue} {t : BgTask} {bare : Prop} {newPlayer : Objid}
  {dead : Option (Nat × Tqueue)}

/-! Usage. -/

/-- The active queues are sorted by usage, and none has that of an idle one. -/
structure Ranked (s : Server) : Prop where
  usage : ∀ q ∈ s.active, s.usageOf q ≠ noUsage
  sorted : s.active.Pairwise fun a b => s.usageOf a ≤ s.usageOf b

theorem insertByUsage_sorted {f : Nat → Int} {l : List Nat} (hl : l.Pairwise fun a b => f a ≤ f b) :
    (insertByUsage f (f q) q l).Pairwise fun a b => f a ≤ f b := by
  induction l with
  | nil => exact List.pairwise_singleton ..
  | cons x l ih =>
      rw [List.pairwise_cons] at hl
      unfold insertByUsage
      split
      · next hle =>
          refine List.pairwise_cons.mpr ⟨fun y hy => ?_, ih hl.2⟩
          obtain rfl | hy := mem_insertByUsage.mp hy
          · exact hle
          · exact hl.1 y hy
      · next hlt =>
          refine List.pairwise_cons.mpr ⟨fun y hy => ?_, List.pairwise_cons.mpr hl⟩
          cases hy with
          | head => omega
          | tail _ hy =>
              have hxy := hl.1 y hy
              omega

namespace Ranked

theorem congr (h : Ranked s) (hsub : s'.active.Sublist s.active)
    (hu : ∀ x ∈ s'.active, s'.usageOf x = s.usageOf x) : Ranked s' where
  usage x hx := by
    rw [hu x hx]
    exact h.usage x (hsub.subset hx)
  sorted := by
    refine (h.sorted.sublist hsub).imp_of_mem fun ha hb hle => ?_
    rwa [hu _ ha, hu _ hb]

theorem write (h : Ranked s) (hq : s.queues q = some tq) (hqueues : s'.queues = (s.setQueue q tq').queues)
    (ha : s'.active = s.active) (hu : tq'.usage = tq.usage) : Ranked s' :=
  h.congr (ha ▸ .refl _) fun _ _ => usageOf_write hq hqueues hu

theorem other (h : Ranked s) (hsub : s'.active.Sublist s.active) (hne : ∀ x ∈ s'.active, x ≠ q)
    (hqueues : ∀ x ≠ q, s'.queues x = s.queues x) : Ranked s' := by
  refine h.congr hsub fun x hx => ?_
  unfold usageOf
  rw [hqueues x (hne x hx)]

theorem insert (h : Ranked s) (hu : s.usageOf q ≠ noUsage) : Ranked (activateTqueue q s) where
  usage x hx := by
    obtain rfl | hx := mem_insertByUsage.mp hx
    · exact hu
    · exact h.usage x hx
  sorted := insertByUsage_sorted h.sorted

theorem placed (h : Ranked s) {usage : Int} (hu : usage ≠ noUsage) {idle active : List Nat}
    (hsub : active.Sublist s.active) (hne : ∀ x ∈ active, x ≠ q) :
    Ranked (activateTqueue q { s.setQueue q { tq with usage } with idle, active }) := by
  have hrest : Ranked { s.setQueue q { tq with usage } with idle, active } :=
    h.other hsub hne fun x hx => Function.update_of_ne hx ..
  have hself : usageOf { s.setQueue q { tq with usage } with idle, active } q = usage := by
    unfold usageOf setQueue
    simp
  exact hrest.insert fun hnone => hu (hself.symm.trans hnone)

theorem headUsage_ne (h : Ranked s) : s.headUsage ≠ noUsage := by
  unfold headUsage
  split
  · decide
  · next a rest ha =>
      refine h.usage a ?_
      rw [ha]
      exact .head rest

theorem leaving (h : Ranked s) (hfresh : s.nextQueue ∉ s.active) (flushCmd : Option Str) (tq : Tqueue) :
    Ranked (leaving flushCmd tq s) := by
  have ha : (Server.leaving flushCmd tq s).active = s.active := active_leaving
  refine h.other (ha ▸ .refl _) (fun x hx => ?_) fun x hx => queues_leaving hx
  rintro rfl
  exact hfresh (ha ▸ hx)

theorem login (hw : Wired s) (h : Ranked s) (flushCmd : Option Str) (hq : s.queues q = some tq)
    (hold : tq.player ≠ newPlayer)
    (hd : ∀ d tqd, dead = some (d, tqd) → s.queues d = some tqd ∧ tqd.player = newPlayer) :
    Ranked (Server.leaving flushCmd tq ((s.retiring dead).setQueue q (heir tq newPlayer dead))) := by
  have hretired : Ranked (s.retiring dead) ∧ (s.retiring dead).active = s.active ∧
      (s.retiring dead).nextQueue = s.nextQueue := by
    match dead with
    | none => exact ⟨h, rfl, rfl⟩
    | some (d, tqd) => exact ⟨h.write (hd d tqd rfl).1 rfl rfl rfl, rfl, rfl⟩
  obtain ⟨h₁, ha, hn⟩ := hretired
  have hheir : Ranked ((s.retiring dead).setQueue q (heir tq newPlayer dead)) :=
    h₁.write (queues_retiring hq hold hd) rfl rfl rfl
  refine hheir.leaving ?_ flushCmd tq
  change (s.retiring dead).nextQueue ∉ (s.retiring dead).active
  rw [hn, ha]
  exact hw.nextQueue_not_active

theorem change (hw : Wired s) (hc : Change bare True s s') (h : Ranked s) : Ranked s' := by
  cases hc with
  | edit hq hcore _ =>
      simp only [Tqueue.core, Prod.mk.injEq] at hcore
      exact h.write hq rfl rfl hcore.2.2.2.1
  | note | killStray => exact h.congr (.refl _) fun _ _ => rfl
  | create flushCmd hl =>
      refine h.other (.refl _) (fun x hx => ?_) fun x hne => Function.update_of_ne hne ..
      rintro rfl
      exact hw.nextQueue_not_active hx
  | activate hq hi =>
      rename_i q tq
      have hne : ∀ x ∈ s.active, x ≠ q := by
        rintro x hx rfl
        exact hw.not_active_of_idle hi hx
      exact h.placed h.headUsage_ne (.refl _) hne
  | wait hq | arrive hq | wake hq | killWaiting hq => exact h.write hq rfl rfl rfl
  | endBg bg hq | renew bg hq => exact h.write hq rfl rfl rfl
  | startReading vm hq | stopReading vm hq => exact h.write hq rfl rfl rfl
  | connect hd hq | disconnect hd hh hq => exact h.write hq rfl rfl rfl
  | deactivate rest hq ha hc hb hr =>
      refine h.other (ha ▸ List.sublist_cons_self ..) (fun x hx => ?_) fun x hne => Function.update_of_ne hne ..
      exact hw.ne_of_mem_rest ha hx
  | free hq hi hc hn =>
      refine h.other (.refl _) (fun x hx heq => ?_) fun x hne => Function.update_of_ne hne ..
      exact hw.not_active_of_idle hi (heq ▸ hx)
  | done usage rest hq ha hu =>
      rename_i q tq
      have hplaced : Ranked (activateTqueue q { s.setQueue q { tq with usage } with active := rest }) :=
        h.placed (hu trivial) (ha ▸ List.sublist_cons_self ..) fun x hx => hw.ne_of_mem_rest ha hx
      exact ⟨hplaced.usage, hplaced.sorted⟩
  | login hd newPlayer dead flushCmd hq hh ht hold hnew hcur hl hdead hbare hn =>
      have hlogin := h.login hw flushCmd hq (fun heq => absurd hold (by lia))
        fun d tqd he => ⟨(hdead d tqd he).1, (hdead d tqd he).2.1⟩
      exact ⟨hlogin.usage, hlogin.sorted⟩

end Ranked

/-! Counts. -/

def waitingOf (s : Server) (player : Objid) : Nat := s.waiting.countP fun t => t.progr = player

/-- Each queue is charged for the tasks that wait and for those it has. -/
structure Charged (s : Server) : Prop where
  counts : ∀ q tq, s.queues q = some tq → tq.numBgTasks = s.waitingOf tq.player + tq.bg.cells.length
  owned : ∀ t ∈ s.waiting, ∃ q tq, s.queues q = some tq ∧ tq.player = t.progr
  alone : ∀ t ∈ s.waiting, t.progr = nothing → s.Single nothing

theorem waitingOf_eq_zero {player : Objid} : s.waitingOf player = 0 ↔ ∀ t ∈ s.waiting, t.progr ≠ player := by
  unfold waitingOf
  rw [List.countP_eq_zero]
  simp

theorem countP_insertWaiting (t : BgTask) (l : List BgTask) (player : Objid) :
    (insertWaiting t l).countP (fun t => t.progr = player) =
      l.countP (fun t => t.progr = player) + if t.progr = player then 1 else 0 := by
  rw [(insertWaiting_perm t l).countP_eq, List.countP_cons]
  simp

theorem countP_eraseIdx {i : Nat} {l : List BgTask} (h : l[i]? = some t) (player : Objid) :
    l.countP (fun t => t.progr = player) =
      (l.eraseIdx i).countP (fun t => t.progr = player) + if t.progr = player then 1 else 0 := by
  obtain ⟨hi, rfl⟩ := List.getElem?_eq_some_iff.mp h
  rw [← (List.getElem_cons_eraseIdx_perm hi).countP_eq, List.countP_cons]
  simp

namespace Charged

theorem single (hc : Coherent s) (h : Charged s) (ht : t ∈ s.waiting) : s.Single t.progr := by
  by_cases hn : t.progr = nothing
  · rw [hn]
    exact h.alone t ht hn
  · intro x x' tqx tqx' hx hx' hp hp'
    exact hc.agreed.single x x' t.progr _ _ (hp ▸ face_of hx) (hp' ▸ face_of hx') hn

theorem write (h : Charged s) (hq : s.queues q = some tq) (hqueues : s'.queues = (s.setQueue q tq').queues)
    (hp : tq'.player = tq.player) (hself : tq'.numBgTasks = s'.waitingOf tq.player + tq'.bg.cells.length)
    (hother : ∀ x tqx, x ≠ q → s.queues x = some tqx → s'.waitingOf tqx.player = s.waitingOf tqx.player)
    (hwait : ∀ t ∈ s'.waiting, t ∈ s.waiting ∨ t.progr = tq.player ∧ (t.progr = nothing → s.Single nothing)) :
    Charged s' := by
  have hplayer : ∀ x tqx, s'.queues x = some tqx → ∃ tqx', s.queues x = some tqx' ∧ tqx'.player = tqx.player := by
    intro x tqx hx
    rw [hqueues, queues_setQueue] at hx
    split at hx
    · next heq =>
        cases hx
        exact ⟨tq, heq ▸ hq, hp.symm⟩
    · exact ⟨tqx, hx, rfl⟩
  have hsingle : s.Single nothing → s'.Single nothing := by
    intro hs x x' tqx tqx' hx hx' hpx hpx'
    obtain ⟨tqx₁, hx₁, hp₁⟩ := hplayer x tqx hx
    obtain ⟨tqx₂, hx₂, hp₂⟩ := hplayer x' tqx' hx'
    exact hs x x' tqx₁ tqx₂ hx₁ hx₂ (hp₁.trans hpx) (hp₂.trans hpx')
  constructor
  case counts =>
    intro x tqx hx
    rw [hqueues, queues_setQueue] at hx
    split at hx
    · cases hx
      rw [hp]
      exact hself
    · next hne =>
        rw [hother x tqx hne hx]
        exact h.counts x tqx hx
  case owned =>
    intro t ht
    have hold : ∃ x tqx, s.queues x = some tqx ∧ tqx.player = t.progr := by
      obtain ht | ⟨hpt, -⟩ := hwait t ht
      · exact h.owned t ht
      · exact ⟨q, tq, hq, hpt.symm⟩
    obtain ⟨x, tqx, hx, hpx⟩ := hold
    by_cases heq : x = q
    · refine ⟨q, tq', by rw [hqueues, queues_setQueue, if_pos rfl], ?_⟩
      rw [heq, hq] at hx
      cases hx
      exact hp.trans hpx
    · exact ⟨x, tqx, by rw [hqueues, queues_setQueue, if_neg heq, hx], hpx⟩
  case alone =>
    intro t ht hn
    obtain ht | ⟨-, hs⟩ := hwait t ht
    · exact hsingle (h.alone t ht hn)
    · exact hsingle (hs hn)

theorem rewrite (h : Charged s) (hq : s.queues q = some tq) (hqueues : s'.queues = (s.setQueue q tq').queues)
    (hw : s'.waiting = s.waiting) (hp : tq'.player = tq.player) (hn : tq'.numBgTasks = tq.numBgTasks)
    (hb : tq'.bg.cells.length = tq.bg.cells.length) : Charged s' := by
  have hcount : ∀ p, s'.waitingOf p = s.waitingOf p := fun p => by rw [waitingOf, waitingOf, hw]
  refine h.write hq hqueues hp ?_ (fun x tqx _ _ => hcount _) fun t ht => .inl (hw ▸ ht)
  rw [hn, hb, hcount]
  exact h.counts q tq hq

theorem create (h : Charged s) {player : Objid} (flushCmd : Option Str) (hl : s.Lacks player)
    (hnone : s.queues s.nextQueue = none) : Charged (created player flushCmd s) := by
  have hqueues : ∀ x, (s.created player flushCmd).queues x =
      if x = s.nextQueue then some (newTqueue player flushCmd) else s.queues x :=
    fun x => Function.update_apply ..
  have hzero : s.waitingOf player = 0 := by
    refine waitingOf_eq_zero.mpr fun t ht hp => ?_
    obtain ⟨q, tq, hq, hown⟩ := h.owned t ht
    exact hl q tq hq (hown.trans hp)
  constructor
  case counts =>
    intro x tqx hx
    rw [hqueues] at hx
    split at hx
    · cases hx
      change (0 : Int) = s.waitingOf player + _
      rw [hzero]
      rfl
    · exact h.counts x tqx hx
  case owned =>
    intro t ht
    obtain ⟨q, tq, hq, hp⟩ := h.owned t ht
    refine ⟨q, tq, ?_, hp⟩
    rw [hqueues, if_neg, hq]
    rintro rfl
    rw [hnone] at hq
    contradiction
  case alone =>
    intro t ht hn x x' tqx tqx' hx hx' hpx hpx'
    have hne : player ≠ nothing := by
      rintro rfl
      obtain ⟨q, tq, hq, hp⟩ := h.owned t ht
      exact hl q tq hq (hp.trans hn)
    have hold : ∀ {x tqx}, (s.created player flushCmd).queues x = some tqx → tqx.player = nothing →
        s.queues x = some tqx := by
      intro x tqx hx hpx
      rw [hqueues] at hx
      split at hx
      · cases hx
        exact absurd hpx hne
      · exact hx
    exact h.alone t ht hn x x' tqx tqx' (hold hx hpx) (hold hx' hpx') hpx hpx'

theorem free (h : Charged s) (hq : s.queues q = some tq) (hn : tq.numBgTasks = 0) : Charged (s.freeTqueue q) := by
  have hqueues : ∀ x, (s.freeTqueue q).queues x = if x = q then none else s.queues x :=
    fun x => Function.update_apply ..
  have hkept : ∀ {x tqx}, (s.freeTqueue q).queues x = some tqx → s.queues x = some tqx := by
    intro x tqx hx
    rw [hqueues] at hx
    split at hx
    · contradiction
    · exact hx
  have hcount := h.counts q tq hq
  have hzero : s.waitingOf tq.player = 0 := by omega
  constructor
  case counts => exact fun x tqx hx => h.counts x tqx (hkept hx)
  case owned =>
    intro t ht
    obtain ⟨x, tqx, hx, hp⟩ := h.owned t ht
    refine ⟨x, tqx, ?_, hp⟩
    rw [hqueues, if_neg, hx]
    rintro rfl
    rw [hq] at hx
    cases hx
    exact waitingOf_eq_zero.mp hzero t ht hp.symm
  case alone =>
    exact fun t ht ht' x x' tqx tqx' hx hx' => h.alone t ht ht' x x' tqx tqx' (hkept hx) (hkept hx')

theorem waitingOf_other (hs : s.Single t.progr) (hq : s.queues q = some tq) (hp : tq.player = t.progr)
    {tqx : Tqueue} (hne : x ≠ q) (hx : s.queues x = some tqx) : t.progr ≠ tqx.player :=
  fun heq => hne (hs x q tqx tq hx hq heq.symm hp)

theorem leaving_queues (flushCmd : Option Str) (tq : Tqueue) (x : Nat) :
    (leaving flushCmd tq s).queues x =
      if tq.numBgTasks ≠ 0 ∧ x = s.nextQueue then some { newTqueue tq.player flushCmd with
        bg := ⟨tq.bg.cells, tq.bg.cells.length⟩, numBgTasks := tq.numBgTasks } else s.queues x := by
  unfold leaving
  by_cases hn : tq.numBgTasks = 0
  · simp [hn]
  · rw [if_neg hn, queues_setQueue]
    by_cases hx : x = s.nextQueue
    · rw [if_pos hx, if_pos ⟨hn, hx⟩]
    · rw [if_neg hx, if_neg fun h => hx h.2]
      exact Function.update_of_ne hx ..

theorem login_queues (flushCmd : Option Str) (x : Nat) :
    (leaving flushCmd tq ((s.retiring dead).setQueue q (heir tq newPlayer dead))).queues x =
      if tq.numBgTasks ≠ 0 ∧ x = s.nextQueue then some { newTqueue tq.player flushCmd with
        bg := ⟨tq.bg.cells, tq.bg.cells.length⟩, numBgTasks := tq.numBgTasks }
      else if x = q then some (heir tq newPlayer dead)
      else if dead.map Prod.fst = some x then
        dead.map fun d => { d.2 with player := nothing, bg := .empty, numBgTasks := 0 }
      else s.queues x := by
  have hretired : (s.retiring dead).nextQueue = s.nextQueue ∧ (s.retiring dead).queues x =
      if dead.map Prod.fst = some x then
        dead.map fun d => { d.2 with player := nothing, bg := .empty, numBgTasks := 0 }
      else s.queues x := by
    match dead with
    | none => exact ⟨rfl, rfl⟩
    | some (d, tqd) =>
        refine ⟨rfl, ?_⟩
        rw [retiring, queues_setQueue]
        by_cases hx : x = d
        · simp [hx]
        · simp [hx, Ne.symm hx]
  have hnext : ((s.retiring dead).setQueue q (heir tq newPlayer dead)).nextQueue = s.nextQueue := hretired.1
  rw [leaving_queues]
  simp only [hnext, queues_setQueue, hretired.2]

theorem login_waiting (flushCmd : Option Str) :
    (leaving flushCmd tq ((s.retiring dead).setQueue q (heir tq newPlayer dead))).waiting = s.waiting := by
  have hretired : (s.retiring dead).waiting = s.waiting := by
    match dead with
    | none => rfl
    | some (d, tqd) => rfl
  rw [← hretired]
  unfold leaving
  split <;> rfl

theorem login (h : Charged s) (flushCmd : Option Str) (hq : s.queues q = some tq)
    (hnone : s.queues s.nextQueue = none) (hnew : newPlayer ≠ nothing)
    (hl : dead = none → s.Lacks newPlayer)
    (hd : ∀ d tqd, dead = some (d, tqd) → s.queues d = some tqd ∧ tqd.player = newPlayer)
    (hn : dead.isSome → ∀ t ∈ s.waiting, t.progr ≠ nothing) :
    Charged (leaving flushCmd tq ((s.retiring dead).setQueue q (heir tq newPlayer dead))) := by
  obtain ⟨s', hs'⟩ : ∃ s', s' = leaving flushCmd tq ((s.retiring dead).setQueue q (heir tq newPlayer dead)) :=
    ⟨_, rfl⟩
  have hqueues := @login_queues s q tq newPlayer dead flushCmd
  have hwait := @login_waiting s q tq newPlayer dead flushCmd
  rw [← hs'] at hqueues hwait ⊢
  have hcount : ∀ p, s'.waitingOf p = s.waitingOf p := fun p => by rw [waitingOf, waitingOf, hwait]
  have hself := h.counts q tq hq
  have hkept : kept tq = [] := by
    unfold kept
    split
    · exact List.length_eq_zero_iff.mp (by omega)
    · rfl
  -- the queues that were there stay, but for the two
  have hother : ∀ x, x ≠ q → dead.map Prod.fst ≠ some x → ∀ tqx, s.queues x = some tqx → s'.queues x = some tqx := by
    intro x hx hxd tqx hqx
    have hxn : x ≠ s.nextQueue := by
      rintro rfl
      rw [hnone] at hqx
      contradiction
    rw [hqueues, if_neg fun hleft => hxn hleft.2, if_neg hx, if_neg hxd, hqx]
  have hheir : s'.queues q = some (heir tq newPlayer dead) := by
    have hqn : q ≠ s.nextQueue := by
      rintro rfl
      rw [hnone] at hq
      contradiction
    rw [hqueues, if_neg fun hleft => hqn hleft.2, if_pos rfl]
  constructor
  case counts =>
    intro x tqx hx
    rw [hcount]
    rw [hqueues] at hx
    split at hx
    · cases hx
      exact hself
    · split at hx
      · cases hx
        simp only [heir, hkept, List.nil_append]
        cases dead with
        | none =>
            have hzero : s.waitingOf newPlayer = 0 := by
              refine waitingOf_eq_zero.mpr fun t ht hp => ?_
              obtain ⟨x, tqx, hx, hown⟩ := h.owned t ht
              exact hl rfl x tqx hx (hown.trans hp)
            simp [hzero, taken]
        | some found =>
            obtain ⟨d, tqd⟩ := found
            obtain ⟨hdq, hp⟩ := hd d tqd rfl
            rw [← hp]
            exact h.counts d tqd hdq
      · split at hx
        · cases dead with
          | none => contradiction
          | some found =>
              obtain ⟨d, tqd⟩ := found
              cases hx
              rw [waitingOf_eq_zero.mpr (hn rfl)]
              rfl
        · exact h.counts x tqx hx
  case owned =>
    intro t ht
    rw [hwait] at ht
    obtain ⟨x, tqx, hx, hp⟩ := h.owned t ht
    by_cases hxq : x = q
    · subst hxq
      rw [hq] at hx
      cases hx
      have hcharged : tq.numBgTasks ≠ 0 := by
        have hpos : s.waitingOf tq.player ≠ 0 := fun hzero => waitingOf_eq_zero.mp hzero t ht hp.symm
        omega
      have hleft := hqueues s.nextQueue
      rw [if_pos ⟨hcharged, rfl⟩] at hleft
      exact ⟨s.nextQueue, _, hleft, hp⟩
    by_cases hxd : dead.map Prod.fst = some x
    · cases dead with
      | none => contradiction
      | some found =>
          obtain ⟨d, tqd⟩ := found
          cases hxd
          obtain ⟨hdq, hpd⟩ := hd d tqd rfl
          rw [hdq] at hx
          cases hx
          exact ⟨q, _, hheir, hpd.symm.trans hp⟩
    · exact ⟨x, tqx, hother x hxq hxd tqx hx, hp⟩
  case alone =>
    intro t ht hnothing
    rw [hwait] at ht
    have hs := h.alone t ht hnothing
    have hdead : dead = none := by
      cases hdead : dead with
      | none => rfl
      | some d => exact absurd hnothing (hn (by rw [hdead]; rfl) t ht)
    -- a queue of nobody's is the one that was there, or the one that takes its place
    have hnobody : ∀ {x tqx}, s'.queues x = some tqx → tqx.player = nothing →
        (x = s.nextQueue ∧ tq.player = nothing) ∨ x ≠ q ∧ s.queues x = some tqx := by
      intro x tqx hx hpx
      rw [hqueues] at hx
      split at hx
      · next hleft =>
          cases hx
          exact .inl ⟨hleft.2, hpx⟩
      · split at hx
        · cases hx
          exact absurd hpx hnew
        · next hxq =>
            rw [hdead, if_neg (by simp)] at hx
            exact .inr ⟨hxq, hx⟩
    intro x x' tqx tqx' hx hx' hpx hpx'
    obtain ⟨rfl, hpq⟩ | ⟨hxq, hx₁⟩ := hnobody hx hpx
    · obtain ⟨rfl, -⟩ | ⟨hxq', hx₂⟩ := hnobody hx' hpx'
      · rfl
      · exact absurd (hs x' q tqx' tq hx₂ hq hpx' hpq) hxq'
    · obtain ⟨rfl, hpq⟩ | ⟨-, hx₂⟩ := hnobody hx' hpx'
      · exact absurd (hs x q tqx tq hx₁ hq hpx hpq) hxq
      · exact hs x x' tqx tqx' hx₁ hx₂ hpx hpx'

theorem change (hc : Coherent s) (hch : Change bare True s s') (h : Charged s) : Charged s' := by
  cases hch with
  | edit hq hcore _ =>
      simp only [Tqueue.core, Prod.mk.injEq] at hcore
      obtain ⟨hp, -, hb, -, hn, -⟩ := hcore
      exact h.rewrite hq rfl rfl hp hn (congrArg (fun bg => bg.cells.length) hb)
  | note => exact ⟨h.counts, h.owned, h.alone⟩
  | create flushCmd hl => exact h.create flushCmd hl hc.wired.fresh_none
  | activate hq hi => exact h.rewrite hq rfl rfl rfl rfl rfl
  | arrive hq ha ht hn => exact absurd trivial hn
  | wait hq hp ht hn =>
      rename_i q tq t
      have hs : s.Single t.progr := by
        by_cases hnone : t.progr = nothing
        · rw [hnone]
          exact hn trivial hnone
        · intro x x' tqx tqx' hx hx' hp hp'
          exact hc.agreed.single x x' t.progr _ _ (hp ▸ face_of hx) (hp' ▸ face_of hx') hnone
      have hcount := h.counts q tq hq
      refine h.write hq rfl rfl ?_ (fun x tqx hne hx => ?_) fun t' ht' => ?_
      · change tq.numBgTasks + 1 = ((insertWaiting t s.waiting).countP _ : Nat) + (tq.bg.cells.length : Int)
        rw [countP_insertWaiting, if_pos hp.symm, hcount, waitingOf]
        omega
      · change (insertWaiting t s.waiting).countP _ = _
        rw [countP_insertWaiting, if_neg (waitingOf_other hs hq hp hne hx)]
        rfl
      · obtain rfl | hold := List.mem_cons.mp ((insertWaiting_perm _ s.waiting).mem_iff.mp ht')
        · exact .inr ⟨hp.symm, hn trivial⟩
        · exact .inl hold
  | wake hq ha hp hi ht =>
      rename_i q i tq t t'
      have hmem := List.mem_of_getElem? hi
      have hs := h.single hc hmem
      have hcount := h.counts q tq hq
      rw [waitingOf, countP_eraseIdx hi, if_pos hp.symm] at hcount
      refine h.write hq rfl rfl ?_ (fun x tqx hne hx => ?_) fun t' ht' => .inl (List.mem_of_mem_eraseIdx ht')
      · change tq.numBgTasks = ((s.waiting.eraseIdx i).countP _ : Nat) + ((tq.bg.enqueue t').cells.length : Int)
        rw [TailList.cells_enqueue (hc.wired.wellFormed q tq hq).bg, List.length_append, hcount]
        simp only [List.length_singleton]
        omega
      · change (s.waiting.eraseIdx i).countP _ = s.waiting.countP _
        rw [countP_eraseIdx hi, if_neg (waitingOf_other hs hq hp hne hx)]
        rfl
  | killWaiting hq hp hi =>
      rename_i q i tq t
      have hmem := List.mem_of_getElem? hi
      have hs := h.single hc hmem
      have hcount := h.counts q tq hq
      rw [waitingOf, countP_eraseIdx hi, if_pos hp.symm] at hcount
      refine h.write hq rfl rfl ?_ (fun x tqx hne hx => ?_) fun t' ht' => .inl (List.mem_of_mem_eraseIdx ht')
      · change tq.numBgTasks - 1 = ((s.waiting.eraseIdx i).countP _ : Nat) + (tq.bg.cells.length : Int)
        rw [hcount]
        omega
      · change (s.waiting.eraseIdx i).countP _ = s.waiting.countP _
        rw [countP_eraseIdx hi, if_neg (waitingOf_other hs hq hp hne hx)]
        rfl
  | killStray hl hi =>
      obtain ⟨q, tq, hq, hp⟩ := h.owned _ (List.mem_of_getElem? hi)
      exact absurd hp (hl q tq hq)
  | endBg bg hq hi hcells hb =>
      rename_i q i tq t
      have hcount := h.counts q tq hq
      obtain ⟨hlt, -⟩ := List.getElem?_eq_some_iff.mp hi
      refine h.write hq rfl rfl ?_ (fun x tqx hne hx => rfl) fun t' ht' => .inl ht'
      change tq.numBgTasks - 1 = (s.waitingOf tq.player : Int) + (bg.cells.length : Int)
      rw [hcells, List.length_eraseIdx_of_lt hlt, hcount]
      omega
  | renew bg hq hcells hb =>
      have hlen := congrArg List.length hcells
      rw [List.length_map, List.length_map] at hlen
      exact h.rewrite hq rfl rfl rfl rfl hlen
  | startReading vm hq | stopReading vm hq => exact h.rewrite hq rfl rfl rfl rfl rfl
  | connect hd hq | disconnect hd hh hq => exact h.rewrite hq rfl rfl rfl rfl rfl
  | deactivate rest hq | done usage rest hq => exact h.rewrite hq rfl rfl rfl rfl rfl
  | free hq hi hconn hn => exact h.free hq hn
  | login hd newPlayer dead flushCmd hq hh ht hold hnew hcur hl hdead hbare hn =>
      have hlogin := h.login flushCmd hq hc.wired.fresh_none (fun heq => absurd hnew (by rw [heq]; decide)) hl
        (fun d tqd he => ⟨(hdead d tqd he).1, (hdead d tqd he).2.1⟩) (hn trivial)
      exact ⟨hlogin.counts, hlogin.owned, hlogin.alone⟩

end Charged
end Server
end LambdaMoo
