import LambdaMoo.RunEvents

/-! Logging in. The queue that the player had before is drained, and its connection closed,
while the new one changes hands. -/
namespace LambdaMoo

namespace Tqueue

def joined (tq : Tqueue) (bg : List BgTask) : Tqueue :=
  { tq with bg := ⟨tq.bg.cells ++ bg, (tq.bg.cells ++ bg).length⟩ }

theorem joined_nil {tq : Tqueue} (hb : tq.bg.Tailed) : tq.joined [] = tq := by
  unfold joined
  rw [List.append_nil, hb.eta]

theorem joined_enqueue {tq : Tqueue} (hb : tq.bg.Tailed) (t : BgTask) (bg : List BgTask) :
    Tqueue.joined { tq with bg := tq.bg.enqueue t } bg = tq.joined (t :: bg) := by
  unfold joined
  rw [TailList.cells_enqueue hb, List.append_assoc]
  rfl

end Tqueue

namespace Server

open Except

variable {s s' s₁ : Server} {q q' d x : Nat} {tq tq' tqd : Tqueue} {player newPlayer : Objid}
  {bare counted : Prop} {db : Db} {flushCmd : Option Str}

/-! Tasks that are moved from queue to queue. -/

theorem setQueue_self (hq : s.queues q = some tq) : s.setQueue q tq = s := by
  unfold setQueue
  rw [Function.update_eq_self_iff.mpr hq.symm]

theorem setQueue_setQueue : (s.setQueue q tq).setQueue q tq' = s.setQueue q tq' := by
  unfold setQueue
  rw [Function.update_idem]

theorem setQueue_comm (hne : q ≠ q') :
    (s.setQueue q tq).setQueue q' tq' = (s.setQueue q' tq').setQueue q tq := by
  unfold setQueue
  rw [Function.update_comm hne.symm]

theorem enqueueBgTask_eq (hq : s.queues q = some tq) (t : BgTask) :
    s.enqueueBgTask q t = .ok (s.setQueue q { tq with bg := tq.bg.enqueue t }) :=
  modifyQueue_eq hq _

theorem moveBgTasks_loop (hne : q ≠ q') :
    ∀ (l : List BgTask) (s : Server) (tq tq' : Tqueue), l.length = tq.bg.cells.length →
    s.queues q = some tq → s.queues q' = some tq' → tq.bg.Tailed → tq'.bg.Tailed →
    l.foldlM (fun s _ => do
      match ← s.dequeueBgTask q with
      | (none, s) => return s
      | (some t, s) => s.enqueueBgTask q' t) s = .ok ((s.setQueue q
        { tq with bg := .empty, numBgTasks := tq.numBgTasks - tq.bg.cells.length }).setQueue q'
        (tq'.joined tq.bg.cells)) := by
  intro l
  induction l with
  | nil =>
      intro s tq tq' hl hq hq' hb hb'
      have hcells := List.eq_nil_of_length_eq_zero hl.symm
      have hself : { tq with bg := .empty, numBgTasks := tq.numBgTasks - tq.bg.cells.length } = tq := by
        rw [← hb.eq_empty hcells, hcells]
        simp
      rw [hself, hcells, Tqueue.joined_nil hb', setQueue_self hq, setQueue_self hq']
      rfl
  | cons _ l ih =>
      intro s tq tq' hl hq hq' hb hb'
      cases hcells : tq.bg.cells with
      | nil => simp [hcells] at hl
      | cons t rest =>
          have hdeq : ∃ bg : TailList BgTask, bg.cells = rest ∧ bg.Tailed ∧ s.dequeueBgTask q =
              .ok (some t, s.setQueue q { tq with bg, numBgTasks := tq.numBgTasks - 1 }) := by
            have hd : ∃ bg, tq.bg.dequeue = some (t, bg) := by
              unfold TailList.dequeue
              rw [hcells]
              exact ⟨_, rfl⟩
            obtain ⟨bg, hd⟩ := hd
            have hc := TailList.dequeue_eq_some hd
            rw [hcells, List.cons.injEq] at hc
            refine ⟨bg, hc.2.symm, hb.dequeue hd, ?_⟩
            unfold dequeueBgTask
            rw [queue_eq_ok hq]
            rw [Except.bind_of_ok, hd]
            rfl
          obtain ⟨bg, rfl, hbg, hdeq⟩ := hdeq
          have hq₂ : (s.setQueue q { tq with bg, numBgTasks := tq.numBgTasks - 1 }).queues q' = some tq' := by
            rw [queues_setQueue, if_neg hne.symm, hq']
          rw [List.foldlM_cons, hdeq]
          change ((Server.enqueueBgTask q' t _) >>= _) = _
          rw [enqueueBgTask_eq hq₂]
          change List.foldlM _ _ l = _
          rw [ih _ { tq with bg, numBgTasks := tq.numBgTasks - 1 } { tq' with bg := tq'.bg.enqueue t }
            (by simpa [hcells] using hl) (by rw [queues_setQueue, if_neg hne, queues_setQueue, if_pos rfl])
            (by rw [queues_setQueue, if_pos rfl]) hbg hb'.enqueue, Tqueue.joined_enqueue hb',
            setQueue_comm hne.symm, setQueue_setQueue, setQueue_setQueue]
          have hnum : tq.numBgTasks - 1 - (bg.cells.length : Int) =
              tq.numBgTasks - ((t :: bg.cells).length : Int) := by
            rw [List.length_cons]
            omega
          rw [← hnum]

theorem moveBgTasks_eq (hne : q ≠ q') (hq : s.queues q = some tq) (hq' : s.queues q' = some tq')
    (hb : tq.bg.Tailed) (hb' : tq'.bg.Tailed) :
    s.moveBgTasks q q' = .ok ((s.setQueue q
      { tq with bg := .empty, numBgTasks := tq.numBgTasks - tq.bg.cells.length }).setQueue q'
      (tq'.joined tq.bg.cells)) := by
  unfold moveBgTasks
  rw [queue_eq_ok hq]
  exact moveBgTasks_loop hne tq.bg.cells s tq tq' rfl hq hq' hb hb'

def Drained (s : Server) (d q : Nat) (tqd tq : Tqueue) (s' : Server) : Prop :=
  ∃ (tqd' : Tqueue) (hs : List Shandle), tqd'.core = tqd.core ∧ (tqd.WellFormed → tqd'.WellFormed) ∧
    hs.map Shandle.key = s.shandles.map Shandle.key ∧
    s' = { (s.setQueue d { tqd' with bg := .empty, numBgTasks := tqd.numBgTasks - tqd.bg.cells.length }).setQueue
      q (tq.joined tqd.bg.cells) with shandles := hs }

theorem moveAnyTasks_loop (hne : d ≠ q) :
    ∀ (l : List Nat) (s : Server) (tqd tq : Tqueue),
    l.length = tqd.input.cells.length + tqd.bg.cells.length → Answered s tqd → s.queues d = some tqd →
    s.queues q = some tq → tqd.bg.Tailed → tq.bg.Tailed →
    Meets Missing (Drained s d q tqd tq) (l.foldlM (fun s _ => do
      match ← s.dequeueAnyTask d with
      | (none, s) | (some (.inl _), s) => return s
      | (some (.inr t), s) => s.enqueueBgTask q t) s) := by
  intro l
  induction l with
  | nil =>
      intro s tqd tq hl _ hd hq hb hb'
      have hcells : tqd.bg.cells = [] := List.eq_nil_of_length_eq_zero (by simp at hl; omega)
      refine ⟨tqd, s.shandles, rfl, id, rfl, ?_⟩
      have hself : { tqd with bg := .empty, numBgTasks := tqd.numBgTasks - tqd.bg.cells.length } = tqd := by
        rw [← hb.eq_empty hcells, hcells]
        simp
      rw [hself, hcells, Tqueue.joined_nil hb', setQueue_self hd, setQueue_self hq]
  | cons _ l ih =>
      intro s tqd tq hl hx hd hq hb hb'
      rw [List.foldlM_cons]
      rw [bind_assoc]
      refine (dequeueAnyTask_meets hx hd).bind fun r hr => ?_
      obtain ⟨o, s₁⟩ := r
      obtain _ | t | t := o
      · obtain ⟨_, hi, hbg⟩ := hr
        simp [hi, hbg] at hl
      · obtain ⟨tqd₁, he, hcells, _⟩ := hr
        dsimp only at he
        have hf := he.fields
        have hq₁ : s₁.queues q = some tq := (he.other hne.symm).trans hq
        have hlen : l.length = tqd₁.input.cells.length + tqd₁.bg.cells.length := by
          rw [hcells] at hl
          simp only [List.length_cons] at hl
          rw [hf.2.2.1]
          omega
        refine (ih s₁ tqd₁ tq hlen (hx.edited he) he.queue hq₁ (hf.2.2.1 ▸ hb) hb').mono fun s' hs' => ?_
        obtain ⟨tqd', hs, hcore, hw, hk, rfl⟩ := hs'
        have hwf := he.wellFormed
        have hbg := hf.2.2.1
        have hnum := hf.2.2.2.2.1
        have hcore₁ := he.core
        obtain ⟨hs₁, rfl, hk₁⟩ := he.rest
        refine ⟨tqd', hs, hcore.trans hcore₁, hw ∘ hwf, hk.trans hk₁, ?_⟩
        rw [hbg, hnum]
        simp only [setQueue, Function.update_idem]
      · obtain ⟨hi, bg, hcells, hbg, hs₁⟩ := hr
        dsimp only at hs₁
        subst hs₁
        have hq₁ : (s.setQueue d { tqd with bg, numBgTasks := tqd.numBgTasks - 1 }).queues q = some tq := by
          rw [queues_setQueue, if_neg hne.symm, hq]
        have hlen : l.length = tqd.input.cells.length + bg.cells.length := by
          rw [hcells] at hl
          simp only [List.length_cons] at hl
          omega
        dsimp only
        rw [enqueueBgTask_eq hq₁]
        refine (ih ((s.setQueue d { tqd with bg, numBgTasks := tqd.numBgTasks - 1 }).setQueue q
          { tq with bg := tq.bg.enqueue t }) { tqd with bg, numBgTasks := tqd.numBgTasks - 1 }
          { tq with bg := tq.bg.enqueue t } hlen hx (by rw [queues_setQueue, if_neg hne, queues_setQueue, if_pos rfl])
          (by rw [queues_setQueue, if_pos rfl]) (hbg hb) hb'.enqueue).mono fun s' hs' => ?_
        obtain ⟨tqd', hs, hcore, hw, hk, rfl⟩ := hs'
        simp only [Tqueue.core, Prod.mk.injEq] at hcore
        refine ⟨{ tqd' with bg := tqd.bg, numBgTasks := tqd.numBgTasks }, hs, ?_, fun hwd => ?_, hk, ?_⟩
        · simp [Tqueue.core, hcore]
        · have hwd' := hw ⟨hwd.input, hbg hwd.bg, hwd.lengths, hwd.total⟩
          exact ⟨hwd'.input, hwd.bg, hwd'.lengths, hwd'.total⟩
        · rw [Tqueue.joined_enqueue hb', setQueue_comm hne.symm, setQueue_setQueue, setQueue_setQueue, hcells]
          have hnum : tqd.numBgTasks - 1 - (bg.cells.length : Int) =
              tqd.numBgTasks - ((t :: bg.cells).length : Int) := by
            rw [List.length_cons]
            omega
          rw [hnum]

/-- Input is lost on the way, and the connection of the queue is perhaps told to go on. -/
theorem moveAnyTasks_meets (hne : d ≠ q) (hx : Answered s tqd) (hd : s.queues d = some tqd)
    (hq : s.queues q = some tq) (hb : tqd.bg.Tailed) (hb' : tq.bg.Tailed) :
    Meets Missing (Drained s d q tqd tq) (s.moveAnyTasks d q) := by
  unfold moveAnyTasks
  rw [queue_eq_ok hd]
  exact moveAnyTasks_loop hne _ s tqd tq (by rw [List.length_range]) hx hd hq hb hb'

/-! The queue that the tasks of the player before are left on. -/

theorem queues_leaving (hx : x ≠ s.nextQueue) : (leaving flushCmd tq s).queues x = s.queues x := by
  unfold leaving
  split
  · rfl
  · rw [queues_setQueue, if_neg hx]
    exact Function.update_of_ne hx ..

theorem setQueue_leaving (hx : x ≠ s.nextQueue) :
    (leaving flushCmd tq s).setQueue x tq' = leaving flushCmd tq (s.setQueue x tq') := by
  unfold leaving
  split
  · rfl
  · unfold created setQueue
    simp only [Function.update_idem]
    rw [Function.update_comm hx]

theorem shandles_leaving (hs : List Shandle) :
    { leaving flushCmd tq s with shandles := hs } = leaving flushCmd tq { s with shandles := hs } := by
  unfold leaving
  split <;> rfl

theorem active_leaving : (leaving flushCmd tq s).active = s.active := by
  unfold leaving
  split <;> rfl

theorem mem_idle_leaving (hx : x ≠ s.nextQueue) : x ∈ (leaving flushCmd tq s).idle ↔ x ∈ s.idle := by
  unfold leaving
  split
  · rfl
  · exact List.mem_cons.trans (or_iff_right hx)

theorem ensured_leaving {usage : Int} {active : List Nat} (hx : x ≠ s.nextQueue) :
    ensured x tq' usage active (leaving flushCmd tq s) =
      leaving flushCmd tq (ensured x tq' usage active s) := by
  unfold ensured
  rw [setQueue_leaving hx]
  unfold leaving
  split
  · rfl
  · have herase : (s.nextQueue :: s.idle).erase x = s.nextQueue :: s.idle.erase x :=
      List.erase_cons_tail (by simpa using hx.symm)
    change { (created tq.player flushCmd _).setQueue _ _ with
      idle := (s.nextQueue :: s.idle).erase x, active } = _
    rw [herase]
    rfl

theorem findTqueue_eq_none (hl : s.Lacks player) : s.findTqueue player = none := by
  refine List.find?_eq_none.mpr fun x _ => ?_
  rw [decide_eq_true_eq, playerOf, Option.map_eq_some_iff]
  rintro ⟨tqx, hx, hp⟩
  exact hl x tqx hx hp

theorem leaving_meets (db : Db) (hw : Wired s) (hq : s.queues q = some tq)
    (hl : Lacks (s.setQueue q { tq with player := newPlayer }) tq.player) :
    Meets Missing (fun s' => ∃ flushCmd, s' = leaving flushCmd tq (s.setQueue q (heir tq newPlayer none)))
      (if tq.numBgTasks ≠ 0 then do
          let (oldTq, s) ← (s.setQueue q { tq with player := newPlayer }).findOrNewTqueue db tq.player
          let s ← s.modifyQueue (fun old => { old with numBgTasks := tq.numBgTasks }) oldTq
          let s ← s.moveBgTasks q oldTq
          s.modifyQueue (fun tq => { tq with numBgTasks := 0 }) q
        else .ok (s.setQueue q { tq with player := newPlayer })) := by
  have hb := (hw.wellFormed q tq hq).bg
  split
  · next hnum =>
      have hne : q ≠ s.nextQueue := Nat.ne_of_lt (hw.fresh q tq hq)
      unfold findOrNewTqueue
      rw [findTqueue_eq_none hl]
      dsimp only
      rw [bind_assoc]
      refine (ofOption_meets _).bind fun flushCmd _ => ?_
      let s₁ := created tq.player flushCmd (s.setQueue q { tq with player := newPlayer })
      have hn : s₁.queues s.nextQueue = some (newTqueue tq.player flushCmd) := Function.update_self ..
      have hq₁ : s₁.queues q = some { tq with player := newPlayer } :=
        (Function.update_of_ne hne ..).trans (Function.update_self ..)
      change Meets _ _ (Server.modifyQueue _ s.nextQueue s₁ >>= _)
      rw [modifyQueue_eq hn]
      change Meets _ _ (Server.moveBgTasks q s.nextQueue _ >>= _)
      let old : Tqueue := { newTqueue tq.player flushCmd with numBgTasks := tq.numBgTasks }
      have hq₂ : (s₁.setQueue s.nextQueue old).queues q = some { tq with player := newPlayer } := by
        rw [queues_setQueue, if_neg hne, hq₁]
      have hn₂ : (s₁.setQueue s.nextQueue old).queues s.nextQueue = some old := Function.update_self ..
      rw [moveBgTasks_eq hne hq₂ hn₂ hb rfl]
      change Meets _ _ (Server.modifyQueue _ q _)
      rw [modifyQueue_eq (by rw [queues_setQueue, if_neg hne, queues_setQueue, if_pos rfl])]
      have hheir : heir tq newPlayer none = { tq with player := newPlayer, bg := .empty, numBgTasks := 0 } := by
        unfold heir kept
        rw [if_neg hnum]
        rfl
      refine ⟨flushCmd, ?_⟩
      unfold leaving
      rw [if_neg hnum, hheir]
      change { s₁ with queues := _ } = { s₁ with queues := _ }
      congr 1
      funext x
      change Function.update (Function.update (Function.update (Function.update (Function.update
        (Function.update s.queues q _) s.nextQueue _) s.nextQueue _) q _) s.nextQueue _) q _ x =
          Function.update (Function.update (Function.update s.queues q _) s.nextQueue _) s.nextQueue _ x
      by_cases hxq : x = q
      · subst hxq
        simp [hne, old, newTqueue]
      · by_cases hxn : x = s.nextQueue
        · subst hxn
          simp [hxq, old, newTqueue, Tqueue.joined]
        · simp [hxq, hxn]
  · next hnum =>
      have hnum : tq.numBgTasks = 0 := Decidable.not_not.mp hnum
      have hheir : heir tq newPlayer none = { tq with player := newPlayer } := by
        unfold heir kept
        rw [if_pos hnum]
        change { tq with player := newPlayer, bg := ⟨tq.bg.cells ++ [], (tq.bg.cells ++ []).length⟩, numBgTasks := 0 } = _
        rw [List.append_nil, hb.eta, ← hnum]
      refine ⟨none, ?_⟩
      rw [hheir, leaving, if_pos hnum]

/-! The connection changes hands. -/

/-- The queue that the player had before, if there is one; some of its input may be gone. -/
def Dead (s : Server) (newPlayer : Objid) : Option (Nat × Tqueue) → Prop
  | none => s.Lacks newPlayer
  | some (d, tqd') => ∃ tqd, s.queues d = some tqd ∧ tqd.player = newPlayer ∧ tqd'.core = tqd.core ∧
      (tqd.WellFormed → tqd'.WellFormed)

/-- The queues and connections after a login, when the connection that the player had is
closed. -/
theorem Coherent.loggedIn {h : Shandle} {dead : Option (Nat × Tqueue)} (hc : Coherent s)
    (hq : s.queues q = some tq) (hh : h ∈ s.shandles) (ht : h.tasks = q) (hold : tq.player < 0)
    (hnew : 0 ≤ newPlayer) (hcur : ∃ c, s.current = some c ∧ c.queue = q ∧ c.login = false)
    (hdead : Dead s newPlayer dead) (hdisc : ∀ d, dead = some d → d.2.connected = false)
    (hbare : bare → tq.numBgTasks ≠ 0 → tq.bg.cells = [])
    (hn : counted → dead.isSome → ∀ t ∈ s.waiting, t.progr ≠ nothing) (flushCmd : Option Str)
    {hs : List Shandle} (hkeys : hs.map Shandle.key = s.keys.map (Key.renamed h.nhandle newPlayer)) :
    Changes bare counted s { leaving flushCmd tq ((s.retiring dead).setQueue q (heir tq newPlayer dead)) with
      shandles := hs } := by
  have hlogin : ∀ {s₁ : Server}, Changes bare counted s s₁ → s₁.keys = s.keys →
      Change bare counted s₁ { leaving flushCmd tq ((s.retiring dead).setQueue q (heir tq newPlayer dead)) with
        shandles := renamed h.nhandle newPlayer s₁.shandles } →
      Changes bare counted s { leaving flushCmd tq ((s.retiring dead).setQueue q (heir tq newPlayer dead)) with
        shandles := hs } := by
    intro s₁ hch hk hlast
    have htail := hch.tail hlast
    refine htail.tail ((hc.changes htail).wired.note (hkeys.trans ?_))
    change _ = (renamed h.nhandle newPlayer s₁.shandles).map Shandle.key
    rw [Agreed.keys_renamed, hk]
  cases dead with
  | none =>
      have hlast : Change bare counted s _ :=
        .login h newPlayer none flushCmd hq hh ht hold hnew hcur (fun _ => hdead) (by intros; contradiction) hbare
            (by intros; contradiction)
      exact hlogin .refl rfl hlast
  | some found =>
      obtain ⟨d, tqd'⟩ := found
      obtain ⟨tqd, hd, hp, hcore, hw⟩ := hdead
      have hedit : Change bare counted s (s.setQueue d tqd') := .edit hd hcore hw
      simp only [Tqueue.core, Prod.mk.injEq] at hcore
      have hne : q ≠ d := by
        rintro rfl
        rw [hq] at hd
        cases hd
        lia
      have hq₁ : (s.setQueue d tqd').queues q = some tq := by rw [queues_setQueue, if_neg hne, hq]
      have hlast : Change bare counted (s.setQueue d tqd') _ :=
        .login h newPlayer (some (d, tqd')) flushCmd hq₁ hh ht hold hnew hcur (by intros; contradiction)
          (fun d' tqd₁ he => by
          cases he
          exact ⟨Function.update_self .., hcore.1.trans hp, hdisc _ rfl⟩) hbare hn
      have hretire : (s.setQueue d tqd').retiring (some (d, tqd')) = s.retiring (some (d, tqd')) :=
        setQueue_setQueue
      rw [hretire] at hlast
      exact hlogin (.single hedit) rfl hlast

theorem findShandle_renamed (ha : Agreed s) {h : Shandle} (hh : h ∈ s.shandles) {hs : List Shandle}
    (hkeys : hs.map Shandle.key = s.shandles.map Shandle.key) :
    ∃ h' ∈ hs, hs.find? (fun h' => h'.player = h.player) = some h' ∧ h'.key = h.key := by
  have hmem : h.key ∈ hs.map Shandle.key := hkeys ▸ List.mem_map_of_mem hh
  obtain ⟨h₁, hh₁, hk₁⟩ := List.mem_map.mp hmem
  have hp₁ : h₁.player = h.player := congrArg Key.player hk₁
  have hsome : (hs.find? fun h' => h'.player = h.player).isSome := List.find?_isSome.mpr ⟨h₁, hh₁, by simp [hp₁]⟩
  obtain ⟨h', hf⟩ := Option.isSome_iff_exists.mp hsome
  have hp' := List.find?_some hf
  rw [decide_eq_true_eq] at hp'
  have hmem' : h'.key ∈ s.keys := by
    rw [keys, ← hkeys]
    exact List.mem_map_of_mem (List.mem_of_find?_eq_some hf)
  exact ⟨h', List.mem_of_find?_eq_some hf, hf, ha.players _ hmem' _ (List.mem_map_of_mem hh) hp'⟩

theorem shandles_leaving_eq : (leaving flushCmd tq s).shandles = s.shandles := by
  unfold leaving
  split <;> rfl

theorem heir_some : Tqueue.joined { heir tq newPlayer none with numBgTasks := tqd.numBgTasks } tqd.bg.cells =
    heir tq newPlayer (some (d, tqd)) := by
  unfold Tqueue.joined heir taken
  simp

theorem retiring_meets (hc : Coherent s) (hq : s.queues q = some tq) (hne : tq.player ≠ newPlayer)
    (flushCmd : Option Str) :
    Meets Missing (fun s' => ∃ (dead : Option (Nat × Tqueue)) (hs : List Shandle), Dead s newPlayer dead ∧
        hs.map Shandle.key = s.shandles.map Shandle.key ∧ dead.map Prod.fst = s.findTqueue newPlayer ∧
        s' = { leaving flushCmd tq ((s.retiring dead).setQueue q (heir tq newPlayer dead)) with shandles := hs })
      (match s.findTqueue newPlayer with
        | none => .ok (leaving flushCmd tq (s.setQueue q (heir tq newPlayer none)))
        | some dead => do
          let numBgTasks := (← (leaving flushCmd tq (s.setQueue q (heir tq newPlayer none))).queue dead).numBgTasks
          let s ← (leaving flushCmd tq (s.setQueue q (heir tq newPlayer none))).modifyQueue
            (fun tq => { tq with numBgTasks }) q
          let s ← s.moveAnyTasks dead q
          s.modifyQueue (fun tq => { tq with player := nothing, numBgTasks := 0 }) dead) := by
  have hqn : q ≠ s.nextQueue := Nat.ne_of_lt (hc.wired.fresh q tq hq)
  split
  · next hf =>
      refine ⟨none, s.shandles, hc.wired.lacks_of_findTqueue hf, rfl, hf.symm, ?_⟩
      rw [shandles_leaving]
      rfl
  · next d hf =>
      obtain ⟨tqd, hd, hp⟩ := findTqueue_eq_some hf
      have hdq : d ≠ q := by
        rintro rfl
        rw [hq] at hd
        cases hd
        exact hne hp
      have hdn : d ≠ s.nextQueue := Nat.ne_of_lt (hc.wired.fresh d tqd hd)
      have hd₁ : (leaving flushCmd tq (s.setQueue q (heir tq newPlayer none))).queues d = some tqd := by
        rw [queues_leaving (by exact hdn), queues_setQueue, if_neg hdq, hd]
      have hq₁ : (leaving flushCmd tq (s.setQueue q (heir tq newPlayer none))).queues q =
          some (heir tq newPlayer none) := by
        rw [queues_leaving (by exact hqn), queues_setQueue, if_pos rfl]
      rw [queue_eq_ok hd₁]
      change Meets _ _ (Server.modifyQueue _ q _ >>= _)
      rw [modifyQueue_eq hq₁, setQueue_leaving (by exact hqn), setQueue_setQueue]
      change Meets _ _ (Server.moveAnyTasks d q _ >>= _)
      have hx : Answered (leaving flushCmd tq (s.setQueue q
          { heir tq newPlayer none with numBgTasks := tqd.numBgTasks })) tqd := fun hconn => by
        rw [shandles_leaving_eq]
        exact hc.agreed.answered hd hconn
      have hd₂ : (leaving flushCmd tq (s.setQueue q
          { heir tq newPlayer none with numBgTasks := tqd.numBgTasks })).queues d = some tqd := by
        rw [queues_leaving (by exact hdn), queues_setQueue, if_neg hdq, hd]
      have hq₂ : (leaving flushCmd tq (s.setQueue q
          { heir tq newPlayer none with numBgTasks := tqd.numBgTasks })).queues q =
            some { heir tq newPlayer none with numBgTasks := tqd.numBgTasks } := by
        rw [queues_leaving (by exact hqn), queues_setQueue, if_pos rfl]
      refine (moveAnyTasks_meets hdq hx hd₂ hq₂ (hc.wired.wellFormed d tqd hd).bg rfl).bind fun s₁ hs₁ => ?_
      obtain ⟨tqd', hs, hcore, hw, hk, rfl⟩ := hs₁
      rw [shandles_leaving_eq] at hk
      rw [setQueue_leaving (by exact hdn), setQueue_leaving (by exact hqn), setQueue_comm hdq,
        setQueue_setQueue, heir_some (d := d), shandles_leaving]
      have hd₃ : (leaving flushCmd tq { (s.setQueue q (heir tq newPlayer (some (d, tqd)))).setQueue d
          { tqd' with bg := .empty, numBgTasks := tqd.numBgTasks - tqd.bg.cells.length } with
            shandles := hs }).queues d = some
          { tqd' with bg := .empty, numBgTasks := tqd.numBgTasks - tqd.bg.cells.length } := by
        rw [queues_leaving (by exact hdn)]
        exact Function.update_self ..
      rw [modifyQueue_eq hd₃, setQueue_leaving (by exact hdn)]
      simp only [Tqueue.core, Prod.mk.injEq] at hcore
      refine ⟨some (d, { tqd' with bg := tqd.bg, numBgTasks := tqd.numBgTasks }), hs,
        ⟨tqd, hd, hp, ?_, fun hwd => ?_⟩, hk, hf.symm, ?_⟩
      · simp [Tqueue.core, hcore]
      · exact ⟨(hw hwd).input, hwd.bg, (hw hwd).lengths, (hw hwd).total⟩
      · rw [shandles_leaving]
        refine congrArg (leaving flushCmd tq) ?_
        change { ((s.setQueue q _).setQueue d _).setQueue d _ with shandles := hs } = _
        rw [setQueue_setQueue, setQueue_comm hdq.symm]
        rfl

theorem keys_modified {hs : List Shandle} (hkeys : hs.map Shandle.key = s.shandles.map Shandle.key)
    (nhandle : Nat) (newPlayer : Objid) (now : Int) :
    (hs.map fun h => if h.nhandle = nhandle then { h with player := newPlayer, connectionTime := now } else h).map
      Shandle.key = s.keys.map (Key.renamed nhandle newPlayer) := by
  rw [keys, ← hkeys, List.map_map, List.map_map]
  refine List.map_congr_left fun h _ => ?_
  by_cases he : h.nhandle = nhandle <;> simp [Key.renamed, Shandle.key, he]

/-- The connection that the player had is closed, its queue perhaps made active; then the
other one is the player's. -/
theorem Coherent.closed {h e : Shandle} {tqd' : Tqueue} {usage : Int} {idle active : List Nat} (hc : Coherent s)
    (hq : s.queues q = some tq) (hh : h ∈ s.shandles) (ht : h.tasks = q) (hold : tq.player < 0)
    (hnew : 0 ≤ newPlayer) (hcur : ∃ c, s.current = some c ∧ c.queue = q ∧ c.login = false) (hd : s.queues d = some tqd)
    (hp : tqd.player = newPlayer) (hcore : tqd'.core = tqd.core) (hw : tqd.WellFormed → tqd'.WellFormed)
    (he : e ∈ s.shandles) (het : e.tasks = d) (hne : e.nhandle ≠ h.nhandle)
    (hch : Changes bare counted s { s.setQueue d { tqd with usage } with idle, active })
    (ha : tqd.reading.isSome → d ∈ active) (hbare : bare → tq.numBgTasks ≠ 0 → tq.bg.cells = [])
    (hn : counted → ∀ t ∈ s.waiting, t.progr ≠ nothing) (flushCmd : Option Str) {hs : List Shandle}
    (hkeys : hs.map Shandle.key = (s.keys.filter fun k => k.nhandle ≠ e.nhandle).map
      (Key.renamed h.nhandle newPlayer)) :
    Changes bare counted s { leaving flushCmd tq (({ s with idle, active }.setQueue d
      { tqd' with player := nothing, connected := false, usage, bg := .empty, numBgTasks := 0 }).setQueue q
        (heir tq newPlayer (some (d, tqd')))) with shandles := hs } := by
  have hqd : q ≠ d := by
    rintro rfl
    rw [hq] at hd
    cases hd
    lia
  subst het
  have hd₀ : ({ s.setQueue e.tasks { tqd with usage } with idle, active } : Server).queues e.tasks =
    some { tqd with usage } := Function.update_self ..
  have hdisc : Change bare counted { s.setQueue e.tasks { tqd with usage } with idle, active } _ :=
    .disconnect e he hd₀ ha
  obtain ⟨s₁, hs₁⟩ : ∃ s₁ : Server, s₁ =
      { ({ s.setQueue e.tasks { tqd with usage } with idle, active } : Server).setQueue e.tasks
        { tqd with usage, connected := false } with
          shandles := s.shandles.filter fun h' => h'.nhandle ≠ e.nhandle } := ⟨_, rfl⟩
  have hch₁ : Changes bare counted s s₁ := hs₁ ▸ hch.tail hdisc
  have hqueues : s₁.queues = Function.update s.queues e.tasks (some { tqd with usage, connected := false }) := by
    rw [hs₁]
    exact Function.update_idem ..
  have hq₁ : s₁.queues q = some tq := by rw [hqueues, Function.update_of_ne hqd, hq]
  have hh₁ : h ∈ s₁.shandles := by
    rw [hs₁]
    exact List.mem_filter.mpr ⟨hh, by simp [hne.symm]⟩
  have hdead : Dead s₁ newPlayer (some (e.tasks, { tqd' with connected := false, usage })) := by
    refine ⟨{ tqd with usage, connected := false }, by rw [hqueues, Function.update_self], hp, ?_,
      fun hwd => ?_⟩
    · simp only [Tqueue.core, Prod.mk.injEq] at hcore ⊢
      simp [hcore]
    · have hwd' := hw ⟨hwd.input, hwd.bg, hwd.lengths, hwd.total⟩
      exact ⟨hwd'.input, hwd'.bg, hwd'.lengths, hwd'.total⟩
  have hkeys₁ : hs.map Shandle.key = s₁.keys.map (Key.renamed h.nhandle newPlayer) := by
    rw [hkeys, hs₁, keys, keys, List.filter_map]
    rfl
  have hwait : s₁.waiting = s.waiting ∧ s₁.current = s.current := by
    rw [hs₁]
    exact ⟨rfl, rfl⟩
  have hlast := (hc.changes hch₁).loggedIn hq₁ hh₁ ht hold hnew (hwait.2 ▸ hcur) hdead
    (fun d' hd' => by cases hd'; rfl) hbare (fun hco _ => hwait.1 ▸ hn hco) flushCmd hkeys₁
  have hretire : s₁.retiring (some (e.tasks, { tqd' with connected := false, usage })) =
      { ({ s with idle, active } : Server).setQueue e.tasks
        { tqd' with player := nothing, connected := false, usage, bg := .empty, numBgTasks := 0 } with
        shandles := s.shandles.filter fun h' => h'.nhandle ≠ e.nhandle } := by
    rw [retiring, setQueue, hqueues, Function.update_idem, hs₁]
    rfl
  rw [hretire, shandles_leaving] at hlast
  rw [shandles_leaving]
  exact hch₁.trans hlast

end Server
end LambdaMoo
