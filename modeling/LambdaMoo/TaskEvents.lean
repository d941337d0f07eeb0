import LambdaMoo.ConnectionEvents

/-! The requests that make tasks wait, end or go on. -/
namespace LambdaMoo

namespace Server

open Except

variable {s s' s₁ : Server} {q x : Nat} {tq tq' : Tqueue} {player progr : Objid} {bare counted : Prop}
  {t : BgTask} {db : Db}

/-! Tasks that wait. -/

theorem Found.single (hf : Found s player q tq s') (hs : s.Single player) : s'.Single player := by
  cases hf.old with
  | inl he => exact he ▸ hs
  | inr he =>
      obtain ⟨hl, flushCmd, rfl⟩ := he
      have hnew : ∀ x tqx, (created player flushCmd s).queues x = some tqx → tqx.player = player →
          x = s.nextQueue := by
        intro x tqx hx hp
        change Function.update s.queues s.nextQueue _ x = some tqx at hx
        rw [Function.update_apply] at hx
        split at hx
        · next heq => exact heq
        · exact absurd hp (hl x tqx hx)
      exact fun x x' tqx tqx' hx hx' hp hp' => (hnew x tqx hx hp).trans (hnew x' tqx' hx' hp').symm

theorem enqueueWaiting_meets (hc : Coherent s) (db : Db) (ht : t.tag = s.nextTag)
    (hn : counted → t.progr = nothing → s.Single nothing) :
    Meets Missing (Changes bare counted s) (s.enqueueWaiting db t) := by
  unfold enqueueWaiting
  refine (findOrNewTqueue_meets hc.wired db t.progr).bind fun r hr => ?_
  obtain ⟨q, s₁⟩ := r
  obtain ⟨tq, hf⟩ := hr
  dsimp only at hf ⊢
  rw [modifyQueue_eq hf.queue]
  have hwait : Change bare counted s₁
      { s₁.setQueue q { tq with numBgTasks := tq.numBgTasks + 1 } with
        waiting := insertWaiting t s₁.waiting, nextTag := s₁.nextTag + 1 } := by
    refine .wait hf.queue hf.owner ?_ fun hcount hp => ?_
    · rw [ht, hf.rest]
    · have hs := hf.single (hp ▸ hn hcount hp)
      exact hp ▸ hs
  exact hf.changes.tail hwait

theorem belowLimit_meets (s : Server) (user : Objid) (limit : Int) :
    Meets Missing (fun _ : Bool => True) (if limit < 0 then pure true
      else match s.findTqueue user with
        | none => do return decide ((← .ok 0) < limit)
        | some q => do return decide ((← (s.queue q).map Tqueue.numBgTasks) < limit)) := by
  have hcount : ∀ q, Meets Missing (fun _ : Int => True) ((s.queue q).map Tqueue.numBgTasks) := by
    intro q
    unfold queue
    split
    · rintro (he | he) <;> cases he
    · trivial
  split
  · trivial
  · split
    · trivial
    · next q _ => exact (hcount q).bind fun _ _ => trivial

theorem checkUserTaskLimit_meets (db : Db) (user : Objid) (s : Server) :
    Meets Missing (fun _ => True) (s.checkUserTaskLimit db user) := by
  have hlimit := belowLimit_meets s user
  unfold checkUserTaskLimit
  refine (ofOption_meets _).bind fun own _ => ?_
  dsimp only
  split
  · split
    · exact (ofOption_meets _).bind fun limit _ => hlimit limit
    · exact hlimit _
  · exact (ofOption_meets _).bind fun limit _ => hlimit limit

theorem enqueueForkedTask_meets (hc : Coherent s) (db : Db) (progr : Objid) (now : Int) (afterSeconds : Nat)
    (id : Int) (hn : counted → progr = nothing → s.checkUserTaskLimit db progr = .ok true → s.Single nothing) :
    Meets Missing (fun r => Changes bare counted s r.2) (s.enqueueForkedTask db progr now afterSeconds id) := by
  unfold enqueueForkedTask
  refine (checkUserTaskLimit_meets db progr s).self.bind fun below hlimit => ?_
  split
  · next hbelow =>
      subst hbelow
      have hs : counted → progr = nothing → s.Single nothing := fun hcount hp => hn hcount hp hlimit
      exact (enqueueWaiting_meets hc db rfl hs).bind fun _ h => h
  · exact .refl

theorem enqueueSuspendedTask_meets (hc : Coherent s) (db : Db) (taskId : Int) (progr : Objid)
    (now afterSeconds : Nat) (hn : counted → progr = nothing → s.checkUserTaskLimit db progr = .ok true → s.Single nothing) :
    Meets Missing (fun r => Changes bare counted s r.2)
      (s.enqueueSuspendedTask db taskId progr now afterSeconds) := by
  unfold enqueueSuspendedTask
  refine (checkUserTaskLimit_meets db progr s).self.bind fun below hlimit => ?_
  split
  · next hbelow =>
      subst hbelow
      have hs : counted → progr = nothing → s.Single nothing := fun hcount hp => hn hcount hp hlimit
      exact (enqueueWaiting_meets hc db rfl hs).bind fun _ h => h
  · exact .refl

theorem resumeTask_meets (hc : Coherent s) (db : Db) (taskId : Int) (progr : Objid) (value : Var)
    (hn : ¬ counted) : Meets Missing (Changes bare counted s) (s.resumeTask db taskId progr value) := by
  unfold resumeTask
  refine (findOrNewTqueue_meets hc.wired db progr).bind fun r hr => ?_
  obtain ⟨q, s₁⟩ := r
  obtain ⟨tq, hf⟩ := hr
  dsimp only at hf ⊢
  unfold enqueueBgTask
  rw [modifyQueue_eq hf.queue]
  have hch : Changes bare counted s s₁ := hf.changes
  have htag : s.nextTag = s₁.nextTag := by rw [hf.rest]
  have hw := (hc.changes hch).wired
  change Meets _ _ (ensureUsage q _ >>= _)
  refine Meets.bind (ensureUsage_after bare counted hw hf.queue (Function.update_self ..) rfl rfl
    (fun _ _ => usageOf_write hf.queue rfl rfl) Iff.rfl) fun s₂ hs₂ => ?_
  obtain ⟨usage, active, hch₂, ha, rfl⟩ := hs₂
  have harrive : Change bare counted (ensured q tq usage active s₁) _ :=
    .arrive (t := .suspended { tag := s.nextTag, taskId, progr } 0 value) queues_ensured ha htag hn
  have htail := (hch.trans hch₂).tail harrive
  simp only [ensured, setQueue, Function.update_idem] at htail ⊢
  exact htail

theorem readInputNow_meets (hc : Coherent s) (connection : Objid) :
    Meets Missing (fun r => Changes bare counted s r.2) (s.readInputNow connection) := by
  unfold readInputNow
  split
  · exact .refl
  · next q hf =>
      obtain ⟨tq, hq, _⟩ := findTqueue_eq_some hf
      rw [queue_eq_ok hq]
      change Meets _ _ (if _ then _ else _)
      split
      · exact .refl
      · refine (dequeueInputTask_meets (hc.agreed.answered hq) hq).bind fun r hr => ?_
        obtain ⟨o, s₁⟩ := r
        cases o with
        | none => exact hr.1 ▸ .refl
        | some t =>
            obtain ⟨tq', he, _⟩ := hr
            exact he.changes hc hq

theorem makeReadingTask_meets (hc : Coherent s) (taskId : Int) (progr player : Objid) :
    Meets Missing (fun r => Changes bare counted s r.2) (s.makeReadingTask taskId progr player) := by
  unfold makeReadingTask
  split
  · exact .refl
  · next q hf =>
      obtain ⟨tq, hq, _⟩ := findTqueue_eq_some hf
      rw [queue_eq_ok hq]
      change Meets _ _ (if _ then _ else _)
      split
      · exact .refl
      · next hif =>
          have hr : tq.reading = none := by simp_all
          change Meets _ _ (if _ then _ else _)
          split
          · next hi =>
              have hconn : tq.connected = true := by simp_all [isOutOfInput]
              exact .single (.startReading _ hq hr (.inl hconn) rfl)
          · refine Meets.bind (ensureUsage_after bare counted hc.wired hq (Function.update_self ..) rfl rfl
              (fun _ _ => usageOf_write hq rfl rfl) Iff.rfl) fun s₂ hs₂ => ?_
            obtain ⟨usage, active, hch₂, ha, rfl⟩ := hs₂
            have hstart : Change bare counted (ensured q tq usage active s) _ :=
              .startReading { tag := s.nextTag, taskId, progr } queues_ensured hr (.inr ha) rfl
            have htail := hch₂.tail hstart
            simp only [ensured, setQueue, Function.update_idem] at htail ⊢
            exact htail

/-! Killing and resuming. -/

theorem stopReading_meets (hq : s.queues q = some tq) :
    Meets Missing (Changes bare counted s) (s.stopReading q) := by
  unfold stopReading
  rw [queue_eq_ok hq, Except.bind_of_ok]
  split
  · exact .refl
  · next vm hr => exact .single (.stopReading vm hq hr)

theorem killReading_meets (db : Db) (owner : Objid) (hq : s.queues q = some tq) :
    Meets Missing (fun r => Changes bare counted s r.2) (s.killReading db owner q) := by
  unfold killReading
  rw [queue_eq_ok hq]
  change Meets _ _ (if _ then _ else _)
  split
  · exact .refl
  · exact (stopReading_meets hq).bind fun _ h => h

theorem killActive_meets (db : Db) (id : Int) (owner : Objid) {qs : List Nat} (hw : Wired s)
    (hqs : ∀ q ∈ qs, q ∈ s.active) :
    Meets Missing (fun r => Changes bare counted s r.2) (killActive db id owner qs s) := by
  induction qs with
  | nil => exact .refl
  | cons q qs ih =>
      obtain ⟨tq, hq⟩ := hw.exists_queue_of_active (hqs q (.head qs))
      unfold killActive
      rw [queue_eq_ok hq]
      change Meets _ _ (if _ then _ else _)
      split
      · exact killReading_meets db owner hq
      · split
        · exact ih fun x hx => hqs x (.tail q hx)
        · next i hi =>
            have hlt := (List.findIdx?_eq_some_iff_findIdx_eq.mp hi).1
            change Meets _ _ (if _ then _ else _)
            split
            · exact .refl
            · have hend : Change bare counted s _ :=
                .endBg (tq.bg.unlink i) hq (List.getElem?_eq_getElem hlt) rfl fun hb => hb.unlink hlt
              rw [List.getElem?_eq_getElem hlt]
              exact .single hend

theorem killTask_meets (db : Db) (id : Int) (owner : Objid) (hw : Wired s) :
    Meets Missing (fun r => Changes bare counted s r.2) (s.killTask db id owner) := by
  unfold killTask
  split
  · exact .refl
  · split
    · split
      · exact .refl
      · next t hi =>
          split
          · exact .refl
          · cases hf : s.findTqueue t.progr with
            | none => exact .single (.killStray (hw.lacks_of_findTqueue hf) hi)
            | some q =>
                obtain ⟨tq, hq, hp⟩ := findTqueue_eq_some hf
                dsimp only
                rw [modifyQueue_eq hq]
                exact .single (.killWaiting hq hp hi)
    · split
      · next q hf =>
          obtain ⟨tq, hq⟩ := hw.exists_queue_of_idle (List.mem_of_find?_eq_some hf)
          exact killReading_meets db owner hq
      · exact killActive_meets db id owner hw fun _ hq => hq

theorem resumed_tag (value : Var) (startTime : Option Int) (t : BgTask) :
    (resumed value startTime t).tag = t.tag := by
  cases t <;> rfl

theorem resumeActive_meets (db : Db) (id : Int) (value : Var) (progr : Objid) {qs : List Nat}
    (hw : Wired s) (hqs : ∀ q ∈ qs, q ∈ s.active) :
    Meets Missing (fun r => Changes bare counted s r.2) (resumeActive db id value progr qs s) := by
  induction qs with
  | nil => exact .refl
  | cons q qs ih =>
      obtain ⟨tq, hq⟩ := hw.exists_queue_of_active (hqs q (.head qs))
      unfold resumeActive
      rw [queue_eq_ok hq, Except.bind_of_ok]
      split
      · exact ih fun x hx => hqs x (.tail q hx)
      · next i _ =>
          split
          · exact .refl
          · refine .single (.renew _ hq ?_ fun hb => ?_)
            · refine List.ext_getElem? fun j => ?_
              rw [List.getElem?_map, List.getElem?_map, List.getElem?_modify]
              cases tq.bg.cells[j]? with
              | none => rfl
              | some t =>
                  change some (if i = j then resumed value none t else t).tag = some t.tag
                  split
                  · rw [resumed_tag]
                  · rfl
            · unfold TailList.Tailed at hb ⊢
              rw [List.length_modify]
              exact hb

theorem doResume_meets (hc : Coherent s) (db : Db) (id : Int) (value : Var) (progr : Objid) (now : Int) :
    Meets Missing (fun r => Changes bare counted s r.2) (s.doResume db id value progr now) := by
  unfold doResume
  split
  · split
    · exact .refl
    · next i _ t hi =>
        split
        · exact .refl
        · refine (findOrNewTqueue_meets hc.wired db t.progr).bind fun r hr => ?_
          obtain ⟨q, s₁⟩ := r
          obtain ⟨tq, hf⟩ := hr
          dsimp only at hf ⊢
          have hch : Changes bare counted s s₁ := hf.changes
          have hwait : s₁.waiting = s.waiting := by rw [hf.rest]
          have hw := (hc.changes hch).wired
          refine Meets.bind (ensureUsage_after bare counted hw hf.queue hf.queue rfl rfl
            (fun _ _ => rfl) Iff.rfl) fun s₂ hs₂ => ?_
          obtain ⟨usage, active, hch₂, ha, rfl⟩ := hs₂
          unfold enqueueBgTask
          rw [modifyQueue_eq queues_ensured]
          have hwake : Change bare counted (ensured q tq usage active s₁) _ :=
            .wake queues_ensured ha hf.owner (hwait ▸ hi) (resumed_tag value (some now) t)
          exact (hch.trans hch₂).tail hwake
  · exact resumeActive_meets db id value progr hc.wired fun _ hq => hq

theorem bfForceInput_meets (hc : Coherent s) (db : Db) (progr conn : Objid) (line : Str) (atFront : Bool) :
    Meets Missing (fun r => Changes bare counted s r.2) (s.bfForceInput db progr conn line atFront) := by
  unfold bfForceInput
  split
  · exact .refl
  · refine (findOrNewTqueue_meets hc.wired db conn).bind fun r hr => ?_
    obtain ⟨q, s₁⟩ := r
    obtain ⟨tq, hf⟩ := hr
    have hch : Changes bare counted s s₁ := hf.changes
    refine (enqueueInputTask_meets bare counted (hc.changes hch) hf.queue line atFront).bind fun s₂ hs₂ => ?_
    exact hch.trans hs₂.1

theorem bfFlushInput_meets (hc : Coherent s) (db : Db) (progr conn : Objid) :
    Meets Missing (fun r => Changes bare counted s r.2) (s.bfFlushInput db progr conn) := by
  unfold bfFlushInput
  split
  · exact .refl
  · refine (findOrNewTqueue_meets hc.wired db conn).bind fun r hr => ?_
    obtain ⟨q, s₁⟩ := r
    obtain ⟨tq, hf⟩ := hr
    have hch : Changes bare counted s s₁ := hf.changes
    have hc₁ := hc.changes hch
    refine (flushInput_meets hc₁ hf.queue).bind fun s₂ hs₂ => ?_
    obtain ⟨tq₂, he⟩ := hs₂
    exact hch.trans (he.changes hc₁ hf.queue)

end Server
end LambdaMoo
