import LambdaMoo.TaskEvents

/-! Running tasks is a sequence of changes, and comes to an end. -/
namespace LambdaMoo

namespace Server

open Except

variable {s s' s₁ : Server} {q x : Nat} {tq tq' : Tqueue} {player progr : Objid} {bare counted : Prop}
  {t : BgTask} {db : Db} {now start : Int}

/-! Tasks whose time has come. -/

theorem moveReady_meets (bare counted : Prop) (hc : Coherent s) (db : Db) (now : Int) {ts : List BgTask} (hts : s.waiting = ts) :
    Meets Missing (fun s' => Changes bare counted s s' ∧ s'.waiting <:+ ts ∧
      (∀ t ∈ s'.waiting, now < t.startTime) ∧ s'.current = s.current) (moveReady db now ts s) := by
  induction ts generalizing s with
  | nil => exact ⟨.refl, hts ▸ List.suffix_refl _, by simp [hts], rfl⟩
  | cons t ts ih =>
      unfold moveReady
      split
      · refine (findOrNewTqueue_meets hc.wired db t.progr).bind fun r hr => ?_
        obtain ⟨q, s₁⟩ := r
        obtain ⟨tq, hf⟩ := hr
        dsimp only at hf ⊢
        have hch : Changes bare counted s s₁ := hf.changes
        have hwait : s₁.waiting = t :: ts := by rw [hf.rest, ← hts]
        have hcur : s₁.current = s.current := by rw [hf.rest]
        have hw := (hc.changes hch).wired
        refine Meets.bind (ensureUsage_after bare counted hw hf.queue hf.queue rfl rfl
          (fun _ _ => rfl) Iff.rfl) fun s₂ hs₂ => ?_
        obtain ⟨usage, active, hch₂, ha, rfl⟩ := hs₂
        unfold enqueueBgTask
        rw [modifyQueue_eq queues_ensured]
        have hwake : Change bare counted (ensured q tq usage active s₁) _ :=
          .wake (i := 0) queues_ensured ha hf.owner (congrArg (·[0]?) hwait) rfl
        have htail := (hch.trans hch₂).tail hwake
        have herase : (ensured q tq usage active s₁).waiting.eraseIdx 0 = ts :=
          congrArg (List.eraseIdx · 0) hwait
        rw [herase] at htail
        refine (ih (hc.changes htail) rfl).mono fun s' hs' => ?_
        exact ⟨htail.trans hs'.1, hs'.2.1.trans (List.suffix_cons t ts), hs'.2.2.1, hs'.2.2.2.trans hcur⟩
      · next hlate =>
          refine ⟨.refl, hts ▸ List.suffix_refl _, fun t' ht' => ?_, rfl⟩
          have hord := hc.wired.ordered
          rw [hts] at hord ht'
          have hle : t.startTime ≤ t'.startTime := by
            cases ht' with
            | head => exact Int.le_refl _
            | tail _ ht' =>
                have hb := (List.pairwise_cons.mp hord).1 t' ht'
                unfold BgTask.Before at hb
                omega
          omega

/-! A queue is served. -/

theorem dequeueBgTask_meets (hq : s.queues q = some tq) :
    Meets Missing (fun r => match r.1 with
        | none => r.2 = s ∧ tq.bg.cells = []
        | some t => ∃ bg, tq.bg.cells = t :: bg.cells ∧ (tq.bg.Tailed → bg.Tailed) ∧
            r.2 = s.setQueue q { tq with bg, numBgTasks := tq.numBgTasks - 1 })
      (s.dequeueBgTask q) := by
  unfold dequeueBgTask
  rw [queue_eq_ok hq, Except.bind_of_ok]
  split
  · next hd => exact ⟨rfl, TailList.dequeue_eq_none.mp hd⟩
  · next t bg hd => exact ⟨bg, TailList.dequeue_eq_some hd, fun hb => hb.dequeue hd, rfl⟩

theorem dequeueAnyTask_meets (hx : Answered s tq) (hq : s.queues q = some tq) :
    Meets Missing (fun r => match r.1 with
        | none => r.2 = s ∧ tq.input.cells = [] ∧ tq.bg.cells = []
        | some (.inl t) => ∃ tq', Edited s q tq r.2 tq' ∧ tq.input.cells = t :: tq'.input.cells ∧
            tq'.holdInput = tq.holdInput
        | some (.inr t) => tq.input.cells = [] ∧ ∃ bg, tq.bg.cells = t :: bg.cells ∧
            (tq.bg.Tailed → bg.Tailed) ∧
            r.2 = s.setQueue q { tq with bg, numBgTasks := tq.numBgTasks - 1 })
      (s.dequeueAnyTask q) := by
  unfold dequeueAnyTask
  refine (dequeueInputTask_meets hx hq).bind fun r hr => ?_
  obtain ⟨o, s₁⟩ := r
  cases o with
  | some t => exact hr
  | none =>
      obtain ⟨rfl, hi⟩ := hr
      refine (dequeueBgTask_meets hq).bind fun r hr => ?_
      obtain ⟨o, s₂⟩ := r
      cases o with
      | none => exact ⟨hr.1, hi, hr.2⟩
      | some t => exact ⟨hi, hr⟩

/-- What serving a queue comes to: nothing to do, or a task to run. -/
structure Served (bare counted : Prop) (s : Server) (q : Nat) (r : Option (Job × Int) × Server) : Prop where
  changes : Changes bare counted s r.2
  active : r.2.active = s.active
  current : r.2.current = s.current
  useless : r.1 = none → ∃ tq', r.2.queues q = some tq' ∧ tq'.bg.cells = [] ∧
    (tq'.reading.isSome → tq'.connected = true)
  login : ∀ id, r.1 = some (.login, id) → ∃ tq', r.2.queues q = some tq' ∧ tq'.player < 0

namespace Served

theorem idle (hq : s.queues q = some tq) (hb : tq.bg.cells = []) (hr : tq.reading.isSome → tq.connected = true) :
    Served bare counted s q (none, s) :=
  ⟨.refl, rfl, rfl, fun _ => ⟨tq, hq, hb, hr⟩, nofun⟩

theorem background (hq : s.queues q = some tq) {bg : TailList BgTask} (hcells : tq.bg.cells = t :: bg.cells)
    (hb : tq.bg.Tailed → bg.Tailed) :
    Served bare counted s q (some (.task, t.id),
      { s.setQueue q { tq with bg, numBgTasks := tq.numBgTasks - 1 } with ended := t.tag :: s.ended }) := by
  have hend : Change bare counted s _ :=
    .endBg (i := 0) (t := t) bg hq (by rw [hcells]; rfl) (by rw [hcells]; rfl) hb
  exact ⟨.single hend, rfl, rfl, nofun, nofun⟩

theorem after {r : Option (Job × Int) × Server} (he : Edited s q tq s₁ tq') (hc : Coherent s)
    (hq : s.queues q = some tq) (h : Served bare counted s₁ q r) : Served bare counted s q r := by
  have hch : Changes bare counted s s₁ := he.changes hc hq
  obtain ⟨hs, rfl, _⟩ := he.rest
  exact ⟨hch.trans h.changes, h.active, h.current, h.useless, h.login⟩

end Served

theorem stopReading_eq {vm : Vm} (hq : s.queues q = some tq) (hr : tq.reading = some vm) :
    s.stopReading q = .ok { s.setQueue q { tq with reading := none } with ended := vm.tag :: s.ended } := by
  unfold stopReading
  rw [queue_eq_ok hq]
  rw [Except.bind_of_ok, hr]
  rfl

theorem pickTask_meets {fuel : Nat} (hc : Coherent s) (hq : s.queues q = some tq)
    (hfuel : tq.input.cells.length < fuel)
    (hr : tq.reading.isSome → tq.input.cells = [] → tq.connected = true) :
    Meets Missing (Served bare counted s q) (pickTask q fuel s) := by
  induction fuel generalizing s tq with
  | zero => omega
  | succ fuel ih =>
      unfold pickTask
      rw [queue_eq_ok hq]
      change Meets _ _ (if _ then _ else _)
      split
      · next hhold =>
          have hnone : ¬ tq.reading.isSome := by simp_all
          refine (dequeueBgTask_meets hq).bind fun r hd => ?_
          obtain ⟨o, s₁⟩ := r
          cases o with
          | none =>
              obtain ⟨rfl, hb⟩ := hd
              exact .idle hq hb fun hr => absurd hr hnone
          | some t =>
              obtain ⟨bg, hcells, hb, rfl⟩ := hd
              exact .background hq hcells hb
      · refine (dequeueAnyTask_meets (hc.agreed.answered hq) hq).bind fun r hd => ?_
        obtain ⟨o, s₁⟩ := r
        match o with
        | none =>
            obtain ⟨rfl, hi, hb⟩ := hd
            exact .idle hq hb fun hr' => hr hr' hi
        | some (.inr t) =>
            obtain ⟨_, bg, hcells, hb, rfl⟩ := hd
            exact .background hq hcells hb
        | some (.inl t) =>
            obtain ⟨tq', he, hcells, _⟩ := hd
            dsimp only at he
            have hc₁ := he.coherent hc hq
            have hf := he.fields
            change Meets _ _ (if _ then _ else _)
            split
            · exact .after he hc hq ⟨.refl, rfl, rfl, nofun, nofun⟩
            · split
              · next vm hvm =>
                  have hvm' := hf.2.2.2.2.2.trans hvm
                  rw [stopReading_eq he.queue hvm']
                  exact .after he hc hq ⟨.single (.stopReading vm he.queue hvm'), rfl, rfl, nofun, nofun⟩
              · next hnone =>
                  split
                  · next hneg =>
                      exact .after he hc hq
                        ⟨.refl, rfl, rfl, nofun, fun _ _ => ⟨tq', he.queue, hf.1.symm ▸ hneg⟩⟩
                  · split
                    · dsimp only
                      rw [modifyQueue_eq he.queue]
                      refine .after he hc hq ⟨.single (.edit he.queue rfl fun hw => ?_), rfl, rfl, nofun, nofun⟩
                      exact ⟨hw.input, hw.bg, hw.lengths, hw.total⟩
                    · refine (ih hc₁ he.queue ?_ ?_).mono fun r h => .after he hc hq h
                      · rw [hcells, List.length_cons] at hfuel
                        omega
                      · rw [hf.2.2.2.2.2, hnone]
                        exact nofun

theorem serveQueue_meets (bare counted : Prop) (hc : Coherent s) (hq : s.queues q = some tq) :
    Meets Missing (Served bare counted s q) (s.serveQueue q) := by
  unfold serveQueue
  rw [queue_eq_ok hq, Except.bind_of_ok]
  split
  · next vm hvm =>
      split
      · rw [stopReading_eq hq hvm]
        refine ⟨.single (.stopReading vm hq hvm), rfl, rfl, fun hpick => ?_, fun id hpick => ?_⟩ <;> cases hpick
      · next hout =>
          refine pickTask_meets hc hq (Nat.lt_succ_self _) fun _ hi => ?_
          simpa [isOutOfInput, hi] using hout
  · next hnone => exact pickTask_meets hc hq (Nat.lt_succ_self _) (by simp [hnone])

/-! `run_ready_tasks`. -/

theorem freeUseless_meets (bare counted : Prop) (hc : Coherent s) :
    Meets Missing (Changes bare counted s) s.freeUseless := by
  -- the queues still to come are idle, whatever was freed before
  have hloop : ∀ qs : List Nat, qs.Nodup → ∀ s₁, Changes bare counted s s₁ → (∀ q ∈ qs, q ∈ s₁.idle) →
      Meets Missing (Changes bare counted s) (qs.foldlM (fun s q => do
        let tq ← s.queue q
        if !tq.connected && tq.input.cells.isEmpty && tq.numBgTasks = 0 then return s.freeTqueue q
        else return s) s₁) := by
    intro qs
    induction qs with
    | nil => exact fun _ s₁ hch _ => hch
    | cons q qs ih =>
        intro hnodup s₁ hch hidle
        rw [List.nodup_cons] at hnodup
        have hw := (hc.changes hch).wired
        obtain ⟨tq, hq⟩ := hw.exists_queue_of_idle (hidle q (.head qs))
        rw [List.foldlM_cons, queue_eq_ok hq]
        change Meets _ _ ((if _ then _ else _) >>= _)
        split
        · next hif =>
            have hif : tq.connected = false ∧ tq.numBgTasks = 0 := by simp_all
            have hfree : Change bare counted s₁ (s₁.freeTqueue q) :=
              .free hq (hidle q (.head qs)) hif.1 hif.2
            refine ih hnodup.2 _ (hch.tail hfree) fun x hx => ?_
            have hne : x ≠ q := fun he => hnodup.1 (he ▸ hx)
            exact (List.mem_erase_of_ne hne).mpr (hidle x (.tail q hx))
        · exact ih hnodup.2 s₁ hch fun x hx => hidle x (.tail q hx)
  unfold freeUseless
  exact hloop s.idle (List.nodup_append.mp hc.wired.nodup).1 s .refl fun _ hq => hq

theorem popActive_eq {qs : List Nat} (ha : s.active = q :: qs) : s.popActive q = { s with active := qs } := by
  unfold popActive
  rw [ha]
  simp

theorem serveQueues_meets (bare counted : Prop) (hc : Coherent s) {qs : List Nat} (ha : s.active = qs) (hcur : s.current = none)
    (start : Int) : Meets Missing (Changes bare counted s) (serveQueues start qs s) := by
  induction qs generalizing s with
  | nil => exact freeUseless_meets bare counted hc
  | cons q qs ih =>
      have hmem : q ∈ s.active := by
        rw [ha]
        exact .head qs
      obtain ⟨tq, hq⟩ := hc.wired.exists_queue_of_active hmem
      unfold serveQueues
      refine (serveQueue_meets bare counted hc hq).bind fun r hr => ?_
      obtain ⟨o, s₁⟩ := r
      have hch : Changes bare counted s s₁ := hr.changes
      have ha₁ : s₁.active = q :: qs := hr.active.trans ha
      have hcur₁ : s₁.current = none := hr.current.trans hcur
      match o with
      | some (job, id) =>
          have hnote : ∀ login : Bool, (login = true → job = .login) → Change bare counted s₁
              { s₁ with current := some { queue := q, start, login }, currentTaskId := id } := by
            intro login hl
            refine .note s₁.shandles _ id rfl fun c hc => ?_
            cases hc
            refine ⟨by rw [ha₁]; rfl, fun hlogin => ?_⟩
            rw [hl hlogin] at hr
            exact hr.login id rfl
          cases job <;> exact hch.tail (hnote _ (by simp))
      | none =>
          obtain ⟨tq', hq', hb, hread⟩ := hr.useless rfl
          have hdeact : Change bare counted s₁ _ := .deactivate qs hq' ha₁ hcur₁ hb hread
          unfold deactivateTqueue
          dsimp only
          rw [popActive_eq ha₁]
          change Meets _ _ ((modifyQueue _ q _ >>= _) >>= _)
          rw [modifyQueue_eq (s := { s₁ with active := qs }) hq']
          refine (ih (hc.changes (hch.tail hdeact)) rfl hcur₁).mono fun s' hs' => ?_
          exact (hch.tail hdeact).trans hs'

/-- The tasks that are due are on their queues when the first task is looked for. -/
theorem runReadyTasks_meets (bare counted : Prop) (hc : Coherent s) (hcur : s.current = none) (db : Db) (now start : Int) :
    Meets Missing (fun s' => ∃ s₁, Changes bare counted s s₁ ∧ s₁.waiting <:+ s.waiting ∧
      (∀ t ∈ s₁.waiting, now < t.startTime) ∧ Changes bare counted s₁ s') (s.runReadyTasks db now start) := by
  unfold runReadyTasks
  refine (moveReady_meets bare counted hc db now rfl).bind fun s₁ hs₁ => ?_
  obtain ⟨hch, hsuffix, hlate, hcur₁⟩ := hs₁
  refine (serveQueues_meets bare counted (hc.changes hch) rfl (hcur₁.trans hcur) start).mono fun s' hs' => ?_
  exact ⟨s₁, hch, hsuffix, hlate, hs'⟩

theorem taskDone_meets (hc : Coherent s) {c : Current} (hcur : s.current = some c) (stop : Int)
    (hu : counted → wrap32 (s.usageOf c.queue + (stop - c.start)) ≠ noUsage) :
    Meets Missing (Changes bare counted s) (s.taskDone c stop) := by
  obtain ⟨rest, ha⟩ := List.head?_eq_some_iff.mp (hc.wired.running c hcur)
  have hmem : c.queue ∈ s.active := by
    rw [ha]
    exact .head rest
  obtain ⟨tq, hq⟩ := hc.wired.exists_queue_of_active hmem
  rw [usageOf_eq hq] at hu
  have hdone : Change bare counted s _ := .done (wrap32 (tq.usage + (stop - c.start))) rest hq ha hu
  unfold taskDone
  rw [popActive_eq ha]
  dsimp only
  rw [modifyQueue_eq (s := { s with active := rest }) hq]
  refine (freeUseless_meets bare counted (hc.change hdone)).mono fun s' hs' => ?_
  exact (Relation.ReflTransGen.single hdone).trans hs'

end Server
end LambdaMoo
