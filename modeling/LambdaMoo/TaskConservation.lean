import LambdaMoo.TaskBalance

/-! No task is lost, and none is there twice. -/
namespace LambdaMoo

namespace Server

variable {s s' s'' : Server} {q x tag : Nat} {tq tq' : Tqueue} {t : BgTask} {bare counted : Prop}

/-! What waits or is read was so before, or is new. -/

structure Later (s s' : Server) : Prop where
  nextTag : s.nextTag ≤ s'.nextTag
  waiting : ∀ t ∈ s'.waiting, t ∈ s.waiting ∨ s.nextTag ≤ t.tag
  reading : ∀ q tq vm, s'.queues q = some tq → tq.reading = some vm →
    (∃ q' tq', s.queues q' = some tq' ∧ tq'.reading = some vm) ∨ s.nextTag ≤ vm.tag

namespace Later

theorem refl (s : Server) : Later s s :=
  ⟨Nat.le_refl _, fun _ ht => .inl ht, fun q tq _ hq hr => .inl ⟨q, tq, hq, hr⟩⟩

theorem trans (h : Later s s') (h' : Later s' s'') : Later s s'' where
  nextTag := h.nextTag.trans h'.nextTag
  waiting t ht := by
    obtain hold | hnew := h'.waiting t ht
    · exact h.waiting t hold
    · exact .inr (h.nextTag.trans hnew)
  reading q tq vm hq hr := by
    obtain ⟨q', tq', hq', hr'⟩ | hnew := h'.reading q tq vm hq hr
    · exact h.reading q' tq' vm hq' hr'
    · exact .inr (h.nextTag.trans hnew)

theorem write (hq : s.queues q = some tq) (hqueues : s'.queues = (s.setQueue q tq').queues)
    (hn : s.nextTag ≤ s'.nextTag) (hwait : ∀ t ∈ s'.waiting, t ∈ s.waiting ∨ s.nextTag ≤ t.tag)
    (hread : ∀ vm, tq'.reading = some vm → tq.reading = some vm ∨ s.nextTag ≤ vm.tag) : Later s s' where
  nextTag := hn
  waiting := hwait
  reading x tqx vm hqx hr := by
    rw [hqueues, queues_setQueue] at hqx
    split at hqx
    · cases hqx
      exact (hread vm hr).imp_left fun hold => ⟨q, tq, hq, hold⟩
    · exact .inl ⟨x, tqx, hqx, hr⟩

theorem setQueue (hq : s.queues q = some tq) (hr : tq'.reading = tq.reading) : Later s (s.setQueue q tq') :=
  write hq rfl (Nat.le_refl _) (fun _ ht => .inl ht) fun _ hvm => .inl (hr ▸ hvm)

theorem created (s : Server) (player : Objid) (flushCmd : Option Str) :
    Later s (created player flushCmd s) where
  nextTag := Nat.le_refl _
  waiting _ ht := .inl ht
  reading x tqx vm hqx hr := by
    change Function.update s.queues s.nextQueue _ x = some tqx at hqx
    rw [Function.update_apply] at hqx
    split at hqx
    · cases hqx
      simp [newTqueue] at hr
    · exact .inl ⟨x, tqx, hqx, hr⟩

theorem leaving (s : Server) (flushCmd : Option Str) (tq : Tqueue) : Later s (leaving flushCmd tq s) := by
  unfold Server.leaving
  split
  · exact refl s
  · exact (created s tq.player flushCmd).trans (setQueue (Function.update_self ..) rfl)

theorem retiring {dead : Option (Nat × Tqueue)}
    (hd : ∀ d tqd, dead = some (d, tqd) → s.queues d = some tqd) : Later s (s.retiring dead) := by
  match dead with
  | none => exact refl s
  | some (d, tqd) => exact setQueue (hd d tqd rfl) rfl

theorem login {newPlayer : Objid} {dead : Option (Nat × Tqueue)} (flushCmd : Option Str)
    (hq : s.queues q = some tq) (hold : tq.player ≠ newPlayer)
    (hd : ∀ d tqd, dead = some (d, tqd) → s.queues d = some tqd ∧ tqd.player = newPlayer) :
    Later s (Server.leaving flushCmd tq ((s.retiring dead).setQueue q (heir tq newPlayer dead))) := by
  have hretired : Later s (s.retiring dead) := retiring fun d tqd he => (hd d tqd he).1
  have hheir : Later (s.retiring dead) ((s.retiring dead).setQueue q (heir tq newPlayer dead)) :=
    setQueue (queues_retiring hq hold hd) rfl
  exact (hretired.trans hheir).trans (leaving _ flushCmd tq)

theorem change (hc : Change bare counted s s') : Later s s' := by
  cases hc with
  | edit hq hcore _ =>
      simp only [Tqueue.core, Prod.mk.injEq] at hcore
      exact setQueue hq hcore.2.2.2.2.2
  | note => exact ⟨Nat.le_refl _, fun _ ht => .inl ht, (refl s).reading⟩
  | create flushCmd hl => exact created s _ flushCmd
  | activate hq hi => exact write hq rfl (Nat.le_refl _) (fun _ ht => .inl ht) fun _ => .inl
  | wait hq hp ht hn =>
      refine write hq rfl (Nat.le_succ _) (fun t' ht' => ?_) fun _ => .inl
      obtain rfl | hold := List.mem_cons.mp ((insertWaiting_perm _ s.waiting).mem_iff.mp ht')
      · exact .inr ht.ge
      · exact .inl hold
  | arrive hq ha ht hn => exact write hq rfl (Nat.le_succ _) (fun _ ht => .inl ht) fun _ => .inl
  | wake hq ha hp hi ht | killWaiting hq hp hi =>
      exact write hq rfl (Nat.le_refl _) (fun _ ht => .inl (List.mem_of_mem_eraseIdx ht)) fun _ => .inl
  | killStray hl hi =>
      exact ⟨Nat.le_refl _, fun _ ht => .inl (List.mem_of_mem_eraseIdx ht), (refl s).reading⟩
  | endBg bg hq hi hc hb | renew bg hq hc hb => exact write hq rfl (Nat.le_refl _) (fun _ ht => .inl ht) fun _ => .inl
  | startReading vm hq hr ha ht =>
      refine write hq rfl (Nat.le_succ _) (fun _ ht => .inl ht) fun vm' hvm => .inr ?_
      cases hvm
      exact ht.ge
  | stopReading vm hq hr =>
      refine write hq rfl (Nat.le_refl _) (fun _ ht => .inl ht) fun vm' hvm' => ?_
      cases hvm'
  | connect hd hq hp hn hh ht => exact write hq rfl (Nat.le_refl _) (fun _ ht => .inl ht) fun _ => .inl
  | disconnect hd hh hq hr => exact write hq rfl (Nat.le_refl _) (fun _ ht => .inl ht) fun _ => .inl
  | deactivate rest hq ha hc hb hr => exact write hq rfl (Nat.le_refl _) (fun _ ht => .inl ht) fun _ => .inl
  | free hq hi hc hn =>
      refine ⟨Nat.le_refl _, fun _ ht => .inl ht, fun x tqx vm hqx hr => .inl ⟨x, tqx, ?_, hr⟩⟩
      change Function.update s.queues _ none x = some tqx at hqx
      rw [Function.update_apply] at hqx
      split at hqx
      · contradiction
      · exact hqx
  | done usage rest hq ha hu => exact write hq rfl (Nat.le_refl _) (fun _ ht => .inl ht) fun _ => .inl
  | login hd newPlayer dead flushCmd hq hh ht hold hnew hcur hl hdead hbare hn =>
      have hdead : ∀ d tqd, dead = some (d, tqd) → s.queues d = some tqd ∧ tqd.player = newPlayer :=
        fun d tqd he => ⟨(hdead d tqd he).1, (hdead d tqd he).2.1⟩
      have hlater := login flushCmd hq (fun heq => absurd hold (by lia)) hdead
      exact ⟨hlater.nextTag, hlater.waiting, hlater.reading⟩

theorem changes (hc : Changes bare counted s s') : Later s s' := by
  induction hc with
  | refl => exact refl s
  | tail _ hstep ih => exact ih.trans (change hstep)

end Later

/-! The places of the tasks. -/

def pending (s : Server) : List Nat :=
  s.waiting.map BgTask.tag ++ (s.idle ++ s.active).flatMap s.heldBy

theorem count_pending (tag : Nat) : s.pending.count tag + s.ended.count tag = s.census tag := by
  unfold pending census carried
  rw [List.count_append]

theorem flatMap_filterMap {α : Type} (f : Tqueue → List α) (l : List Nat) :
    (l.filterMap s.queues).flatMap f = l.flatMap fun q => (s.queues q).elim [] f := by
  induction l with
  | nil => rfl
  | cons q l ih =>
      rw [List.flatMap_cons, ← ih, List.filterMap_cons]
      cases s.queues q <;> rfl

theorem heldBy_append : s.heldBy q = s.tasksAt (.background q) ++ s.tasksAt (.reading q) := by
  simp only [heldBy, tasksAt]
  cases s.queues q <;> rfl

theorem mem_heldBy :
    tag ∈ s.heldBy q ↔ tag ∈ s.tasksAt (.background q) ∨ tag ∈ s.tasksAt (.reading q) := by
  rw [heldBy_append, List.mem_append]

theorem Wired.mem_listed (hw : Wired s) (hq : tag ∈ s.heldBy q) : q ∈ s.idle ++ s.active := by
  refine (hw.listed q).mpr ?_
  unfold heldBy at hq
  cases hqueue : s.queues q with
  | none => simp [hqueue] at hq
  | some tq => rfl

theorem Wired.mem_flatMap_heldBy (hw : Wired s) (hq : tag ∈ s.heldBy q) :
    tag ∈ (s.idle ++ s.active).flatMap s.heldBy :=
  List.mem_flatMap.mpr ⟨q, hw.mem_listed hq, hq⟩

theorem Wired.mem_pending_iff (hw : Wired s) : tag ∈ s.pending ↔ ∃ p, tag ∈ s.tasksAt p := by
  unfold pending
  constructor
  · intro hp
    obtain hwait | hheld := List.mem_append.mp hp
    · exact ⟨.waiting, hwait⟩
    · obtain ⟨q, -, hq⟩ := List.mem_flatMap.mp hheld
      obtain hbg | hread := mem_heldBy.mp hq
      · exact ⟨.background q, hbg⟩
      · exact ⟨.reading q, hread⟩
  · rintro ⟨p, hp⟩
    cases p with
    | waiting => exact List.mem_append_left _ hp
    | background q => exact List.mem_append_right _ (hw.mem_flatMap_heldBy (mem_heldBy.mpr (.inl hp)))
    | reading q => exact List.mem_append_right _ (hw.mem_flatMap_heldBy (mem_heldBy.mpr (.inr hp)))

theorem Wired.place_unique (hw : Wired s) (hn : s.pending.Nodup) {p p' : Place} (hp : tag ∈ s.tasksAt p)
    (hp' : tag ∈ s.tasksAt p') : p = p' := by
  obtain ⟨-, hheld, hapart⟩ := List.nodup_append.mp hn
  obtain ⟨heach, hpair⟩ := List.nodup_flatMap.mp hheld
  have hoff : ∀ {q}, tag ∈ s.heldBy q → tag ∉ s.waiting.map BgTask.tag := fun hq hwait =>
    hapart tag hwait tag (hw.mem_flatMap_heldBy hq) rfl
  have hsame : ∀ {q q'}, tag ∈ s.heldBy q → tag ∈ s.heldBy q' → q = q' := by
    intro q q' hq hq'
    by_contra hne
    have hsymm : Std.Symm (Function.onFun List.Disjoint s.heldBy) := ⟨fun _ _ hd => List.Disjoint.symm hd⟩
    exact hpair.forall (hw.mem_listed hq) (hw.mem_listed hq') hne hq hq'
  have hwithin : ∀ {q}, tag ∈ s.tasksAt (.background q) → tag ∉ s.tasksAt (.reading q) := by
    intro q hbg hread
    have hnodup := heach q (hw.mem_listed (mem_heldBy.mpr (.inl hbg)))
    simp only [heldBy, tasksAt] at hnodup hbg hread
    cases hqueue : s.queues q with
    | none => simp [hqueue] at hbg
    | some tq =>
        rw [hqueue] at hnodup hbg hread
        exact (List.nodup_append.mp hnodup).2.2 tag hbg tag hread rfl
  have hbgs : ∀ {q}, tag ∈ s.tasksAt (.background q) → tag ∈ s.heldBy q := fun h => mem_heldBy.mpr (.inl h)
  have hreads : ∀ {q}, tag ∈ s.tasksAt (.reading q) → tag ∈ s.heldBy q := fun h => mem_heldBy.mpr (.inr h)
  cases p with
  | waiting =>
      cases p' with
      | waiting => rfl
      | background q => exact absurd hp (hoff (hbgs hp'))
      | reading q => exact absurd hp (hoff (hreads hp'))
  | background q =>
      cases p' with
      | waiting => exact absurd hp' (hoff (hbgs hp))
      | background q' => rw [hsame (hbgs hp) (hbgs hp')]
      | reading q' => exact absurd (hsame (hbgs hp) (hreads hp') ▸ hp') (hwithin hp)
  | reading q =>
      cases p' with
      | waiting => exact absurd hp' (hoff (hreads hp))
      | background q' => exact absurd (hsame (hreads hp) (hbgs hp') ▸ hp) (hwithin hp')
      | reading q' => rw [hsame (hreads hp) (hreads hp')]

namespace Balanced

theorem count_le (h : Balanced s) (tag : Nat) : s.pending.count tag + s.ended.count tag ≤ 1 := by
  rw [count_pending, h.once, born]
  split <;> omega

theorem nodup_pending (h : Balanced s) : s.pending.Nodup :=
  List.nodup_iff_count_le_one.mpr fun tag => by
    have hle := h.count_le tag
    omega

theorem lt_of_pending (h : Balanced s) (hp : tag ∈ s.pending) : tag < s.nextTag ∧ tag ∉ s.ended := by
  have hpos := List.count_pos_iff.mpr hp
  have honce := (count_pending tag).trans (h.once tag)
  constructor
  · by_contra hlt
    rw [born, if_neg hlt] at honce
    omega
  · intro he
    have hended := List.count_pos_iff.mpr he
    have hle := h.count_le tag
    omega

theorem mem_pending (h : Balanced s) (hlt : tag < s.nextTag) : tag ∈ s.pending ∨ tag ∈ s.ended := by
  have honce := (count_pending tag).trans (h.once tag)
  rw [born, if_pos hlt] at honce
  by_contra hnone
  rw [not_or, ← List.count_eq_zero, ← List.count_eq_zero] at hnone
  omega

/-! Listing and writing. -/

theorem idle_background (h : Balanced s) : (s.idle.flatMap fun q => s.tasksAt (.background q)) = [] := by
  refine List.flatMap_eq_nil_iff.mpr fun q hi => ?_
  cases hq : s.queues q with
  | none => simp [tasksAt, hq]
  | some tq => simp [tasksAt, hq, Tqueue.bgTags, h.idle_bare hq hi]

theorem pending_perm (h : Balanced s) : s.pending.Perm
    ((s.waiting.map BgTask.tag ++ s.active.flatMap fun q => s.tasksAt (.background q)) ++
      (s.idle ++ s.active).flatMap fun q => s.tasksAt (.reading q)) := by
  have hsplit := List.flatMap_append_perm (s.idle ++ s.active) (fun q => s.tasksAt (.background q))
    fun q => s.tasksAt (.reading q)
  rw [List.flatMap_append (f := fun q => s.tasksAt (.background q)), h.idle_background, List.nil_append] at hsplit
  have hheld : s.heldBy = fun q => s.tasksAt (.background q) ++ s.tasksAt (.reading q) :=
    funext fun q => heldBy_append
  rw [pending, hheld, List.append_assoc]
  exact hsplit.symm.append_left _

theorem queued_perm (h : Balanced s) {db : Db} {progr : Objid} (hwiz : db.isWizard progr = true) :
    ((bfQueuedTasks db progr s).map Queued.tag).Perm s.pending := by
  have hread : ∀ tq : Tqueue, (listReading tq).map Queued.tag = tq.readingTags := fun tq => by
    rw [listReading, List.map_map]
    rfl
  have hbg : ∀ l : List BgTask, (l.map Queued.task).map Queued.tag = l.map BgTask.tag := fun l => by
    rw [List.map_map]
    rfl
  have hlist : (bfQueuedTasks db progr s).map Queued.tag =
      (s.idle.flatMap fun q => s.tasksAt (.reading q)) ++
        (s.active.flatMap fun q => s.tasksAt (.reading q) ++ s.tasksAt (.background q)) ++
          s.waiting.map BgTask.tag := by
    simp only [bfQueuedTasks, hwiz, Bool.true_or, if_true, List.filter_true, List.map_append, List.map_flatMap,
      hbg, flatMap_filterMap]
    refine congrArg (· ++ _) (congrArg₂ (· ++ ·) (List.flatMap_congr fun q _ => ?_)
      (List.flatMap_congr fun q _ => ?_))
    · simp only [tasksAt]
      cases s.queues q with
      | none => rfl
      | some tq => exact hread tq
    · simp only [tasksAt]
      cases s.queues q with
      | none => rfl
      | some tq =>
          rw [Option.elim_some, List.map_append, hread, hbg]
          rfl
  have hsplit := List.flatMap_append_perm s.active (fun q => s.tasksAt (.reading q))
    fun q => s.tasksAt (.background q)
  rw [hlist]
  refine List.Perm.trans ?_ h.pending_perm.symm
  refine List.perm_iff_count.mpr fun tag => ?_
  have hcount := hsplit.count_eq tag
  simp only [List.count_append, List.flatMap_append] at hcount ⊢
  omega

theorem written_perm (s : Server) :
    ((writeTaskQueue s).1 ++ (writeTaskQueue s).2).Perm
      (s.waiting ++ (s.active.filterMap s.queues).flatMap fun tq => tq.bg.cells) :=
  List.filter_append_perm isForked _

theorem written_tags (s : Server) :
    (s.waiting ++ (s.active.filterMap s.queues).flatMap fun tq => tq.bg.cells).map BgTask.tag =
      s.waiting.map BgTask.tag ++ s.active.flatMap fun q => s.tasksAt (.background q) := by
  rw [List.map_append, List.map_flatMap, flatMap_filterMap]
  rfl

end Balanced

/-! Runs. -/

/-- No connection logs in while its own queue counts background tasks and has some. -/
def Event.LeavesNoTask (db : Db) (s : Server) : Event → Prop
  | .login newPlayer _ => ∀ c tq, s.current = some c → s.queues c.queue = some tq →
      (tq.connected && db.isUser newPlayer) = true → tq.numBgTasks = 0 ∨ tq.bg.cells = []
  | _ => True

theorem Event.LeavesNoTask.suits {db : Db} {event : Event} (h : event.LeavesNoTask db s) :
    event.Suits True False db s := by
  cases event with
  | login newPlayer now =>
      intro c tq hc hq hlogin
      exact ⟨fun _ hn => (h c tq hc hq hlogin).resolve_left hn, False.elim⟩
  | _ => simp [Event.Suits]

abbrev LeavesNoTask (db : Db) (event : Event) (s : Server) : Prop := event.LeavesNoTask db s

theorem Balanced.changes (hc : Coherent s) (h : Balanced s) (hch : Changes True counted s s') : Balanced s' := by
  induction hch with
  | refl => exact h
  | tail hsteps hstep ih => exact ih.change (hc.changes hsteps).wired hstep

theorem balanced_start : Balanced start := by
  constructor
  · simp [start]
  · intro tag
    simp [census, carried, start, born]

/-- A task that waited and waits no more was run or killed, or is on an active queue. -/
theorem Balanced.background_of_waited (hw : Wired s) (h : Balanced s) (hw' : Wired s') (h' : Balanced s')
    (hl : Later s s') (ht : t ∈ s.waiting) (hgone : ∀ t' ∈ s'.waiting, t'.tag ≠ t.tag) :
    t.tag ∈ s'.ended ∨ ∃ q ∈ s'.active, t.tag ∈ s'.tasksAt (.background q) := by
  have htag := hw.tags t ht
  obtain hp | he := h'.mem_pending (htag.trans_le hl.nextTag)
  swap
  · exact .inl he
  obtain ⟨p, hp⟩ := hw'.mem_pending_iff.mp hp
  cases p with
  | waiting =>
      obtain ⟨t', ht', heq⟩ := List.mem_map.mp hp
      exact absurd heq (hgone t' ht')
  | background q =>
      refine .inr ⟨q, ?_, hp⟩
      obtain hi | ha := List.mem_append.mp (hw'.mem_listed (mem_heldBy.mpr (.inl hp)))
      · have hnone := List.flatMap_eq_nil_iff.mp h'.idle_background q hi
        rw [hnone] at hp
        contradiction
      · exact ha
  | reading q =>
      obtain ⟨tq, hq, hvm⟩ : ∃ tq, s'.queues q = some tq ∧ t.tag ∈ tq.readingTags := by
        cases hq : s'.queues q with
        | none => simp [tasksAt, hq] at hp
        | some tq =>
            simp only [tasksAt, hq] at hp
            exact ⟨tq, rfl, hp⟩
      obtain ⟨vm, hvm, heq⟩ := List.mem_map.mp hvm
      obtain ⟨q', tq', hq', hr'⟩ | hnew := hl.reading q tq vm hq (Option.mem_toList.mp hvm)
      · have hread : t.tag ∈ s.tasksAt (.reading q') := by
          simp only [tasksAt, hq']
          exact List.mem_map.mpr ⟨vm, Option.mem_toList.mpr hr', heq⟩
        have hplace := hw.place_unique h.nodup_pending (p := .waiting) (List.mem_map_of_mem ht) hread
        contradiction
      · omega

/-- A task that is due when `run_ready_tasks` starts does not wait any more, then or later. -/
theorem Later.due_gone {s₀ : Server} {now : Int} (hw : Wired s) (h : Balanced s) (hl : Later s s₀)
    (hsuffix : s₀.waiting <:+ s.waiting) (hlate : ∀ t ∈ s₀.waiting, now < t.startTime) (hl' : Later s₀ s')
    (ht : t ∈ s.waiting) (hdue : t.startTime ≤ now) : ∀ t' ∈ s'.waiting, t'.tag ≠ t.tag := by
  intro t' ht' heq
  obtain hold | hnew := hl'.waiting t' ht'
  · have hnodup := (List.nodup_append.mp h.nodup_pending).1
    obtain rfl := List.inj_on_of_nodup_map hnodup (hsuffix.subset hold) ht heq
    have hafter := hlate t' hold
    omega
  · have htag := hw.tags t ht
    have hmore := hl.nextTag
    omega

/-- Each task is at one place until it is run or killed; `queued_tasks()` shows a wizard all
of them, and all but those that are read for are written. -/
structure Accounted (s : Server) : Prop where
  ended : s.ended.Nodup
  known : ∀ p, ∀ tag ∈ s.tasksAt p, tag < s.nextTag ∧ tag ∉ s.ended
  once : ∀ p, (s.tasksAt p).Nodup
  place : ∀ tag < s.nextTag, tag ∉ s.ended → ∃! p, tag ∈ s.tasksAt p
  listed : ∀ db progr, db.isWizard progr = true → ((bfQueuedTasks db progr s).map Queued.tag).Nodup ∧
    ∀ tag, tag ∈ (bfQueuedTasks db progr s).map Queued.tag ↔ ∃ p, tag ∈ s.tasksAt p
  written : (((writeTaskQueue s).1 ++ (writeTaskQueue s).2).map BgTask.tag).Nodup ∧
    ∀ t, t ∈ (writeTaskQueue s).1 ++ (writeTaskQueue s).2 ↔
      t ∈ s.waiting ∨ ∃ q tq, s.queues q = some tq ∧ t ∈ tq.bg.cells

theorem Balanced.accounted (hw : Wired s) (h : Balanced s) : Accounted s where
  ended := List.nodup_iff_count_le_one.mpr fun tag => by
    have hle := h.count_le tag
    omega
  known p tag hp := h.lt_of_pending (hw.mem_pending_iff.mpr ⟨p, hp⟩)
  once p := by
    obtain ⟨hwait, hheld, -⟩ := List.nodup_append.mp h.nodup_pending
    have hnodup : ∀ q, (s.heldBy q).Nodup := by
      intro q
      by_cases hq : q ∈ s.idle ++ s.active
      · exact (List.nodup_flatMap.mp hheld).1 q hq
      · refine List.nodup_iff_count_le_one.mpr fun tag => ?_
        rw [List.count_eq_zero.mpr fun hm => hq (hw.mem_listed hm)]
        exact Nat.zero_le 1
    cases p with
    | waiting => exact hwait
    | background q => exact (List.nodup_append.mp (heldBy_append ▸ hnodup q)).1
    | reading q => exact (List.nodup_append.mp (heldBy_append ▸ hnodup q)).2.1
  place tag hlt he := by
    obtain ⟨p, hp⟩ := hw.mem_pending_iff.mp ((h.mem_pending hlt).resolve_right he)
    exact ⟨p, hp, fun p' hp' => hw.place_unique h.nodup_pending hp' hp⟩
  listed db progr hwiz := by
    have hperm := h.queued_perm hwiz
    exact ⟨hperm.nodup_iff.mpr h.nodup_pending, fun tag => hperm.mem_iff.trans hw.mem_pending_iff⟩
  written := by
    have hperm := written_perm s
    constructor
    · rw [(hperm.map BgTask.tag).nodup_iff, written_tags]
      exact (List.nodup_append.mp (h.pending_perm.nodup_iff.mp h.nodup_pending)).1
    · intro t
      rw [hperm.mem_iff, List.mem_append, List.mem_flatMap]
      refine or_congr_right ⟨?_, ?_⟩
      · rintro ⟨tq, hmem, hcells⟩
        obtain ⟨q, -, hq⟩ := List.mem_filterMap.mp hmem
        exact ⟨q, tq, hq, hcells⟩
      · rintro ⟨q, tq, hq, hcells⟩
        have hact : q ∈ s.active := hw.mem_active_of_not_idle hq fun hi => by
          rw [h.idle_bare hq hi] at hcells
          contradiction
        exact ⟨tq, List.mem_filterMap.mpr ⟨q, hact, hq⟩, hcells⟩

/-- In every run in which no login leaves a task behind, no task is lost or there twice, and
those that are due are run or on active queues when `run_ready_tasks` is done. -/
theorem run_accounted (hrun : Run LeavesNoTask start s) : s.Accounted ∧
    ∀ db now began s₁ s₂, s.current = none → s.runReadyTasks db now began = .ok s₁ → Run LeavesNoTask s₁ s₂ →
      ∀ t ∈ s.waiting, t.startTime ≤ now →
        t.tag ∈ s₂.ended ∨ ∃ q ∈ s₂.active, t.tag ∈ s₂.tasksAt (.background q) := by
  have hc := coherent_start.run hrun
  have h : Balanced s := balanced_start.changes coherent_start (coherent_start.run_changes (fun _ _ _ hok => hok.suits) hrun)
  refine ⟨h.accounted hc.wired, fun db now began s₁ s₂ hcur hready hrun' t ht hdue => ?_⟩
  obtain ⟨s₀, hch, hsuffix, hlate, hch₁⟩ := (runReadyTasks_meets True False hc hcur db now began).of_ok hready
  have hch₂ := hch₁.trans ((hc.changes (hch.trans hch₁)).run_changes (fun _ _ _ hok => hok.suits) hrun')
  have hl : Later s s₀ := .changes hch
  have hl' : Later s₀ s₂ := .changes hch₂
  have hgone := hl.due_gone hc.wired h hsuffix hlate hl' ht hdue
  exact h.background_of_waited hc.wired (hc.changes (hch.trans hch₂)).wired (h.changes hc (hch.trans hch₂))
    (hl.trans hl') ht hgone

def wizardDb : Db :=
  Db.empty.createObject.2.createObject.2.set 1 { newObject 1 with owner := 1, flags := fun _ => true }

theorem run_accounted_forked : ∃ s, Run LeavesNoTask start s ∧ s.waiting.length = 1 ∧ s.Accounted := by
  have hrun : Run LeavesNoTask start _ :=
    (Relation.ReflTransGen.single ⟨wizardDb, .fork 1 0 0 7, trivial, trivial, rfl⟩)
  exact ⟨_, hrun, rfl, (run_accounted hrun).1⟩

/-- A task that was forked for the connection's own number is on its queue when the connection
logs in. It is left on an idle queue. -/
theorem exists_left_behind : ∃ s, Run (fun _ _ _ => True) start s ∧ s.idle = [1] ∧ s.active = [0] ∧
    s.tasksAt (.background 1) = [0] ∧ bfQueuedTasks wizardDb 1 s = [] ∧ writeTaskQueue s = ([], []) ∧
    s.waiting = [] ∧ s.currentTaskId = 0 ∧
    ((s.queues 0).map fun tq => (tq.bg.cells, tq.reading)) = some ([], none) ∧
    ((s.queues 1).map fun tq => (tq.bg.cells, tq.reading)) = some ([.forked 0 7 (-2) 0], none) := by
  have hconn : Run (fun _ _ _ => True) start _ :=
    .single ⟨wizardDb, .newConnection systemObject 0, rfl, trivial, rfl⟩
  have hprompt : Run (fun _ _ _ => True) start _ :=
    hconn.tail ⟨wizardDb, .runReadyTasks 0 0, rfl, trivial, rfl⟩
  have hfork : Run (fun _ _ _ => True) start _ :=
    hprompt.tail ⟨wizardDb, .fork (-2) 0 0 7, trivial, trivial, rfl⟩
  have hrefused : Run (fun _ _ _ => True) start _ :=
    hfork.tail ⟨wizardDb, .login nothing 0, ⟨_, rfl, rfl⟩, trivial, rfl⟩
  have hdone : Run (fun _ _ _ => True) start _ :=
    hrefused.tail ⟨wizardDb, .taskDone 0, rfl, trivial, rfl⟩
  have hline : Run (fun _ _ _ => True) start _ :=
    hdone.tail ⟨wizardDb, .receiveLine 0 "connect".toList 0, rfl, trivial, rfl⟩
  have hready : Run (fun _ _ _ => True) start _ :=
    hline.tail ⟨wizardDb, .runReadyTasks 0 0, rfl, trivial, rfl⟩
  have hlogin : Run (fun _ _ _ => True) start _ :=
    hready.tail ⟨wizardDb, .login 1 0, ⟨_, rfl, rfl⟩, trivial, rfl⟩
  have hrun : Run (fun _ _ _ => True) start _ :=
    hlogin.tail ⟨wizardDb, .taskDone 0, rfl, trivial, rfl⟩
  exact ⟨_, hrun, rfl, rfl, rfl, rfl, rfl, rfl, rfl, rfl, rfl⟩

/-- Nothing shows the task or writes it. -/
theorem login_not_accounted : ∃ s, Run (fun _ _ _ => True) start s ∧ s.idle = [1] ∧
    s.tasksAt (.background 1) = [0] ∧ wizardDb.isWizard 1 = true ∧ bfQueuedTasks wizardDb 1 s = [] ∧
    writeTaskQueue s = ([], []) ∧ ¬ s.Accounted := by
  obtain ⟨s, hrun, hidle, -, hbg, hqueued, hwritten, -⟩ := exists_left_behind
  refine ⟨s, hrun, hidle, hbg, rfl, hqueued, hwritten, fun h => ?_⟩
  have hplace : ∃ p, 0 ∈ s.tasksAt p := ⟨.background 1, by rw [hbg]; exact .head []⟩
  have hlisted := ((h.listed wizardDb 1 rfl).2 0).mpr hplace
  rw [hqueued] at hlisted
  contradiction

end Server
end LambdaMoo
