import LambdaMoo.KilledTasks

/-! Resuming a task by its id. With killing it goes wrong only where a background task is not on an active
queue of its programmer's, or an active queue has the usage of an idle one. -/
namespace LambdaMoo

namespace Server

def SuspendedBy (s : Server) (id : Int) (o : Objid) : Prop :=
  ∃ t, isSuspended id t = true ∧ t.progr = o ∧
    (t ∈ s.waiting ∨ ∃ q tq, s.queues q = some tq ∧ t ∈ tq.bg.cells)

/-- The suspended task has the value and is on the background list of an active queue: one of its
programmer's, where it comes from those that wait, and the one where it was. Its queue may be new, and
may have been idle; but for that all else is as it was. -/
structure Resumed (s : Server) (id : Int) (value : Var) (now : Int) (q : Nat) (tq tq' : Tqueue) (t : BgTask)
    (s' : Server) : Prop where
  suspended : isSuspended id t = true
  found : s.queues q = some tq ∨
    s.queues q = none ∧ s.Lacks t.progr ∧ ∃ flushCmd, tq = newTqueue t.progr flushCmd
  active : q ∈ s'.active
  queues : s'.queues = Function.update s.queues q (some tq')
  queue : tq' = { tq with bg := tq'.bg, usage := tq'.usage }
  placed :
    (∃ i, s.waiting[i]? = some t ∧ tq.player = t.progr ∧ s'.waiting = s.waiting.eraseIdx i ∧
      tq'.bg.cells = tq.bg.cells ++ [resumed value (some now) t]) ∨
    ∃ i, tq.bg.cells[i]? = some t ∧ s'.waiting = s.waiting ∧
      tq'.bg.cells = tq.bg.cells.modify i (resumed value none)
  others : ∀ x ≠ q, (x ∈ s'.idle ↔ x ∈ s.idle) ∧ (x ∈ s'.active ↔ x ∈ s.active)
  rest : s' = { s with
    queues := s'.queues, waiting := s'.waiting, idle := s'.idle, active := s'.active, nextQueue := s'.nextQueue }

structure ResumesExactly (s : Server) (db : Db) (id : Int) (value : Var) (progr : Objid) (now : Int) (e : Error)
    (s' : Server) : Prop where
  resumed : e = .eNone ↔ ∃ o, s.SuspendedBy id o ∧ Permitted db progr o
  refused : e = .ePerm ↔ ∃ o, s.SuspendedBy id o ∧ ¬ Permitted db progr o
  absent : e = .eInvarg ↔ ∀ o, ¬ s.SuspendedBy id o
  effect : e = .eNone → ∃ q tq tq' t, s.Resumed id value now q tq tq' t s'
  unchanged : e ≠ .eNone → s' = s
  counts : s.Charged → s'.Charged
  ends : ∀ q tq, s'.queues q = some tq → tq.input.Tailed ∧ tq.bg.Tailed

variable {s s' : Server} {q x : Nat} {tq tq' : Tqueue} {t : BgTask} {id : Int} {db : Db} {progr o o' : Objid}
  {value : Var} {now : Int}

theorem id_of_isSuspended (h : isSuspended id t = true) : t.id = id := by
  cases t with
  | forked => cases h
  | suspended vm => exact of_decide_eq_true h

theorem SuspendedBy.ownedBy (hw : Wired s) (h : s.SuspendedBy id o) : s.OwnedBy id o := by
  obtain ⟨t, hid, rfl, hwait | ⟨q, tq, hq, hbg⟩⟩ := h
  · exact id_of_isSuspended hid ▸ ownedBy_waiting hwait
  · exact id_of_isSuspended hid ▸ hw.ownedBy_background hq hbg

inductive AskedFor (s : Server) (id : Int) : Objid → Prop
  | waiting {t : BgTask} : t ∈ s.waiting → isSuspended id t = true → AskedFor s id t.progr
  | background {q : Nat} {tq : Tqueue} {t : BgTask} :
      s.queues q = some tq → q ∈ s.active → t ∈ tq.bg.cells → isSuspended id t = true → AskedFor s id tq.player

/-- The queue of a suspended task that waits is not taken for an idle one. -/
def Wakeable (s : Server) : Prop :=
  ∀ t ∈ s.waiting, isSuspended t.id t = true → t.id ≠ s.currentTaskId →
    ∀ q ∈ s.active, s.findTqueue t.progr = some q → s.usageOf q ≠ noUsage

/-- What comes of a task that has been found: it is resumed, or the caller is refused. -/
def Answers (s : Server) (db : Db) (id : Int) (value : Var) (progr : Objid) (now : Int) (o : Objid)
    (r : Error × Server) : Prop :=
  s.AskedFor id o ∧ (Permitted db progr o ∧ r.1 = .eNone ∧
      (∃ q tq tq' t, s.Resumed id value now q tq tq' t r.2) ∨
    ¬ Permitted db progr o ∧ r = (.ePerm, s))

theorem resumeActive_spec (hw : Wired s) {qs : List Nat} (hqs : ∀ q ∈ qs, q ∈ s.active) :
    ∃ r, resumeActive db id value progr qs s = .ok r ∧
      ((∃ o, s.Answers db id value progr now o r) ∨
        r = (.eInvarg, s) ∧ ∀ q ∈ qs, ∀ tq, s.queues q = some tq → ∀ t ∈ tq.bg.cells, isSuspended id t = false) := by
  induction qs with
  | nil => exact ⟨_, rfl, .inr ⟨rfl, nofun⟩⟩
  | cons q qs ih =>
      obtain ⟨tq, hq⟩ := hw.exists_queue_of_active (hqs q (.head qs))
      unfold resumeActive
      rw [queue_eq_ok hq]
      dsimp only [bind, Except.bind]
      split
      · next hnone =>
          obtain ⟨r, hresume, hr⟩ := ih fun x hx => hqs x (.tail q hx)
          refine ⟨r, hresume, hr.imp_right fun ⟨hr, hnot⟩ => ⟨hr, fun x hx tqx hqx => ?_⟩⟩
          cases hx with
          | tail _ hx => exact hnot x hx tqx hqx
          | head =>
              cases hq.symm.trans hqx
              exact List.findIdx?_eq_none_iff.mp hnone
      · next i hi =>
          obtain ⟨hlt, hid, -⟩ := List.findIdx?_eq_some_iff_getElem.mp hi
          have hget : tq.bg.cells[i]? = some tq.bg.cells[i] := List.getElem?_eq_getElem hlt
          have hasked : s.AskedFor id tq.player := .background hq (hqs q (.head qs)) (List.getElem_mem hlt) hid
          by_cases hp : Permitted db progr tq.player
          · refine ⟨_, if_neg (mt refuses_iff.mp (not_not.mpr hp)), .inl ⟨_, hasked, .inl ⟨hp, rfl, ?_⟩⟩⟩
            exact ⟨q, tq, _, tq.bg.cells[i],
              { suspended := hid
                found := .inl hq
                active := hqs q (.head qs)
                queues := rfl
                queue := rfl
                placed := .inr ⟨i, hget, rfl, rfl⟩
                others := fun _ _ => ⟨Iff.rfl, Iff.rfl⟩
                rest := rfl }⟩
          · exact ⟨_, if_pos (refuses_iff.mpr hp), .inl ⟨_, hasked, .inr ⟨hp, rfl⟩⟩⟩

/-- A queue that is on the list that its usage says is made active, or was. -/
theorem ensureUsage_active (hq : s.queues q = some tq) (hidle : tq.usage = noUsage → q ∈ s.idle)
    (hactive : tq.usage ≠ noUsage → q ∈ s.active) :
    ∃ s₁ usage, s.ensureUsage q = .ok s₁ ∧ q ∈ s₁.active ∧
      s₁.queues = Function.update s.queues q (some { tq with usage }) ∧
      (∀ x ≠ q, (x ∈ s₁.idle ↔ x ∈ s.idle) ∧ (x ∈ s₁.active ↔ x ∈ s.active)) ∧
      s₁ = { s with queues := s₁.queues, idle := s₁.idle, active := s₁.active } := by
  rw [ensureUsage_eq hq]
  by_cases hu : tq.usage = noUsage
  · rw [if_pos hu, if_pos (hidle hu)]
    refine ⟨_, s.headUsage, rfl, mem_active_activated, rfl, fun x hx => ⟨List.mem_erase_of_ne hx, ?_⟩, rfl⟩
    exact mem_insertByUsage.trans (or_iff_right hx)
  · rw [if_neg hu]
    refine ⟨s, tq.usage, rfl, hactive hu, ?_, fun _ _ => ⟨Iff.rfl, Iff.rfl⟩, rfl⟩
    exact (Function.update_eq_self_iff.mpr hq.symm).symm

/-- The end of `do_resume` for a task that waits, once the queue is found or made. -/
theorem wake_spec {s₁ : Server} {i : Nat} (hi : s.waiting[i]? = some t) (hid : isSuspended id t = true)
    (hfound : s.queues q = some tq ∨ s.queues q = none ∧ s.Lacks t.progr ∧ ∃ flushCmd, tq = newTqueue t.progr flushCmd)
    (howner : tq.player = t.progr) (htail : tq.bg.Tailed) (hq : s₁.queues = Function.update s.queues q (some tq))
    (hidle : tq.usage = noUsage → q ∈ s₁.idle) (hactive : tq.usage ≠ noUsage → q ∈ s₁.active)
    (hothers : ∀ x ≠ q, (x ∈ s₁.idle ↔ x ∈ s.idle) ∧ (x ∈ s₁.active ↔ x ∈ s.active))
    (hrest : s₁ = { s with queues := s₁.queues, idle := s₁.idle, active := s₁.active, nextQueue := s₁.nextQueue }) :
    ∃ s' tq', (do
        let s ← ensureUsage q { s₁ with waiting := s₁.waiting.eraseIdx i }
        return (Error.eNone, ← s.enqueueBgTask q (resumed value (some now) t))) = .ok (.eNone, s') ∧
      s.Resumed id value now q tq tq' t s' := by
  have hq₁ : { s₁ with waiting := s₁.waiting.eraseIdx i }.queues q = some tq := by
    rw [hq]
    exact Function.update_self ..
  obtain ⟨s₂, usage, hensure, hact, hqueues, hlists, hrest₂⟩ := ensureUsage_active hq₁ hidle hactive
  have hq₂ : s₂.queues q = some { tq with usage } := by
    rw [hqueues]
    exact Function.update_self ..
  have hwaiting : s₁.waiting = s.waiting := by rw [hrest]
  rw [hensure]
  dsimp only [bind, Except.bind, enqueueBgTask]
  rw [modifyQueue_eq hq₂]
  refine ⟨_, { tq with usage, bg := tq.bg.enqueue (resumed value (some now) t) }, rfl,
    { suspended := hid
      found := hfound
      active := hact
      queues := ?_
      queue := rfl
      placed := .inl ⟨i, hi, howner, ?_, TailList.cells_enqueue htail⟩
      others := fun x hx => ⟨(hlists x hx).1.trans (hothers x hx).1, (hlists x hx).2.trans (hothers x hx).2⟩
      rest := ?_ }⟩
  · show Function.update s₂.queues q _ = _
    rw [hqueues, Function.update_idem, hq, Function.update_idem]
  · show s₂.waiting = _
    rw [hrest₂, hwaiting]
  · rw [hrest₂, hrest]
    rfl

theorem resumeWaiting_spec {i : Nat} (hw : Wired s) (hi : s.waiting[i]? = some t) (hid : isSuspended id t = true)
    (husage : ∀ q ∈ s.active, s.findTqueue t.progr = some q → s.usageOf q ≠ noUsage) (db : Db) :
    (do
        let (q, s) ← s.findOrNewTqueue db t.progr
        let s ← ensureUsage q { s with waiting := s.waiting.eraseIdx i }
        return (Error.eNone, ← s.enqueueBgTask q (resumed value (some now) t))) = .error .database ∧
      db.defaultFlushCommand = none ∨
    ∃ s' q tq tq', (do
        let (q, s) ← s.findOrNewTqueue db t.progr
        let s ← ensureUsage q { s with waiting := s.waiting.eraseIdx i }
        return (Error.eNone, ← s.enqueueBgTask q (resumed value (some now) t))) = .ok (.eNone, s') ∧
      s.Resumed id value now q tq tq' t s' := by
  cases hf : s.findTqueue t.progr with
  | some q =>
      obtain ⟨tq, hq, howner⟩ := findTqueue_eq_some hf
      have hfind : s.findOrNewTqueue db t.progr = .ok (q, s) := by
        unfold findOrNewTqueue
        rw [hf]
        rfl
      have hidle : tq.usage = noUsage → q ∈ s.idle := by
        intro hu
        by_contra hi
        exact husage q (hw.mem_active_of_not_idle hq hi) hf ((usageOf_eq hq).trans hu)
      have hactive : tq.usage ≠ noUsage → q ∈ s.active := fun hu =>
        hw.mem_active_of_not_idle hq fun hi => hu ((usageOf_eq hq).symm.trans (hw.idle q hi))
      obtain ⟨s', tq', hcode, hresumed⟩ := @wake_spec s q tq t id value now s i hi hid (.inl hq) howner
        (hw.wellFormed q tq hq).bg (Function.update_eq_self_iff.mpr hq.symm).symm hidle hactive
        (fun _ _ => ⟨Iff.rfl, Iff.rfl⟩) rfl
      rw [hfind]
      exact .inr ⟨s', q, tq, tq', hcode, hresumed⟩
  | none =>
      cases hflush : db.defaultFlushCommand with
      | none =>
          have hfind : s.findOrNewTqueue db t.progr = .error .database := by
            unfold findOrNewTqueue
            rw [hf, hflush]
            rfl
          rw [hfind]
          exact .inl ⟨rfl, rfl⟩
      | some flushCmd =>
          have hfind : s.findOrNewTqueue db t.progr = .ok (s.nextQueue, created t.progr flushCmd s) := by
            unfold findOrNewTqueue
            rw [hf, hflush]
            rfl
          have hnot : s.nextQueue ∉ s.idle ++ s.active := by
            rw [hw.listed, hw.fresh_none]
            exact Bool.false_ne_true
          obtain ⟨s', tq', hcode, hresumed⟩ := @wake_spec s s.nextQueue (newTqueue t.progr flushCmd) t id value now
            (created t.progr flushCmd s) i hi hid
            (.inr ⟨hw.fresh_none, hw.lacks_of_findTqueue hf, flushCmd, rfl⟩) rfl TailList.tailed_empty rfl
            (fun _ => .head _) (fun hu => absurd rfl hu)
            (fun x hx => ⟨List.mem_cons.trans (or_iff_right hx), Iff.rfl⟩) rfl
          rw [hfind]
          exact .inr ⟨s', s.nextQueue, _, tq', hcode, hresumed⟩

theorem doResume_spec (hw : Wired s) (hwake : s.Wakeable) (hid : id ≠ s.currentTaskId) (db : Db) (value : Var)
    (progr : Objid) (now : Int) :
    s.doResume db id value progr now = .error .database ∧ db.defaultFlushCommand = none ∨
      ∃ r, s.doResume db id value progr now = .ok r ∧
        ((∃ o, s.Answers db id value progr now o r) ∨ r = (.eInvarg, s) ∧ ∀ o, ¬ s.AskedFor id o) := by
  unfold doResume
  split
  · next i hi =>
      obtain ⟨hlt, hsusp, -⟩ := List.findIdx?_eq_some_iff_getElem.mp hi
      have hget : s.waiting[i]? = some s.waiting[i] := List.getElem?_eq_getElem hlt
      have hmem : s.waiting[i] ∈ s.waiting := List.getElem_mem hlt
      have hasked : s.AskedFor id s.waiting[i].progr := .waiting hmem hsusp
      rw [hget]
      dsimp only [bind, Except.bind]
      by_cases hp : Permitted db progr s.waiting[i].progr
      · rw [if_neg (mt refuses_iff.mp (not_not.mpr hp))]
        have husage : ∀ q ∈ s.active, s.findTqueue s.waiting[i].progr = some q → s.usageOf q ≠ noUsage :=
          hwake _ hmem ((id_of_isSuspended hsusp).symm ▸ hsusp) ((id_of_isSuspended hsusp).symm ▸ hid)
        obtain ⟨hcode, hnone⟩ | ⟨s', q, tq, tq', hcode, hresumed⟩ := @resumeWaiting_spec s _ id value now i hw hget hsusp husage db
        · exact .inl ⟨hcode, hnone⟩
        · exact .inr ⟨_, hcode, .inl ⟨_, hasked, .inl ⟨hp, rfl, q, tq, tq', _, hresumed⟩⟩⟩
      · exact .inr ⟨_, if_pos (refuses_iff.mpr hp), .inl ⟨_, hasked, .inr ⟨hp, rfl⟩⟩⟩
  · next hwait =>
      obtain ⟨r, hresume, hr⟩ := @resumeActive_spec s id db progr value now hw s.active fun q hq => hq
      refine .inr ⟨r, hresume, hr.imp_right fun hr => ⟨hr.1, fun o ho => ?_⟩⟩
      cases ho with
      | waiting ht hid =>
          have hno := List.findIdx?_eq_none_iff.mp hwait _ ht
          rw [hid] at hno
          cases hno
      | background hq hactive ht hid =>
          have hno := hr.2 _ hactive _ hq _ ht
          rw [hid] at hno
          cases hno

/-! Killing and resuming together. -/

structure Settled (s : Server) : Prop where
  placed : s.Placed
  wakeable : s.Wakeable

/-- Killing and resuming come to what they should, for all that is said of the current task. To make a
queue for a programmer that has none, the database has to be read. -/
structure ActsExactly (s : Server) : Prop where
  kill : ∀ db id owner, id ≠ s.currentTaskId →
    ∃ e s', s.killTask db id owner = .ok (e, s') ∧ s.KillsExactly db id owner e s'
  resume : ∀ db id value progr now, id ≠ s.currentTaskId →
    s.doResume db id value progr now = .error .database ∧ db.defaultFlushCommand = none ∨
      ∃ e s', s.doResume db id value progr now = .ok (e, s') ∧ s.ResumesExactly db id value progr now e s'

theorem Placed.askedFor_iff (hp : s.Placed) (hid : id ≠ s.currentTaskId) : s.AskedFor id o ↔ s.SuspendedBy id o := by
  constructor
  · intro h
    cases h with
    | waiting ht hsusp => exact ⟨_, hsusp, rfl, .inl ht⟩
    | background hq hactive ht hsusp =>
        have hne := id_of_isSuspended hsusp ▸ hid
        exact ⟨_, hsusp, (hp _ _ hq _ ht hne).2, .inr ⟨_, _, hq, ht⟩⟩
  · rintro ⟨t, hsusp, rfl, hwait | ⟨q, tq, hq, ht⟩⟩
    · exact .waiting hwait hsusp
    · obtain ⟨hactive, howner⟩ := hp q tq hq t ht (id_of_isSuspended hsusp ▸ hid)
      rw [howner]
      exact .background hq hactive ht hsusp

theorem Settled.doResume (hs : s.Settled) (hc : Coherent s) (hids : s.pendingIds.Nodup)
    (hid : id ≠ s.currentTaskId) (db : Db) (value : Var) (progr : Objid) (now : Int) :
    s.doResume db id value progr now = .error .database ∧ db.defaultFlushCommand = none ∨
      ∃ e s', s.doResume db id value progr now = .ok (e, s') ∧ s.ResumesExactly db id value progr now e s' := by
  obtain hdatabase | ⟨⟨e, s'⟩, hresume, hr⟩ := doResume_spec hc.wired hs.wakeable hid db value progr now
  · exact .inl hdatabase
  have hch : Changes True True s s' := (doResume_meets hc db id value progr now).of_ok hresume
  have hcounts : s.Charged → s'.Charged := fun h => h.changes hc hch
  have hends : ∀ q tq, s'.queues q = some tq → tq.input.Tailed ∧ tq.bg.Tailed := fun q tq hq =>
    ⟨((hc.changes hch).wired.wellFormed q tq hq).input, ((hc.changes hch).wired.wellFormed q tq hq).bg⟩
  refine .inr ⟨e, s', hresume, ?_⟩
  obtain ⟨o, hasked, hr⟩ | ⟨hr, hnone⟩ := hr
  · have howned : s.SuspendedBy id o := (hs.placed.askedFor_iff hid).mp hasked
    have hunique : ∀ o', s.SuspendedBy id o' → o' = o := fun o' ho' =>
      (ho'.ownedBy hc.wired).unique hids (howned.ownedBy hc.wired)
    obtain ⟨hperm, rfl, hresumed⟩ | ⟨hperm, hr⟩ := hr
    · refine ⟨⟨fun _ => ⟨o, howned, hperm⟩, fun _ => rfl⟩, ⟨nofun, ?_⟩, ⟨nofun, fun h => absurd howned (h o)⟩,
        fun _ => hresumed, fun h => absurd rfl h, hcounts, hends⟩
      rintro ⟨o', ho', hnot⟩
      exact absurd (hunique o' ho' ▸ hperm) hnot
    · cases hr
      refine ⟨⟨nofun, ?_⟩, ⟨fun _ => ⟨o, howned, hperm⟩, fun _ => rfl⟩, ⟨nofun, fun h => absurd howned (h o)⟩,
        nofun, fun _ => rfl, hcounts, hends⟩
      rintro ⟨o', ho', hyes⟩
      exact absurd (hunique o' ho' ▸ hyes) hperm
  · cases hr
    have hnot : ∀ o, ¬ s.SuspendedBy id o := fun o ho => hnone o ((hs.placed.askedFor_iff hid).mpr ho)
    exact ⟨⟨nofun, fun ⟨o, ho, _⟩ => absurd ho (hnot o)⟩, ⟨nofun, fun ⟨o, ho, _⟩ => absurd ho (hnot o)⟩,
      ⟨fun _ => hnot, fun _ => rfl⟩, nofun, fun _ => rfl, hcounts, hends⟩

/-- Were the queue of a suspended task taken for an idle one, resuming it would follow a bad link. -/
theorem doResume_badPointer (hw : Wired s) (hids : s.pendingIds.Nodup) (ht : t ∈ s.waiting)
    (hsusp : isSuspended t.id t = true) (ha : q ∈ s.active) (hf : s.findTqueue t.progr = some q)
    (hu : s.usageOf q = noUsage) (db : Db) (value : Var) (now : Int) :
    s.doResume db t.id value t.progr now = .error .badPointer := by
  obtain ⟨tq, hq, -⟩ := findTqueue_eq_some hf
  cases hi : s.waiting.findIdx? (isSuspended t.id) with
  | none =>
      have hno := List.findIdx?_eq_none_iff.mp hi t ht
      rw [hsusp] at hno
      cases hno
  | some i =>
      obtain ⟨hlt, hsusp', -⟩ := List.findIdx?_eq_some_iff_getElem.mp hi
      have heq : s.waiting[i] = t := List.inj_on_of_nodup_map (waiting_ids_nodup hids) (List.getElem_mem hlt) ht
        (id_of_isSuspended hsusp')
      have hget : s.waiting[i]? = some t := heq ▸ List.getElem?_eq_getElem hlt
      have hfind : s.findOrNewTqueue db t.progr = .ok (q, s) := by
        unfold findOrNewTqueue
        rw [hf]
        rfl
      have hidle : q ∉ s.idle := fun hi => hw.not_active_of_idle hi ha
      have hq' : { s with waiting := s.waiting.eraseIdx i }.queues q = some tq := hq
      have hensure : ensureUsage q { s with waiting := s.waiting.eraseIdx i } = .error .badPointer := by
        rw [ensureUsage_eq hq', if_pos ((usageOf_eq hq).symm.trans hu), if_neg hidle]
      have hgo : ¬ (!db.isWizard t.progr && decide (t.progr ≠ t.progr)) = true :=
        mt refuses_iff.mp (not_not.mpr (.inr rfl))
      unfold Server.doResume
      rw [hi]
      dsimp only
      rw [hget]
      dsimp only [bind, Except.bind]
      rw [if_neg hgo, hfind]
      dsimp only
      rw [hensure]

/-- In every state that is reached, killing and resuming go right if and only if each background task is on
an active queue of its programmer's, and no active queue of a suspended task's programmer has the usage of
an idle one. -/
theorem run_actsExactly_iff (hrun : Run (fun _ _ _ => True) start s) (hids : s.pendingIds.Nodup) :
    s.ActsExactly ↔ s.Settled := by
  have hc := coherent_start.run hrun
  constructor
  · intro h
    refine ⟨placed_of_kills hc.wired hids h.kill, fun t ht hsusp hid q ha hf hu => ?_⟩
    have hbad := doResume_badPointer hc.wired hids ht hsusp ha hf hu Db.empty (.int 0) 0
    obtain ⟨hdatabase, -⟩ | ⟨e, s', hok, -⟩ := h.resume Db.empty t.id (.int 0) t.progr 0 hid
    · cases hbad.symm.trans hdatabase
    · cases hbad.symm.trans hok
  · intro h
    exact ⟨fun db id owner hid => h.placed.killTask hc hids hid db owner,
      fun db id value progr now hid => h.doResume hc hids hid db value progr now⟩

theorem run_actsExactly_forked : ∃ s, Run (fun _ _ _ => True) start s ∧ s.pendingIds = [7] ∧
    (s.ActsExactly ↔ s.Settled) := by
  have hrun : Run (fun _ _ _ => True) start _ := .single ⟨wizardDb, .fork 1 0 0 7, trivial, trivial, rfl⟩
  refine ⟨_, hrun, rfl, run_actsExactly_iff hrun ?_⟩
  exact List.nodup_singleton (7 : Int)

/-- The task that a login has left on an idle queue is not found by its id. -/
theorem login_not_actsExactly : ∃ s, Run (fun _ _ _ => True) start s ∧ s.pendingIds = [7] ∧ ¬ s.ActsExactly := by
  obtain ⟨s, hrun, hidle, hactive, -, -, -, hwaiting, hcurrent, hqueue₀, hqueue₁⟩ := exists_left_behind
  obtain ⟨tq₀, hq₀, hcells₀⟩ := Option.map_eq_some_iff.mp hqueue₀
  obtain ⟨tq₁, hq₁, hcells₁⟩ := Option.map_eq_some_iff.mp hqueue₁
  obtain ⟨hbg₀, hreading₀⟩ := Prod.mk.inj hcells₀
  obtain ⟨hbg₁, hreading₁⟩ := Prod.mk.inj hcells₁
  have hids : s.pendingIds = [7] := by
    rw [pendingIds_eq, hwaiting, hidle, hactive]
    simp [idsBy, hq₀, hq₁, Tqueue.ids, hbg₀, hbg₁, hreading₀, hreading₁, BgTask.id]
  refine ⟨s, hrun, hids, fun h => ?_⟩
  have hw := (coherent_start.run hrun).wired
  have hplaced := placed_of_kills hw (by rw [hids]; exact List.nodup_singleton 7) h.kill
  have hplace := (hplaced 1 tq₁ hq₁ (.forked 0 7 (-2) 0) (by rw [hbg₁]; exact .head [])
    (by rw [hcurrent]; decide)).1
  rw [hactive] at hplace
  exact absurd hplace (by decide)

end Server
end LambdaMoo
