import Mathlib.Data.List.Nodup
import LambdaMoo.QueueInvariant

/-! Killing a task by its id: which task that is, who may do it, and what is left of the queues. -/
namespace LambdaMoo

namespace Tqueue

/-- The ids of the tasks of a queue, and whose they are: their programmer's, or the player's that they
read from. -/
def owners (tq : Tqueue) : List (Int × Objid) :=
  tq.bg.cells.map (fun t => (t.id, t.progr)) ++ tq.reading.toList.map fun vm => (vm.taskId, tq.player)

def ids (tq : Tqueue) : List Int := tq.bg.cells.map BgTask.id ++ tq.reading.toList.map Vm.taskId

def without (id : Int) (tq : Tqueue) : Tqueue :=
  let cells := tq.bg.cells.filter fun t => t.id ≠ id
  { tq with bg := ⟨cells, cells.length⟩, reading := tq.reading.filter fun vm => vm.taskId ≠ id }

end Tqueue

namespace Server

/-- The ids of all the tasks that wait, are on a queue or read, and whose they are. -/
def owners (s : Server) : List (Int × Objid) :=
  s.waiting.map (fun t => (t.id, t.progr)) ++
    (s.idle ++ s.active).flatMap fun q => (s.queues q).elim [] Tqueue.owners

def pendingIds (s : Server) : List Int := s.owners.map Prod.fst

def idsBy (s : Server) (q : Nat) : List Int := (s.queues q).elim [] Tqueue.ids

def OwnedBy (s : Server) (id : Int) (owner : Objid) : Prop := (id, owner) ∈ s.owners

def Permitted (db : Db) (progr owner : Objid) : Prop := db.isWizard progr = true ∨ progr = owner

/-- The tasks with this id are gone from wherever they were, and but for the counters all else is as it
was. -/
structure Killed (s : Server) (id : Int) (s' : Server) : Prop where
  waiting : s'.waiting = s.waiting.filter fun t => t.id ≠ id
  queues : ∀ q, ∃ numBgTasks, s'.queues q = (s.queues q).map fun tq => { tq.without id with numBgTasks }
  rest : s' = { s with waiting := s'.waiting, queues := s'.queues, ended := s'.ended }

structure KillsExactly (s : Server) (db : Db) (id : Int) (owner : Objid) (e : Error) (s' : Server) : Prop where
  killed : e = .eNone ↔ ∃ o, s.OwnedBy id o ∧ Permitted db owner o
  refused : e = .ePerm ↔ ∃ o, s.OwnedBy id o ∧ ¬ Permitted db owner o
  absent : e = .eInvarg ↔ ∀ o, ¬ s.OwnedBy id o
  effect : e = .eNone → s.Killed id s'
  unchanged : e ≠ .eNone → s' = s
  counts : s.Charged → s'.Charged
  ends : ∀ q tq, s'.queues q = some tq → tq.input.Tailed ∧ tq.bg.Tailed

variable {s s' : Server} {q x : Nat} {tq : Tqueue} {t : BgTask} {id : Int} {db : Db} {owner o o' : Objid}

/-! Ids that are all different. -/

theorem OwnedBy.unique (hids : s.pendingIds.Nodup) (h : s.OwnedBy id o) (h' : s.OwnedBy id o') : o = o' := by
  have heq : (id, o) = (id, o') := List.inj_on_of_nodup_map hids h h' rfl
  exact congrArg Prod.snd heq

theorem Wired.mem_listed_queue (hw : Wired s) (hq : s.queues q = some tq) : q ∈ s.idle ++ s.active :=
  (hw.listed q).mpr (by rw [hq]; rfl)

theorem ownedBy_waiting (ht : t ∈ s.waiting) : s.OwnedBy t.id t.progr :=
  List.mem_append_left _ (List.mem_map.mpr ⟨t, ht, rfl⟩)

theorem Wired.ownedBy_of_mem (hw : Wired s) (hq : s.queues q = some tq) (h : (id, o) ∈ tq.owners) :
    s.OwnedBy id o := by
  refine List.mem_append_right _ (List.mem_flatMap.mpr ⟨q, hw.mem_listed_queue hq, ?_⟩)
  rw [hq]
  exact h

theorem Wired.ownedBy_background (hw : Wired s) (hq : s.queues q = some tq) (ht : t ∈ tq.bg.cells) :
    s.OwnedBy t.id t.progr :=
  hw.ownedBy_of_mem hq (List.mem_append_left _ (List.mem_map.mpr ⟨t, ht, rfl⟩))

theorem Wired.ownedBy_reading (hw : Wired s) (hq : s.queues q = some tq) {vm : Vm} (hr : tq.reading = some vm) :
    s.OwnedBy vm.taskId tq.player := by
  refine hw.ownedBy_of_mem hq (List.mem_append_right _ ?_)
  rw [hr]
  exact .head []

theorem owners_fst (tq : Tqueue) : tq.owners.map Prod.fst = tq.ids := by
  unfold Tqueue.owners Tqueue.ids
  rw [List.map_append, List.map_map, List.map_map]
  rfl

theorem pendingIds_eq : s.pendingIds = s.waiting.map BgTask.id ++ (s.idle ++ s.active).flatMap s.idsBy := by
  unfold pendingIds owners
  rw [List.map_append, List.map_map, List.map_flatMap]
  congr 1
  refine List.flatMap_congr fun q _ => ?_
  unfold idsBy
  cases s.queues q with
  | none => rfl
  | some tq => exact owners_fst tq

theorem idsBy_eq (hq : s.queues q = some tq) : s.idsBy q = tq.ids := by
  unfold idsBy
  rw [hq]
  rfl

theorem Wired.ids_nodup (hw : Wired s) (hids : s.pendingIds.Nodup) (hq : s.queues q = some tq) : tq.ids.Nodup := by
  rw [pendingIds_eq, List.nodup_append, List.nodup_flatMap] at hids
  exact idsBy_eq hq ▸ hids.2.1.1 q (hw.mem_listed_queue hq)

theorem waiting_ids_nodup (hids : s.pendingIds.Nodup) : (s.waiting.map BgTask.id).Nodup := by
  rw [pendingIds_eq, List.nodup_append] at hids
  exact hids.1

theorem Wired.not_mem_ids (hw : Wired s) (hids : s.pendingIds.Nodup) (ht : t ∈ s.waiting)
    (hq : s.queues q = some tq) : t.id ∉ tq.ids := by
  intro h
  rw [pendingIds_eq, List.nodup_append] at hids
  refine hids.2.2 _ (List.mem_map_of_mem ht) _ (List.mem_flatMap.mpr ⟨q, hw.mem_listed_queue hq, ?_⟩) rfl
  rw [idsBy_eq hq]
  exact h

theorem Wired.queue_unique (hw : Wired s) (hids : s.pendingIds.Nodup) {tqx : Tqueue}
    (hq : s.queues q = some tq) (hx : s.queues x = some tqx) (hne : x ≠ q) (hid : id ∈ tq.ids) : id ∉ tqx.ids := by
  rw [pendingIds_eq, List.nodup_append, List.nodup_flatMap] at hids
  have hsymm : Std.Symm (Function.onFun List.Disjoint s.idsBy) := ⟨fun _ _ hd => List.Disjoint.symm hd⟩
  have hapart := hids.2.1.2.forall (hw.mem_listed_queue hx) (hw.mem_listed_queue hq) hne
  simp only [Function.onFun, idsBy_eq hq, idsBy_eq hx] at hapart
  exact fun hid' => hapart hid' hid

theorem mem_ids_background (ht : t ∈ tq.bg.cells) : t.id ∈ tq.ids :=
  List.mem_append_left _ (List.mem_map_of_mem ht)

theorem mem_ids_reading {vm : Vm} (hr : tq.reading = some vm) : vm.taskId ∈ tq.ids := by
  refine List.mem_append_right _ ?_
  rw [hr]
  exact .head []

/-! What taking a task out comes to. -/

theorem filter_id_of_not_mem {l : List BgTask} (h : id ∉ l.map BgTask.id) : l.filter (fun t => t.id ≠ id) = l := by
  refine List.filter_eq_self.mpr fun t ht => decide_eq_true fun heq => h ?_
  exact heq ▸ List.mem_map_of_mem ht

theorem filter_id_eq_eraseIdx {l : List BgTask} {i : Nat} (hl : (l.map BgTask.id).Nodup) (hi : l[i]? = some t) :
    l.filter (fun t' => t'.id ≠ t.id) = l.eraseIdx i := by
  induction l generalizing i with
  | nil => cases hi
  | cons c l ih =>
      rw [List.map_cons, List.nodup_cons] at hl
      cases i with
      | zero =>
          cases hi
          rw [List.filter_cons_of_neg (by simp), filter_id_of_not_mem hl.1, List.eraseIdx_cons_zero]
      | succ i =>
          have hmem : t ∈ l := List.mem_of_getElem? hi
          have hne : c.id ≠ t.id := fun heq => hl.1 (heq ▸ List.mem_map_of_mem hmem)
          rw [List.filter_cons_of_pos (by simpa using hne), ih hl.2 hi, List.eraseIdx_cons_succ]

theorem without_of_not_mem (hb : tq.bg.Tailed) (h : id ∉ tq.ids) : tq.without id = tq := by
  have hcells : id ∉ tq.bg.cells.map BgTask.id := fun hc => h (List.mem_append_left _ hc)
  have hreading : tq.reading.filter (fun vm => vm.taskId ≠ id) = tq.reading := by
    cases hr : tq.reading with
    | none => rfl
    | some vm =>
        have hne : vm.taskId ≠ id := by
          rintro rfl
          refine h (List.mem_append_right _ ?_)
          rw [hr]
          exact .head []
        simp [Option.filter, hne]
  unfold Tqueue.without
  rw [filter_id_of_not_mem hcells, hreading]
  dsimp only
  rw [hb.eta]

theorem Wired.without_other (hw : Wired s) (hids : s.pendingIds.Nodup) {tqx : Tqueue}
    (hq : s.queues q = some tq) (hx : s.queues x = some tqx) (hne : x ≠ q) (hid : id ∈ tq.ids) :
    tqx.without id = tqx :=
  without_of_not_mem (hw.wellFormed x tqx hx).bg (hw.queue_unique hids hq hx hne hid)

theorem killed_waiting (hw : Wired s) (hids : s.pendingIds.Nodup) {i : Nat} (hi : s.waiting[i]? = some t)
    {queues : Nat → Option Tqueue}
    (hqueues : ∀ x, ∃ numBgTasks, queues x = (s.queues x).map fun tq => { tq with numBgTasks }) :
    s.Killed t.id { s with queues, waiting := s.waiting.eraseIdx i, ended := t.tag :: s.ended } where
  waiting := (filter_id_eq_eraseIdx (waiting_ids_nodup hids) hi).symm
  queues x := by
    obtain ⟨numBgTasks, hx⟩ := hqueues x
    refine ⟨numBgTasks, hx.trans ?_⟩
    cases hq : s.queues x with
    | none => rfl
    | some tq =>
        have hnot := hw.not_mem_ids hids (List.mem_of_getElem? hi) hq
        rw [Option.map_some, Option.map_some, without_of_not_mem (hw.wellFormed x tq hq).bg hnot]
  rest := rfl

theorem killed_queue (hw : Wired s) (hids : s.pendingIds.Nodup) (hq : s.queues q = some tq) (hid : id ∈ tq.ids)
    {numBgTasks : Int} (ended : List Nat) :
    s.Killed id { s.setQueue q { tq.without id with numBgTasks } with ended } where
  waiting := by
    refine (filter_id_of_not_mem fun hwait => ?_).symm
    obtain ⟨t, ht, rfl⟩ := List.mem_map.mp hwait
    exact hw.not_mem_ids hids ht hq hid
  queues x := by
    by_cases hx : x = q
    · subst hx
      refine ⟨numBgTasks, ?_⟩
      rw [hq]
      exact Function.update_self ..
    · have hother : (s.setQueue q { tq.without id with numBgTasks }).queues x = s.queues x :=
        Function.update_of_ne hx ..
      cases hqx : s.queues x with
      | none => exact ⟨0, hother.trans hqx⟩
      | some tqx =>
          refine ⟨tqx.numBgTasks, hother.trans ?_⟩
          rw [hqx, Option.map_some, hw.without_other hids hq hqx hx hid]
  rest := rfl

theorem without_reading (hw : Wired s) (hids : s.pendingIds.Nodup) (hq : s.queues q = some tq) {vm : Vm}
    (hr : tq.reading = some vm) : tq.without vm.taskId = { tq with reading := none } := by
  have hnodup := hw.ids_nodup hids hq
  unfold Tqueue.ids at hnodup
  rw [hr, List.nodup_append] at hnodup
  have hcells : vm.taskId ∉ tq.bg.cells.map BgTask.id := fun h => hnodup.2.2 _ h _ (.head []) rfl
  unfold Tqueue.without
  rw [filter_id_of_not_mem hcells, hr]
  dsimp only
  rw [(hw.wellFormed q tq hq).bg.eta]
  simp [Option.filter]

theorem without_background (hw : Wired s) (hids : s.pendingIds.Nodup) (hq : s.queues q = some tq) {i : Nat}
    (hi : tq.bg.cells[i]? = some t) : tq.without t.id = { tq with bg := tq.bg.unlink i } := by
  have hnodup := hw.ids_nodup hids hq
  have hmem : t ∈ tq.bg.cells := List.mem_of_getElem? hi
  have hlt : i < tq.bg.cells.length := (List.getElem?_eq_some_iff.mp hi).1
  unfold Tqueue.ids at hnodup
  rw [List.nodup_append] at hnodup
  have hreading : tq.reading.filter (fun vm => vm.taskId ≠ t.id) = tq.reading := by
    cases hr : tq.reading with
    | none => rfl
    | some vm =>
        have hne : vm.taskId ≠ t.id := fun heq =>
          hnodup.2.2 _ (List.mem_map_of_mem hmem) vm.taskId (by rw [hr]; exact .head []) heq.symm
        simp [Option.filter, hne]
  have htail : (tq.bg.unlink i).last = (tq.bg.cells.eraseIdx i).length := (hw.wellFormed q tq hq).bg.unlink hlt
  unfold Tqueue.without
  rw [filter_id_eq_eraseIdx hnodup.1 hi, hreading]
  dsimp only
  rw [← htail]
  rfl

/-! The search. -/

/-- Whom `kill_task` asks for: the programmer of a task that waits, and the player of the queue where one
reads or is on the background list of an active queue. -/
inductive AskedOf (s : Server) (id : Int) : Objid → Prop
  | waiting {t : BgTask} : t ∈ s.waiting → t.id = id → AskedOf s id t.progr
  | reading {q : Nat} {tq : Tqueue} {vm : Vm} :
      s.queues q = some tq → tq.reading = some vm → vm.taskId = id → AskedOf s id tq.player
  | background {q : Nat} {tq : Tqueue} {t : BgTask} :
      s.queues q = some tq → q ∈ s.active → t ∈ tq.bg.cells → t.id = id → AskedOf s id tq.player

/-- What comes of a task that has been found: it is killed, or the caller is refused. -/
def Asked (db : Db) (s : Server) (id : Int) (owner o : Objid) (r : Error × Server) : Prop :=
  s.AskedOf id o ∧ (Permitted db owner o ∧ r.1 = .eNone ∧ s.Killed id r.2 ∨
    ¬ Permitted db owner o ∧ r = (.ePerm, s))

theorem refuses_iff {progr : Objid} :
    (!db.isWizard progr && decide (progr ≠ o)) = true ↔ ¬ Permitted db progr o := by
  unfold Permitted
  rw [Bool.and_eq_true, Bool.not_eq_true', decide_eq_true_eq, not_or, Bool.not_eq_true]

theorem killReading_spec (hw : Wired s) (hids : s.pendingIds.Nodup) (hq : s.queues q = some tq) {vm : Vm}
    (hr : tq.reading = some vm) (owner : Objid) :
    ∃ r, s.killReading db owner q = .ok r ∧ s.Asked db vm.taskId owner tq.player r := by
  have hasked : s.AskedOf vm.taskId tq.player := .reading hq hr rfl
  unfold killReading
  rw [queue_eq_ok hq, stopReading_eq hq hr]
  by_cases hp : Permitted db owner tq.player
  · refine ⟨_, if_neg (mt refuses_iff.mp (not_not.mpr hp)), hasked, .inl ⟨hp, rfl, ?_⟩⟩
    have hkilled := @killed_queue s q tq vm.taskId hw hids hq (mem_ids_reading hr) tq.numBgTasks (vm.tag :: s.ended)
    rw [without_reading hw hids hq hr] at hkilled
    exact hkilled
  · exact ⟨_, if_pos (refuses_iff.mpr hp), hasked, .inr ⟨hp, rfl⟩⟩

theorem killActive_spec (hw : Wired s) (hids : s.pendingIds.Nodup) {qs : List Nat}
    (hqs : ∀ q ∈ qs, q ∈ s.active) (owner : Objid) :
    ∃ r, killActive db id owner qs s = .ok r ∧
      ((∃ o, s.Asked db id owner o r) ∨
        r = (.eInvarg, s) ∧ ∀ q ∈ qs, ∀ tq, s.queues q = some tq → id ∉ tq.ids) := by
  induction qs with
  | nil => exact ⟨_, rfl, .inr ⟨rfl, nofun⟩⟩
  | cons q qs ih =>
      obtain ⟨tq, hq⟩ := hw.exists_queue_of_active (hqs q (.head qs))
      unfold killActive
      rw [queue_eq_ok hq]
      change ∃ r, (if tq.reading.any (fun vm => vm.taskId = id) = true then _ else _) = _ ∧ _
      by_cases hreading : tq.reading.any (fun vm => vm.taskId = id) = true
      · rw [if_pos hreading]
        obtain ⟨vm, hr, hvm⟩ := (Option.any_eq_true ..).mp hreading
        obtain ⟨r, hkill, hasked⟩ := killReading_spec hw hids hq hr owner
        rw [decide_eq_true_eq] at hvm
        exact ⟨r, hkill, .inl ⟨_, hvm ▸ hasked⟩⟩
      · rw [if_neg hreading]
        split
        · next hnone =>
            obtain ⟨r, hkill, hr⟩ := ih fun x hx => hqs x (.tail q hx)
            refine ⟨r, hkill, hr.imp_right fun ⟨hr, hnot⟩ => ⟨hr, fun x hx tqx hqx => ?_⟩⟩
            cases hx with
            | tail _ hx => exact hnot x hx tqx hqx
            | head =>
                cases hq.symm.trans hqx
                intro hid
                obtain hbg | hread := List.mem_append.mp hid
                · obtain ⟨t, ht, heq⟩ := List.mem_map.mp hbg
                  have hno := List.findIdx?_eq_none_iff.mp hnone t ht
                  simp [heq] at hno
                · obtain ⟨vm, hvm, heq⟩ := List.mem_map.mp hread
                  refine hreading ((Option.any_eq_true ..).mpr ⟨vm, Option.mem_toList.mp hvm, ?_⟩)
                  exact decide_eq_true heq
        · next i hi =>
            obtain ⟨hlt, hid, -⟩ := List.findIdx?_eq_some_iff_getElem.mp hi
            rw [decide_eq_true_eq] at hid
            have hget : tq.bg.cells[i]? = some tq.bg.cells[i] := List.getElem?_eq_getElem hlt
            have hmem : tq.bg.cells[i] ∈ tq.bg.cells := List.getElem_mem hlt
            have hasked : s.AskedOf id tq.player := .background hq (hqs q (.head qs)) hmem hid
            by_cases hp : Permitted db owner tq.player
            · refine ⟨_, if_neg (mt refuses_iff.mp (not_not.mpr hp)), .inl ⟨_, hasked, .inl ⟨hp, rfl, ?_⟩⟩⟩
              have hkilled := @killed_queue s q tq tq.bg.cells[i].id hw hids hq (mem_ids_background hmem)
                (tq.numBgTasks - 1) ((tq.bg.cells[i]?.map BgTask.tag).toList ++ s.ended)
              rw [without_background hw hids hq hget, hid] at hkilled
              exact hkilled
            · exact ⟨_, if_pos (refuses_iff.mpr hp), .inl ⟨_, hasked, .inr ⟨hp, rfl⟩⟩⟩

theorem killTask_spec (hw : Wired s) (hids : s.pendingIds.Nodup) (hid : id ≠ s.currentTaskId) (owner : Objid) :
    ∃ r, s.killTask db id owner = .ok r ∧
      ((∃ o, s.Asked db id owner o r) ∨ r = (.eInvarg, s) ∧ ∀ o, ¬ s.AskedOf id o) := by
  unfold killTask
  rw [if_neg hid]
  split
  · next i hi =>
      obtain ⟨hlt, hit, -⟩ := List.findIdx?_eq_some_iff_getElem.mp hi
      rw [decide_eq_true_eq] at hit
      have hget : s.waiting[i]? = some s.waiting[i] := List.getElem?_eq_getElem hlt
      have hasked : s.AskedOf id s.waiting[i].progr := .waiting (List.getElem_mem hlt) hit
      rw [hget]
      change ∃ r, (if (!db.isWizard owner && decide (owner ≠ s.waiting[i].progr)) = true then _ else _) = _ ∧ _
      by_cases hp : Permitted db owner s.waiting[i].progr
      · have hkilled : ∀ queues : Nat → Option Tqueue,
            (∀ x, ∃ numBgTasks, queues x = (s.queues x).map fun tq => { tq with numBgTasks }) →
            s.Killed id { s with queues, waiting := s.waiting.eraseIdx i, ended := s.waiting[i].tag :: s.ended } :=
          fun queues hqueues => hit ▸ killed_waiting hw hids hget hqueues
        have hsame : ∀ x, ∃ numBgTasks, s.queues x = (s.queues x).map fun tq => { tq with numBgTasks } := by
          intro x
          cases s.queues x with
          | none => exact ⟨0, rfl⟩
          | some tqx => exact ⟨tqx.numBgTasks, rfl⟩
        rw [if_neg (mt refuses_iff.mp (not_not.mpr hp))]
        cases hf : s.findTqueue s.waiting[i].progr with
        | none => exact ⟨_, rfl, .inl ⟨_, hasked, .inl ⟨hp, rfl, hkilled s.queues hsame⟩⟩⟩
        | some q =>
            obtain ⟨tq, hq, -⟩ := findTqueue_eq_some hf
            dsimp only
            rw [modifyQueue_eq hq]
            refine ⟨_, rfl, .inl ⟨_, hasked, .inl ⟨hp, rfl, hkilled _ fun x => ?_⟩⟩⟩
            by_cases hx : x = q
            · subst hx
              exact ⟨tq.numBgTasks - 1, by rw [hq]; exact Function.update_self ..⟩
            · obtain ⟨numBgTasks, hsame⟩ := hsame x
              exact ⟨numBgTasks, (Function.update_of_ne hx ..).trans hsame⟩
      · exact ⟨_, if_pos (refuses_iff.mpr hp), .inl ⟨_, hasked, .inr ⟨hp, rfl⟩⟩⟩
  · next hwait =>
      have hnone : ∀ t ∈ s.waiting, t.id ≠ id := fun t ht => of_decide_eq_false (List.findIdx?_eq_none_iff.mp hwait t ht)
      split
      · next q hf =>
          obtain ⟨tq, hq⟩ := hw.exists_queue_of_idle (List.mem_of_find?_eq_some hf)
          have hread : s.readingId q = some id := by simpa using List.find?_some hf
          unfold readingId at hread
          rw [hq] at hread
          obtain ⟨vm, hr, hvm⟩ := Option.map_eq_some_iff.mp hread
          obtain ⟨r, hkill, hasked⟩ := killReading_spec hw hids hq hr owner
          exact ⟨r, hkill, .inl ⟨_, hvm ▸ hasked⟩⟩
      · next hf =>
          obtain ⟨r, hkill, hr⟩ := killActive_spec hw hids (fun q hq => hq) owner
          refine ⟨r, hkill, hr.imp_right fun hr => ⟨hr.1, fun o ho => ?_⟩⟩
          cases ho with
          | waiting ht hid => exact hnone _ ht hid
          | background hq hactive ht hid => exact hr.2 _ hactive _ hq (hid ▸ mem_ids_background ht)
          | reading hq hread hid =>
              rename_i q tq vm
              by_cases hi : q ∈ s.idle
              · have hno := List.find?_eq_none.mp hf q hi
                unfold readingId at hno
                rw [hq, Option.bind_some, hread, Option.map_some, hid] at hno
                exact hno (decide_eq_true rfl)
              · exact hr.2 q (hw.mem_active_of_not_idle hq hi) tq hq (hid ▸ mem_ids_reading hread)

/-! When that is whose the task is. -/

def Placed (s : Server) : Prop :=
  ∀ q tq, s.queues q = some tq → ∀ t ∈ tq.bg.cells, t.id ≠ s.currentTaskId → q ∈ s.active ∧ t.progr = tq.player

theorem OwnedBy.cases (h : s.OwnedBy id o) : (∃ t ∈ s.waiting, t.id = id ∧ t.progr = o) ∨
    ∃ q tq, s.queues q = some tq ∧ ((∃ t ∈ tq.bg.cells, t.id = id ∧ t.progr = o) ∨
      ∃ vm, tq.reading = some vm ∧ vm.taskId = id ∧ tq.player = o) := by
  obtain hwait | hqueue := List.mem_append.mp h
  · obtain ⟨t, ht, heq⟩ := List.mem_map.mp hwait
    cases heq
    exact .inl ⟨t, ht, rfl, rfl⟩
  · obtain ⟨q, -, hq⟩ := List.mem_flatMap.mp hqueue
    cases htq : s.queues q with
    | none =>
        rw [htq] at hq
        cases hq
    | some tq =>
        rw [htq] at hq
        refine .inr ⟨q, tq, htq, ?_⟩
        obtain hbg | hread := List.mem_append.mp hq
        · obtain ⟨t, ht, heq⟩ := List.mem_map.mp hbg
          cases heq
          exact .inl ⟨t, ht, rfl, rfl⟩
        · obtain ⟨vm, hvm, heq⟩ := List.mem_map.mp hread
          cases heq
          exact .inr ⟨vm, Option.mem_toList.mp hvm, rfl, rfl⟩

theorem Placed.askedOf_iff (hp : s.Placed) (hw : Wired s) (hid : id ≠ s.currentTaskId) :
    s.AskedOf id o ↔ s.OwnedBy id o := by
  constructor
  · intro h
    cases h with
    | waiting ht hid => exact hid ▸ ownedBy_waiting ht
    | reading hq hr hid => exact hid ▸ hw.ownedBy_reading hq hr
    | background hq hactive ht hid' =>
        rw [← (hp _ _ hq _ ht (hid' ▸ hid)).2]
        exact hid' ▸ hw.ownedBy_background hq ht
  · intro h
    obtain ⟨t, ht, hid, rfl⟩ | ⟨q, tq, hq, ⟨t, ht, hid', rfl⟩ | ⟨vm, hr, hid, rfl⟩⟩ := h.cases
    · exact .waiting ht hid
    · obtain ⟨hactive, howner⟩ := hp q tq hq t ht (hid' ▸ hid)
      rw [howner]
      exact .background hq hactive ht hid'
    · exact .reading hq hr hid

theorem Placed.killTask (hp : s.Placed) (hc : Coherent s) (hids : s.pendingIds.Nodup)
    (hid : id ≠ s.currentTaskId) (db : Db) (owner : Objid) :
    ∃ e s', s.killTask db id owner = .ok (e, s') ∧ s.KillsExactly db id owner e s' := by
  obtain ⟨⟨e, s'⟩, hkill, hr⟩ := @killTask_spec s id db hc.wired hids hid owner
  have hch : Changes True True s s' := (killTask_meets db id owner hc.wired).of_ok hkill
  have hcounts : s.Charged → s'.Charged := fun h => h.changes hc hch
  have hends : ∀ q tq, s'.queues q = some tq → tq.input.Tailed ∧ tq.bg.Tailed := fun q tq hq =>
    ⟨((hc.changes hch).wired.wellFormed q tq hq).input, ((hc.changes hch).wired.wellFormed q tq hq).bg⟩
  refine ⟨e, s', hkill, ?_⟩
  obtain ⟨o, hasked, hr⟩ | ⟨hr, hnone⟩ := hr
  · have howned : s.OwnedBy id o := (hp.askedOf_iff hc.wired hid).mp hasked
    have hunique : ∀ o', s.OwnedBy id o' → o' = o := fun o' ho' => ho'.unique hids howned
    obtain ⟨hperm, rfl, hkilled⟩ | ⟨hperm, hr⟩ := hr
    · refine ⟨⟨fun _ => ⟨o, howned, hperm⟩, fun _ => rfl⟩, ⟨nofun, ?_⟩, ⟨nofun, fun h => absurd howned (h o)⟩,
        fun _ => hkilled, fun h => absurd rfl h, hcounts, hends⟩
      rintro ⟨o', ho', hnot⟩
      exact absurd (hunique o' ho' ▸ hperm) hnot
    · cases hr
      refine ⟨⟨nofun, ?_⟩, ⟨fun _ => ⟨o, howned, hperm⟩, fun _ => rfl⟩, ⟨nofun, fun h => absurd howned (h o)⟩,
        nofun, fun _ => rfl, hcounts, hends⟩
      rintro ⟨o', ho', hyes⟩
      exact absurd (hunique o' ho' ▸ hyes) hperm
  · cases hr
    have hnot : ∀ o, ¬ s.OwnedBy id o := fun o ho => hnone o ((hp.askedOf_iff hc.wired hid).mpr ho)
    exact ⟨⟨nofun, fun ⟨o, ho, _⟩ => absurd ho (hnot o)⟩, ⟨nofun, fun ⟨o, ho, _⟩ => absurd ho (hnot o)⟩,
      ⟨fun _ => hnot, fun _ => rfl⟩, nofun, fun _ => rfl, hcounts, hends⟩

theorem isWizard_empty {progr : Objid} : Db.empty.isWizard progr = false := by
  have hfind : Db.empty.find progr = none := by
    unfold Db.find
    split
    · rfl
    · rfl
  unfold Db.isWizard Db.hasFlag
  rw [hfind]

theorem placed_of_kills (hw : Wired s) (hids : s.pendingIds.Nodup)
    (h : ∀ db id owner, id ≠ s.currentTaskId →
      ∃ e s', s.killTask db id owner = .ok (e, s') ∧ s.KillsExactly db id owner e s') : s.Placed := by
  intro q tq hq t ht hid
  obtain ⟨e, s', hkill, hexact⟩ := h Db.empty t.id t.progr hid
  have howned : s.OwnedBy t.id t.progr := hw.ownedBy_background hq ht
  have hnone : e = .eNone := hexact.killed.mpr ⟨_, howned, .inr rfl⟩
  obtain ⟨r, hkill', hr⟩ := @killTask_spec s t.id Db.empty hw hids hid t.progr
  cases hkill.symm.trans hkill'
  obtain ⟨o, hasked, hr⟩ | ⟨hr, -⟩ := hr
  · obtain ⟨hperm, -, -⟩ | ⟨-, hr⟩ := hr
    · have ho : t.progr = o := hperm.resolve_left (by rw [isWizard_empty]; exact Bool.false_ne_true)
      have hmem : t.id ∈ tq.ids := mem_ids_background ht
      cases hasked with
      | waiting ht' hid' => exact absurd (hid' ▸ hmem) (hw.not_mem_ids hids ht' hq)
      | reading hq' hr' hid' =>
          rename_i x tqx vm
          by_cases hx : x = q
          · subst hx
            cases hq.symm.trans hq'
            have hnodup := hw.ids_nodup hids hq
            refine absurd hid'.symm ((List.nodup_append.mp hnodup).2.2 _ (List.mem_map_of_mem ht) _ ?_)
            rw [hr']
            exact .head []
          · exact absurd (hid' ▸ mem_ids_reading hr') (hw.queue_unique hids hq hq' hx hmem)
      | background hq' hactive ht' hid' =>
          rename_i x tqx t'
          by_cases hx : x = q
          · subst hx
            cases hq.symm.trans hq'
            exact ⟨hactive, ho⟩
          · exact absurd (hid' ▸ mem_ids_background ht') (hw.queue_unique hids hq hq' hx hmem)
    · cases hr
      cases hnone
  · cases hr
    cases hnone

end Server
end LambdaMoo
