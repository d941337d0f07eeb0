import LambdaMoo.ConnectedQueues
import LambdaMoo.Lib.Meets

/-! Each request to the queues is a sequence of changes, and finds the connections it
looks up. -/
namespace LambdaMoo

namespace Server

open Except

variable {s s' s₁ : Server} {q x : Nat} {tq tq' : Tqueue} {player : Objid} {bare counted : Prop}
  {h : Shandle} {t : BgTask}

/-- The lists of queues are in order, and the connections agree with them. -/
structure Coherent (s : Server) : Prop where
  wired : Wired s
  agreed : Agreed s

theorem coherent_start : Coherent start := ⟨wired_start, agreed_start⟩

theorem Coherent.change (h : Coherent s) (hc : Change bare counted s s') : Coherent s' :=
  ⟨h.wired.change hc, h.agreed.change h.wired hc⟩

theorem Coherent.changes (h : Coherent s) (hc : Changes bare counted s s') : Coherent s' := by
  induction hc with
  | refl => exact h
  | tail _ hc ih => exact ih.change hc

abbrev Missing (e : Fault) : Prop := e = .noConnection ∨ e = .endless

/-! The lists. -/

theorem queue_eq_ok (hq : s.queues q = some tq) : s.queue q = .ok tq := by
  unfold queue
  rw [hq]

theorem modifyQueue_eq (hq : s.queues q = some tq) (f : Tqueue → Tqueue) :
    s.modifyQueue f q = .ok (s.setQueue q (f tq)) := by
  unfold modifyQueue
  rw [queue_eq_ok hq]
  rfl

theorem ofOption_meets {α : Type} (o : Option α) : Meets Missing (fun a => o = some a) (Outcome.ofOption o) := by
  cases o with
  | none => exact nofun
  | some a => exact rfl

theorem findTqueue_eq_some (hf : s.findTqueue player = some q) :
    ∃ tq, s.queues q = some tq ∧ tq.player = player := by
  have hp := List.find?_some hf
  rw [decide_eq_true_eq, playerOf, Option.map_eq_some_iff] at hp
  exact hp

theorem Wired.lacks_of_findTqueue (hw : Wired s) (hf : s.findTqueue player = none) : s.Lacks player := by
  intro x tqx hx hp
  have hmem : x ∈ s.active ++ s.idle := by
    have hl := (hw.listed x).mpr (by simp [hx])
    rw [List.mem_append] at hl ⊢
    exact hl.symm
  have hnot := List.find?_eq_none.mp hf x hmem
  simp [playerOf, hx, hp] at hnot

structure Found (s : Server) (player : Objid) (q : Nat) (tq : Tqueue) (s' : Server) : Prop where
  queue : s'.queues q = some tq
  owner : tq.player = player
  old : s' = s ∨ s.Lacks player ∧ ∃ flushCmd, s' = created player flushCmd s

theorem Found.changes (hf : Found s player q tq s') : Changes bare counted s s' := by
  cases hf.old with
  | inl he => exact he ▸ .refl
  | inr he =>
      obtain ⟨hl, flushCmd, rfl⟩ := he
      exact .single (.create flushCmd hl)

theorem Found.rest (hf : Found s player q tq s') :
    s' = { s with queues := s'.queues, nextQueue := s'.nextQueue, idle := s'.idle } := by
  cases hf.old with
  | inl he => rw [he]
  | inr he =>
      obtain ⟨_, flushCmd, rfl⟩ := he
      rfl

theorem findOrNewTqueue_meets (hw : Wired s) (db : Db) (player : Objid) :
    Meets Missing (fun r => ∃ tq, Found s player r.1 tq r.2) (s.findOrNewTqueue db player) := by
  unfold findOrNewTqueue
  split
  · next q hf =>
      obtain ⟨tq, hq, hp⟩ := findTqueue_eq_some hf
      exact ⟨tq, hq, hp, .inl rfl⟩
  · next hf =>
      refine (ofOption_meets _).bind fun flushCmd _ => ?_
      exact ⟨newTqueue player flushCmd, Function.update_self .., rfl,
        .inr ⟨hw.lacks_of_findTqueue hf, flushCmd, rfl⟩⟩

theorem ensureUsage_eq (hq : s.queues q = some tq) : s.ensureUsage q =
    if tq.usage = noUsage then
      if q ∈ s.idle then .ok (activated q tq s) else .error .badPointer
    else .ok s := by
  unfold ensureUsage
  rw [queue_eq_ok hq]
  by_cases hi : q ∈ s.idle
  · rw [if_pos hi]
    simp only [hi, not_true_eq_false, ↓reduceIte]
    rfl
  · rw [if_neg hi]
    simp only [hi, not_false_eq_true, ↓reduceIte]
    rfl

theorem ensureUsage_meets (hw : Wired s) (hq : s.queues q = some tq) :
    Meets Missing (fun s' => q ∈ s.active ∧ s' = s ∨ q ∈ s.idle ∧ s' = activated q tq s)
      (s.ensureUsage q) := by
  rw [ensureUsage_eq hq]
  split
  · split
    · next hi => exact .inr ⟨hi, rfl⟩
    · exact nofun
  · next hu =>
      refine .inl ⟨hw.mem_active_of_not_idle hq fun hi => hu ?_, rfl⟩
      rw [← usageOf_eq hq]
      exact hw.idle q hi

theorem mem_active_activated : q ∈ (activated q tq s).active := mem_insertByUsage.mpr (.inl rfl)

theorem queues_activated : (activated q tq s).queues q = some { tq with usage := s.headUsage } :=
  Function.update_self ..

theorem ensureUsage_changes (bare counted : Prop) (hw : Wired s) (hq : s.queues q = some tq) :
    Meets Missing (fun s' => Changes bare counted s s' ∧ q ∈ s'.active ∧
      ∃ usage, s'.queues q = some { tq with usage }) (s.ensureUsage q) := by
  refine (ensureUsage_meets hw hq).mono fun s' hs' => ?_
  cases hs' with
  | inl hs' =>
      rw [hs'.2]
      exact ⟨.refl, hs'.1, tq.usage, hq⟩
  | inr hs' =>
      rw [hs'.2]
      exact ⟨.single (.activate hq hs'.1), mem_active_activated, s.headUsage, queues_activated⟩

theorem insertByUsage_congr {f g : Nat → Int} {usage : Int} {l : List Nat} (h : ∀ x ∈ l, f x = g x) :
    insertByUsage f usage q l = insertByUsage g usage q l := by
  induction l with
  | nil => rfl
  | cons x l ih =>
      unfold insertByUsage
      rw [h x (.head l), ih fun y hy => h y (.tail x hy)]

theorem headUsage_congr (ha : s'.active = s.active) (hu : ∀ x ∈ s.active, s'.usageOf x = s.usageOf x) :
    s'.headUsage = s.headUsage := by
  unfold headUsage
  rw [ha]
  cases hactive : s.active with
  | nil => rfl
  | cons x rest => exact hu x (hactive ▸ .head rest)

theorem active_activated_congr (tq tq' : Tqueue) (ha : s'.active = s.active)
    (hu : ∀ x ∈ s.active, s'.usageOf x = s.usageOf x) (hna : q ∉ s.active) :
    (activated q tq' s').active = (activated q tq s).active := by
  have hself : ∀ (u : Server) (r : Tqueue), usageOf { u.setQueue q { r with usage := u.headUsage } with
      idle := u.idle.erase q } q = u.headUsage := fun u r => by simp [usageOf, setQueue]
  change insertByUsage _ _ q s'.active = insertByUsage _ _ q s.active
  rw [ha, hself, hself, headUsage_congr ha hu]
  refine insertByUsage_congr fun y hy => ?_
  have hne : y ≠ q := fun he => hna (he ▸ hy)
  have hy := hu y hy
  simpa [usageOf, setQueue, hne] using hy

def ensured (q : Nat) (tq : Tqueue) (usage : Int) (active : List Nat) (s : Server) : Server :=
  { s.setQueue q { tq with usage } with idle := s.idle.erase q, active }

theorem queues_ensured {usage : Int} {active : List Nat} :
    (ensured q tq usage active s).queues q = some { tq with usage } := Function.update_self ..

theorem ensured_self (hq : s.queues q = some tq) (hi : q ∉ s.idle) : ensured q tq tq.usage s.active s = s := by
  unfold ensured setQueue
  rw [Function.update_eq_self_iff.mpr hq.symm, List.erase_of_not_mem hi]

theorem usageOf_write (hq : s.queues q = some tq) (hs : s'.queues = Function.update s.queues q (some tq'))
    (hu : tq'.usage = tq.usage) : s'.usageOf x = s.usageOf x := by
  unfold usageOf
  rw [hs, Function.update_apply]
  split
  · next hx => simp [hx, hq, hu]
  · rfl

/-- A queue that is written first and made active then might as well have been made active
before. -/
theorem ensureUsage_after (bare counted : Prop) (hw : Wired s) (hq : s.queues q = some tq)
    (hq' : s'.queues q = some tq') (hu : tq'.usage = tq.usage) (ha : s'.active = s.active)
    (husage : ∀ x ∈ s.active, s'.usageOf x = s.usageOf x) (hi : q ∈ s'.idle ↔ q ∈ s.idle) :
    Meets Missing (fun s₂ => ∃ usage active, Changes bare counted s (ensured q tq usage active s) ∧
      q ∈ active ∧ s₂ = ensured q tq' usage active s') (s'.ensureUsage q) := by
  rw [ensureUsage_eq hq', hu]
  split
  · split
    · next hidle =>
        have hna := hw.not_active_of_idle (hi.mp hidle)
        refine ⟨s.headUsage, (activated q tq s).active, .single (.activate hq (hi.mp hidle)),
          mem_active_activated, ?_⟩
        rw [← active_activated_congr tq tq' ha husage hna, ← headUsage_congr ha husage]
        rfl
    · exact nofun
  · next hne =>
      have hidle : q ∉ s.idle := fun hidle => hne <| by
        rw [← usageOf_eq hq]
        exact hw.idle q hidle
      have hact := hw.mem_active_of_not_idle hq hidle
      refine ⟨tq.usage, s.active, ?_, hact, ?_⟩
      · rw [ensured_self hq hidle]
      · rw [← hu, ← ha, ensured_self hq' (mt hi.mp hidle)]

/-! Lines of input. -/

theorem Wired.note (hw : Wired s) {hs : List Shandle} (hk : hs.map Shandle.key = s.shandles.map Shandle.key) :
    Change bare counted s { s with shandles := hs } :=
  .note hs s.current s.currentTaskId hk fun c hc => ⟨hw.running c hc, hw.loggingIn c hc⟩

/-- Only what is not seen from outside is changed of a queue, and of the connections. -/
structure Edited (s : Server) (q : Nat) (tq : Tqueue) (s' : Server) (tq' : Tqueue) : Prop where
  rest : ∃ hs, s' = { s.setQueue q tq' with shandles := hs } ∧
    hs.map Shandle.key = s.shandles.map Shandle.key
  core : tq'.core = tq.core
  wellFormed : tq.WellFormed → tq'.WellFormed

namespace Edited

theorem queue (he : Edited s q tq s' tq') : s'.queues q = some tq' := by
  obtain ⟨hs, rfl, _⟩ := he.rest
  exact Function.update_self ..

theorem other (he : Edited s q tq s' tq') (hx : x ≠ q) : s'.queues x = s.queues x := by
  obtain ⟨hs, rfl, _⟩ := he.rest
  exact Function.update_of_ne hx ..

theorem fields (he : Edited s q tq s' tq') : tq'.player = tq.player ∧ tq'.connected = tq.connected ∧
    tq'.bg = tq.bg ∧ tq'.usage = tq.usage ∧ tq'.numBgTasks = tq.numBgTasks ∧ tq'.reading = tq.reading := by
  have hc := he.core
  simpa only [Tqueue.core, Prod.mk.injEq] using hc

theorem rfl (hq : s.queues q = some tq) : Edited s q tq s tq :=
  ⟨⟨s.shandles, by rw [setQueue, Function.update_eq_self_iff.mpr hq.symm], Eq.refl _⟩, Eq.refl _, id⟩

theorem set (hc : tq'.core = tq.core) (hw : tq.WellFormed → tq'.WellFormed) :
    Edited s q tq (s.setQueue q tq') tq' :=
  ⟨⟨s.shandles, Eq.refl _, Eq.refl _⟩, hc, hw⟩

theorem trans {tq₁ : Tqueue} (he : Edited s q tq s₁ tq₁) (he' : Edited s₁ q tq₁ s' tq') :
    Edited s q tq s' tq' := by
  obtain ⟨hs, rfl, hk⟩ := he.rest
  obtain ⟨hs', rfl, hk'⟩ := he'.rest
  refine ⟨⟨hs', ?_, hk'.trans hk⟩, he'.core.trans he.core, he'.wellFormed ∘ he.wellFormed⟩
  simp [setQueue]

theorem changes (he : Edited s q tq s' tq') (hc : Coherent s) (hq : s.queues q = some tq) :
    Changes bare counted s s' := by
  obtain ⟨hs, rfl, hk⟩ := he.rest
  have hedit : Change bare counted s (s.setQueue q tq') := .edit hq he.core he.wellFormed
  exact (Relation.ReflTransGen.single hedit).tail ((hc.change hedit).wired.note hk)

theorem coherent (he : Edited s q tq s' tq') (hc : Coherent s) (hq : s.queues q = some tq) :
    Coherent s' := hc.changes (he.changes hc hq : Changes True True s s')

end Edited

theorem modifyShandle_key {f : Shandle → Shandle} (hf : ∀ h, (f h).key = h.key) (nhandle : Nat) :
    (s.modifyShandle f nhandle).shandles.map Shandle.key = s.shandles.map Shandle.key := by
  rw [modifyShandle, List.map_map]
  refine List.map_congr_left fun h _ => ?_
  rw [Function.comp]
  split
  · exact hf h
  · rfl

def Answered (s : Server) (tq : Tqueue) : Prop :=
  tq.connected = true → ∃ h ∈ s.shandles, h.player = tq.player

theorem Agreed.answered (ha : Agreed s) (hq : s.queues q = some tq) : Answered s tq := fun hc => by
  obtain ⟨h, hh, _, hp⟩ := ha.exists_shandle hq hc
  exact ⟨h, hh, hp⟩

theorem Answered.edited (hx : Answered s tq) (he : Edited s q tq s' tq') : Answered s' tq' := by
  have hf := he.fields
  obtain ⟨hs, rfl, hk⟩ := he.rest
  intro hc
  obtain ⟨h, hh, hp⟩ := hx (hf.2.1 ▸ hc)
  have hmem : h.key ∈ hs.map Shandle.key := hk ▸ List.mem_map_of_mem hh
  obtain ⟨h', hh', hkey⟩ := List.mem_map.mp hmem
  exact ⟨h', hh', (congrArg Key.player hkey).trans (hp.trans hf.1.symm)⟩

theorem setNetInput_meets (hx : ∃ h ∈ s.shandles, h.player = player) (suspended : Bool) :
    Meets Missing (fun s' => ∃ hs, s' = { s with shandles := hs } ∧
      hs.map Shandle.key = s.shandles.map Shandle.key) (s.setNetInput suspended player) := by
  obtain ⟨h, hh, hp⟩ := hx
  have hsome : (s.findShandle player).isSome := List.find?_isSome.mpr ⟨h, hh, by simp [hp]⟩
  obtain ⟨h', hf⟩ := Option.isSome_iff_exists.mp hsome
  unfold setNetInput
  rw [hf]
  have hk := modifyShandle_key (s := s) (f := fun h => { h with netInputSuspended := suspended })
    (fun _ => rfl) h'.nhandle
  exact ⟨_, rfl, hk⟩

theorem netInput_meets (hx : Answered s tq) (hq : s.queues q = some tq) (hc : tq.connected = true)
    (suspended : Bool) :
    Meets Missing (fun s' => ∃ tq', Edited s q tq s' tq' ∧ tq'.input = tq.input ∧
        tq'.holdInput = tq.holdInput)
      (do
        let s ← s.setNetInput suspended tq.player
        s.modifyQueue (fun tq => { tq with inputSuspended := suspended }) q) := by
  refine (setNetInput_meets (hx hc) suspended).bind fun s₁ hs₁ => ?_
  obtain ⟨hs, rfl, hk⟩ := hs₁
  rw [modifyQueue_eq (s := { s with shandles := hs }) hq]
  refine ⟨_, ⟨⟨hs, rfl, hk⟩, rfl, fun hw => ?_⟩, rfl, rfl⟩
  exact ⟨hw.input, hw.bg, hw.lengths, hw.total⟩

theorem suspendInput_meets (ha : Agreed s) (hq : s.queues q = some tq) (hc : tq.connected = true) :
    Meets Missing (fun s' => ∃ tq', Edited s q tq s' tq') (s.suspendInput q) := by
  unfold suspendInput
  rw [queue_eq_ok hq]
  exact (netInput_meets (ha.answered hq) hq hc true).mono fun s' hs' => hs'.imp fun _ he => he.1

theorem taskSuspendInput_meets (ha : Agreed s) (hq : s.queues q = some tq) :
    Meets Missing (fun s' => ∃ tq', Edited s q tq s' tq') (s.taskSuspendInput q) := by
  unfold taskSuspendInput
  rw [queue_eq_ok hq]
  change Meets _ _ (if _ then _ else _)
  split
  · next hc => exact suspendInput_meets ha hq (by simp_all)
  · exact ⟨tq, .rfl hq⟩

theorem dequeueInputTask_meets (hx : Answered s tq) (hq : s.queues q = some tq) :
    Meets Missing (fun r => match r.1 with
        | none => r.2 = s ∧ tq.input.cells = []
        | some t => ∃ tq', Edited s q tq r.2 tq' ∧ tq.input.cells = t :: tq'.input.cells ∧
            tq'.holdInput = tq.holdInput)
      (s.dequeueInputTask q) := by
  unfold dequeueInputTask
  rw [queue_eq_ok hq, Except.bind_of_ok]
  split
  · next hd => exact ⟨rfl, TailList.dequeue_eq_none.mp hd⟩
  · next t input hd =>
      have hcells := TailList.dequeue_eq_some hd
      have hset : Edited s q tq (s.setQueue q { tq with input, totalInputLength := tq.totalInputLength - t.length })
          { tq with input, totalInputLength := tq.totalInputLength - t.length } := by
        refine .set rfl fun hw => ⟨hw.input.dequeue hd, hw.bg, fun t' ht' => ?_, ?_⟩
        · exact hw.lengths t' (hcells ▸ .tail t ht')
        · change tq.totalInputLength - t.length = (input.cells.map InputTask.length).sum
          rw [hw.total, hcells, List.map_cons, List.sum_cons]
          omega
      dsimp only
      split
      · next hc =>
          have hc : tq.connected = true := by simp_all
          have hnet := netInput_meets (hx.edited hset) hset.queue hc false
          have hpair := hnet.bind (f := fun s => pure (some t, s)) (Q := fun r => r.1 = some t ∧ ∃ tq',
            Edited s q tq r.2 tq' ∧ tq.input.cells = t :: tq'.input.cells ∧ tq'.holdInput = tq.holdInput)
            fun s' hs' => by
              obtain ⟨tq', he, hi, hh⟩ := hs'
              exact ⟨rfl, tq', hset.trans he, hi ▸ hcells, hh⟩
          rw [bind_assoc] at hpair
          refine hpair.mono ?_
          rintro ⟨_, s'⟩ ⟨rfl, he⟩
          exact he
      · exact ⟨_, hset, hcells, rfl⟩

theorem enqueueInputTask_meets (bare counted : Prop) (hc : Coherent s) (hq : s.queues q = some tq)
    (line : Str) (atFront : Bool) :
    Meets Missing (fun s' => Changes bare counted s s' ∧
      ∃ tq', s'.queues q = some tq' ∧ tq'.player = tq.player ∧ tq'.connected = tq.connected)
      (s.enqueueInputTask q line atFront) := by
  unfold enqueueInputTask
  rw [queue_eq_ok hq]
  let t : InputTask := { string := line, length := line.length }
  let input := if atFront && !tq.input.cells.isEmpty then tq.input.pushFront t else tq.input.enqueue t
  let totalInputLength := tq.totalInputLength + t.length
  have hset : Edited s q tq (s.setQueue q { tq with input, totalInputLength })
      { tq with input, totalInputLength } := .set rfl fun hw => hw.line line _
  have hch : Changes bare counted s _ := hset.changes hc hq
  have hc₁ := hc.changes hch
  -- whether the queue was made active or not
  have hlast : ∀ s₂ tq₂, Changes bare counted s s₂ → s₂.queues q = some tq₂ →
      tq₂.player = tq.player ∧ tq₂.connected = tq.connected →
      Meets Missing (fun s' => Changes bare counted s s' ∧
        ∃ tq', s'.queues q = some tq' ∧ tq'.player = tq.player ∧ tq'.connected = tq.connected)
        (if !tq.inputSuspended && tq.connected && totalInputLength > inputHiwat then s₂.suspendInput q
          else pure s₂) := by
    intro s₂ tq₂ hch₂ hq₂ hp
    have hc₂ := hc.changes hch₂
    split
    · next hif =>
        refine (suspendInput_meets hc₂.agreed hq₂ (by simp_all)).mono fun s' hs' => ?_
        obtain ⟨tq', he⟩ := hs'
        exact ⟨hch₂.trans (he.changes hc₂ hq₂), tq', he.queue, he.fields.1.trans hp.1,
          he.fields.2.1.trans hp.2⟩
    · exact ⟨hch₂, tq₂, hq₂, hp⟩
  change Meets _ _ (if _ then _ else _)
  split
  · refine (ensureUsage_changes bare counted hc₁.wired hset.queue).bind fun s₂ hs₂ => ?_
    obtain ⟨hch₂, _, usage, hq₂⟩ := hs₂
    exact hlast s₂ _ (hch.trans hch₂) hq₂ ⟨rfl, rfl⟩
  · exact hlast _ _ hch hset.queue ⟨rfl, rfl⟩

theorem flushInput_meets (hc : Coherent s) (hq : s.queues q = some tq) :
    Meets Missing (fun s' => ∃ tq', Edited s q tq s' tq') (s.flushInput q) := by
  unfold flushInput
  rw [queue_eq_ok hq]
  refine Meets.foldlM (P := fun s' => ∃ tq', Edited s q tq s' tq') (fun s₁ _ hs₁ => ?_) tq.input.cells s ⟨tq, .rfl hq⟩
  obtain ⟨tq₁, he₁⟩ := hs₁
  refine (dequeueInputTask_meets ((hc.agreed.answered hq).edited he₁) he₁.queue).bind fun r hr => ?_
  obtain ⟨o, s₂⟩ := r
  cases o with
  | none => exact ⟨tq₁, hr.1 ▸ he₁⟩
  | some t =>
      obtain ⟨tq₂, he₂, _⟩ := hr
      exact ⟨tq₂, he₁.trans he₂⟩

theorem newInputTask_meets (bare counted : Prop) (hc : Coherent s) (hq : s.queues q = some tq)
    (line : Str) :
    Meets Missing (fun s' => Changes bare counted s s' ∧
      ∃ tq', s'.queues q = some tq' ∧ tq'.player = tq.player ∧ tq'.connected = tq.connected)
      (s.newInputTask q line) := by
  unfold newInputTask
  rw [queue_eq_ok hq]
  change Meets _ _ (if _ then _ else _)
  split
  · refine (flushInput_meets hc hq).mono fun s' hs' => ?_
    obtain ⟨tq', he⟩ := hs'
    exact ⟨he.changes hc hq, tq', he.queue, he.fields.1, he.fields.2.1⟩
  · exact enqueueInputTask_meets bare counted hc hq line false

end Server
end LambdaMoo
