import LambdaMoo.QueueEvents

/-! Connections that are opened, closed and spoken to. -/
namespace LambdaMoo

namespace Server

open Except

variable {s s' s₁ : Server} {q nhandle : Nat} {tq : Tqueue} {player progr : Objid} {bare counted : Prop}
  {h : Shandle} {db : Db}

theorem freeShandle_meets (hc : Coherent s) (hh : h ∈ s.shandles) :
    Meets Missing (Changes bare counted s) (s.freeShandle h) := by
  obtain ⟨tq, hq, _, _⟩ := hc.agreed.exists_queue hh
  unfold freeShandle freeTaskQueue
  rw [modifyQueue_eq (s := { s with shandles := s.shandles.filter fun h' => h'.nhandle ≠ h.nhandle }) hq]
  change Meets _ _ (Server.queue h.tasks _ >>= _)
  rw [queue_eq_ok (Function.update_self ..)]
  change Meets _ _ (if tq.reading.isSome then _ else _)
  split
  · refine Meets.mono (ensureUsage_after bare counted hc.wired hq (Function.update_self ..) rfl rfl
      (fun _ _ => usageOf_write hq rfl rfl) Iff.rfl) fun s₂ hs₂ => ?_
    obtain ⟨usage, active, hch, ha, rfl⟩ := hs₂
    have hdisc : Change bare counted (ensured h.tasks tq usage active s) _ :=
      .disconnect h hh queues_ensured fun _ => ha
    have htail := hch.tail hdisc
    simp only [ensured, setQueue, Function.update_idem] at htail ⊢
    exact htail
  · next hr => exact .single (.disconnect h hh hq fun hr' => absurd hr' hr)

theorem newTaskQueue_meets (hw : Wired s) (db : Db) (player : Objid) :
    Meets Missing (fun r => ∃ s₁ tq, Found s player r.1 tq s₁ ∧
      r.2 = s₁.setQueue r.1 { tq with connected := true }) (s.newTaskQueue db player) := by
  unfold newTaskQueue
  refine (findOrNewTqueue_meets hw db player).bind fun r hr => ?_
  obtain ⟨q, s₁⟩ := r
  obtain ⟨tq, hf⟩ := hr
  dsimp only at hf ⊢
  rw [modifyQueue_eq hf.queue]
  exact ⟨s₁, tq, hf, rfl⟩

theorem Found.connect (bare counted : Prop) (hf : Found { s with nextUnconnectedPlayer := s.nextUnconnectedPlayer - 1 }
      s.nextUnconnectedPlayer q tq s₁) (hn : h.nhandle = s.nextHandle)
    (hp : h.player = s.nextUnconnectedPlayer) (ht : h.tasks = q) :
    Changes bare counted s { s₁.setQueue q { tq with connected := true } with
      shandles := h :: s₁.shandles, nextHandle := s₁.nextHandle + 1 } := by
  have hh : h.player = tq.player := hp.trans hf.owner.symm
  cases hf.old with
  | inl he =>
      subst he
      exact .single (.connect h hf.queue hf.owner hn hh ht)
  | inr he =>
      obtain ⟨hl, flushCmd, rfl⟩ := he
      have hcreate : Change bare counted s (created s.nextUnconnectedPlayer flushCmd s) := .create flushCmd hl
      have hconnect : Change bare counted (created s.nextUnconnectedPlayer flushCmd s) _ :=
        .connect h hf.queue hf.owner hn hh ht
      exact (Relation.ReflTransGen.single hcreate).tail hconnect

theorem serverNewConnection_meets (hc : Coherent s) (db : Db) (now : Int) (listener : Objid) (outbound : Bool) :
    Meets Missing (Changes bare counted s) (s.serverNewConnection db now listener outbound) := by
  unfold serverNewConnection
  dsimp only
  by_cases hmin : s.nextUnconnectedPlayer = -2 ^ 31
  · rw [if_pos hmin]
    exact nofun
  · rw [if_neg hmin]
    have hw : Wired { s with nextUnconnectedPlayer := s.nextUnconnectedPlayer - 1 } := { hc.wired with }
    refine (newTaskQueue_meets hw db s.nextUnconnectedPlayer).bind fun r hr => ?_
    obtain ⟨q, s₂⟩ := r
    obtain ⟨s₁, tq, hf, hs₂⟩ := hr
    dsimp only at hf hs₂ ⊢
    subst hs₂
    have hhandle : s₁.nextHandle = s.nextHandle := by rw [hf.rest]
    have hch : ∀ listener, Changes bare counted s { s₁.setQueue q { tq with connected := true } with
        shandles :=
          { nhandle := s₁.nextHandle, connectionTime := 0, lastActivityTime := now
            player := s.nextUnconnectedPlayer, listener, tasks := q, disconnectMe := false, outbound
            netInputSuspended := false } :: s₁.shandles
        nextHandle := s₁.nextHandle + 1 } :=
      fun listener => hf.connect bare counted hhandle rfl rfl
    cases outbound with
    | true => exact hch systemObject
    | false =>
      have hc₃ := hc.changes (hch listener)
      refine (newInputTask_meets bare counted hc₃ (Function.update_self ..) []).bind fun s₄ hs₄ => ?_
      obtain ⟨hch₄, tq₄, hq₄, _⟩ := hs₄
      have hc₄ := hc₃.changes hch₄
      refine (taskSuspendInput_meets hc₄.agreed hq₄).mono fun s₅ hs₅ => ?_
      obtain ⟨tq₅, he⟩ := hs₅
      exact ((hch listener).trans hch₄).trans (he.changes hc₄ hq₄)

theorem shandle_meets : Meets Missing (fun h => h ∈ s.shandles ∧ h.nhandle = nhandle) (s.shandle nhandle) := by
  unfold shandle
  split
  · exact nofun
  · next h hf =>
      refine ⟨List.mem_of_find?_eq_some hf, ?_⟩
      have hn := List.find?_some hf
      rwa [decide_eq_true_eq] at hn

theorem modifyShandle_change (hw : Wired s) {f : Shandle → Shandle} (hf : ∀ h, (f h).key = h.key)
    (nhandle : Nat) : Change bare counted s (s.modifyShandle f nhandle) :=
  hw.note (modifyShandle_key hf nhandle)

theorem serverReceiveLine_meets (hc : Coherent s) (line : Str) (now : Int) :
    Meets Missing (Changes bare counted s) (s.serverReceiveLine nhandle line now) := by
  unfold serverReceiveLine
  refine shandle_meets.bind fun h hh => ?_
  have hnote : Change bare counted s (s.modifyShandle (fun h => { h with lastActivityTime := now }) nhandle) :=
    modifyShandle_change hc.wired (by intro _; rfl) nhandle
  obtain ⟨tq, hq, _, _⟩ := hc.agreed.exists_queue hh.1
  refine (newInputTask_meets bare counted (hc.change hnote) hq line).mono fun s' hs' => ?_
  exact (Relation.ReflTransGen.single hnote).trans hs'.1

theorem serverClosing_meets (hc : Coherent s) :
    Meets Missing (Changes bare counted s) (s.serverClosing nhandle) := by
  unfold serverClosing
  refine shandle_meets.bind fun h hh => ?_
  exact .single (modifyShandle_change hc.wired (by intro _; rfl) nhandle)

theorem serverClose_meets (hc : Coherent s) :
    Meets Missing (Changes bare counted s) (s.serverClose nhandle) := by
  unfold serverClose
  exact shandle_meets.bind fun h hh => freeShandle_meets hc hh.1

theorem timedOut_meets (db : Db) (now : Int) (h : Shandle) :
    Meets Missing (fun _ => True) (timedOut db now h) := by
  unfold timedOut
  refine (ofOption_meets _).bind fun v _ => ?_
  split <;> trivial

theorem closeUseless_meets (hc : Coherent s) (db : Db) (now : Int) :
    Meets Missing (Changes bare counted s) (s.closeUseless db nhandle now) := by
  unfold closeUseless
  refine shandle_meets.bind fun h hh => ?_
  have hfree : Meets Missing (Changes bare counted s) (s.freeShandle h) := freeShandle_meets hc hh.1
  refine (timedOut_meets db now h).bind fun late _ => ?_
  split
  · exact hfree
  · split
    · exact hfree
    · split
      · exact hfree
      · exact .refl

theorem tasksSetConnectionOption_meets (hc : Coherent s) (hq : s.queues q = some tq) (option : QueueOption) :
    Meets Missing (Changes bare counted s) (s.tasksSetConnectionOption q option) := by
  unfold tasksSetConnectionOption
  split
  · rw [modifyQueue_eq hq]
    exact .single (.edit hq rfl fun hw => ⟨hw.input, hw.bg, hw.lengths, hw.total⟩)
  · rw [modifyQueue_eq hq]
    exact .single (.edit hq rfl fun hw => ⟨hw.input, hw.bg, hw.lengths, hw.total⟩)
  · next value =>
      rw [modifyQueue_eq hq]
      have hedit : Change bare counted s (s.setQueue q { tq with holdInput := value.isTrue }) :=
        .edit hq rfl fun hw => ⟨hw.input, hw.bg, hw.lengths, hw.total⟩
      have hset : (s.setQueue q { tq with holdInput := value.isTrue }).queues q =
        some { tq with holdInput := value.isTrue } := Function.update_self ..
      change Meets _ _ (Server.queue q _ >>= _)
      rw [queue_eq_ok hset]
      change Meets _ _ (if _ then _ else _)
      split
      · refine (ensureUsage_changes bare counted (hc.change hedit).wired hset).mono fun s' hs' => ?_
        exact (Relation.ReflTransGen.single hedit).trans hs'.1
      · exact .single hedit

theorem bfSetConnectionOption_meets (hc : Coherent s) (db : Db) (progr oid : Objid) (option : QueueOption) :
    Meets Missing (fun r => Changes bare counted s r.2) (s.bfSetConnectionOption db progr oid option) := by
  unfold bfSetConnectionOption
  split
  · exact .refl
  · split
    · exact .refl
    · next h hf =>
        split
        · exact .refl
        · obtain ⟨tq, hq, _, _⟩ := hc.agreed.exists_queue (List.mem_of_find?_eq_some hf)
          exact (tasksSetConnectionOption_meets hc hq option).bind fun _ hs => hs

end Server
end LambdaMoo
