import LambdaMoo.LoginEvents

/-! The end of a login: the connection becomes the player's, and the one that the player had
is closed. -/
namespace LambdaMoo

namespace Server

open Except

variable {s s' : Server} {q d x : Nat} {tq tqd tqd' : Tqueue} {newPlayer : Objid}
  {bare counted : Prop} {db : Db} {flushCmd : Option Str} {e h : Shandle} {hs : List Shandle}
  {idle active : List Nat} {usage : Int}

/-- The queues after a login whose player had a queue already, once the connection of that
queue is closed. -/
def overtaken (d q : Nat) (tqd' tq : Tqueue) (newPlayer : Objid) (flushCmd : Option Str)
    (usage : Int) (idle active : List Nat) (hs : List Shandle) (s : Server) : Server :=
  { leaving flushCmd tq (({ s with idle, active }.setQueue d
      { tqd' with player := nothing, connected := false, usage, bg := .empty, numBgTasks := 0 }).setQueue q
        (heir tq newPlayer (some (d, tqd')))) with shandles := hs }

theorem queues_overtaken (hdq : d ≠ q) (hdn : d ≠ s.nextQueue) :
    (overtaken d q tqd' tq newPlayer flushCmd usage idle active hs s).queues d =
      some { tqd' with player := nothing, connected := false, usage, bg := .empty, numBgTasks := 0 } := by
  change (leaving flushCmd tq _).queues d = _
  rw [queues_leaving (by exact hdn), queues_setQueue, if_neg hdq]
  exact Function.update_self ..

theorem usageOf_overtaken (hw : Wired s) (hq : s.queues q = some tq) (hd : s.queues d = some tqd)
    (hdq : d ≠ q) (hx : x ∈ s.active) :
    (overtaken d q tqd' tq newPlayer flushCmd tqd.usage idle active hs s).usageOf x = s.usageOf x := by
  obtain ⟨tqx, hqx⟩ := hw.exists_queue_of_active hx
  have hxn : x ≠ s.nextQueue := Nat.ne_of_lt (hw.fresh x tqx hqx)
  by_cases hxd : x = d
  · subst hxd
    rw [usageOf_eq hd, usageOf_eq (queues_overtaken hdq hxn)]
  · by_cases hxq : x = q
    · subst hxq
      have hheir : (overtaken d x tqd' tq newPlayer flushCmd tqd.usage idle active hs s).queues x =
          some (heir tq newPlayer (some (d, tqd'))) := by
        change (leaving flushCmd tq _).queues x = _
        rw [queues_leaving (by exact hxn), queues_setQueue, if_pos rfl]
      rw [usageOf_eq hq, usageOf_eq hheir]
      rfl
    · rw [usageOf_eq hqx, usageOf_eq]
      change (leaving flushCmd tq _).queues x = _
      rw [queues_leaving (by exact hxn), queues_setQueue, if_neg hxq, queues_setQueue, if_neg hxd]
      exact hqx

theorem mem_idle_overtaken (hdn : d ≠ s.nextQueue) :
    d ∈ (overtaken d q tqd' tq newPlayer flushCmd usage idle active hs s).idle ↔ d ∈ idle :=
  mem_idle_leaving (s := ({ s with idle, active } : Server).setQueue d _ |>.setQueue q _) hdn

theorem ensured_overtaken {usage' : Int} {active' : List Nat} (hdq : d ≠ q) (hdn : d ≠ s.nextQueue) :
    ensured d { tqd' with player := nothing, connected := false, usage, bg := .empty, numBgTasks := 0 }
        usage' active' (overtaken d q tqd' tq newPlayer flushCmd usage s.idle s.active hs s) =
      overtaken d q tqd' tq newPlayer flushCmd usage' (s.idle.erase d) active' hs s := by
  unfold overtaken
  change { ensured d _ usage' active' (leaving flushCmd tq _) with shandles := hs } = _
  rw [ensured_leaving (by exact hdn)]
  unfold ensured
  rw [setQueue_comm hdq.symm, setQueue_setQueue]
  rfl

theorem freeShandle_overtaken (bare counted : Prop) (hw : Wired s) (hq : s.queues q = some tq) (hd : s.queues d = some tqd)
    (hdq : d ≠ q) (hcore : tqd'.core = tqd.core) (he : e.tasks = d) :
    Meets Missing (fun s' => ∃ usage idle active,
        Changes bare counted s { s.setQueue d { tqd with usage } with idle, active } ∧
        (tqd.reading.isSome → d ∈ active) ∧
        s' = overtaken d q tqd' tq newPlayer flushCmd usage idle active
          (hs.filter fun h => h.nhandle ≠ e.nhandle) s)
      (Server.freeShandle e { leaving flushCmd tq ((s.retiring (some (d, tqd'))).setQueue q
        (heir tq newPlayer (some (d, tqd')))) with shandles := hs }) := by
  have hdn : d ≠ s.nextQueue := Nat.ne_of_lt (hw.fresh d tqd hd)
  simp only [Tqueue.core, Prod.mk.injEq] at hcore
  obtain ⟨hplayer, hconn, hbg, husage, hnum, hread⟩ := hcore
  unfold freeShandle freeTaskQueue
  rw [he]
  have hd₁ : ({ leaving flushCmd tq ((s.retiring (some (d, tqd'))).setQueue q
      (heir tq newPlayer (some (d, tqd')))) with
        shandles := hs.filter fun h => h.nhandle ≠ e.nhandle } : Server).queues d =
      some { tqd' with player := nothing, bg := .empty, numBgTasks := 0 } := by
    change (leaving flushCmd tq _).queues d = _
    rw [queues_leaving (by exact hdn), queues_setQueue, if_neg hdq]
    exact Function.update_self ..
  dsimp only
  rw [modifyQueue_eq hd₁]
  obtain ⟨t, ht⟩ : ∃ t, t = overtaken d q tqd' tq newPlayer flushCmd tqd.usage s.idle s.active
      (hs.filter fun h => h.nhandle ≠ e.nhandle) s := ⟨_, rfl⟩
  have hmove : ∀ (L : Server) (Y : Tqueue) (hs : List Shandle),
      Server.setQueue d Y { L with shandles := hs } = { L.setQueue d Y with shandles := hs } :=
    fun _ _ _ => rfl
  have hstate : Server.setQueue d { tqd' with player := nothing, connected := false, bg := .empty, numBgTasks := 0 }
      { leaving flushCmd tq ((s.retiring (some (d, tqd'))).setQueue q
        (heir tq newPlayer (some (d, tqd')))) with shandles := hs.filter fun h => h.nhandle ≠ e.nhandle } = t := by
    rw [hmove, setQueue_leaving (by exact hdn), setQueue_comm hdq.symm, retiring, setQueue_setQueue, ht,
      ← husage]
    rfl
  have hd₂ : t.queues d = some { tqd' with
      player := nothing, connected := false, usage := tqd.usage, bg := .empty, numBgTasks := 0 } :=
    ht ▸ queues_overtaken hdq hdn
  have hactive : t.active = s.active := ht ▸ active_leaving
  have husage : ∀ x ∈ s.active, t.usageOf x = s.usageOf x := fun x hx =>
    ht ▸ usageOf_overtaken hw hq hd hdq hx
  have hidle : d ∈ t.idle ↔ d ∈ s.idle := ht ▸ mem_idle_overtaken hdn
  change Meets _ _ (Server.queue d (Server.setQueue d _ _) >>= _)
  rw [hstate, queue_eq_ok hd₂]
  change Meets _ _ (if tqd'.reading.isSome then Server.ensureUsage d t else .ok t)
  split
  · refine (ensureUsage_after bare counted hw hd hd₂ rfl hactive husage hidle).mono fun s' hs' => ?_
    obtain ⟨usage, active, hch, ha, rfl⟩ := hs'
    exact ⟨usage, _, active, hch, fun _ => ha, ht ▸ ensured_overtaken hdq hdn⟩
  · next hr =>
      refine ⟨tqd.usage, s.idle, s.active, ?_, fun hr' => absurd (hread ▸ hr') hr, ht⟩
      have hself : s.setQueue d { tqd with usage := tqd.usage } = s := setQueue_self hd
      rw [hself]

theorem nhandle_renamed (k : Key) (nhandle : Nat) (newPlayer : Objid) :
    (k.renamed nhandle newPlayer).nhandle = k.nhandle := by
  unfold Key.renamed
  split <;> rfl

theorem keys_closed {hs' : List Shandle} {nhandle n : Nat}
    (hkeys : hs'.map Shandle.key = s.keys.map (Key.renamed nhandle newPlayer)) :
    (hs'.filter fun h => h.nhandle ≠ n).map Shandle.key =
      (s.keys.filter fun k => k.nhandle ≠ n).map (Key.renamed nhandle newPlayer) := by
  have hleft : (hs'.filter fun h => h.nhandle ≠ n).map Shandle.key =
      (hs'.map Shandle.key).filter fun k => k.nhandle ≠ n := by
    rw [List.filter_map]
    rfl
  rw [hleft, hkeys, List.filter_map]
  refine congrArg (List.map _) (List.filter_congr fun k _ => ?_)
  simp [nhandle_renamed]

theorem playerConnected_meets (hc : Coherent s) (hq : s.queues q = some tq) (hh : h ∈ s.shandles)
    (ht : h.tasks = q) (hp : h.player = tq.player) (hold : tq.player < 0) (hnew : 0 ≤ newPlayer)
    (hcur : ∃ c, s.current = some c ∧ c.queue = q ∧ c.login = false) {dead : Option (Nat × Tqueue)}
    (hdead : Dead s newPlayer dead) (hbare : bare → tq.numBgTasks ≠ 0 → tq.bg.cells = [])
    (hn : counted → dead.isSome → ∀ t ∈ s.waiting, t.progr ≠ nothing) (flushCmd : Option Str)
    (hkeys : hs.map Shandle.key = s.shandles.map Shandle.key) (now : Int) :
    Meets Missing (Changes bare counted s) (Server.playerConnected tq.player newPlayer now
      { leaving flushCmd tq ((s.retiring dead).setQueue q (heir tq newPlayer dead)) with shandles := hs }) := by
  obtain ⟨h', _, hf, hk⟩ := findShandle_renamed hc.agreed hh hkeys
  have hnh : h'.nhandle = h.nhandle := congrArg Key.nhandle hk
  have hmod := keys_modified hkeys h.nhandle newPlayer now
  rw [hp] at hf
  unfold playerConnected findShandle
  dsimp only
  rw [hf]
  cases hex : hs.find? (fun h => h.player = newPlayer) with
  | none =>
      have hdisc : ∀ d, dead = some d → d.2.connected = false := by
        rintro ⟨d, tqd'⟩ rfl
        obtain ⟨tqd, hd, hpd, hcore, _⟩ := hdead
        simp only [Tqueue.core, Prod.mk.injEq] at hcore
        by_contra hconn
        have hconn : tqd.connected = true := hcore.2.1 ▸ Bool.not_eq_false _ ▸ hconn
        obtain ⟨e, he, _, hep⟩ := hc.agreed.exists_shandle hd hconn
        obtain ⟨e', _, hfe, _⟩ := findShandle_renamed hc.agreed he hkeys
        rw [hep, hpd, hex] at hfe
        cases hfe
      have hlogged := hc.loggedIn hq hh ht hold hnew hcur hdead hdisc hbare hn flushCmd hmod
      rw [← hnh] at hlogged
      exact hlogged
  | some e =>
      have hep : e.player = newPlayer := by simpa using List.find?_some hex
      have hmem : e.key ∈ s.shandles.map Shandle.key :=
        hkeys ▸ List.mem_map_of_mem (List.mem_of_find?_eq_some hex)
      obtain ⟨e₀, he₀, hke⟩ := List.mem_map.mp hmem
      obtain ⟨tqe, hqe, hpe, _⟩ := hc.agreed.exists_queue he₀
      have hpe : tqe.player = newPlayer := hpe.trans ((congrArg Key.player hke).trans hep)
      cases dead with
      | none => exact absurd hpe (hdead e₀.tasks tqe hqe)
      | some found =>
          obtain ⟨d, tqd'⟩ := found
          obtain ⟨tqd, hd, hpd, hcore, hw⟩ := hdead
          have hne : newPlayer ≠ nothing := by
            unfold nothing
            lia
          have het : e₀.tasks = d :=
            hc.agreed.single _ _ _ _ _ (hpe ▸ face_of hqe) (hpd ▸ face_of hd) hne
          have hdq : d ≠ q := by
            rintro rfl
            rw [hq] at hd
            cases hd
            lia
          have hnhe : e₀.nhandle ≠ h.nhandle := by
            intro heq
            obtain rfl := hc.agreed.shandle_eq he₀ hh heq
            rw [het] at ht
            exact hdq ht
          have hee : e.nhandle = e₀.nhandle := (congrArg Key.nhandle hke).symm
          have htasks : e.tasks = d := (congrArg Key.tasks hke).symm.trans het
          rw [← hnh] at hmod
          refine (freeShandle_overtaken bare counted hc.wired hq hd hdq hcore htasks).mono fun s' hs' => ?_
          obtain ⟨usage, idle, active, hch, ha, rfl⟩ := hs'
          refine hc.closed hq hh ht hold hnew hcur hd hpd hcore hw he₀ het hnhe hch ha hbare
            (fun hco => hn hco rfl) flushCmd ?_
          rw [← hee, ← hnh]
          exact keys_closed hmod

theorem isUser_nonneg {oid : Objid} (h : db.isUser oid = true) : 0 ≤ oid := by
  by_contra hneg
  have hfind : db.find oid = none := by
    unfold Db.find
    exact if_pos (.inl (Int.not_le.mp hneg))
  unfold Db.isUser Db.hasFlag at h
  rw [hfind] at h
  contradiction

/-- The background tasks of the connection are dealt with first, then those of the queue that the
player had, then the connection. -/
theorem doLoginTask_eq (hq : s.queues q = some tq) (huser : (tq.connected && db.isUser newPlayer) = true)
    (now : Int) : doLoginTask db newPlayer now q s = (do
      let s₁ ← (if tq.numBgTasks ≠ 0 then do
          let (oldTq, s) ← (s.setQueue q { tq with player := newPlayer }).findOrNewTqueue db tq.player
          let s ← s.modifyQueue (fun old => { old with numBgTasks := tq.numBgTasks }) oldTq
          let s ← s.moveBgTasks q oldTq
          s.modifyQueue (fun tq => { tq with numBgTasks := 0 }) q
        else .ok (s.setQueue q { tq with player := newPlayer }) : Outcome Server)
      let s₂ ← (match s.findTqueue newPlayer with
        | none => .ok s₁
        | some dead => do
          let numBgTasks := (← s₁.queue dead).numBgTasks
          let s ← s₁.modifyQueue (fun tq => { tq with numBgTasks }) q
          let s ← s.moveAnyTasks dead q
          s.modifyQueue (fun tq => { tq with player := nothing, numBgTasks := 0 }) dead : Outcome Server)
      s₂.playerConnected tq.player newPlayer now) := by
  unfold doLoginTask
  rw [queue_eq_ok hq]
  change (if _ then _ else _) = _
  rw [if_pos huser]
  cases s.findTqueue newPlayer <;> split <;> simp only [bind_assoc]

theorem doLoginTask_meets (hc : Coherent s) (db : Db) (hq : s.queues q = some tq) (hold : tq.player < 0)
    (hcur : ∃ c, s.current = some c ∧ c.queue = q ∧ c.login = false)
    (hok : (tq.connected && db.isUser newPlayer) = true → (bare → tq.numBgTasks ≠ 0 → tq.bg.cells = []) ∧
      (counted → (s.findTqueue newPlayer).isSome → ∀ t ∈ s.waiting, t.progr ≠ nothing)) (now : Int) :
    Meets Missing (Changes bare counted s) (doLoginTask db newPlayer now q s) := by
  by_cases hif : (tq.connected && db.isUser newPlayer) = true
  · obtain ⟨hbare, hn⟩ := hok hif
    rw [doLoginTask_eq hq hif]
    rw [Bool.and_eq_true] at hif
    obtain ⟨hconn, huser⟩ := hif
    have hnew := isUser_nonneg huser
    obtain ⟨h, hh, ht, hp⟩ := hc.agreed.exists_shandle hq hconn
    have hne : tq.player ≠ newPlayer := by lia
    have hl : Lacks (s.setQueue q { tq with player := newPlayer }) tq.player := by
      intro x tqx hx hpx
      rw [queues_setQueue] at hx
      split at hx
      · cases hx
        exact hne hpx.symm
      · next hxq =>
          have hpn := (hc.agreed.unused _ (List.mem_map_of_mem hh)).2.1
          have hpn : tq.player ≠ nothing := hp ▸ hpn
          exact hxq (hc.agreed.single x q tq.player _ _ (hpx ▸ face_of hx) (face_of hq) hpn)
    refine (leaving_meets db hc.wired hq hl).bind fun s₁ hs₁ => ?_
    obtain ⟨flushCmd, rfl⟩ := hs₁
    refine (retiring_meets hc hq hne flushCmd).bind fun s₂ hs₂ => ?_
    obtain ⟨dead, hs, hdead, hkeys, hfound, rfl⟩ := hs₂
    have hsome : dead.isSome → (s.findTqueue newPlayer).isSome := by
      rw [← hfound, Option.isSome_map]
      exact id
    exact playerConnected_meets hc hq hh ht hp hold hnew hcur hdead hbare
      (fun hco hd => hn hco (hsome hd)) flushCmd hkeys now
  · unfold doLoginTask
    rw [queue_eq_ok hq]
    change Meets _ _ (if _ then _ else _)
    rw [if_neg hif]
    exact .refl

end Server
end LambdaMoo
