import LambdaMoo.Agreement
import LambdaMoo.QueueWiring

/-! Every change keeps connections and task queues in agreement. -/
namespace LambdaMoo

namespace Server

variable {s s' : Server} {q x : Nat} {tq tq' : Tqueue} {player : Objid} {bare counted : Prop}
  {h h' : Shandle}

def face (s : Server) (q : Nat) : Option (Objid × Bool) :=
  (s.queues q).map fun tq => (tq.player, tq.connected)

def keys (s : Server) : List Key := s.shandles.map Shandle.key

def Agreed (s : Server) : Prop := Agreement s.face s.keys s.nextHandle s.nextUnconnectedPlayer

theorem agreed_start : Agreed start :=
  ⟨.nil, nofun, nofun, nofun, nofun, nofun, by decide⟩

theorem face_eq_some {p : Objid × Bool} :
    s.face q = some p ↔ ∃ tq, s.queues q = some tq ∧ (tq.player, tq.connected) = p :=
  Option.map_eq_some_iff

theorem face_of (hq : s.queues q = some tq) : s.face q = some (tq.player, tq.connected) :=
  face_eq_some.mpr ⟨tq, hq, rfl⟩

theorem face_update {r : Option Tqueue} (hs : s'.queues = Function.update s.queues q r) :
    s'.face = Function.update s.face q (r.map fun tq => (tq.player, tq.connected)) := by
  funext x
  unfold face
  rw [hs, Function.update_apply, Function.update_apply]
  split <;> rfl

theorem face_write (hq : s.queues q = some tq) (hs : s'.queues = Function.update s.queues q (some tq'))
    (hp : tq'.player = tq.player) (hc : tq'.connected = tq.connected) : s'.face = s.face := by
  rw [face_update hs, Option.map_some, hp, hc, ← face_of hq, Function.update_eq_self]

theorem lacks_iff : s.Lacks player ↔ ∀ x c, s.face x ≠ some (player, c) := by
  constructor
  · intro h x c hx
    obtain ⟨tq, hq, he⟩ := face_eq_some.mp hx
    exact h x tq hq (Prod.mk.inj he).1
  · intro h x tq hq he
    exact h x tq.connected (he ▸ face_of hq)

namespace Agreed

theorem congr (h : Agreed s) (hf : s'.face = s.face) (hk : s'.keys = s.keys)
    (hn : s'.nextHandle = s.nextHandle)
    (hp : s'.nextUnconnectedPlayer = s.nextUnconnectedPlayer) : Agreed s' := by
  unfold Agreed
  rw [hf, hk, hn, hp]
  exact h

theorem exists_queue (ha : Agreed s) (hh : h ∈ s.shandles) :
    ∃ tq, s.queues h.tasks = some tq ∧ tq.player = h.player ∧ tq.connected = true := by
  obtain ⟨tq, hq, he⟩ := face_eq_some.mp (ha.belongs h.key (List.mem_map_of_mem hh))
  exact ⟨tq, hq, Prod.mk.inj he⟩

theorem exists_shandle (ha : Agreed s) (hq : s.queues q = some tq) (hc : tq.connected = true) :
    ∃ h ∈ s.shandles, h.tasks = q ∧ h.player = tq.player := by
  obtain ⟨k, hk, hkq⟩ := ha.connected q tq.player (hc ▸ face_of hq)
  obtain ⟨h, hh, rfl⟩ := List.mem_map.mp hk
  obtain ⟨tq₁, hq₁, hp, _⟩ := ha.exists_queue hh
  rw [show h.tasks = q from hkq, hq] at hq₁
  cases hq₁
  exact ⟨h, hh, hkq, hp.symm⟩

theorem shandle_eq (ha : Agreed s) (hh : h ∈ s.shandles) (hh' : h' ∈ s.shandles)
    (he : h.nhandle = h'.nhandle) : h = h' := by
  have hn := ha.handles
  rw [keys, List.map_map] at hn
  exact List.inj_on_of_nodup_map hn hh hh' he

theorem shandle_eq_of_player (ha : Agreed s) (hh : h ∈ s.shandles) (hh' : h' ∈ s.shandles)
    (he : h.player = h'.player) : h = h' := by
  have hk := ha.players h.key (List.mem_map_of_mem hh) h'.key (List.mem_map_of_mem hh') he
  exact ha.shandle_eq hh hh' (congrArg Key.nhandle hk)

theorem created (h : Agreed s) (hnone : s.queues s.nextQueue = none) (flushCmd : Option Str)
    (hl : s.Lacks player) : Agreed (created player flushCmd s) := by
  have hnone : s.face s.nextQueue = none := by rw [face, hnone, Option.map_none]
  have hc := Agreement.created h hnone (lacks_iff.mp hl)
  unfold Agreed
  rw [face_update (q := s.nextQueue) rfl]
  exact hc

theorem connect (ha : Agreed s) (hq : s.queues q = some tq) (hp : tq.player = s.nextUnconnectedPlayer)
    (hn : h.nhandle = s.nextHandle) (hh : h.player = tq.player) (ht : h.tasks = q) :
    Agreed { s.setQueue q { tq with connected := true } with
      shandles := h :: s.shandles, nextHandle := s.nextHandle + 1
      nextUnconnectedPlayer := s.nextUnconnectedPlayer - 1 } := by
  have hc := Agreement.connect ha (hp ▸ face_of hq)
  have hkey : h.key = ⟨s.nextHandle, s.nextUnconnectedPlayer, q⟩ := by
    rw [Shandle.key, hn, hh, hp, ht]
  unfold Agreed
  rw [face_update (q := q) rfl, Option.map_some, hp, keys, List.map_cons, hkey]
  exact hc

theorem disconnect (ha : Agreed s) (hh : h ∈ s.shandles) (hq : s.queues h.tasks = some tq) :
    Agreed { s.setQueue h.tasks { tq with connected := false } with
      shandles := s.shandles.filter fun h' => h'.nhandle ≠ h.nhandle } := by
  have hk : h.key ∈ s.keys := List.mem_map_of_mem hh
  have hc := Agreement.disconnect ha hk
  have hp := (ha.player_eq hk (face_of hq)).1
  unfold Agreed
  rw [face_update (q := h.tasks) rfl, Option.map_some, hp, keys]
  rw [keys, List.filter_map] at hc
  exact hc

theorem freed (h : Agreed s) (hq : s.queues q = some tq) (hc : tq.connected = false) :
    Agreed (s.freeTqueue q) := by
  have hf := Agreement.freed h (hc ▸ face_of hq)
  unfold Agreed
  rw [face_update (q := q) rfl]
  exact hf

theorem retiring (h : Agreed s) {d : Nat} {tqd : Tqueue} (hd : s.queues d = some tqd)
    (hc : tqd.connected = false) : Agreed (s.retiring (some (d, tqd))) := by
  have hr := Agreement.retired h (hc ▸ face_of hd)
  unfold Agreed
  rw [face_update (q := d) rfl, Option.map_some, hc]
  exact hr

theorem keys_renamed (nhandle : Nat) :
    (renamed nhandle player s.shandles).map Shandle.key = s.keys.map (Key.renamed nhandle player) := by
  rw [renamed, keys, List.map_map, List.map_map]
  refine List.map_congr_left fun h _ => ?_
  by_cases he : h.nhandle = nhandle <;> simp [Key.renamed, Shandle.key, he]

theorem heir (ha : Agreed s) (hh : h ∈ s.shandles) (hq : s.queues h.tasks = some tq)
    (hnew : 0 ≤ player) (hl : s.Lacks player) (dead : Option (Nat × Tqueue)) :
    Agreed { s.setQueue h.tasks (heir tq player dead) with
      shandles := renamed h.nhandle player s.shandles } := by
  have hk : h.key ∈ s.keys := List.mem_map_of_mem hh
  have hc := Agreement.renamed ha hk hnew (lacks_iff.mp hl)
  have hconn := (ha.player_eq hk (face_of hq)).2
  unfold Agreed
  rw [face_update (q := h.tasks) rfl, Option.map_some]
  change Agreement (Function.update s.face h.tasks (some (player, tq.connected))) _ _ _
  rw [hconn, keys, keys_renamed]
  exact hc

theorem leaving (h : Agreed s) (hnone : s.queues s.nextQueue = none) (flushCmd : Option Str)
    (hl : s.Lacks tq.player) : Agreed (leaving flushCmd tq s) := by
  unfold Server.leaving
  split
  · exact h
  · have hc := h.created hnone flushCmd hl
    exact hc.congr (face_write (Function.update_self ..) rfl rfl rfl) rfl rfl rfl

theorem login (ha : Agreed s) (hw : Wired s) {dead : Option (Nat × Tqueue)} (flushCmd : Option Str)
    (hh : h ∈ s.shandles) (hq : s.queues h.tasks = some tq) (hold : tq.player < 0) (hnew : 0 ≤ player)
    (hl : dead = none → s.Lacks player)
    (hd : ∀ d tqd, dead = some (d, tqd) → s.queues d = some tqd ∧ tqd.player = player ∧
      tqd.connected = false) :
    Agreed { Server.leaving flushCmd tq ((s.retiring dead).setQueue h.tasks (Server.heir tq player dead)) with
      shandles := Server.renamed h.nhandle player s.shandles } := by
  -- without the queue that the player had before
  have hretired : Agreed (s.retiring dead) ∧ (s.retiring dead).queues h.tasks = some tq ∧
      (s.retiring dead).Lacks player ∧ (s.retiring dead).shandles = s.shandles ∧
      (s.retiring dead).nextQueue = s.nextQueue ∧ (s.retiring dead).queues s.nextQueue = none := by
    match dead with
    | none => exact ⟨ha, hq, hl rfl, rfl, rfl, hw.fresh_none⟩
    | some (d, tqd) =>
        obtain ⟨hdq, hdp, hdc⟩ := hd d tqd rfl
        have hne : h.tasks ≠ d := by
          rintro heq
          rw [heq, hdq] at hq
          cases hq
          lia
        have hfresh : s.nextQueue ≠ d := Nat.ne_of_gt (hw.fresh d tqd hdq)
        refine ⟨ha.retiring hdq hdc, ?_, fun x tqx hx hp => ?_, rfl, rfl, ?_⟩
        · rw [Server.retiring, queues_setQueue, if_neg hne, hq]
        · rw [Server.retiring, queues_setQueue] at hx
          split at hx
          · cases hx
            change nothing = player at hp
            unfold nothing at hp
            lia
          · next hxd =>
              have hpn : player ≠ nothing := by
                unfold nothing
                lia
              exact hxd (ha.single x d player _ _ (hp ▸ face_of hx) (hdp ▸ face_of hdq) hpn)
        · rw [Server.retiring, queues_setQueue, if_neg hfresh, hw.fresh_none]
  obtain ⟨ha₁, hq₁, hl₁, hs₁, hn₁, hnone₁⟩ := hretired
  have ha₂ := ha₁.heir (hs₁ ▸ hh) hq₁ hnew hl₁ dead
  -- the player that the connection had has no queue any more
  have hl₂ : Lacks { (s.retiring dead).setQueue h.tasks (Server.heir tq player dead) with
      shandles := Server.renamed h.nhandle player (s.retiring dead).shandles } tq.player := by
    intro x tqx hx hp
    have hx : ((s.retiring dead).setQueue h.tasks (Server.heir tq player dead)).queues x = some tqx := hx
    rw [queues_setQueue] at hx
    split at hx
    · cases hx
      change player = tq.player at hp
      lia
    · next hne =>
        have hk := (ha.player_eq (List.mem_map_of_mem hh) (face_of hq)).1
        have hpn := (ha.unused _ (List.mem_map_of_mem hh)).2.1
        exact hne (ha₁.single x h.tasks tq.player _ _ (hp ▸ face_of hx) (face_of hq₁) (hk ▸ hpn))
  have hne : s.nextQueue ≠ h.tasks := Nat.ne_of_gt (hw.fresh _ _ hq)
  have hlast : Agreed (Server.leaving flushCmd tq _) := ha₂.leaving (by
    change ((s.retiring dead).setQueue h.tasks (Server.heir tq player dead)).queues
      (s.retiring dead).nextQueue = none
    rw [hn₁, queues_setQueue, if_neg hne, hnone₁]) flushCmd hl₂
  rw [hs₁] at hlast
  unfold Server.leaving at hlast ⊢
  by_cases hn : tq.numBgTasks = 0
  · rw [if_pos hn] at hlast ⊢
    exact hlast
  · rw [if_neg hn] at hlast ⊢
    exact hlast

theorem change (hw : Wired s) (hc : Change bare counted s s') (h : Agreed s) : Agreed s' := by
  cases hc with
  | edit hq hcore _ =>
      simp only [Tqueue.core, Prod.mk.injEq] at hcore
      exact h.congr (face_write hq rfl hcore.1 hcore.2.1) rfl rfl rfl
  | note _ _ _ hkeys _ => exact h.congr rfl hkeys rfl rfl
  | create flushCmd hl => exact h.created hw.fresh_none flushCmd hl
  | activate hq _ => exact h.congr (face_write hq rfl rfl rfl) rfl rfl rfl
  | wait hq _ _ _ => exact h.congr (face_write hq rfl rfl rfl) rfl rfl rfl
  | arrive hq _ _ _ => exact h.congr (face_write hq rfl rfl rfl) rfl rfl rfl
  | wake hq _ _ _ _ => exact h.congr (face_write hq rfl rfl rfl) rfl rfl rfl
  | killWaiting hq _ _ => exact h.congr (face_write hq rfl rfl rfl) rfl rfl rfl
  | killStray _ _ => exact h.congr rfl rfl rfl rfl
  | endBg _ hq _ _ _ => exact h.congr (face_write hq rfl rfl rfl) rfl rfl rfl
  | renew _ hq _ _ => exact h.congr (face_write hq rfl rfl rfl) rfl rfl rfl
  | startReading _ hq _ _ _ => exact h.congr (face_write hq rfl rfl rfl) rfl rfl rfl
  | stopReading _ hq _ => exact h.congr (face_write hq rfl rfl rfl) rfl rfl rfl
  | connect _ hq hp hn hh ht => exact h.connect hq hp hn hh ht
  | disconnect _ hh hq _ => exact h.disconnect hh hq
  | deactivate _ hq _ _ _ _ => exact h.congr (face_write hq rfl rfl rfl) rfl rfl rfl
  | free hq _ hc _ => exact h.freed hq hc
  | done _ _ hq _ _ => exact h.congr (face_write hq rfl rfl rfl) rfl rfl rfl
  | login _ _ _ flushCmd hq hh ht hold hnew _ hl hd _ _ =>
      subst ht
      exact h.login hw flushCmd hh hq hold hnew hl hd

end Agreed
end Server
end LambdaMoo
