import LambdaMoo.QueueRuns

/-! Where the tasks are, and how often. Every change of the queues keeps the balance. -/
namespace LambdaMoo

/-- Where a task can be until it is run or killed. -/
inductive Place
  | waiting
  | background (q : Nat)
  | reading (q : Nat)

namespace Tqueue

def bgTags (tq : Tqueue) : List Nat := tq.bg.cells.map BgTask.tag

def readingTags (tq : Tqueue) : List Nat := tq.reading.toList.map Vm.tag

def held (tq : Tqueue) : List Nat := tq.bgTags ++ tq.readingTags

end Tqueue

namespace Server

variable {s s' : Server} {q x tag : Nat} {tq tq' : Tqueue} {t : BgTask} {counted : Prop}

def tasksAt (s : Server) : Place → List Nat
  | .waiting => s.waiting.map BgTask.tag
  | .background q => (s.queues q).elim [] Tqueue.bgTags
  | .reading q => (s.queues q).elim [] Tqueue.readingTags

def heldBy (s : Server) (q : Nat) : List Nat := (s.queues q).elim [] Tqueue.held

def carried (s : Server) (tag : Nat) : Nat := ((s.idle ++ s.active).flatMap s.heldBy).count tag

/-- How often a task is anywhere, the tasks that were run or killed included. -/
def census (s : Server) (tag : Nat) : Nat :=
  (s.waiting.map BgTask.tag).count tag + s.carried tag + s.ended.count tag

def born (nextTag tag : Nat) : Nat := if tag < nextTag then 1 else 0

/-- Idle queues have no background tasks, and each task that there ever was is counted once. -/
structure Balanced (s : Server) : Prop where
  bare : ∀ q ∈ s.idle, ∀ tq, s.queues q = some tq → tq.bg.cells = []
  once : ∀ tag, s.census tag = born s.nextTag tag

theorem heldBy_eq (hq : s.queues q = some tq) : s.heldBy q = tq.held := by
  unfold heldBy
  rw [hq]
  rfl

theorem heldBy_congr (h : s'.queues x = s.queues x) : s'.heldBy x = s.heldBy x := by
  unfold heldBy
  rw [h]

/-! What a change does to the tasks that are with queues. -/

theorem carried_write (hw : Wired s) (hq : s.queues q = some tq)
    (hqueues : s'.queues = (s.setQueue q tq').queues)
    (hperm : (s'.idle ++ s'.active).Perm (s.idle ++ s.active)) (tag : Nat) :
    s'.carried tag + tq.held.count tag = s.carried tag + tq'.held.count tag := by
  have hmem : q ∈ s.idle ++ s.active := (hw.listed q).mpr (by simp [hq])
  have hcons := List.perm_cons_erase hmem
  have hself : s'.heldBy q = tq'.held := heldBy_eq (by rw [hqueues, queues_setQueue, if_pos rfl])
  have hrest : ((s.idle ++ s.active).erase q).flatMap s'.heldBy =
      ((s.idle ++ s.active).erase q).flatMap s.heldBy := by
    refine List.flatMap_congr fun x hx => ?_
    have hne : x ≠ q := (hw.nodup.mem_erase_iff.mp hx).1
    exact heldBy_congr (by rw [hqueues, queues_setQueue, if_neg hne])
  have hafter := ((hperm.trans hcons).flatMap_right s'.heldBy).count_eq tag
  have hbefore := (hcons.flatMap_right s.heldBy).count_eq tag
  rw [List.flatMap_cons, List.count_append, hself, hrest] at hafter
  rw [List.flatMap_cons, List.count_append, heldBy_eq hq] at hbefore
  unfold carried
  omega

theorem carried_created (hw : Wired s) (player : Objid) (flushCmd : Option Str) (tag : Nat) :
    (created player flushCmd s).carried tag = s.carried tag := by
  have hnew : (created player flushCmd s).queues s.nextQueue = some (newTqueue player flushCmd) :=
    Function.update_self ..
  have hself : (created player flushCmd s).heldBy s.nextQueue = [] := heldBy_eq hnew
  have hrest : (s.idle ++ s.active).flatMap (created player flushCmd s).heldBy =
      (s.idle ++ s.active).flatMap s.heldBy := by
    refine List.flatMap_congr fun x hx => ?_
    have hne : x ≠ s.nextQueue := by
      rintro rfl
      have hsome := (hw.listed s.nextQueue).mp hx
      rw [hw.fresh_none] at hsome
      contradiction
    exact heldBy_congr (Function.update_of_ne hne ..)
  unfold carried
  change (List.flatMap _ (s.nextQueue :: (s.idle ++ s.active))).count tag = _
  rw [List.flatMap_cons, hself, hrest, List.nil_append]

theorem carried_freed (hw : Wired s) (hi : q ∈ s.idle) (hnone : s.heldBy q = []) (tag : Nat) :
    (s.freeTqueue q).carried tag = s.carried tag := by
  have herase : (s.freeTqueue q).idle ++ (s.freeTqueue q).active = (s.idle ++ s.active).erase q :=
    (List.erase_append_left _ hi).symm
  have hcons := List.perm_cons_erase (List.mem_append_left s.active hi)
  have hrest : ((s.idle ++ s.active).erase q).flatMap (s.freeTqueue q).heldBy =
      ((s.idle ++ s.active).erase q).flatMap s.heldBy := by
    refine List.flatMap_congr fun x hx => ?_
    have hne : x ≠ q := (hw.nodup.mem_erase_iff.mp hx).1
    exact heldBy_congr (Function.update_of_ne hne ..)
  have hbefore := (hcons.flatMap_right s.heldBy).count_eq tag
  rw [List.flatMap_cons, hnone, List.nil_append] at hbefore
  unfold carried
  rw [herase, hrest, hbefore]

/-! Every change keeps the balance, where a login leaves no background task behind. -/

def loose (s : Server) (tag : Nat) : Nat :=
  (s.waiting.map BgTask.tag).count tag + s.ended.count tag

theorem count_tags (tag : Nat) (t : BgTask) (l : List BgTask) : ((t :: l).map BgTask.tag).count tag =
    (l.map BgTask.tag).count tag + if t.tag = tag then 1 else 0 := by
  rw [List.map_cons, List.count_cons]
  simp

theorem count_insertWaiting (tag : Nat) (t : BgTask) (l : List BgTask) :
    ((insertWaiting t l).map BgTask.tag).count tag =
      (l.map BgTask.tag).count tag + if t.tag = tag then 1 else 0 := by
  rw [← count_tags, ((insertWaiting_perm t l).map BgTask.tag).count_eq]

theorem count_eraseIdx {i : Nat} {l : List BgTask} (h : l[i]? = some t) (tag : Nat) :
    (l.map BgTask.tag).count tag =
      ((l.eraseIdx i).map BgTask.tag).count tag + if t.tag = tag then 1 else 0 := by
  obtain ⟨hi, rfl⟩ := List.getElem?_eq_some_iff.mp h
  rw [← count_tags, ← ((List.getElem_cons_eraseIdx_perm hi).map BgTask.tag).count_eq]

theorem count_enqueue {bg : TailList BgTask} (hb : bg.Tailed) (tag : Nat) (t : BgTask) :
    ((bg.enqueue t).cells.map BgTask.tag).count tag =
      (bg.cells.map BgTask.tag).count tag + if t.tag = tag then 1 else 0 := by
  rw [TailList.cells_enqueue hb, ← count_tags]
  exact (List.perm_append_comm.map BgTask.tag).count_eq tag

theorem born_succ (n tag : Nat) : born (n + 1) tag = born n tag + if n = tag then 1 else 0 := by
  unfold born
  split_ifs <;> omega

namespace Balanced

theorem idle_bare (h : Balanced s) (hq : s.queues q = some tq) (hi : q ∈ s.idle) : tq.bg.cells = [] :=
  h.bare q hi tq hq

theorem write (h : Balanced s) (hw : Wired s) (hq : s.queues q = some tq)
    (hqueues : s'.queues = (s.setQueue q tq').queues)
    (hperm : (s'.idle ++ s'.active).Perm (s.idle ++ s.active))
    (hidle : ∀ x ∈ s'.idle, x ≠ q → x ∈ s.idle) (hbare : q ∈ s'.idle → tq'.bg.cells = [])
    (hcount : ∀ tag, s'.loose tag + tq'.held.count tag + born s.nextTag tag =
      s.loose tag + tq.held.count tag + born s'.nextTag tag) : Balanced s' where
  bare x hx tqx hqx := by
    rw [hqueues, queues_setQueue] at hqx
    split at hqx
    · next heq =>
        cases hqx
        exact hbare (heq ▸ hx)
    · next hne => exact h.bare x (hidle x hx hne) tqx hqx
  once tag := by
    have hcarried := carried_write hw hq hqueues hperm tag
    have honce := h.once tag
    have hcount := hcount tag
    unfold census at honce ⊢
    unfold loose at hcount
    omega

theorem free (h : Balanced s) (hw : Wired s) (hq : s.queues q = some tq) (hi : q ∈ s.idle)
    (hc : tq.connected = false) : Balanced (s.freeTqueue q) where
  bare x hx tqx hqx := by
    change Function.update s.queues q none x = some tqx at hqx
    rw [Function.update_apply] at hqx
    split at hqx
    · contradiction
    · exact h.bare x (List.mem_of_mem_erase hx) tqx hqx
  once tag := by
    have hbg := h.bare q hi tq hq
    have hread : tq.reading = none := by
      by_contra hsome
      obtain hconn | hact := hw.reading q tq hq (Option.isSome_iff_ne_none.mpr hsome)
      · rw [hc] at hconn
        contradiction
      · exact hw.not_active_of_idle hi hact
    have hnone : s.heldBy q = [] := by
      rw [heldBy_eq hq]
      simp [Tqueue.held, Tqueue.bgTags, Tqueue.readingTags, hbg, hread]
    rw [census, carried_freed hw hi hnone]
    exact h.once tag

theorem create (h : Balanced s) (hw : Wired s) (player : Objid) (flushCmd : Option Str) :
    Balanced (created player flushCmd s) where
  bare x hx tqx hqx := by
    change Function.update s.queues s.nextQueue _ x = some tqx at hqx
    rw [Function.update_apply] at hqx
    split at hqx
    · cases hqx
      rfl
    · next hne => exact h.bare x ((List.mem_cons.mp hx).resolve_left hne) tqx hqx
  once tag := by
    rw [census, carried_created hw]
    exact h.once tag

theorem leaving (h : Balanced s) (hw : Wired s) (flushCmd : Option Str)
    (hbare : tq.numBgTasks ≠ 0 → tq.bg.cells = []) : Balanced (leaving flushCmd tq s) := by
  unfold Server.leaving
  split
  · exact h
  · next hn =>
      have hcells := hbare hn
      have hself : (Server.created tq.player flushCmd s).queues s.nextQueue =
          some (newTqueue tq.player flushCmd) := Function.update_self ..
      apply (h.create hw tq.player flushCmd).write (hw.created tq.player flushCmd) hself
      case hqueues => rfl
      case hperm => rfl
      case hidle => exact fun x hx _ => hx
      case hbare => exact fun _ => hcells
      case hcount =>
        intro tag
        simp [Tqueue.held, Tqueue.bgTags, Tqueue.readingTags, newTqueue, hcells]
        rfl

theorem login (h : Balanced s) (hw : Wired s) {newPlayer : Objid} {dead : Option (Nat × Tqueue)}
    (flushCmd : Option Str) (hq : s.queues q = some tq) (hact : q ∈ s.active) (hold : tq.player < 0)
    (hnew : 0 ≤ newPlayer) (hcur : ∀ c, s.current = some c → c.login = false)
    (hd : ∀ d tqd, dead = some (d, tqd) → s.queues d = some tqd ∧ tqd.player = newPlayer)
    (hbare : tq.numBgTasks ≠ 0 → tq.bg.cells = []) :
    Balanced (Server.leaving flushCmd tq ((s.retiring dead).setQueue q (heir tq newPlayer dead))) := by
  have hkept : kept tq = tq.bg.cells := by
    unfold kept
    split
    · rfl
    · next hn => exact (hbare hn).symm
  have hidle : q ∉ s.idle := fun hi => hw.not_active_of_idle hi hact
  have hheir : ∀ tag, (heir tq newPlayer dead).held.count tag =
      tq.held.count tag + ((taken dead).map BgTask.tag).count tag := by
    intro tag
    simp only [Tqueue.held, Tqueue.bgTags, Tqueue.readingTags, heir, hkept, List.map_append, List.count_append]
    omega
  match dead with
  | none =>
      have hw' : Wired (s.setQueue q (heir tq newPlayer none)) := hw.setQueue hq rfl
        (fun hwf => ⟨hwf.input, rfl, hwf.lengths, hwf.total⟩) (hw.reading q tq hq) fun c hc hl => by
          rw [hcur c hc] at hl
          contradiction
      refine (h.write hw hq rfl .rfl (fun x hx _ => hx) (fun hi => absurd hi hidle) fun tag => ?_).leaving hw'
        flushCmd hbare
      rw [hheir]
      rfl
  | some (d, tqd) =>
      obtain ⟨hdq, hplayer⟩ := hd d tqd rfl
      have hlogin : ∀ {p : Prop} c, s.current = some c → c.login = true → p := fun c hc hl => by
        simp [hcur c hc] at hl
      have hw₁ : Wired (s.retiring (some (d, tqd))) :=
        hw.setQueue hdq rfl (fun hwf => ⟨hwf.input, rfl, hwf.lengths, hwf.total⟩) (hw.reading d tqd hdq) hlogin
      have hq₁ := queues_retiring hq (fun heq => absurd hold (by lia)) hd
      have hw₂ : Wired ((s.retiring (some (d, tqd))).setQueue q (heir tq newPlayer (some (d, tqd)))) :=
        hw₁.setQueue hq₁ rfl (fun hwf => ⟨hwf.input, rfl, hwf.lengths, hwf.total⟩) (hw.reading q tq hq) hlogin
      refine Balanced.leaving ⟨fun x hx tqx hqx => ?_, fun tag => ?_⟩ hw₂ flushCmd hbare
      · have hxq : x ≠ q := fun heq => hidle (heq ▸ hx)
        rw [queues_setQueue, if_neg hxq, retiring, queues_setQueue] at hqx
        split at hqx
        · cases hqx
          rfl
        · exact h.bare x hx tqx hqx
      · have honce := h.once tag
        have hfirst : (s.retiring (some (d, tqd))).carried tag + _ = _ := carried_write hw hdq rfl .rfl tag
        have hthen : ((s.retiring (some (d, tqd))).setQueue q (heir tq newPlayer (some (d, tqd)))).carried tag +
          _ = _ := carried_write hw₁ hq₁ rfl .rfl tag
        rw [hheir] at hthen
        simp only [Tqueue.held, Tqueue.bgTags, Tqueue.readingTags, taken, List.count_append, Option.elim_some,
          TailList.cells_empty, List.map_nil, List.count_nil] at hfirst hthen
        rw [census] at honce ⊢
        change (s.waiting.map BgTask.tag).count tag + _ + s.ended.count tag = born s.nextTag tag
        omega

theorem change (hw : Wired s) (hc : Change True counted s s') (h : Balanced s) : Balanced s' := by
  cases hc with
  | edit hq hcore _ =>
      have hbare := h.idle_bare hq
      simp only [Tqueue.core, Prod.mk.injEq] at hcore
      obtain ⟨-, -, hbg, -, -, hread⟩ := hcore
      refine h.write hw hq rfl .rfl (fun x hx _ => hx) (fun hi => hbg ▸ hbare hi) fun tag => ?_
      simp only [Tqueue.held, Tqueue.bgTags, Tqueue.readingTags, hbg, hread]
      rfl
  | note hs current id hkeys hcur => exact ⟨h.bare, h.once⟩
  | create flushCmd hl => exact h.create hw _ flushCmd
  | activate hq hi =>
      have hbare := h.idle_bare hq
      refine h.write hw hq rfl ?_ (fun x hx _ => List.mem_of_mem_erase hx) (fun _ => hbare hi) fun tag => rfl
      exact ((insertByUsage_perm _ _ _ s.active).append_left _).trans
        (List.perm_middle.trans ((List.perm_cons_erase hi).symm.append_right s.active))
  | wait hq hp ht hn =>
      have hbare := h.idle_bare hq
      refine h.write hw hq rfl .rfl (fun x hx _ => hx) hbare fun tag => ?_
      simp only [loose, born_succ, setQueue, Tqueue.held, Tqueue.bgTags, Tqueue.readingTags,
        count_insertWaiting, ht]
      omega
  | arrive hq ha ht hn =>
      have hb := (hw.wellFormed _ _ hq).bg
      refine h.write hw hq rfl .rfl (fun x hx _ => hx) (fun hi => absurd ha (hw.not_active_of_idle hi))
        fun tag => ?_
      simp only [loose, born_succ, setQueue, Tqueue.held, Tqueue.bgTags, Tqueue.readingTags,
        List.count_append, count_enqueue hb, ht]
      omega
  | wake hq ha hp hi ht =>
      have hb := (hw.wellFormed _ _ hq).bg
      refine h.write hw hq rfl .rfl (fun x hx _ => hx) (fun hid => absurd ha (hw.not_active_of_idle hid))
        fun tag => ?_
      simp only [loose, setQueue, Tqueue.held, Tqueue.bgTags, Tqueue.readingTags, List.count_append,
        count_enqueue hb, count_eraseIdx hi, ht]
      omega
  | killWaiting hq hp hi =>
      have hbare := h.idle_bare hq
      refine h.write hw hq rfl .rfl (fun x hx _ => hx) hbare fun tag => ?_
      simp only [loose, setQueue, count_eraseIdx hi, List.count_cons, beq_iff_eq, Tqueue.held, Tqueue.bgTags,
        Tqueue.readingTags]
      omega
  | killStray hl hi =>
      refine ⟨h.bare, fun tag => ?_⟩
      have honce := h.once tag
      rw [census, count_eraseIdx hi] at honce
      change _ + s.carried tag + (_ :: s.ended).count tag = born s.nextTag tag
      rw [List.count_cons, ← honce]
      simp only [beq_iff_eq]
      omega
  | endBg bg hq hi hc hb =>
      have hbare := h.idle_bare hq
      refine h.write hw hq rfl .rfl (fun x hx _ => hx) (fun hid => ?_) fun tag => ?_
      · change bg.cells = []
        rw [hc, hbare hid]
        rfl
      · simp only [loose, setQueue, Tqueue.held, Tqueue.bgTags, Tqueue.readingTags, List.count_append, hc,
          count_eraseIdx hi, List.count_cons, beq_iff_eq]
        omega
  | renew bg hq hc hb =>
      have hbare := h.idle_bare hq
      refine h.write hw hq rfl .rfl (fun x hx _ => hx) (fun hid => ?_) fun tag => ?_
      · rw [hbare hid] at hc
        exact List.map_eq_nil_iff.mp hc
      · simp only [Tqueue.held, Tqueue.bgTags, Tqueue.readingTags, hc]
        rfl
  | startReading vm hq hr ha ht =>
      have hbare := h.idle_bare hq
      refine h.write hw hq rfl .rfl (fun x hx _ => hx) hbare fun tag => ?_
      simp only [loose, born_succ, setQueue, Tqueue.held, Tqueue.bgTags, Tqueue.readingTags,
        List.count_append, hr, Option.toList_some, Option.toList_none, List.map_cons, List.map_nil,
        List.count_cons, List.count_nil, beq_iff_eq, ht]
      omega
  | stopReading vm hq hr =>
      have hbare := h.idle_bare hq
      refine h.write hw hq rfl .rfl (fun x hx _ => hx) hbare fun tag => ?_
      simp only [loose, setQueue, Tqueue.held, Tqueue.bgTags, Tqueue.readingTags, List.count_append, hr,
        Option.toList_some, Option.toList_none, List.map_cons, List.map_nil, List.count_cons, List.count_nil,
        beq_iff_eq]
      omega
  | connect hd hq hp hn hh ht =>
      have hbare := h.idle_bare hq
      exact h.write hw hq rfl .rfl (fun x hx _ => hx) hbare fun tag => rfl
  | disconnect hd hh hq hr =>
      have hbare := h.idle_bare hq
      exact h.write hw hq rfl .rfl (fun x hx _ => hx) hbare fun tag => rfl
  | deactivate rest hq ha hc hb hr =>
      refine h.write hw hq rfl ?_ (fun x hx hne => (List.mem_cons.mp hx).resolve_left hne) (fun _ => hb)
        fun tag => rfl
      rw [ha]
      exact List.perm_middle.symm
  | free hq hi hc hn => exact h.free hw hq hi hc
  | done usage rest hq ha hu =>
      have hbare := h.idle_bare hq
      refine h.write hw hq rfl ?_ (fun x hx _ => hx) hbare fun tag => rfl
      rw [ha]
      exact (insertByUsage_perm _ _ _ rest).append_left s.idle
  | login hd newPlayer dead flushCmd hq hh ht hold hnew hcur hl hdead hbare hn =>
      obtain ⟨c, hc, rfl, hlogin⟩ := hcur
      have hact : c.queue ∈ s.active := List.mem_of_head? (hw.running c hc)
      have hbalanced := h.login hw flushCmd hq hact hold hnew (fun c' hc' => ?_)
        (fun d tqd he => ⟨(hdead d tqd he).1, (hdead d tqd he).2.1⟩) (hbare trivial)
      · exact ⟨hbalanced.bare, hbalanced.once⟩
      · rw [hc] at hc'
        exact Option.some.inj hc' ▸ hlogin

end Balanced
end Server
end LambdaMoo
