import LambdaMoo.QueueChanges

/-! The lists the queues are on, and the order of the tasks that wait. -/
namespace LambdaMoo

namespace Server

variable {s s' : Server} {q x : Nat} {tq tq' : Tqueue} {t : BgTask} {i : Nat} {player : Objid}
  {bare counted : Prop}

theorem queues_setQueue : (s.setQueue q tq).queues x = if x = q then some tq else s.queues x :=
  Function.update_apply ..

theorem usageOf_eq (hq : s.queues q = some tq) : s.usageOf q = tq.usage := by
  simp [usageOf, hq]

theorem queues_retiring {newPlayer : Objid} {dead : Option (Nat × Tqueue)} (hq : s.queues q = some tq)
    (hold : tq.player ≠ newPlayer)
    (hd : ∀ d tqd, dead = some (d, tqd) → s.queues d = some tqd ∧ tqd.player = newPlayer) :
    (s.retiring dead).queues q = some tq := by
  match dead with
  | none => exact hq
  | some (d, tqd) =>
      obtain ⟨hdq, hplayer⟩ := hd d tqd rfl
      have hne : q ≠ d := by
        rintro rfl
        rw [hq, Option.some.injEq] at hdq
        exact hold (hdq ▸ hplayer)
      rw [retiring, queues_setQueue, if_neg hne, hq]

/-! The places of a list that is kept in order. -/

theorem insertByUsage_perm (f : Nat → Int) (usage : Int) (q : Nat) (l : List Nat) :
    (insertByUsage f usage q l).Perm (q :: l) := by
  induction l with
  | nil => rfl
  | cons x l ih =>
      unfold insertByUsage
      split
      · exact (ih.cons x).trans (.swap q x l)
      · rfl

theorem mem_insertByUsage {f : Nat → Int} {usage : Int} {l : List Nat} :
    x ∈ insertByUsage f usage q l ↔ x = q ∨ x ∈ l := by
  rw [(insertByUsage_perm f usage q l).mem_iff, List.mem_cons]

theorem insertWaiting_perm (t : BgTask) (l : List BgTask) : (insertWaiting t l).Perm (t :: l) := by
  induction l with
  | nil => rfl
  | cons x l ih =>
      unfold insertWaiting
      split
      · rfl
      · exact (ih.cons x).trans (.swap t x l)

theorem insertWaiting_ordered {l : List BgTask} (h : l.Pairwise BgTask.Before)
    (ht : ∀ x ∈ l, x.tag < t.tag) : (insertWaiting t l).Pairwise BgTask.Before := by
  induction l with
  | nil => exact List.pairwise_singleton ..
  | cons x l ih =>
      rw [List.pairwise_cons] at h
      unfold insertWaiting
      split
      · next hlt =>
          refine List.pairwise_cons.mpr ⟨fun y hy => ?_, List.pairwise_cons.mpr h⟩
          cases hy with
          | head => exact .inl hlt
          | tail _ hy =>
              have hxy := h.1 y hy
              unfold BgTask.Before at hxy ⊢
              omega
      · next hle =>
          refine List.pairwise_cons.mpr ⟨fun y hy => ?_, ih h.2 fun y hy => ht y (.tail x hy)⟩
          rw [(insertWaiting_perm t l).mem_iff] at hy
          cases hy with
          | head =>
              have hx := ht x (.head l)
              unfold BgTask.Before
              omega
          | tail _ hy => exact h.1 y hy

/-- The lists of queues are in order, and those of the tasks too. -/
structure Wired (s : Server) : Prop where
  nodup : (s.idle ++ s.active).Nodup
  listed : ∀ q, q ∈ s.idle ++ s.active ↔ (s.queues q).isSome
  fresh : ∀ q tq, s.queues q = some tq → q < s.nextQueue
  idle : ∀ q ∈ s.idle, s.usageOf q = noUsage
  wellFormed : ∀ q tq, s.queues q = some tq → tq.WellFormed
  reading : ∀ q tq, s.queues q = some tq → tq.reading.isSome → tq.connected = true ∨ q ∈ s.active
  running : ∀ c, s.current = some c → s.active.head? = some c.queue
  loggingIn : ∀ c, s.current = some c → c.login = true →
    ∃ tq, s.queues c.queue = some tq ∧ tq.player < 0
  ordered : s.waiting.Pairwise BgTask.Before
  tags : ∀ t ∈ s.waiting, t.tag < s.nextTag

theorem wired_start : Wired start := by
  constructor <;> simp [start]

namespace Wired

theorem mem_active_of_not_idle (h : Wired s) (hq : s.queues q = some tq) (hi : q ∉ s.idle) :
    q ∈ s.active := by
  have hl := (h.listed q).mpr (by simp [hq])
  simpa [hi] using hl

theorem not_active_of_idle (h : Wired s) (hi : q ∈ s.idle) : q ∉ s.active := fun ha =>
  (List.nodup_append.mp h.nodup).2.2 q hi q ha rfl

theorem exists_queue_of_idle (h : Wired s) (hi : q ∈ s.idle) : ∃ tq, s.queues q = some tq :=
  Option.isSome_iff_exists.mp ((h.listed q).mp (List.mem_append_left _ hi))

theorem exists_queue_of_active (h : Wired s) (ha : q ∈ s.active) : ∃ tq, s.queues q = some tq :=
  Option.isSome_iff_exists.mp ((h.listed q).mp (List.mem_append_right _ ha))

theorem fresh_none (h : Wired s) : s.queues s.nextQueue = none := by
  cases hq : s.queues s.nextQueue with
  | none => rfl
  | some tq => exact absurd (h.fresh _ tq hq) (Nat.lt_irrefl _)

theorem nextQueue_not_active (h : Wired s) : s.nextQueue ∉ s.active := fun ha => by
  obtain ⟨tq, hq⟩ := h.exists_queue_of_active ha
  exact absurd (h.fresh _ tq hq) (Nat.lt_irrefl _)

theorem ne_of_mem_rest (h : Wired s) {rest : List Nat} (ha : s.active = q :: rest) (hx : x ∈ rest) : x ≠ q := by
  have hnodup := (List.nodup_append.mp h.nodup).2.1
  rw [ha] at hnodup
  exact fun heq => (List.nodup_cons.mp hnodup).1 (heq ▸ hx)

/-- A queue is written. Its usage stays, and so does its player while it logs in. -/
theorem write (h : Wired s) (hq : s.queues q = some tq) (hu : tq'.usage = tq.usage)
    (hw : tq.WellFormed → tq'.WellFormed)
    (hr : tq'.reading.isSome → tq'.connected = true ∨ q ∈ s.active)
    (hp : ∀ c, s.current = some c → c.login = true → tq'.player = tq.player)
    {waiting : List BgTask} {nextTag : Nat} (hwait : waiting.Pairwise BgTask.Before)
    (htags : ∀ t ∈ waiting, t.tag < nextTag) (ended : List Nat) (shandles : List Shandle)
    (nextHandle : Nat) (nextUnconnectedPlayer : Int) :
    Wired { s.setQueue q tq' with waiting, nextTag, ended, shandles, nextHandle, nextUnconnectedPlayer } where
  nodup := h.nodup
  listed x := by
    change _ ↔ ((s.setQueue q tq').queues x).isSome
    rw [queues_setQueue]
    split
    · next hx => simp [setQueue, h.listed, hx, hq]
    · exact h.listed x
  fresh x tq₁ hx := by
    change (s.setQueue q tq').queues x = some tq₁ at hx
    rw [queues_setQueue] at hx
    split at hx
    · next heq => exact heq ▸ h.fresh q tq hq
    · exact h.fresh x tq₁ hx
  idle x hx := by
    have hx := h.idle x hx
    by_cases heq : x = q
    · subst heq
      simp_all [usageOf, setQueue]
    · simpa [usageOf, setQueue, Function.update_of_ne heq] using hx
  wellFormed x tq₁ hx := by
    change (s.setQueue q tq').queues x = some tq₁ at hx
    rw [queues_setQueue] at hx
    split at hx
    · cases hx
      exact hw (h.wellFormed q tq hq)
    · exact h.wellFormed x tq₁ hx
  reading x tq₁ hx hr₁ := by
    change (s.setQueue q tq').queues x = some tq₁ at hx
    rw [queues_setQueue] at hx
    split at hx
    · next heq =>
        cases hx
        exact heq ▸ hr hr₁
    · exact h.reading x tq₁ hx hr₁
  running := h.running
  loggingIn c hc hl := by
    have hold := h.loggingIn c hc hl
    change ∃ tq₁, (s.setQueue q tq').queues c.queue = some tq₁ ∧ tq₁.player < 0
    rw [queues_setQueue]
    split
    · next heq =>
        rw [heq, hq] at hold
        have hplayer := hp c hc hl
        simp_all
    · exact hold
  ordered := hwait
  tags := htags

theorem setQueue (h : Wired s) (hq : s.queues q = some tq) (hu : tq'.usage = tq.usage)
    (hw : tq.WellFormed → tq'.WellFormed)
    (hr : tq'.reading.isSome → tq'.connected = true ∨ q ∈ s.active)
    (hp : ∀ c, s.current = some c → c.login = true → tq'.player = tq.player) : Wired (s.setQueue q tq') :=
  h.write hq hu hw hr hp h.ordered h.tags s.ended s.shandles s.nextHandle s.nextUnconnectedPlayer

theorem created (h : Wired s) (player : Objid) (flushCmd : Option Str) :
    Wired (created player flushCmd s) := by
  have hnone := h.fresh_none
  have hnew : s.nextQueue ∉ s.idle ++ s.active := by simp [h.listed, hnone]
  have hqueues : ∀ x, (s.created player flushCmd).queues x =
      if x = s.nextQueue then some (newTqueue player flushCmd) else s.queues x :=
    fun x => Function.update_apply ..
  constructor
  case nodup => exact List.nodup_cons.mpr ⟨hnew, h.nodup⟩
  case listed =>
    intro x
    change x ∈ s.nextQueue :: (s.idle ++ s.active) ↔ _
    rw [List.mem_cons, h.listed, hqueues]
    split <;> simp_all
  case fresh =>
    intro x tq₁ hx
    change x < s.nextQueue + 1
    rw [hqueues] at hx
    split at hx
    · omega
    · exact Nat.lt_succ_of_lt (h.fresh x tq₁ hx)
  case idle =>
    intro x hx
    unfold usageOf
    rw [hqueues]
    split
    · rfl
    · next hne => exact h.idle x ((List.mem_cons.mp hx).resolve_left hne)
  case wellFormed =>
    intro x tq₁ hx
    rw [hqueues] at hx
    split at hx
    · cases hx
      exact ⟨rfl, rfl, nofun, rfl⟩
    · exact h.wellFormed x tq₁ hx
  case reading =>
    intro x tq₁ hx hr
    rw [hqueues] at hx
    split at hx
    · cases hx
      simp [newTqueue] at hr
    · exact h.reading x tq₁ hx hr
  case running => exact h.running
  case loggingIn =>
    intro c hc hl
    have hold := h.loggingIn c hc hl
    rw [hqueues]
    split
    · next heq => simp_all
    · exact hold
  case ordered => exact h.ordered
  case tags => exact h.tags

theorem place (h : Wired s) (hq : s.queues q = some tq) {usage : Int} {idle active : List Nat}
    {current : Option Current} (hperm : (idle ++ active).Perm (s.idle ++ s.active))
    (hidle : ∀ x ∈ idle, if x = q then usage = noUsage else x ∈ s.idle)
    (hreading : ∀ x ∈ s.active, x ∈ active ∨ x = q ∧ (tq.reading.isSome → tq.connected = true))
    (hrun : ∀ c, current = some c → s.current = some c ∧ active.head? = some c.queue) :
    Wired { s.setQueue q { tq with usage } with idle, active, current } := by
  have hw := h.wellFormed q tq hq
  have hqueues : ∀ x, (s.setQueue q { tq with usage }).queues x =
      if x = q then some { tq with usage } else s.queues x := fun x => queues_setQueue
  constructor
  case nodup => exact hperm.nodup_iff.mpr h.nodup
  case listed =>
    intro x
    rw [hperm.mem_iff, h.listed, hqueues]
    split
    · next heq => simp [heq, hq]
    · rfl
  case fresh =>
    intro x tq₁ hx
    rw [hqueues] at hx
    split at hx
    · next heq => exact heq ▸ h.fresh q tq hq
    · exact h.fresh x tq₁ hx
  case idle =>
    intro x hx
    have hplace := hidle x hx
    unfold usageOf
    rw [hqueues]
    split at hplace
    · next heq => simp [heq, hplace]
    · next hne =>
        rw [if_neg hne]
        exact h.idle x hplace
  case wellFormed =>
    intro x tq₁ hx
    rw [hqueues] at hx
    split at hx
    · cases hx
      exact ⟨hw.input, hw.bg, hw.lengths, hw.total⟩
    · exact h.wellFormed x tq₁ hx
  case reading =>
    intro x tq₁ hx hr
    have hold : ∃ tq₂, s.queues x = some tq₂ ∧ tq₂.reading = tq₁.reading ∧ tq₂.connected = tq₁.connected := by
      rw [hqueues] at hx
      split at hx
      · next heq =>
          cases hx
          exact ⟨tq, heq ▸ hq, rfl, rfl⟩
      · exact ⟨tq₁, hx, rfl, rfl⟩
    obtain ⟨tq₂, hx₂, hreads, hconn⟩ := hold
    rw [← hreads] at hr
    rw [← hconn]
    refine (h.reading x tq₂ hx₂ hr).elim .inl fun hactive => ?_
    refine (hreading x hactive).elim .inr fun hleft => .inl ?_
    rw [hleft.1, hq] at hx₂
    cases hx₂
    exact hleft.2 hr
  case running => exact fun c hc => (hrun c hc).2
  case loggingIn =>
    intro c hc hl
    have hold := h.loggingIn c (hrun c hc).1 hl
    change ∃ tq₁, (s.setQueue q { tq with usage }).queues c.queue = some tq₁ ∧ tq₁.player < 0
    rw [hqueues]
    split
    · next heq => simp_all
    · exact hold
  case ordered => exact h.ordered
  case tags => exact h.tags

theorem activated (h : Wired s) (hq : s.queues q = some tq) (hi : q ∈ s.idle) :
    Wired (activated q tq s) := by
  have hna := h.not_active_of_idle hi
  have hidle := (List.nodup_append.mp h.nodup).1
  refine h.place hq ?_ (fun x hx => ?_) (fun x hx => ?_) (fun c hc => ⟨hc, ?_⟩)
  · refine ((insertByUsage_perm _ _ q s.active).append_left (s.idle.erase q)).trans ?_
    exact List.perm_middle.trans ((List.perm_cons_erase hi).symm.append_right s.active)
  · have hx := hidle.mem_erase_iff.mp hx
    rw [if_neg hx.1]
    exact hx.2
  · exact .inl (mem_insertByUsage.mpr (.inr hx))
  · have hhead := h.running c hc
    obtain ⟨rest, hrest⟩ := List.head?_eq_some_iff.mp hhead
    have hne : c.queue ≠ q := fun heq => hna (heq ▸ hrest ▸ .head rest)
    change (insertByUsage _ _ q s.active).head? = _
    rw [hrest, insertByUsage, if_pos]
    · rfl
    · simp [usageOf, Server.setQueue, headUsage, hrest, hne]

theorem deactivated (h : Wired s) (hq : s.queues q = some tq) {rest : List Nat}
    (ha : s.active = q :: rest) (hc : s.current = none)
    (hr : tq.reading.isSome → tq.connected = true) :
    Wired { s.setQueue q { tq with usage := noUsage } with idle := q :: s.idle, active := rest } := by
  refine h.place hq ?_ (fun x hx => ?_) (fun x hx => ?_) (fun c hcur => ?_)
  · rw [ha]
    exact List.perm_middle.symm
  · split
    · rfl
    · next hne => exact (List.mem_cons.mp hx).resolve_left hne
  · rw [ha, List.mem_cons] at hx
    exact hx.elim (fun hx => .inr ⟨hx, hr⟩) .inl
  · exact absurd (hc.symm.trans hcur) nofun

theorem done (h : Wired s) (hq : s.queues q = some tq) {usage : Int} {rest : List Nat}
    (ha : s.active = q :: rest) :
    Wired { activateTqueue q { s.setQueue q { tq with usage } with active := rest } with
      current := none } := by
  have hnodup := List.nodup_append.mp h.nodup
  refine h.place hq ?_ (fun x hx => ?_) (fun x hx => ?_) nofun
  · rw [ha]
    exact (insertByUsage_perm _ _ q rest).append_left s.idle
  · rw [if_neg]
    · exact hx
    · exact hnodup.2.2 x hx q (ha ▸ .head rest)
  · rw [ha] at hx
    exact .inl (mem_insertByUsage.mpr (List.mem_cons.mp hx))

theorem freed (h : Wired s) (hi : q ∈ s.idle) : Wired (s.freeTqueue q) := by
  have hna := h.not_active_of_idle hi
  have hidle := (List.nodup_append.mp h.nodup).1
  have hqueues : ∀ x, (s.freeTqueue q).queues x = if x = q then none else s.queues x :=
    fun x => Function.update_apply ..
  have hkept : ∀ {x tq₁}, (s.freeTqueue q).queues x = some tq₁ → s.queues x = some tq₁ := by
    intro x tq₁ hx
    rw [hqueues] at hx
    split at hx
    · cases hx
    · exact hx
  constructor
  case nodup => exact h.nodup.sublist ((List.erase_sublist ..).append_right s.active)
  case listed =>
    intro x
    have hl := h.listed x
    change x ∈ s.idle.erase q ++ s.active ↔ _
    rw [List.mem_append, hidle.mem_erase_iff, hqueues]
    rw [List.mem_append] at hl
    split
    · next hx => simp [hx, hna]
    · next hx => simpa [hx] using hl
  case fresh => exact fun x tq₁ hx => h.fresh x tq₁ (hkept hx)
  case idle =>
    intro x hx
    have hx := hidle.mem_erase_iff.mp hx
    unfold usageOf
    rw [hqueues, if_neg hx.1]
    exact h.idle x hx.2
  case wellFormed => exact fun x tq₁ hx => h.wellFormed x tq₁ (hkept hx)
  case reading => exact fun x tq₁ hx hr => h.reading x tq₁ (hkept hx) hr
  case running => exact h.running
  case loggingIn =>
    intro c hc hl
    have hold := h.loggingIn c hc hl
    have hne : c.queue ≠ q := fun heq =>
      hna (heq ▸ List.mem_of_mem_head? (Option.mem_def.mpr (h.running c hc)))
    rw [hqueues, if_neg hne]
    exact hold
  case ordered => exact h.ordered
  case tags => exact h.tags

theorem retask (h : Wired s) (hq : s.queues q = some tq) {bg : TailList BgTask}
    (hb : tq.bg.Tailed → bg.Tailed) {waiting : List BgTask} {nextTag : Nat}
    (hwait : waiting.Pairwise BgTask.Before) (htags : ∀ t ∈ waiting, t.tag < nextTag)
    (numBgTasks : Int) (ended : List Nat) :
    Wired { s.setQueue q { tq with bg, numBgTasks } with waiting, nextTag, ended } := by
  apply h.write hq
  case hu => rfl
  case hw => exact fun hw => ⟨hw.input, hb hw.bg, hw.lengths, hw.total⟩
  case hr => exact fun hr => h.reading q tq hq hr
  case hp => exact fun _ _ _ => rfl
  case hwait => exact hwait
  case htags => exact htags

theorem reread (h : Wired s) (hq : s.queues q = some tq) {reading : Option Vm} {connected : Bool}
    (hr : reading.isSome → connected = true ∨ q ∈ s.active) {nextTag : Nat} (hn : s.nextTag ≤ nextTag)
    (ended : List Nat) (shandles : List Shandle) (nextHandle : Nat) (nextUnconnectedPlayer : Int) :
    Wired { s.setQueue q { tq with reading, connected } with
      nextTag, ended, shandles, nextHandle, nextUnconnectedPlayer } := by
  apply h.write hq
  case hu => rfl
  case hw => exact fun hw => ⟨hw.input, hw.bg, hw.lengths, hw.total⟩
  case hr => exact hr
  case hp => exact fun _ _ _ => rfl
  case hwait => exact h.ordered
  case htags => exact fun t ht => Nat.lt_of_lt_of_le (h.tags t ht) hn

/-- What is left to the player that a connection had is on a queue of its own. -/
theorem leaving (h : Wired s) (flushCmd : Option Str) (tq : Tqueue) : Wired (leaving flushCmd tq s) := by
  unfold Server.leaving
  split
  · exact h
  · apply (h.created tq.player flushCmd).setQueue
    case hq => exact Function.update_self ..
    case hu => rfl
    case hw => exact fun hw => ⟨hw.input, rfl, hw.lengths, hw.total⟩
    case hr => exact nofun
    case hp => exact fun _ _ _ => rfl

theorem login (h : Wired s) {newPlayer : Objid} {dead : Option (Nat × Tqueue)} (flushCmd : Option Str)
    (hq : s.queues q = some tq) (hcur : ∀ c, s.current = some c → c.login = false)
    (hold : tq.player ≠ newPlayer)
    (hd : ∀ d tqd, dead = some (d, tqd) → s.queues d = some tqd ∧ tqd.player = newPlayer) :
    Wired (Server.leaving flushCmd tq ((s.retiring dead).setQueue q (heir tq newPlayer dead))) := by
  have hlogin : ∀ {p : Prop} c, s.current = some c → c.login = true → p := fun c hc hl => by
    simp [hcur c hc] at hl
  refine leaving ?_ flushCmd tq
  match dead with
  | none =>
      apply h.setQueue hq
      case hu => rfl
      case hw => exact fun hw => ⟨hw.input, rfl, hw.lengths, hw.total⟩
      case hr => exact h.reading q tq hq
      case hp => exact hlogin
  | some (d, tqd) =>
      have hdq := hd d tqd rfl
      have hdead : Wired (s.retiring (some (d, tqd))) := by
        apply h.setQueue hdq.1
        case hu => rfl
        case hw => exact fun hw => ⟨hw.input, rfl, hw.lengths, hw.total⟩
        case hr => exact h.reading d tqd hdq.1
        case hp => exact hlogin
      apply hdead.setQueue (queues_retiring hq hold hd)
      case hu => rfl
      case hw => exact fun hw => ⟨hw.input, rfl, hw.lengths, hw.total⟩
      case hr => exact h.reading q tq hq
      case hp => exact hlogin

theorem change (hc : Change bare counted s s') (h : Wired s) : Wired s' := by
  induction hc with
  | edit hq hcore hw =>
      simp only [Tqueue.core, Prod.mk.injEq] at hcore
      refine h.setQueue hq hcore.2.2.2.1 hw (fun hr => ?_) (fun _ _ _ => hcore.1)
      rw [hcore.2.2.2.2.2] at hr
      rw [hcore.2.1]
      exact h.reading _ _ hq hr
  | note hs current id hkeys hcur =>
      exact { h with
        running := fun c hc => (hcur c hc).1
        loggingIn := fun c hc => (hcur c hc).2 }
  | create flushCmd hl => exact h.created _ flushCmd
  | activate hq hi => exact h.activated hq hi
  | wait hq hp ht hn =>
      apply h.retask hq id (insertWaiting_ordered h.ordered (ht ▸ h.tags))
      intro x hx
      rw [(insertWaiting_perm _ _).mem_iff, List.mem_cons] at hx
      cases hx with
      | inl hx => exact hx ▸ ht ▸ Nat.lt_succ_self _
      | inr hx => exact Nat.lt_succ_of_lt (h.tags x hx)
  | arrive hq ha ht hn =>
      exact h.retask hq .enqueue h.ordered (fun x hx => Nat.lt_succ_of_lt (h.tags x hx)) _ _
  | wake hq ha hp hi ht =>
      exact h.retask hq .enqueue (h.ordered.sublist (List.eraseIdx_sublist ..))
        (fun x hx => h.tags x (List.mem_of_mem_eraseIdx hx)) _ _
  | killWaiting hq hp hi =>
      exact h.retask hq id (h.ordered.sublist (List.eraseIdx_sublist ..))
        (fun x hx => h.tags x (List.mem_of_mem_eraseIdx hx)) _ _
  | killStray hl hi =>
      exact { h with
        ordered := h.ordered.sublist (List.eraseIdx_sublist ..)
        tags := fun x hx => h.tags x (List.mem_of_mem_eraseIdx hx) }
  | endBg bg hq hi hc hb => exact h.retask hq hb h.ordered h.tags _ _
  | renew bg hq hc hb => exact h.retask hq hb h.ordered h.tags _ _
  | startReading vm hq hr ha ht => exact h.reread hq (fun _ => ha) (Nat.le_succ _) _ _ _ _
  | stopReading vm hq hr => exact h.reread hq (by simp) (Nat.le_refl _) _ _ _ _
  | connect hd hq hp hn hh ht => exact h.reread hq (fun _ => .inl rfl) (Nat.le_refl _) _ _ _ _
  | disconnect hd hh hq hr => exact h.reread hq (fun h₁ => .inr (hr h₁)) (Nat.le_refl _) _ _ _ _
  | deactivate rest hq ha hc hb hr => exact h.deactivated hq ha hc hr
  | free hq hi hc hn => exact h.freed hi
  | done usage rest hq ha hu => exact h.done hq ha
  | login hd newPlayer dead flushCmd hq hh ht hold hnew hcur hl hdead hbare hn =>
      obtain ⟨c, hc, -, hl⟩ := hcur
      have hcur : ∀ c', s.current = some c' → c'.login = false := fun c' hc' => by
        rw [hc] at hc'
        exact Option.some.inj hc' ▸ hl
      have hlogin := h.login flushCmd hq hcur (fun heq => absurd hold (by lia))
        fun d tqd heq => ⟨(hdead d tqd heq).1, (hdead d tqd heq).2.1⟩
      exact { hlogin with }

end Wired
end Server
end LambdaMoo
