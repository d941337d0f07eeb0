import LambdaMoo.Events
import LambdaMoo.Logins
import LambdaMoo.StoreInvariant

/-! Runs of the server. Connections and task queues agree in every state that is reached. -/
namespace LambdaMoo

namespace Server

open Except

variable {s s' : Server} {bare counted : Prop} {db : Db} {event : Event}

/-- What an event is to be like for a login to leave no task behind, where `bare`, and for the
counts to stay true, where `counted`. -/
def Event.Suits (bare counted : Prop) (db : Db) (s : Server) : Event → Prop
  | .fork progr _ _ _ | .suspend _ progr _ _ =>
      counted → progr = nothing → s.checkUserTaskLimit db progr = .ok true → s.Single nothing
  | .readTask progr _ _ _ => counted → progr = nothing → s.Single nothing
  | .resumeTask _ _ _ => ¬ counted
  | .login newPlayer _ => ∀ c tq, s.current = some c → s.queues c.queue = some tq →
      (tq.connected && db.isUser newPlayer) = true →
      (bare → tq.numBgTasks ≠ 0 → tq.bg.cells = []) ∧
      (counted → (s.findTqueue newPlayer).isSome → ∀ t ∈ s.waiting, t.progr ≠ nothing)
  | .taskDone stop =>
      ∀ c, s.current = some c → counted → wrap32 (s.usageOf c.queue + (stop - c.start)) ≠ noUsage
  | _ => True

/-- An event is a sequence of changes, and never looks for a connection that is missing. -/
theorem perform_meets (hc : Coherent s) (db : Db) (hpos : event.possible s)
    (hsuits : event.Suits bare counted db s) : Meets Missing (Changes bare counted s) (s.perform db event) := by
  have hreturn : ∀ {α : Type} {x : Outcome (α × Server)}, Meets Missing (fun r => Changes bare counted s r.2) x →
      Meets Missing (Changes bare counted s) (do return (← x).2) :=
    fun hx => hx.bind fun _ hr => hr
  cases event with
  | serverTask id =>
      exact .single (.note s.shandles s.current id rfl fun c hcur =>
        ⟨hc.wired.running c hcur, hc.wired.loggingIn c hcur⟩)
  | fork progr now afterSeconds id => exact hreturn (enqueueForkedTask_meets hc db progr now afterSeconds id hsuits)
  | suspend taskId progr now afterSeconds =>
      exact hreturn (enqueueSuspendedTask_meets hc db taskId progr now afterSeconds hsuits)
  | readTask progr startTime id suspendedValue =>
      cases suspendedValue with
      | none => exact enqueueWaiting_meets hc db rfl hsuits
      | some value => exact enqueueWaiting_meets hc db rfl hsuits
  | resumeTask taskId progr value => exact resumeTask_meets hc db taskId progr value hsuits
  | readInputNow connection => exact hreturn (readInputNow_meets hc connection)
  | makeReadingTask taskId progr player => exact hreturn (makeReadingTask_meets hc taskId progr player)
  | killTask id owner => exact hreturn (killTask_meets db id owner hc.wired)
  | resume id value progr now => exact hreturn (doResume_meets hc db id value progr now)
  | forceInput progr conn line atFront => exact hreturn (bfForceInput_meets hc db progr conn line atFront)
  | flushInput progr conn => exact hreturn (bfFlushInput_meets hc db progr conn)
  | setConnectionOption progr oid option => exact hreturn (bfSetConnectionOption_meets hc db progr oid option)
  | startProgramming q =>
      obtain ⟨c, hcur, rfl, _⟩ := hpos
      have hmem : c.queue ∈ s.active := List.mem_of_head? (hc.wired.running c hcur)
      obtain ⟨tq, hq⟩ := hc.wired.exists_queue_of_active hmem
      change Meets _ _ (Server.modifyQueue _ c.queue s)
      rw [modifyQueue_eq hq]
      exact .single (.edit hq rfl fun hw => ⟨hw.input, hw.bg, hw.lengths, hw.total⟩)
  | bootPlayer player =>
      change Changes bare counted s (s.bootPlayer player)
      unfold bootPlayer
      split
      · exact .refl
      · exact .single (modifyShandle_change hc.wired (by intro _; rfl) _)
  | openConnection now => exact serverNewConnection_meets hc db now systemObject true
  | newConnection listener now => exact serverNewConnection_meets hc db now listener false
  | receiveLine nhandle line now => exact serverReceiveLine_meets hc line now
  | serverClosing nhandle => exact serverClosing_meets hc
  | serverClose nhandle => exact serverClose_meets hc
  | closeUseless nhandle now => exact closeUseless_meets hc db now
  | runReadyTasks now start =>
      refine (runReadyTasks_meets bare counted hc hpos db now start).mono fun s' hs' => ?_
      obtain ⟨s₁, hch, _, _, hch'⟩ := hs'
      exact hch.trans hch'
  | login newPlayer now =>
      obtain ⟨c, hcur, hlogin⟩ := hpos
      obtain ⟨tq, hq, hold⟩ := hc.wired.loggingIn c hcur hlogin
      unfold Server.perform
      rw [hcur]
      have hnote : Change bare counted s { s with current := some { c with login := false } } :=
        .note s.shandles _ s.currentTaskId rfl fun c' hc' => by
          cases hc'
          exact ⟨hc.wired.running c hcur, by intros; contradiction⟩
      refine (doLoginTask_meets (hc.change hnote) db hq hold ⟨_, rfl, rfl, rfl⟩ (hsuits c tq hcur hq)
        now).mono fun s' hs' => ?_
      exact (Relation.ReflTransGen.single hnote).trans hs'
  | taskDone stop =>
      unfold Server.perform
      cases hcur : s.current with
      | none => exact .refl
      | some c => exact taskDone_meets hc hcur stop (hsuits c hcur)

theorem suits_false (db : Db) (s : Server) (event : Event) : event.Suits False False db s := by
  cases event with
  | login newPlayer now => exact fun _ _ _ _ _ => ⟨False.elim, False.elim⟩
  | _ => simp [Event.Suits]

theorem Coherent.step {ok : Db → Event → Server → Prop} (hc : Coherent s) (h : Step ok s s') :
    Coherent s' := by
  obtain ⟨db, event, hpos, _, heq⟩ := h
  exact hc.changes ((perform_meets hc db hpos (suits_false db s event)).of_ok heq)

theorem Coherent.run {ok : Db → Event → Server → Prop} (hc : Coherent s) (h : Run ok s s') :
    Coherent s' := by
  induction h with
  | refl => exact hc
  | tail _ hstep ih => exact ih.step hstep

theorem Coherent.run_changes {ok : Db → Event → Server → Prop} (hc : Coherent s)
    (hok : ∀ db event s, ok db event s → event.Suits bare counted db s) (hrun : Run ok s s') :
    Changes bare counted s s' := by
  induction hrun with
  | refl => exact .refl
  | tail _ hstep ih =>
      obtain ⟨db, event, hpos, hevent, heq⟩ := hstep
      exact ih.trans ((perform_meets (hc.changes ih) db hpos (hok db event _ hevent)).of_ok heq)

/-- In every state that is reached, each connection has a connected queue with its player, each
connected queue one connection, and no two connections one player; and nothing that can happen
then looks for a connection that is not there. -/
theorem run_agreed {ok : Db → Event → Server → Prop} (hrun : Run ok start s) :
    (∀ h ∈ s.shandles, ∃ tq, s.queues h.tasks = some tq ∧ tq.player = h.player ∧ tq.connected = true) ∧
    (∀ q tq, s.queues q = some tq → tq.connected = true →
      ∃! h, h ∈ s.shandles ∧ h.tasks = q) ∧
    (∀ h ∈ s.shandles, ∀ h' ∈ s.shandles, h.player = h'.player → h = h') ∧
    (s.shandles.map Shandle.nhandle).Nodup ∧
    ∀ db event, event.possible s → s.perform db event ≠ .error .noConnection := by
  have hc := coherent_start.run hrun
  have ha := hc.agreed
  refine ⟨fun h hh => ha.exists_queue hh, fun q tq hq hconn => ?_,
    fun h hh h' hh' he => ha.shandle_eq_of_player hh hh' he, ?_, fun db event hpos => ?_⟩
  · obtain ⟨h, hh, ht, hp⟩ := ha.exists_shandle hq hconn
    refine ⟨h, ⟨hh, ht⟩, fun h' hh' => ha.shandle_eq_of_player hh'.1 hh ?_⟩
    obtain ⟨tq', hq', hp', _⟩ := ha.exists_queue hh'.1
    rw [hh'.2, hq] at hq'
    cases hq'
    rw [← hp', hp]
  · have hn := ha.handles
    rwa [keys, List.map_map] at hn
  · exact (perform_meets hc db hpos (suits_false db s event)).ne_error (.inl rfl)

theorem run_agreed_connected : ∃ s, Run (fun _ _ _ => True) start s ∧ s.shandles.length = 1 ∧
    ∀ h ∈ s.shandles, ∃ tq, s.queues h.tasks = some tq ∧ tq.player = h.player ∧ tq.connected = true := by
  have hnew : start.perform Db.empty (.newConnection 0 0) = .ok _ := rfl
  have hpos : Event.possible start (.newConnection 0 0) := rfl
  have hrun : Run (fun _ _ _ => True) start _ := .single ⟨_, _, hpos, trivial, hnew⟩
  exact ⟨_, hrun, rfl, (run_agreed hrun).1⟩

end Server
end LambdaMoo
