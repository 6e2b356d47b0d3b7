-- SUMMARY: Nothing is accepted once the worker is cancelled, so a shutdown that is not cut short has handled all of it.
import NotedThat.Server.Shutdown

/-!
# Drained

What the order of the shutdown is for: the worker is cancelled when nobody can put in events any more,
so its drain covers everything that was accepted, and no producer is told that the queue is closed.
-/

/-! ## A queue into which nothing goes once it is cancelled -/

namespace Indexer.Service

variable {P : Type} {concurrency : Nat} {x x' : Service P} {q : QueueEvent P} {events : List (QueueEvent P)}

@[simp] theorem take_control (x : Service P) (event : IndexEvent) (rest : List IndexEvent) (control : Control) :
    (x.take event rest control).control = control := rfl

@[simp] theorem finish_control (x : Service P) (file : Key × IndexEvent) (others : List (Key × IndexEvent))
    (control : Control) : (x.finish file others control).control = control := rfl

@[simp] theorem stop_control (x : Service P) : x.stop.control = .stopped := rfl

/-- A drain begins when the worker was cancelled, and nothing was accepted behind it. -/
structure Late (events : List (QueueEvent P)) (x : Service P) : Prop where
  receiving : x.control = .receiving ∨ x.control = .draining ∨ x.control = .awaiting → x.cancelled = true
  drains : (∃ e ∈ events, e.isDrains = true) → x.cancelled = true
  accepted : acceptedOf (beforeDrain events) = acceptedOf events
  stopped : x.control = .stopped → x.cancelled = true ∨ .abandoned ∈ events
  closed : ∀ p e, .refused p e .closed ∈ events → .abandoned ∈ events

/-- An event by which nothing goes in, nobody is turned away and no drain begins. -/
theorem Late.rest (h : Late events x) (haccepted : acceptedOf [q] = []) (hdrains : q.isDrains = false)
    (hclosed : ∀ p e, q ≠ .refused p e .closed) (hcancelled : x.cancelled = true → x'.cancelled = true)
    (hreceiving : x'.control = .receiving ∨ x'.control = .draining ∨ x'.control = .awaiting →
      x.cancelled = true)
    (hstopped : x'.control = .stopped → x.cancelled = true ∨ .abandoned ∈ events ++ [q]) :
    Late (events ++ [q]) x' where
  receiving hcontrol := hcancelled (hreceiving hcontrol)
  drains := by
    rintro ⟨e, hmem, he⟩
    rcases List.mem_append.mp hmem with hmem | hmem
    · exact hcancelled (h.drains ⟨e, hmem, he⟩)
    · rw [List.mem_singleton.mp hmem, hdrains] at he
      cases he
  accepted := by
    obtain ⟨hall, hbefore⟩ := acceptedOf_rest haccepted hdrains events
    rw [hall, hbefore, h.accepted]
  stopped hcontrol := (hstopped hcontrol).imp_left hcancelled
  closed p e hmem := by
    rcases List.mem_append.mp hmem with hmem | hmem
    · exact List.mem_append_left _ (h.closed p e hmem)
    · exact absurd (List.mem_singleton.mp hmem).symm (hclosed p e)

/-- A step, when senders are never dropped and nothing goes in once the worker is cancelled. -/
theorem Late.step (h : Late events x) (hflow : x.Flow concurrency events) (hsenders : x.senders = true)
    (hstep : Step concurrency x q x')
    (hnobody : x.cancelled = true → ∀ p e, q ≠ .accepted p e ∧ q ≠ .refused p e .closed) :
    Late (events ++ [q]) x' := by
  cases hstep with
  | acquire => exact h.rest rfl rfl (by simp) id h.receiving fun hc => (h.stopped hc).imp_right (List.mem_append_left _)
  | full => exact h.rest rfl rfl (by simp) id h.receiving fun hc => (h.stopped hc).imp_right (List.mem_append_left _)
  | @deliver p e before after hholding hreceiver =>
    have hnotCancelled : ¬ x.cancelled = true := fun hnow => (hnobody hnow p e).1 rfl
    have hnone : ∀ e ∈ events, e.isDrains = false := by
      intro e hmem
      by_contra hdrains
      exact hnotCancelled (h.drains ⟨e, hmem, by simpa using hdrains⟩)
    refine ⟨h.receiving, ?_, ?_, fun hc => (h.stopped hc).imp_right (List.mem_append_left _), fun p e hmem => ?_⟩
    · rintro ⟨e, hmem, he⟩
      rw [no_drains_append hnone rfl e hmem] at he
      cases he
    · rw [beforeDrain_eq (no_drains_append hnone rfl)]
    · rcases List.mem_append.mp hmem with hmem | hmem
      · exact List.mem_append_left _ (h.closed p e hmem)
      · cases List.mem_singleton.mp hmem
  | @closed p e before after hholding hreceiver =>
    -- a producer is turned away only when the worker has gone by itself
    have hcontrol : x.control = .stopped := by
      by_contra hserves
      rw [(hflow.serving hserves).receiver] at hreceiver
      cases hreceiver
    have habandoned : .abandoned ∈ events := (h.stopped hcontrol).resolve_left fun hnow => (hnobody hnow p e).2 rfl
    obtain ⟨hall, hbefore⟩ := acceptedOf_rest (show acceptedOf [.refused p e .closed] = [] from rfl) rfl events
    refine ⟨h.receiving, ?_, by rw [hall, hbefore, h.accepted],
      fun _ => .inr (List.mem_append_left _ habandoned), fun _ _ _ => List.mem_append_left _ habandoned⟩
    rintro ⟨e, hmem, he⟩
    rcases List.mem_append.mp hmem with hmem | hmem
    · exact h.drains ⟨e, hmem, he⟩
    · rw [List.mem_singleton.mp hmem] at he
      cases he
  | dropSenders =>
    exact h.rest rfl rfl (by simp) id h.receiving fun hc => (h.stopped hc).imp_right (List.mem_append_left _)
  | cancel =>
    exact h.rest rfl rfl (by simp) (fun _ => rfl) h.receiving
      fun hc => (h.stopped hc).imp_right (List.mem_append_left _)
  | startReady => exact h.rest rfl rfl (by simp) id (by simp) (by simp)
  | ends hcontrol =>
    rw [Flow, hcontrol] at hflow
    rw [(hflow.2.2 rfl).1] at hsenders
    cases hsenders
  | receive => exact h.rest rfl rfl (by simp) id (by simp) (by simp)
  | disconnected => exact h.rest rfl rfl (by simp) id (by simp) (by simp)
  | finished => exact h.rest rfl rfl (by simp) id (by simp) (by simp)
  | shutdown _ hcancelled => exact h.rest rfl rfl (by simp) id (fun _ => hcancelled) (by simp)
  | tryRecv hcontrol => exact h.rest rfl rfl (by simp) id (fun _ => h.receiving (.inl hcontrol)) (by simp)
  | drains hcontrol =>
    have hcancelled := h.receiving (.inl hcontrol)
    rw [Flow, hcontrol] at hflow
    have haccepted : acceptedOf (events ++ [.drains]) = acceptedOf events := by
      rw [acceptedOf_append]
      exact List.append_nil _
    refine ⟨fun _ => hcancelled, fun _ => hcancelled, ?_, (by simp), fun p e hmem => ?_⟩
    · rw [beforeDrain_drains hflow.2, haccepted]
    · rcases List.mem_append.mp hmem with hmem | hmem
      · exact List.mem_append_left _ (h.closed p e hmem)
      · cases List.mem_singleton.mp hmem
  | startDraining hcontrol =>
    exact h.rest rfl rfl (by simp) id (fun _ => h.receiving (.inr (.inl hcontrol))) (by simp)
  | finishedDraining hcontrol =>
    exact h.rest rfl rfl (by simp) id (fun _ => h.receiving (.inr (.inr hcontrol))) (by simp)
  | drained hcontrol =>
    exact h.rest rfl rfl (by simp) id (by simp) fun _ => .inl (h.receiving (.inr (.inl hcontrol)))
  | timeout =>
    exact h.rest rfl rfl (by simp) id (by simp) fun _ => .inr (List.mem_append_right _ (List.mem_singleton_self _))
  | panic =>
    exact h.rest rfl rfl (by simp) id (by simp) fun _ => .inr (List.mem_append_right _ (List.mem_singleton_self _))

end Indexer.Service

namespace Shutdown

open Traces Indexer

/-! ## The server's shutdown -/

variable {C T : Type} [DecidableEq C] [DecidableEq T] {concurrency capacity : Nat} {declared : KbSlug → Bool}
  {s s' : State C T} {event : Event C T} {events : List (Event C T)} {health : IndexHealth} {watching : Bool}

/-- What happened to the queue. -/
def queueEvents (events : List (Event C T)) : List (QueueEvent (Producer C T)) := events.flatMap (·.forQueue)

omit [DecidableEq C] [DecidableEq T] in
/-- A step is at most one step of the queue. -/
theorem Event.forQueue_cases (event : Event C T) : event.forQueue = [] ∨ ∃ q, event.forQueue = [q] := by
  cases event with
  | queue q => exact .inr ⟨q, rfl⟩
  | sent t kb key => exact .inr ⟨_, rfl⟩
  | rejected t e => exact .inr ⟨_, rfl⟩
  | step | reconciler | gaveUp => exact .inl rfl

theorem Inv.run (hrun : Run (Step concurrency declared) (.new capacity health watching) events s) : Inv s := by
  refine hrun.keeps ⟨nofun, ?_, ?_, ?_, nofun⟩ fun _ _ _ => Inv.step
  all_goals exact fun hle => absurd hle (show ¬ _ ≤ 0 by decide)

omit [DecidableEq C] [DecidableEq T] in
/-- No step of the worker is a producer's. -/
theorem not_accepted {x y : Service (Producer C T)} {p : Producer C T} {e : IndexEvent}
    (hstep : Service.Step concurrency x (.accepted p e) y) : y.holding ≠ x.holding := by
  cases hstep with
  | deliver hholding =>
    rw [hholding]
    intro heq
    have hlength := congrArg List.length heq
    simp only [List.length_append, List.length_cons] at hlength
    omega

/-- Once the worker is cancelled, no producer delivers or is turned away. -/
theorem nobody (hinv : Inv s) (hbarrier : Reconciler.Barrier s.reconciler)
    (hstep : Step concurrency declared s event s') (hcancelled : s.service.cancelled = true)
    (p : Producer C T) (e : IndexEvent) :
    .accepted p e ∉ event.forQueue ∧ .refused p e .closed ∉ event.forQueue := by
  have hholding : s.service.holding = [] :=
    hinv.no_holders hbarrier (Nat.le_of_succ_le (hinv.cancelled hcancelled))
  have hnone : ∀ {before after : List (Producer C T × IndexEvent)} {a : Producer C T × IndexEvent} {Q : Prop},
      s.service.holding = before ++ a :: after → Q := fun heq =>
    absurd (hholding.symm.trans heq).symm (List.append_ne_nil_of_right_ne_nil _ (List.cons_ne_nil _ _))
  cases hstep with
  | worker hstep hsame _ _ hrefused =>
    refine ⟨fun hmem => ?_, fun hmem => hrefused p e .closed (List.mem_singleton.mp hmem).symm⟩
    rw [← List.mem_singleton.mp hmem] at hstep
    exact not_accepted hstep hsame
  | deliver _ hheld => exact hnone hheld
  | closed _ hheld => exact hnone hheld
  | send hheld => exact hnone hheld
  | reject hheld => exact hnone hheld
  | acquire | full | reconciler | accept | disconnect | signal | served | unwatch | bridgeEnds | unwatched |
    reconciled | cancelWorker | joined | giveUp => simp [Event.forQueue]

omit [DecidableEq C] [DecidableEq T] in
/-- A worker that has stopped stays so. -/
theorem stopped_stays {x y : Service (Producer C T)} {q : QueueEvent (Producer C T)} (h : x.control = .stopped)
    (hstep : Service.Step concurrency x q y) : y.control = .stopped := by
  cases hstep with
  | acquire | full | deliver | closed | dropSenders | cancel => exact h
  | ends | drained | timeout | panic => rfl
  | startReady hcontrol => rw [h] at hcontrol; cases hcontrol
  | receive hcontrol => rw [h] at hcontrol; cases hcontrol
  | disconnected hcontrol => rw [h] at hcontrol; cases hcontrol
  | finished hcontrol => rw [h] at hcontrol; cases hcontrol
  | shutdown hcontrol => rw [h] at hcontrol; cases hcontrol
  | tryRecv hcontrol => rw [h] at hcontrol; cases hcontrol
  | drains hcontrol => rw [h] at hcontrol; cases hcontrol
  | startDraining hcontrol => rw [h] at hcontrol; cases hcontrol
  | finishedDraining hcontrol => rw [h] at hcontrol; cases hcontrol

/-- The server ends when its worker has, or when it gave up waiting for it. -/
theorem complete_step (h : s.phase = .complete → s.service.control = .stopped) (hsenders : s.service.senders = true)
    (hstep : Step concurrency declared s event s') (hwaited : event ≠ .gaveUp) :
    s'.phase = .complete → s'.service.control = .stopped := by
  intro hcomplete
  by_cases hbefore : s.phase = .complete
  · exact (service_step hsenders hstep).keeps (h hbefore) fun _ _ _ => stopped_stays
  · cases hstep with
    | joined _ hstopped => exact hstopped
    | giveUp => exact absurd rfl hwaited
    | signal => cases hcomplete
    | served => cases hcomplete
    | unwatched => cases hcomplete
    | reconciled => cases hcomplete
    | cancelWorker => cases hcomplete
    | _ => exact absurd hcomplete hbefore

/-- The order of the shutdown loses nothing. In every run, whatever the connections, the watcher's bridge
and the reconciler's passes do meanwhile: no producer is turned away from a closed queue unless the worker
panicked or its drain timed out; and when the server has ended without that, and has waited for the worker,
every event that was accepted has been handled, once, each key's in order. -/
theorem shutdown_loses_nothing (concurrency capacity : Nat) (declared : KbSlug → Bool) (health : IndexHealth)
    (watching : Bool) (events : List (Event C T)) (s : State C T)
    (hrun : Run (Step concurrency declared) (.new capacity health watching) events s)
    (hclean : ∀ e ∈ events, e ≠ .gaveUp ∧ e ≠ .queue .abandoned) :
    (∀ p e, .refused p e .closed ∉ queueEvents events) ∧
    (s.phase = .complete → s.service.holding = [] ∧ ∀ key,
      Loop.ofKey key (Service.handledOf (queueEvents events)) =
        Loop.ofKey key (Service.acceptedOf (queueEvents events))) := by
  have hlate : Service.Late (queueEvents events) s.service ∧
      (s.phase = .complete → s.service.control = .stopped) := by
    induction hrun with
    | start => exact ⟨⟨by simp [State.new, Service.new], nofun, rfl, nofun, nofun⟩, nofun⟩
    | @step events event s s' hrun hstep ih =>
      obtain ⟨hlate, hcomplete⟩ := ih fun e hmem => hclean e (List.mem_append_left _ hmem)
      obtain ⟨hsenders, hservice, hreconciler⟩ := parts hrun
      have hnobody := nobody (Inv.run hrun) (Reconciler.Barrier.run hreconciler) hstep
      have hwaited := (hclean event (List.mem_append_right _ (List.mem_singleton_self _))).1
      refine ⟨?_, complete_step hcomplete hsenders hstep hwaited⟩
      rw [queueEvents, List.flatMap_append, List.flatMap_singleton]
      have hsteps := service_step hsenders hstep
      rcases event.forQueue_cases with hnil | ⟨q, hsingle⟩
      · rw [hnil] at hsteps ⊢
        rw [hsteps.eq_of_nil, List.append_nil]
        exact hlate
      · rw [hsingle] at hsteps hnobody ⊢
        obtain ⟨next, hfirst, hrest⟩ := hsteps.head
        obtain rfl := hrest.eq_of_nil
        refine hlate.step (Service.account hservice).2.2 hsenders hfirst fun hnow p e => ?_
        obtain ⟨haccepted, hclosed⟩ := hnobody hnow p e
        exact ⟨fun heq => haccepted (heq ▸ List.mem_singleton_self _),
          fun heq => hclosed (heq ▸ List.mem_singleton_self _)⟩
  have habandoned : .abandoned ∉ queueEvents events := by
    intro hmem
    obtain ⟨e, hmem, he⟩ := List.mem_flatMap.mp hmem
    cases e <;> simp [Event.forQueue] at he
    subst he
    exact (hclean _ hmem).2 rfl
  refine ⟨fun p e hmem => habandoned (hlate.1.closed p e hmem), fun hdone => ?_⟩
  obtain ⟨-, hservice, hreconciler⟩ := parts hrun
  have hinv := Inv.run hrun
  refine ⟨hinv.no_holders (Reconciler.Barrier.run hreconciler) (by rw [hdone]; decide), fun key => ?_⟩
  have hflow := (Service.account hservice).2.2
  rw [Service.Flow, hlate.2 hdone] at hflow
  exact (hflow.handled habandoned key).trans (congrArg (Loop.ofKey key) hlate.1.accepted)

/-! ## A write while the server stops -/

/-- A step of the worker. -/
theorem Step.ofWorker {q : QueueEvent (Producer C T)} {x : Service (Producer C T)}
    (hstep : Service.Step concurrency s.service q x) (hquiet : q = .step ∨ q = .drains ∨ ∃ e, q = .handled e)
    (hsame : (x.holding, x.senders, x.cancelled) =
      (s.service.holding, s.service.senders, s.service.cancelled)) :
    Step concurrency declared s (.queue q) { s with service := x } := by
  simp only [Prod.mk.injEq] at hsame
  refine .worker hstep hsame.1 hsame.2.1 hsame.2.2 fun p e error heq => ?_
  rcases hquiet with rfl | rfl | ⟨_, rfl⟩ <;> cases heq

/-- A write is accepted after the signal, and handled in the drain. -/
theorem shutdown_loses_nothing_one : ∃ (events : List (Event Unit Unit)) (s : State Unit Unit),
    Run (Step 1 fun _ => true) (.new 1 .new false) events s ∧ s.phase = .complete ∧
      Service.acceptedOf (queueEvents events) = [Service.document] ∧
      ∀ key, Loop.ofKey key (Service.handledOf (queueEvents events)) =
        Loop.ofKey key (Service.acceptedOf (queueEvents events)) := by
  have hstart : Run (Step 1 fun _ => true) (.new 1 .new false : State Unit Unit) [] (.new 1 .new false) := .start
  have hheld := ((hstart.step (.accept (c := ()) rfl rfl)).step (.signal rfl)).step
    (@Step.acquire _ _ _ _ 1 _ _ (.connection ()) Service.document _ rfl rfl)
  have haccepted := hheld.step
    (@Step.deliver _ _ _ _ 1 _ _ (.connection ()) Service.document [] [] id rfl rfl)
  have hserved := (haccepted.step (.disconnect (c := ()) rfl nofun)).step (.served rfl nofun)
  have hunwatched := hserved.step (.unwatched rfl rfl rfl)
  have hstopped := ((hunwatched.step (.reconciler .cancel nofun nofun (.inr rfl))).step
    (.reconciler (.close rfl) nofun nofun (.inr rfl))).step
    (.reconciler (.stops rfl fun _ htracked => htracked) nofun nofun (.inr rfl))
  have hreconciled := hstopped.step (.reconciled rfl rfl)
  have hselecting := hreconciled.step (.ofWorker (.startReady rfl Service.startReady_empty (by decide)) (.inl rfl) rfl)
  have hcancelled := hselecting.step (.cancelWorker rfl)
  have hreceived := (hcancelled.step (.ofWorker (.shutdown rfl rfl) (.inl rfl) rfl)).step
    (.ofWorker (.tryRecv rfl rfl) (.inl rfl) rfl)
  have hdrains := hreceived.step (.ofWorker (.drains rfl rfl) (.inr (.inl rfl)) rfl)
  have hstarted := hdrains.step
    (.ofWorker (.startDraining rfl (by decide) Service.startReady_document) (.inl rfl) rfl)
  have hhandled := hstarted.step (.ofWorker (@Service.Step.finishedDraining _ 1 _
    (Service.document.key, Service.document) [] [] rfl rfl) (.inr (.inr ⟨_, rfl⟩)) rfl)
  have hdone := (hhandled.step (.ofWorker (.drained rfl (by decide)) (.inl rfl) rfl)).step (.joined rfl rfl)
  refine ⟨_, _, hdone, rfl, rfl, ((shutdown_loses_nothing _ _ _ _ _ _ _ hdone ?_).2 rfl).2⟩
  simp

end Shutdown
