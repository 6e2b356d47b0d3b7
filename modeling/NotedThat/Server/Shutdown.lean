-- SUMMARY: The server's shutdown over its listener, watcher, reconciler and index worker: what was accepted is handled.
import NotedThat.Indexer.QueuedEvents
import NotedThat.Server.ReconcilePasses

/-!
# Shutdown

`serve` ends whoever can put events into the index queue, one after the other, and then cancels the
worker: the connections when no more are accepted, the bridge behind the filesystem watcher, and the
passes of the reconciler. So nothing is accepted behind the worker's back.
-/

namespace Shutdown

open Traces Indexer

/-- Who puts events into the index queue. -/
inductive Producer (C T : Type) where
  | connection (c : C)
  /-- The task behind the filesystem watcher. -/
  | bridge
  /-- A pass of the reconciler. -/
  | pass (t : T)

inductive Connection where
  | fresh
  | opened
  | closed
deriving DecidableEq

/-- How far `serve` is. -/
inductive Phase where
  | serving
  /-- The token is cancelled, and no more connections are accepted. -/
  | closing
  /-- All connections have closed. -/
  | served
  /-- `FsWatch::stop` has returned. -/
  | unwatched
  /-- `Reconciler::stop` has returned. -/
  | reconciled
  /-- The worker is cancelled. -/
  | draining
  | complete
deriving DecidableEq

structure State (C T : Type) where
  service : Service (Producer C T)
  reconciler : Reconciler.State T
  connection : C → Connection
  /-- The watcher still signals changes. -/
  watching : Bool
  bridge : Bool
  phase : Phase

/-- What a step was. -/
inductive Event (C T : Type) where
  | step
  | queue (event : QueueEvent (Producer C T))
  | reconciler (event : Reconciler.Event T)
  /-- A pass sent a refresh, and the queue accepted it. -/
  | sent (t : T) (kb : KbSlug) (key : ObjectPath)
  /-- A pass found the worker gone. -/
  | rejected (t : T) (event : IndexEvent)
  /-- The worker did not end in time, and was left. -/
  | gaveUp

section

variable {C T : Type} [DecidableEq C] [DecidableEq T]

/-- The server has started. On `s3` there is no watcher. -/
def State.new (capacity : Nat) (health : IndexHealth) (watching : Bool) : State C T :=
  ⟨.new capacity, .new health, fun _ => .fresh, watching, watching, .serving⟩

/-- The producer is about to put in the event. -/
def State.May (s : State C T) (event : IndexEvent) : Producer C T → Prop
  | .connection c => s.connection c = .opened
  | .bridge => s.bridge = true
  | .pass t => ∃ kb key keys report more,
      s.reconciler.stage t = .polled (.pass kb (.sending (key :: keys) report) more) ∧
        event = .refresh kb key .reconcile

def Producer.IsPass : Producer C T → Prop
  | .pass _ => True
  | .connection _ | .bridge => False

/-- The producer has a permit. -/
def State.hold (s : State C T) (q : IndexQueue) (p : Producer C T) (event : IndexEvent) : State C T :=
  { s with service := { s.service with queue := q, holding := s.service.holding ++ [(p, event)] } }

/-- The event goes into the channel. -/
def State.deliver (s : State C T) (holding : List (Producer C T × IndexEvent)) (event : IndexEvent) :
    State C T :=
  { s with service := { s.service with holding := holding, queue := s.service.queue.push event } }

/-- The permit goes back with the event. -/
def State.giveBack (s : State C T) (holding : List (Producer C T × IndexEvent)) : State C T :=
  { s with service := { s.service with holding := holding, queue := s.service.queue.release 1 } }

/-- A step of the worker, of a producer, of the reconciler, or of `serve`. -/
inductive Step (concurrency : Nat) (declared : KbSlug → Bool) : State C T → Event C T → State C T → Prop where
  | worker {s : State C T} {event : QueueEvent (Producer C T)} {x : Service (Producer C T)} :
      Service.Step concurrency s.service event x → x.holding = s.service.holding →
      x.senders = s.service.senders → x.cancelled = s.service.cancelled →
      (∀ p e error, event ≠ .refused p e error) →
      Step concurrency declared s (.queue event) { s with service := x }
  | acquire {s : State C T} {p : Producer C T} {event : IndexEvent} {q : IndexQueue} : s.May event p →
      s.service.queue.tryAcquire = some q → Step concurrency declared s (.queue .step) (s.hold q p event)
  | full {s : State C T} {p : Producer C T} {event : IndexEvent} : s.May event p → ¬ p.IsPass →
      s.service.queue.tryAcquire = none → Step concurrency declared s (.queue (.refused p event .full)) s
  | deliver {s : State C T} {p : Producer C T} {event : IndexEvent}
      {before after : List (Producer C T × IndexEvent)} : ¬ p.IsPass →
      s.service.holding = before ++ (p, event) :: after → s.service.queue.receiver = true →
      Step concurrency declared s (.queue (.accepted p event)) (s.deliver (before ++ after) event)
  | closed {s : State C T} {p : Producer C T} {event : IndexEvent}
      {before after : List (Producer C T × IndexEvent)} : ¬ p.IsPass →
      s.service.holding = before ++ (p, event) :: after → s.service.queue.receiver = false →
      Step concurrency declared s (.queue (.refused p event .closed)) (s.giveBack (before ++ after))
  | send {s : State C T} {t : T} {kb : KbSlug} {key : ObjectPath} {r : Reconciler.State T}
      {before after : List (Producer C T × IndexEvent)} :
      s.service.holding = before ++ (.pass t, .refresh kb key .reconcile) :: after →
      s.service.queue.receiver = true → Reconciler.Step declared s.reconciler (.sent t kb key) r →
      (∀ event, (.pass t, event) ∉ before ++ after) →
      Step concurrency declared s (.sent t kb key)
        { s.deliver (before ++ after) (.refresh kb key .reconcile) with reconciler := r }
  | reject {s : State C T} {t : T} {event : IndexEvent} {kb : KbSlug} {place : Reconciler.Place}
      {more : Option (List KbSlug)} {before after : List (Producer C T × IndexEvent)} :
      s.service.holding = before ++ (.pass t, event) :: after → s.service.queue.receiver = false →
      s.reconciler.stage t = .polled (.pass kb place more) → place.Awaits →
      (∀ event, (.pass t, event) ∉ before ++ after) →
      Step concurrency declared s (.rejected t event)
        { s.giveBack (before ++ after) with
          reconciler := s.reconciler.set t (.polled (.leaving kb more)) }
  -- a task with a permit delivers first, and `stop` is called once the watcher is stopped
  | reconciler {s : State C T} {event : Reconciler.Event T} {r : Reconciler.State T} :
      Reconciler.Step declared s.reconciler event r → (∀ t kb key, event ≠ .sent t kb key) →
      (∀ t e, (.pass t, e) ∈ s.service.holding → r.stage t = s.reconciler.stage t) →
      (r.cancelled = s.reconciler.cancelled ∨ s.phase = .unwatched) →
      Step concurrency declared s (.reconciler event) { s with reconciler := r }
  | accept {s : State C T} {c : C} : s.phase = .serving → s.connection c = .fresh →
      Step concurrency declared s .step { s with connection := Function.update s.connection c .opened }
  | disconnect {s : State C T} {c : C} : s.connection c = .opened →
      (∀ e, (.connection c, e) ∉ s.service.holding) →
      Step concurrency declared s .step { s with connection := Function.update s.connection c .closed }
  | signal {s : State C T} : s.phase = .serving →
      Step concurrency declared s .step { s with phase := .closing }
  | served {s : State C T} : s.phase = .closing → (∀ c, s.connection c ≠ .opened) →
      Step concurrency declared s .step { s with phase := .served }
  | unwatch {s : State C T} : s.phase = .served →
      Step concurrency declared s .step { s with watching := false }
  -- no more signals come, or the worker is gone
  | bridgeEnds {s : State C T} : s.watching = false ∨ s.service.queue.receiver = false →
      (∀ e, (.bridge, e) ∉ s.service.holding) →
      Step concurrency declared s .step { s with bridge := false }
  | unwatched {s : State C T} : s.phase = .served → s.watching = false → s.bridge = false →
      Step concurrency declared s .step { s with phase := .unwatched }
  | reconciled {s : State C T} : s.phase = .unwatched → s.reconciler.stopped = true →
      Step concurrency declared s .step { s with phase := .reconciled }
  | cancelWorker {s : State C T} : s.phase = .reconciled →
      Step concurrency declared s (.queue .step)
        { s with service := { s.service with cancelled := true }, phase := .draining }
  | joined {s : State C T} : s.phase = .draining → s.service.control = .stopped →
      Step concurrency declared s .step { s with phase := .complete }
  | giveUp {s : State C T} : s.phase = .draining →
      Step concurrency declared s .gaveUp { s with phase := .complete }

/-! ## The parts -/

/-- What the step was for the queue. -/
def Event.forQueue : Event C T → List (QueueEvent (Producer C T))
  | .queue event => [event]
  | .sent t kb key => [.accepted (.pass t) (.refresh kb key .reconcile)]
  | .rejected t event => [.refused (.pass t) event .closed]
  | .step | .reconciler _ | .gaveUp => []

/-- What the step was for the reconciler. -/
def Event.forReconciler : Event C T → List (Reconciler.Event T)
  | .reconciler event => [event]
  | .sent t kb key => [.sent t kb key]
  | .rejected _ _ => [.step]
  | .step | .queue _ | .gaveUp => []

variable {concurrency capacity : Nat} {declared : KbSlug → Bool} {s s' : State C T} {event : Event C T}
  {events : List (Event C T)} {health : IndexHealth} {watching : Bool}

/-- No sender is dropped: the application state has one until `serve` returns. -/
theorem senders_step (h : s.service.senders = true) (hstep : Step concurrency declared s event s') :
    s'.service.senders = true := by
  cases hstep with
  | worker _ _ hsenders => exact hsenders.trans h
  | _ => exact h

theorem service_step (hsenders : s.service.senders = true) (hstep : Step concurrency declared s event s') :
    Run (Service.Step concurrency) s.service event.forQueue s'.service := by
  cases hstep with
  | worker hstep => exact .single hstep
  | acquire _ hacquire => exact .single (.acquire _ _ hsenders hacquire)
  | full _ _ hnone => exact .single (.full _ _ hsenders hnone)
  | deliver _ hholding hreceiver => exact .single (.deliver hholding hreceiver)
  | closed _ hholding hreceiver => exact .single (.closed hholding hreceiver)
  | send hholding hreceiver => exact .single (.deliver hholding hreceiver)
  | reject hholding hreceiver => exact .single (.closed hholding hreceiver)
  | cancelWorker => exact .single .cancel
  | reconciler | accept | disconnect | signal | served | unwatch | bridgeEnds | unwatched | reconciled |
    joined | giveUp => exact .start

theorem reconciler_step (hstep : Step concurrency declared s event s') :
    Run (Reconciler.Step declared) s.reconciler event.forReconciler s'.reconciler := by
  cases hstep with
  | send _ _ hstep => exact .single hstep
  | reject _ _ hstage hawaits => exact .single (.fails hstage hawaits)
  | reconciler hstep => exact .single hstep
  | worker | acquire | full | deliver | closed | accept | disconnect | signal | served | unwatch |
    bridgeEnds | unwatched | reconciled | cancelWorker | joined | giveUp => exact .start

/-- The queue's part of a run is a run of the queue, and the reconciler's part one of the reconciler. -/
theorem parts (hrun : Run (Step concurrency declared) (.new capacity health watching) events s) :
    s.service.senders = true ∧
      Run (Service.Step concurrency) (.new capacity) (events.flatMap (·.forQueue)) s.service ∧
      Run (Reconciler.Step declared) (.new health) (events.flatMap (·.forReconciler)) s.reconciler := by
  induction hrun with
  | start => exact ⟨rfl, .start, .start⟩
  | step _ hstep ih =>
    obtain ⟨hsenders, hservice, hreconciler⟩ := ih
    rw [List.flatMap_append, List.flatMap_append, List.flatMap_singleton, List.flatMap_singleton]
    exact ⟨senders_step hsenders hstep, hservice.trans (service_step hsenders hstep),
      hreconciler.trans (reconciler_step hstep)⟩

/-! ## Who may still put events in -/

/-- The connections have closed, and so on. -/
def Phase.order : Phase → Nat
  | .serving => 0
  | .closing => 1
  | .served => 2
  | .unwatched => 3
  | .reconciled => 4
  | .draining => 5
  | .complete => 6

/-- Who has a permit may deliver, and each phase has ended some of them. -/
structure Inv (s : State C T) : Prop where
  holders : ∀ p e, (p, e) ∈ s.service.holding → s.May e p
  served : 2 ≤ s.phase.order → ∀ c, s.connection c ≠ .opened
  unwatched : 3 ≤ s.phase.order → s.bridge = false
  reconciled : 4 ≤ s.phase.order → s.reconciler.stopped = true
  cancelled : s.service.cancelled = true → 5 ≤ s.phase.order

omit [DecidableEq C] [DecidableEq T] in
/-- Then nobody may. -/
theorem Inv.nobody (h : Inv s) (hbarrier : Reconciler.Barrier s.reconciler) (hphase : 4 ≤ s.phase.order)
    (e : IndexEvent) (p : Producer C T) : ¬ s.May e p := by
  intro hmay
  cases p with
  | connection c => exact h.served (by omega) c hmay
  | bridge =>
    rw [State.May, h.unwatched (by omega)] at hmay
    cases hmay
  | pass t =>
    obtain ⟨kb, key, keys, report, more, hstage, -⟩ := hmay
    exact (hbarrier.stopped (h.reconciled hphase)).2 _ _ _ _ hstage

omit [DecidableEq C] [DecidableEq T] in
theorem Inv.no_holders (h : Inv s) (hbarrier : Reconciler.Barrier s.reconciler) (hphase : 4 ≤ s.phase.order) :
    s.service.holding = [] := by
  refine List.eq_nil_iff_forall_not_mem.mpr ?_
  rintro ⟨p, e⟩ hmem
  exact h.nobody hbarrier hphase e p (h.holders p e hmem)

omit [DecidableEq C] [DecidableEq T] in
/-- A step of the queue, after which nobody else has a permit. -/
theorem Inv.service {x : Service (Producer C T)} (h : Inv s)
    (hholding : ∀ p e, (p, e) ∈ x.holding → (p, e) ∈ s.service.holding ∨ s.May e p)
    (hcancelled : x.cancelled = s.service.cancelled) : Inv { s with service := x } where
  holders p e hmem := (hholding p e hmem).elim (h.holders p e) id
  served := h.served
  unwatched := h.unwatched
  reconciled := h.reconciled
  cancelled hnow := h.cancelled (hcancelled.symm.trans hnow)

theorem mem_of_removed {α : Type} {before after all : List α} {a b : α} (hall : all = before ++ a :: after)
    (hmem : b ∈ before ++ after) : b ∈ all := by
  subst hall
  rcases List.mem_append.mp hmem with hmem | hmem
  · exact List.mem_append_left _ hmem
  · exact List.mem_append_right _ (List.mem_cons_of_mem _ hmem)

omit [DecidableEq C] [DecidableEq T] in
/-- The reconciler goes on, none of whose tasks with a permit takes a step. -/
theorem Inv.reconciler {r : Reconciler.State T} (h : Inv s)
    (hholding : ∀ t e, (.pass t, e) ∈ s.service.holding → r.stage t = s.reconciler.stage t)
    (hstopped : s.reconciler.stopped = true → r.stopped = true) : Inv { s with reconciler := r } where
  holders p e hmem := by
    have hmay := h.holders p e hmem
    cases p with
    | pass t =>
      obtain ⟨kb, key, keys, report, more, hstage, he⟩ := hmay
      exact ⟨kb, key, keys, report, more, (hholding t e hmem).trans hstage, he⟩
    | connection => exact hmay
    | bridge => exact hmay
  served := h.served
  unwatched := h.unwatched
  reconciled hphase := hstopped (h.reconciled hphase)
  cancelled := h.cancelled

/-- A step of one task leaves the stages of the others. -/
theorem stage_other {r r' : Reconciler.State T} {t u : T} {kb : KbSlug} {key : ObjectPath}
    (hstep : Reconciler.Step declared r (.sent t kb key) r') (hu : u ≠ t) : r'.stage u = r.stage u := by
  cases hstep with
  | send => rw [Reconciler.stage_set, if_neg hu]

omit [DecidableEq C] [DecidableEq T] in
/-- `serve` goes on, when what the next phase says is so. -/
theorem Inv.advance {phase : Phase} (h : Inv s) (hserved : 2 ≤ phase.order → ∀ c, s.connection c ≠ .opened)
    (hunwatched : 3 ≤ phase.order → s.bridge = false)
    (hreconciled : 4 ≤ phase.order → s.reconciler.stopped = true)
    (hcancelled : s.service.cancelled = true → 5 ≤ phase.order) : Inv { s with phase := phase } :=
  ⟨h.holders, hserved, hunwatched, hreconciled, hcancelled⟩

omit [DecidableEq C] [DecidableEq T] in
/-- The last phases end no one more. -/
theorem Inv.last (h : Inv s) (hphase : 4 ≤ s.phase.order) (phase : Phase)
    (hcancelled : s.service.cancelled = true → 5 ≤ phase.order) : Inv { s with phase := phase } :=
  h.advance (fun _ => h.served (by omega)) (fun _ => h.unwatched (by omega)) (fun _ => h.reconciled hphase)
    hcancelled

theorem Inv.step (h : Inv s) (hstep : Step concurrency declared s event s') : Inv s' := by
  cases hstep with
  | worker _ hholding _ hcancelled => exact h.service (fun p e hmem => .inl (hholding ▸ hmem)) hcancelled
  | acquire hmay =>
    refine h.service (fun p e hmem => ?_) rfl
    rcases List.mem_append.mp hmem with hmem | hmem
    · exact .inl hmem
    · cases List.mem_singleton.mp hmem
      exact .inr hmay
  | full => exact h
  | deliver _ hholding => exact h.service (fun p e hmem => .inl (mem_of_removed hholding hmem)) rfl
  | closed _ hholding => exact h.service (fun p e hmem => .inl (mem_of_removed hholding hmem)) rfl
  | @send t kb key r before after hholding _ hstep hnone =>
    have hdelivered : Inv (s.deliver (before ++ after) (.refresh kb key .reconcile)) :=
      h.service (fun p e hmem => .inl (mem_of_removed hholding hmem)) rfl
    refine hdelivered.reconciler (fun u e hmem => stage_other hstep ?_) (Reconciler.stopped_step · hstep)
    rintro rfl
    exact hnone e hmem
  | @reject t event kb place more before after hholding _ hstage _ hnone =>
    have hback : Inv (s.giveBack (before ++ after)) :=
      h.service (fun p e hmem => .inl (mem_of_removed hholding hmem)) rfl
    refine hback.reconciler (fun u e hmem => ?_) id
    rw [Reconciler.stage_set, if_neg]
    · rfl
    · rintro rfl
      exact hnone e hmem
  | reconciler hstep _ hholding => exact h.reconciler hholding (Reconciler.stopped_step · hstep)
  | @accept c hphase hfresh =>
    refine ⟨fun p e hmem => ?_, fun hserved => ?_, h.unwatched, h.reconciled, h.cancelled⟩
    · have hmay := h.holders p e hmem
      cases p with
      | connection d =>
        show Function.update s.connection c .opened d = .opened
        rw [Function.update_apply]
        split
        · rfl
        · exact hmay
      | bridge => exact hmay
      | pass t => exact hmay
    · have hserved : 2 ≤ s.phase.order := hserved
      rw [hphase] at hserved
      exact absurd hserved (by decide)
  | @disconnect c hopened hnone =>
    refine ⟨fun p e hmem => ?_, fun hserved d => ?_, h.unwatched, h.reconciled, h.cancelled⟩
    · have hmay := h.holders p e hmem
      cases p with
      | connection d =>
        show Function.update s.connection c .closed d = .opened
        rw [Function.update_apply, if_neg]
        · exact hmay
        · rintro rfl
          exact hnone e hmem
      | bridge => exact hmay
      | pass t => exact hmay
    · exact absurd hopened (h.served hserved c)
  | signal hphase =>
    exact h.advance (fun hle => absurd hle (by decide)) (fun hle => absurd hle (by decide))
      (fun hle => absurd hle (by decide)) fun hnow => absurd (hphase ▸ h.cancelled hnow) (by decide)
  | served hphase hnone =>
    exact h.advance (fun _ => hnone) (fun hle => absurd hle (by decide)) (fun hle => absurd hle (by decide))
      fun hnow => absurd (hphase ▸ h.cancelled hnow) (by decide)
  | unwatch => exact ⟨h.holders, h.served, h.unwatched, h.reconciled, h.cancelled⟩
  | bridgeEnds _ hnone =>
    refine ⟨fun p e hmem => ?_, h.served, fun _ => rfl, h.reconciled, h.cancelled⟩
    have hmay := h.holders p e hmem
    cases p with
    | bridge => exact absurd hmem (hnone e)
    | connection c => exact hmay
    | pass t => exact hmay
  | unwatched hphase _ hbridge =>
    exact h.advance (fun _ => h.served (by rw [hphase]; decide)) (fun _ => hbridge)
      (fun hle => absurd hle (by decide)) fun hnow => absurd (hphase ▸ h.cancelled hnow) (by decide)
  | reconciled hphase hstopped =>
    exact h.advance (fun _ => h.served (by rw [hphase]; decide)) (fun _ => h.unwatched (by rw [hphase]; decide))
      (fun _ => hstopped) fun hnow => absurd (hphase ▸ h.cancelled hnow) (by decide)
  | cancelWorker hphase =>
    have hdraining := h.last (by rw [hphase]; decide) .draining fun _ => Nat.le_refl 5
    exact ⟨h.holders, hdraining.served, hdraining.unwatched, hdraining.reconciled, fun _ => Nat.le_refl 5⟩
  | joined hphase => exact h.last (by rw [hphase]; decide) .complete fun _ => Nat.le_succ 5
  | giveUp hphase => exact h.last (by rw [hphase]; decide) .complete fun _ => Nat.le_succ 5

end

end Shutdown
