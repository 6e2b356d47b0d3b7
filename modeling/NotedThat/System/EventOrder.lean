-- SUMMARY: When the outcome of an indexing follows the announcement of the write it is about, over every run of the server.
import NotedThat.Lib.Drops
import NotedThat.System.Server
import NotedThat.Write.Droppable

/-!
# Outcomes follow announcements

A write is stored, then published, then enqueued, so its own index event is handled after it is on
the log. But a handling indexes the version it finds, and that may be one whose writer has stored
it and not yet published it, or was dropped before it could. Then the outcome of indexing overtakes
the announcement, or there is none.
-/

namespace EventOrder

open Prog (wp)
open Semantics (Event)
open Indexer
open Server
open Write (Announces)

/-! ## What a handling reports -/

/-- No version is forgotten. -/
def grows : Rely World where
  rel := fun w w' => ∀ e ∈ w.store.history, e ∈ w'.store.history
  refl := fun _ _ he => he
  trans := fun h h' e he => h' e (h e he)

/-- An operation that publishes no outcome of indexing. -/
def Unindexed (o : Op) : Prop :=
  ∀ event etag mime chunks, o = .publish event → event.kind ≠ .indexed etag mime chunks

/-- An outcome of indexing names a version its key had. -/
def Names (e : Event) : Prop :=
  ∀ event etag mime chunks, e.op = .publish event → event.kind = .indexed etag mime chunks →
    ∃ v, (event.key, v) ∈ e.pre.store.history ∧ v.etag.val = etag

/-- If a handling of `k` ended with an index, it is one of a version `k` had. -/
def Found {ε : Type} (k : Key) (w : World) : Except ε PipelineOutcome → Prop
  | .ok (.indexed etag _ _) => ∃ v, (k, v) ∈ w.store.history ∧ v.etag.val = etag
  | _ => True

variable {S : Semantics} {worker : IndexerWorker} {kb : KbSlug} {objectKey : ObjectPath}
variable {h : List Event} {w : World}

/-- The weakest precondition used for threads. -/
abbrev names (S : Semantics) {α : Type} (p : Program α)
    (Q : α → List Event → World → Prop) (h : List Event) (w : World) : Prop :=
  wp S.Step grows (fun _ => Names) p Q h w

theorem Unindexed.names {e : Event} (h : Unindexed e.op) : Names e :=
  fun event etag mime chunks ho hkind => absurd hkind (h event etag mime chunks ho)

theorem WorkOp.unindexed {k : Key} {o : Op} (h : WorkOp k o) : Unindexed o :=
  fun event _ _ _ ho => absurd ho (h.2.1 event)

theorem RequestOp.unindexed {o : Op} (ho : Write.RequestOp o) : Unindexed o := by
  intro event etag mime chunks heq
  subst heq
  exact ho etag mime chunks

/-- A program that publishes no outcome of indexing keeps what growth keeps. -/
theorem names_unindexed {α : Type} {p : Program α} {q : α → Prop} {I : World → Prop}
    (hp : p.Only Unindexed q) (hI : ∀ w w', grows.rel w w' → I w → I w') (hw : I w) :
    names S p (fun a _ w => q a ∧ I w) h w := by
  refine wp.of_invariant hp (fun _ _ ho => Unindexed.names ho) hI ?_ hw
  exact fun s o r s' _ hstep => hI s s' hstep.history_cases.1

/-- A program that publishes no outcome of indexing keeps what it may return. -/
theorem names_only {α : Type} {p : Program α} {q : α → Prop} (hp : p.Only Unindexed q) :
    names S p (fun a _ _ => q a) h w :=
  (names_unindexed hp (I := fun _ => True) (fun _ _ _ h => h) trivial).mono fun _ _ _ hr => hr.1

theorem publish_unindexed {event : ObjectEvent}
    (hkind : ∀ etag mime chunks, event.kind ≠ .indexed etag mime chunks) :
    (publish worker event).Only Unindexed fun _ => True := by
  unfold publish
  split
  · refine ⟨fun event' etag mime chunks ho => ?_, fun _ => trivial⟩
    cases ho
    exact hkind etag mime chunks
  · trivial

theorem remember_unindexed {etag : Option Text} :
    (remember worker kb objectKey etag).Only Unindexed fun _ => True := by
  unfold remember
  split
  · exact ⟨fun _ _ _ _ ho => (by cases ho), fun _ => trivial⟩
  · trivial

theorem announce_unindexed {event : ObjectEvent}
    (hkind : ∀ etag mime chunks, event.kind ≠ .indexed etag mime chunks) :
    (announce worker event).Only Unindexed fun _ => True := by
  unfold announce
  split
  · trivial
  · refine Prog.Only.call (fun _ _ _ _ ho => by cases ho) fun news => ?_
    split
    · trivial
    · exact remember_unindexed.andThen fun _ => publish_unindexed hkind

theorem tellMissing_unindexed {told : Told} :
    (tellMissing worker kb objectKey told).Only Unindexed fun _ => True := by
  cases told with
  | written => trivial
  | deleted => exact remember_unindexed
  | nothing source => exact announce_unindexed fun _ _ _ h => by cases h

theorem tellFound_unindexed {head : ObjectMeta} {told : Told} :
    (tellFound worker kb objectKey head told).Only Unindexed fun _ => True := by
  cases told with
  | written => exact remember_unindexed
  | deleted => trivial
  | nothing source => exact announce_unindexed fun _ _ _ h => by cases h

theorem tombstone_unindexed :
    (tombstoneBeforeHead kb objectKey).Only Unindexed (IndexedAs none) :=
  (tombstoneBeforeHead_only none).mono (fun _ => WorkOp.unindexed) fun _ hr => hr

theorem found_of_indexedAs {ε : Type} {k : Key} {v : Version} (hv : (k, v) ∈ w.store.history)
    {r : Except ε PipelineOutcome} (hr : IndexedAs (some v.etag.val) r) : Found k w r := by
  cases r with
  | error e => trivial
  | ok outcome =>
    cases outcome with
    | indexed etag mime chunks => exact ⟨v, hv, Option.some.inj hr⟩
    | skipped => trivial
    | tombstoned => trivial

theorem found_of_none {ε : Type} {k : Key} {r : Except ε PipelineOutcome}
    (hr : IndexedAs none r) : Found k w r := by
  cases r with
  | error e => trivial
  | ok outcome =>
    cases outcome with
    | indexed etag mime chunks => cases hr
    | skipped => trivial
    | tombstoned => trivial

theorem names_handleUpsert {skip : Skip} {told : Told} :
    names S (handleUpsert worker kb objectKey skip told)
      (fun r _ w => Found (kb, objectKey) w r) h w := by
  have htombstone : ∀ h w, names S (tombstoneBeforeHead kb objectKey)
      (fun r _ w => Found (kb, objectKey) w r) h w :=
    fun h w => (names_only tombstone_unindexed).mono fun r h w hr => found_of_none hr
  unfold handleUpsert
  split
  · exact htombstone h w
  · refine Semantics.wp_head (fun w' e hR _ => ⟨?_, ?_⟩) fun w' v hR hv => ⟨?_, ?_⟩
    · exact Unindexed.names fun _ _ _ _ ho => by cases ho
    · dsimp only
      split
      · apply wp.bind
        exact (names_only tellMissing_unindexed).mono fun _ h w _ => htombstone h w
      · split
        · exact htombstone _ _
        · exact htombstone _ _
        · exact fun _ _ => trivial
      · next heq => cases heq
    · exact Unindexed.names fun _ _ _ _ ho => by cases ho
    · have kept : ∀ w w' : World, grows.rel w w' → ((kb, objectKey), v) ∈ w.store.history →
          ((kb, objectKey), v) ∈ w'.store.history := fun w w' hR hw => hR _ hw
      apply wp.bind
      refine (names_unindexed tellFound_unindexed kept (w'.store.recorded _ v hv)).mono ?_
      intro _ h w hfound
      have hindex : (indexHead worker kb objectKey (v.objectMeta objectKey v.size)
          (resolveMime v.contentType objectKey) skip).Only Unindexed
          (IndexedAs (some v.etag.val)) :=
        indexHead_only.mono (fun _ => WorkOp.unindexed) fun _ hr => hr
      apply wp.bind
      refine (names_unindexed hindex kept hfound.2).mono fun r h w hr => ?_
      cases r with
      | error message => exact fun _ _ => trivial
      | ok outcome =>
        intro w' hR
        have hfound := found_of_indexedAs (kept w w' hR hr.2) hr.1
        cases outcome with
        | indexed etag mime chunks => exact hfound
        | skipped => trivial
        | tombstoned => trivial

theorem names_reportOutcome {tombstone : Bool} {r : Except PipelineFailure PipelineOutcome}
    (hr : Found (kb, objectKey) w r) :
    names S (reportOutcome worker kb objectKey tombstone r) (fun _ _ _ => True) h w := by
  have silent : ∀ {p : Program Unit}, p.Only Unindexed (fun _ => True) →
      names S p (fun _ _ _ => True) h w :=
    fun hp => names_only hp
  cases r with
  | error failure =>
    simp only [reportOutcome]
    split
    · exact silent (publish_unindexed fun _ _ _ hkind => by cases hkind)
    · exact silent trivial
  | ok outcome =>
    cases outcome with
    | skipped => exact silent trivial
    | tombstoned => exact silent trivial
    | indexed etag mime chunks =>
      obtain ⟨v, hv, hetag⟩ := hr
      simp only [reportOutcome, publish]
      split
      · intro w' hR r w'' _
        refine ⟨?_, fun _ _ => trivial⟩
        intro event etag' mime' chunks' ho hkind
        cases ho
        cases hkind
        exact ⟨v, hR _ hv, hetag⟩
      · exact silent trivial

theorem names_handle {event : IndexEvent} :
    names S (handle worker event) (fun _ _ _ => True) h w := by
  cases event with
  | upsert kb objectKey =>
    apply wp.bind
    exact names_handleUpsert.mono fun r h w hr => names_reportOutcome hr
  | refresh kb objectKey origin =>
    apply wp.bind
    exact names_handleUpsert.mono fun r h w hr => names_reportOutcome hr
  | tombstone kb objectKey =>
    apply wp.bind
    exact names_handleUpsert.mono fun r h w hr => names_reportOutcome hr

/-- A request reports no outcome of indexing. -/
theorem names_request {events : Bool} {p : Program Unit} (hp : Write.Dutiful events p) :
    names S p (fun _ _ _ => True) h w :=
  names_only (hp.only.mono (fun _ => RequestOp.unindexed) fun _ h => h)

/-! ## Requests that are dropped -/

variable {setup : Setup} {P P' : Threads} {s₀ : State}

/-- Where a request may be dropped: at an operation of storage, where it has no guard, and while it
publishes, where its guard offers the event it holds. -/
inductive Drops (setup : Setup) (s : State) : Party → Op → State → Prop where
  | storage (o : StorageOp) : Drops setup s .request (.storage o) s
  | publish {event : ObjectEvent} {held : IndexEvent} {r : Offered} {world : World}
      (hguard : Write.Droppable.guard (.publish event) = some held)
      (hoffer : setup.semantics.Step s.world (.trySend held) r world) :
      Drops setup s .request (.publish event) ⟨world, s.lanes⟩

/-- The threads of the server, and what is left of the requests dropped. -/
abbrev Crowd := DropPool State Party Op Op.Res

/-- A step of the server, or of a request that is dropped or was. -/
abbrev CrowdStep (setup : Setup) : Crowd → DropPool.Label Party Op → Crowd → Prop :=
  DropPool.Step (server setup) (Drops setup)

variable {D D' : Crowd} {l : DropPool.Label Party Op}

theorem Drops.request {s s' : State} {t : Party} {o : Op} (h : Drops setup s t o s') :
    t = .request := by
  cases h with
  | storage o => rfl
  | publish _ _ => rfl

/-- A drop leaves all but the index queue alone. -/
theorem Drops.state {s s' : State} {t : Party} {o : Op} (h : Drops setup s t o s') :
    s'.lanes = s.lanes ∧ s'.world.store = s.world.store ∧ s'.world.events = s.world.events := by
  cases h with
  | storage o => exact ⟨rfl, rfl, rfl⟩
  | publish hguard hoffer =>
    refine ⟨rfl, hoffer.store_eq (by simp), ?_⟩
    rcases hoffer.events_cases with hsame | ⟨event, heq, -⟩
    · exact hsame
    · cases heq

/-- The store and the event log change by operations only, a dropped request's among them. -/
theorem crowd_world (hs : CrowdStep setup D l D') :
    (∃ o r, l.op? = some o ∧
      setup.semantics.Step D.pool.state.world o r D'.pool.state.world) ∨
      (D'.pool.state.world.store = D.pool.state.world.store ∧
        D'.pool.state.world.events = D.pool.state.world.events ∧ l.op? = none) := by
  cases hs with
  | @thread _ _ l _ hs =>
    rcases step_world hs with ⟨t, o, r, rfl, hstep⟩ | ⟨hstore, hevents, hl⟩
    · exact .inl ⟨o, r, rfl, hstep⟩
    · refine .inr ⟨hstore, hevents, ?_⟩
      cases l with
      | op t o => exact absurd rfl (hl t o)
      | _ => rfl
  | drop hd => exact .inr ⟨hd.state.2.1, hd.state.2.2, rfl⟩
  | @late _ _ o _ r _ _ _ hsem => exact .inl ⟨o, r, rfl, hsem.1⟩

theorem crowd_grows (hs : CrowdStep setup D l D') :
    grows.rel D.pool.state.world D'.pool.state.world := by
  rcases crowd_world hs with ⟨o, r, -, hstep⟩ | ⟨hstore, -, -⟩
  · exact hstep.history_cases.1
  · intro e he
    rw [hstore]
    exact he

theorem events_subset (hs : CrowdStep setup D l D') :
    D.pool.state.world.events ⊆ D'.pool.state.world.events := by
  rcases crowd_world hs with ⟨o, r, -, hstep⟩ | ⟨-, hevents, -⟩
  · rcases hstep.events_cases with heq | ⟨event, -, heq⟩
    · rw [heq]
      exact fun _ he => he
    · rw [heq]
      exact List.subset_append_left _ _
  · rw [hevents]
    exact fun _ he => he

/-! ## What the threads keep -/

/-- The threads beside one that is gone. -/
theorem rest_subset {th : Party × Program Unit} {before after : List (Party × Program Unit)} :
    before ++ after ⊆ before ++ th :: after :=
  ((List.sublist_cons_self th after).append_left before).subset

/-- The state of a pool that is sound may change, if the lanes and the handlers do not. -/
theorem sound_of_lanes (h : Sound setup P) (hlanes : P'.state.lanes = P.state.lanes)
    (hhandled : handled P' = handled P) (hsub : P'.threads ⊆ P.threads) : Sound setup P' where
  lanes := hlanes ▸ h.lanes
  own := by
    rw [hlanes]
    exact h.own
  active := by
    rw [hlanes, hhandled]
    exact h.active
  single := hhandled ▸ h.single
  programs := fun th hth => h.programs th (hsub hth)

/-- Every thread that reports the outcome of an indexing names a version its key had. -/
def Traced (setup : Setup) (P : Threads) : Prop :=
  ∀ th ∈ P.threads, ∃ h, names setup.semantics th.2 (fun _ _ _ => True) h P.state.world

theorem Traced.of_grows (h : Traced setup P) (hgrows : grows.rel P.state.world P'.state.world)
    (hsub : P'.threads ⊆ P.threads) : Traced setup P' := by
  intro th hth
  obtain ⟨hist, hwp⟩ := h th (hsub hth)
  exact ⟨hist, hwp.stable hgrows⟩

theorem Traced.step {l : Pool.Label Party Op} (h : Traced setup P)
    (hs : Pool.Step (server setup) P l P') : Traced setup P' := by
  have hgrows : grows.rel P.state.world P'.state.world :=
    @crowd_grows setup ⟨P, []⟩ ⟨P', []⟩ _ (.thread hs)
  have keep : ∀ th ∈ P.threads,
      ∃ h, names setup.semantics th.2 (fun _ _ _ => True) h P'.state.world := by
    intro th hth
    obtain ⟨hist, hwp⟩ := h th hth
    exact ⟨hist, hwp.stable hgrows⟩
  intro th hth
  cases step_moves hs with
  | accept => exact keep th hth
  | refresh => exact keep th hth
  | request hp =>
    rcases List.mem_append.mp hth with hth | hth
    · exact keep th hth
    · cases List.mem_singleton.mp hth
      exact ⟨[], names_request hp.dutiful⟩
  | handler =>
    rcases List.mem_append.mp hth with hth | hth
    · exact keep th hth
    · cases List.mem_singleton.mp hth
      exact ⟨[], names_handle⟩
  | @op s world t o c r before after hsem =>
    simp only [List.mem_append, List.mem_cons] at hth
    rcases hth with hth | rfl | hth
    · exact keep th (by simp [hth])
    · obtain ⟨hist, hwp⟩ := h (t, .op o c) (by simp)
      exact ⟨_, (hwp s.world (grows.refl _) r world hsem).2⟩
    · exact keep th (by simp [hth])
  | requestDone => exact keep th (rest_subset hth)
  | handlerDone => exact keep th (rest_subset hth)

/-! ## Any interleaving -/

/-- A write of `k` under `etag` is on the log. -/
def Announced (k : Key) (etag : Text) (events : List ObjectEvent) : Prop :=
  ∃ event ∈ events, event.key = k ∧ ∃ size mime, event.kind = .written etag size mime

theorem Announced.mono {k : Key} {etag : Text} {events events' : List ObjectEvent}
    (h : Announced k etag events) (hsub : events ⊆ events') : Announced k etag events' := by
  obtain ⟨event, hmem, hrest⟩ := h
  exact ⟨event, hsub hmem, hrest⟩

/-- The condition on a step: where the outcome of indexing a version is published, no request that
stored a version of the key under this tag has yet to announce it, or was dropped before it did. -/
def Orderly (D : Crowd) (l : DropPool.Label Party Op) : Prop :=
  ∀ event etag mime chunks, l.op? = some (.publish event) →
    event.kind = .indexed etag mime chunks → ¬ D.Owed (Announces event.key etag)

/-- Where a run starts: any objects, nothing stored through the server, an empty log. -/
structure Opens (s : State) : Prop where
  lanes : s.lanes = Lanes.empty
  written : s.world.store.written = []
  events : s.world.events = []

/-- What every state of an orderly run keeps. -/
structure Ordered (setup : Setup) (s₀ : State) (D : Crowd) : Prop where
  sound : Sound setup D.pool
  traced : Traced setup D.pool
  remnants : ∀ d ∈ D.dropped, Write.Dutiful setup.worker.events d.rest
  known : ∀ e ∈ D.pool.state.world.store.history,
    e ∈ s₀.world.store.history ∨ e ∈ D.pool.state.world.store.written
  announced : ∀ k v, (k, v) ∈ D.pool.state.world.store.written →
    Announced k v.etag.val D.pool.state.world.events ∨ D.Owed (Announces k v.etag.val)
  follows : ∀ before event after, D.pool.state.world.events = before ++ event :: after →
    ∀ etag mime chunks, event.kind = .indexed etag mime chunks →
      Announced event.key etag before ∨
        ∃ v, (event.key, v) ∈ s₀.world.store.history ∧ v.etag.val = etag

theorem Ordered.sound_step (h : Ordered setup s₀ D) (hs : CrowdStep setup D l D') :
    Sound setup D'.pool := by
  cases hs with
  | thread hs => exact h.sound.step hs
  | drop hd =>
    obtain rfl := hd.request
    exact sound_of_lanes h.sound hd.state.1 (by simp [handled, Party.key?]) rest_subset
  | late hsem => exact sound_of_lanes h.sound hsem.2 rfl fun _ hth => hth

theorem Ordered.traced_step (h : Ordered setup s₀ D) (hs : CrowdStep setup D l D') :
    Traced setup D'.pool := by
  have hgrows := crowd_grows hs
  cases hs with
  | thread hs => exact h.traced.step hs
  | drop hd => exact h.traced.of_grows hgrows rest_subset
  | late hsem => exact h.traced.of_grows hgrows fun _ hth => hth

theorem Ordered.remnants_step (h : Ordered setup s₀ D) (hs : CrowdStep setup D l D') :
    ∀ d ∈ D'.dropped, Write.Dutiful setup.worker.events d.rest := by
  refine hs.remnants (fun t o k s' hd hmem => ?_) (fun o k r hk => (hk.2 r).2) h.remnants
  obtain rfl := hd.request
  exact h.sound.programs _ hmem

/-- What was stored stays announced or owed. -/
theorem Ordered.announced_kept (hS : ∀ event, ¬ setup.semantics.mayFail (.publish event))
    (h : Ordered setup s₀ D) (hs : CrowdStep setup D l D') {k : Key} {v : Version}
    (hv : (k, v) ∈ D.pool.state.world.store.written) :
    Announced k v.etag.val D'.pool.state.world.events ∨ D'.Owed (Announces k v.etag.val) := by
  rcases h.announced k v hv with hlog | howed
  · exact .inl (hlog.mono (events_subset hs))
  · rcases howed.step hs with howed | ⟨o, r, -, ⟨size, mime, source, rfl⟩, hsem⟩
    · exact .inr howed
    · exact .inl ⟨_, hsem.1.publish_events (hS _), rfl, size, mime, rfl⟩

/-- What a step stores is owed after it, also where the request was dropped before. -/
theorem Ordered.announced_step (hevents : setup.worker.events = true)
    (hS : ∀ event, ¬ setup.semantics.mayFail (.publish event)) (h : Ordered setup s₀ D)
    (hs : CrowdStep setup D l D') {k : Key} {v : Version}
    (hv : (k, v) ∈ D'.pool.state.world.store.written) :
    Announced k v.etag.val D'.pool.state.world.events ∨ D'.Owed (Announces k v.etag.val) := by
  have kept := fun hv => h.announced_kept hS hs (k := k) (v := v) hv
  rcases crowd_world hs with ⟨o, r, hop, -⟩ | ⟨hstore, -, -⟩
  · cases hs with
    | @thread P P' l ds hs =>
      cases l with
      | op t o =>
        obtain ⟨c, r, before, after, hsem, hthreads, hthreads'⟩ := hs.op_inv
        have hp := h.sound.programs (t, .op o c) (by simp [hthreads])
        cases t with
        | handler key =>
          rw [(hp.1.step hsem.1).1] at hv
          exact kept hv
        | request =>
          rcases Write.written_or_duties hsem.1 hv with hold | hduty
          · exact kept hold
          · refine .inr (.inl ⟨(.request, c r), by simp [hthreads'], (hp.2 r).1 _ ?_⟩)
            rw [hevents]
            exact hduty
      | _ => cases hop
    | drop hd => cases hop
    | @late s s' o c r ts before after hsem =>
      rcases Write.written_or_duties hsem.1 hv with hold | hduty
      · exact kept hold
      · have hp := h.remnants (.flying o c) (by simp)
        refine .inr (.inr ⟨.landed (c r), by simp, (hp.2 r).1 _ ?_⟩)
        rw [hevents]
        exact hduty
  · rw [hstore] at hv
    exact kept hv

/-- The outcome a step publishes is of a version its key had. -/
theorem Ordered.indexed_known (h : Ordered setup s₀ D) {event : ObjectEvent}
    (hs : CrowdStep setup D l D') (hop : l.op? = some (.publish event)) {etag mime : Text}
    {chunks : Nat} (hkind : event.kind = .indexed etag mime chunks) :
    ∃ v, (event.key, v) ∈ D.pool.state.world.store.history ∧ v.etag.val = etag := by
  cases hs with
  | @thread P P' l ds hs =>
    cases l with
    | op t o =>
      cases hop
      obtain ⟨c, r, before, after, hsem, hthreads, -⟩ := hs.op_inv
      obtain ⟨hist, hwp⟩ := h.traced (t, .op (.publish event) c) (by simp [hthreads])
      exact (hwp _ (grows.refl _) r _ hsem.1).1 event etag mime chunks rfl hkind
    | _ => cases hop
  | drop hd => cases hop
  | @late s s' o c r ts before after hsem =>
    -- a request publishes no outcome of indexing
    cases hop
    have hp := h.remnants (.flying (.publish event) c) (by simp)
    exact absurd hkind (hp.1 etag mime chunks)

/-- It is of an announced version. -/
theorem Ordered.publish_indexed (h : Ordered setup s₀ D) {event : ObjectEvent}
    (hs : CrowdStep setup D l D') (hop : l.op? = some (.publish event)) (horderly : Orderly D l)
    {etag mime : Text} {chunks : Nat} (hkind : event.kind = .indexed etag mime chunks) :
    Announced event.key etag D.pool.state.world.events ∨
      ∃ v, (event.key, v) ∈ s₀.world.store.history ∧ v.etag.val = etag := by
  obtain ⟨v, hv, rfl⟩ := h.indexed_known hs hop hkind
  rcases h.known _ hv with hold | hwritten
  · exact .inr ⟨v, hold, rfl⟩
  · rcases h.announced _ v hwritten with hlog | howed
    · exact .inl hlog
    · exact absurd howed (horderly event _ mime chunks hop hkind)

theorem Ordered.follows_step (h : Ordered setup s₀ D) (hs : CrowdStep setup D l D')
    (horderly : Orderly D l) {before after : List ObjectEvent} {event : ObjectEvent}
    (hlog : D'.pool.state.world.events = before ++ event :: after) {etag mime : Text} {chunks : Nat}
    (hkind : event.kind = .indexed etag mime chunks) :
    Announced event.key etag before ∨
      ∃ v, (event.key, v) ∈ s₀.world.store.history ∧ v.etag.val = etag := by
  rcases crowd_world hs with ⟨o, r, hop, hstep⟩ | ⟨-, hsame, -⟩
  · rcases hstep.events_cases with hsame | ⟨published, rfl, hmore⟩
    · exact h.follows before event after (hsame ▸ hlog) etag mime chunks hkind
    · rw [hmore] at hlog
      rcases List.eq_nil_or_concat after with rfl | ⟨rest, last, rfl⟩
      · obtain ⟨hbefore, heq⟩ := List.append_inj' hlog rfl
        cases heq
        rw [← hbefore]
        exact h.publish_indexed hs hop horderly hkind
      · have hcut : D.pool.state.world.events ++ [published] =
            (before ++ event :: rest) ++ [last] := by simpa using hlog
        have hold := (List.append_inj' hcut rfl).1
        exact h.follows before event rest hold etag mime chunks hkind
  · exact h.follows before event after (hsame ▸ hlog) etag mime chunks hkind

theorem Ordered.step (hevents : setup.worker.events = true)
    (hS : ∀ event, ¬ setup.semantics.mayFail (.publish event)) (h : Ordered setup s₀ D)
    (hs : CrowdStep setup D l D') (horderly : Orderly D l) : Ordered setup s₀ D' where
  sound := h.sound_step hs
  traced := h.traced_step hs
  remnants := h.remnants_step hs
  known := by
    intro e he
    rcases crowd_world hs with ⟨o, r, -, hstep⟩ | ⟨hstore, -, -⟩
    · obtain ⟨-, hwritten, hhistory⟩ := hstep.history_cases
      rcases hhistory e he with hold | hnew
      · exact (h.known e hold).imp_right (hwritten e)
      · exact .inr hnew
    · rw [hstore] at he ⊢
      exact h.known e he
  announced := fun _ _ hv => h.announced_step hevents hS hs hv
  follows := fun _ _ _ hlog _ _ _ hkind => h.follows_step hs horderly hlog hkind

theorem ordered_init (h : Opens s₀) : Ordered setup s₀ ⟨⟨s₀, []⟩, []⟩ where
  sound := sound_init h.lanes
  traced := by simp [Traced]
  remnants := by simp
  known := fun _ he => .inl he
  announced := by
    intro k v hv
    rw [show (Pool.mk s₀ [] : Threads).state.world.store.written = [] from h.written] at hv
    cases hv
  follows := by
    intro before event after hlog
    rw [show (Pool.mk s₀ [] : Threads).state.world.events = [] from h.events] at hlog
    simp at hlog

/-- In every run of the server in which all publications succeed, requests are dropped wherever they
await, and no outcome of indexing is published while a request that stored this version has yet to
announce it or was dropped before it did: when the outcome of indexing a version is published that
was stored through the server, the announcement of its write is on the log; and on the log every
outcome comes after such an announcement, unless it is of a version that was there before the
run. -/
theorem indexed_follows_written {setup : Setup} (hevents : setup.worker.events = true)
    (hS : ∀ event, ¬ setup.semantics.mayFail (.publish event)) {s₀ : State} (hs₀ : Opens s₀)
    {D : Crowd} (hD : DropPool.Reach (server setup) (Drops setup) Orderly (· = s₀) D) :
    (∀ l event D', CrowdStep setup D l D' → l.op? = some (.publish event) → Orderly D l →
        ∀ etag mime chunks, event.kind = .indexed etag mime chunks →
        (∃ v, (event.key, v) ∈ D.pool.state.world.store.written ∧ v.etag.val = etag) →
        Announced event.key etag D.pool.state.world.events) ∧
      ∀ before event after, D.pool.state.world.events = before ++ event :: after →
        ∀ etag mime chunks, event.kind = .indexed etag mime chunks →
        (∀ v, (event.key, v) ∈ s₀.world.store.history → v.etag.val ≠ etag) →
        Announced event.key etag before := by
  have hinv : Ordered setup s₀ D := by
    refine hD.invariant (fun s hs => ?_) fun _ _ _ h hs horderly => h.step hevents hS hs horderly
    rw [hs]
    exact ordered_init hs₀
  refine ⟨?_, ?_⟩
  · rintro l event D' - hop horderly etag mime chunks hkind ⟨v, hv, rfl⟩
    rcases hinv.announced _ v hv with hlog | howed
    · exact hlog
    · exact absurd howed (horderly event _ mime chunks hop hkind)
  · intro before event after hlog etag mime chunks hkind hnew
    rcases hinv.follows before event after hlog etag mime chunks hkind with hlog | ⟨v, hv, htag⟩
    · exact hlog
    · exact absurd htag (hnew v hv)

/-! ## One writer -/

variable {ds : List (Pool.Remnant Op Op.Res)}

theorem orderly_of_unindexed {t : Party} {o : Op} (ho : Unindexed o) :
    Orderly D (.thread (.op t o)) := by
  intro event etag mime chunks heq hkind
  cases heq
  exact absurd hkind (ho event etag mime chunks rfl)

theorem orderly_of_op?_none (hl : l.op? = none) : Orderly D l := by
  intro event etag mime chunks heq
  rw [hl] at heq
  cases heq

theorem orderly_of_not_op {l : Pool.Label Party Op} (hl : ∀ t o, l ≠ .op t o) :
    Orderly D (.thread l) := by
  refine orderly_of_op?_none ?_
  cases l with
  | op t o => exact absurd rfl (hl t o)
  | _ => rfl

theorem handleUpsert_unindexed {skip : Skip} {told : Told} :
    (handleUpsert worker kb objectKey skip told).Only Unindexed fun _ => True := by
  have htombstone : (tombstoneBeforeHead kb objectKey).Only Unindexed fun _ => True :=
    tombstone_unindexed.mono (fun _ h => h) fun _ _ => trivial
  unfold handleUpsert
  split
  · exact htombstone
  · refine Prog.Only.call (fun _ _ _ _ ho => by cases ho) fun r => ?_
    cases r with
    | ok head =>
      have hindex : (indexHead worker kb objectKey head (resolveMime head.contentType objectKey)
          skip).Only Unindexed fun _ => True :=
        indexHead_only.mono (fun _ => WorkOp.unindexed) fun _ _ => trivial
      refine tellFound_unindexed.andThen fun _ => hindex.andThen fun r => ?_
      cases r with
      | error message => trivial
      | ok outcome => trivial
    | error e =>
      dsimp only
      split
      · exact tellMissing_unindexed.andThen fun _ => htombstone
      · split
        · exact htombstone
        · exact htombstone
        · trivial
      · next h => cases h

def letterStamp (v : Version) : Stamp := ⟨v.etag, v.lastModified⟩

/-- The note is stored and announced, and its event accepted. -/
def announcedNote : State := accepted (afterPut true oneLetter emptyServer)

/-- What its handling comes to, and where it leaves the server before it reports. -/
def indexedNote : Except PipelineFailure PipelineOutcome × State :=
  (handleUpsert (letterServer true).worker note.1 note.2 .never .written).run
    (alone (letterServer true) (letterStamp oneLetter))
    ⟨announcedNote.world, nextLanes announcedNote.lanes⟩

theorem opens_emptyServer : Opens emptyServer := ⟨rfl, rfl, rfl⟩

/-- The note with another letter. -/
def anotherLetter : Version := Version.tagged '2' (Utf8.encode ['b'])

/-- What is left of a PUT of the other letter that is dropped while storage writes it. -/
def droppedPut : Pool.Remnant Op Op.Res :=
  match (putNote true anotherLetter.bytes).discard with
  | .op o k => .flying o k
  | p => .landed p

/-- Another client's PUT is dropped while storage writes it. -/
theorem reach_droppedPut {allowed : Crowd → DropPool.Label Party Op → Prop} {init : State → Prop}
    {s : State} (hquiet : ∀ D l, l.op? = none → allowed D l)
    (h : DropPool.Reach (server (letterServer true)) (Drops (letterServer true)) allowed init
      ⟨⟨s, []⟩, []⟩) :
    DropPool.Reach (server (letterServer true)) (Drops (letterServer true)) allowed init
      ⟨⟨s, []⟩, [droppedPut]⟩ := by
  have hstarts : (server (letterServer true)).spawn s .request
      (putNote true anotherLetter.bytes).discard s :=
    And.intro (isRequest_putNote true anotherLetter.bytes) rfl
  have hspawned := h.step (.thread (.spawn hstarts)) (hquiet _ _ rfl)
  exact hspawned.step (.drop_only (.storage _)) (hquiet _ _ rfl)

theorem reaches_indexedNote :
    Pool.Reach (server (letterServer true)) (fun P l => Orderly ⟨P, ds⟩ (.thread l))
      (· = emptyServer) ⟨indexedNote.2, [(.handler note,
        reportOutcome (letterServer true).worker note.1 note.2 false indexedNote.1)]⟩ := by
  have hnext : NoteNext (afterPut true oneLetter emptyServer) := by decide
  have hinit : Pool.Reach (server (letterServer true)) (fun P l => Orderly ⟨P, ds⟩ (.thread l))
      (· = emptyServer) ⟨emptyServer, []⟩ := .init rfl
  have hcommit := reach_request (fun _ _ => trivial) (letterStamp oneLetter)
    (fun _ _ => orderly_of_not_op) (fun _ _ ho => orderly_of_unindexed (RequestOp.unindexed ho))
    hinit (isRequest_putNote true oneLetter.bytes)
  have haccept := reach_accept (fun _ _ => orderly_of_not_op) hcommit hnext.1
  have hstart := reach_start (fun _ _ => orderly_of_not_op) haccept hnext.2.1 hnext.startNext
  exact Pool.Reach.run (alone_sem (fun _ _ => trivial) _) (fun _ _ _ => orderly_of_unindexed)
    handleUpsert_unindexed hstart

/-- The outcome the handling reports. -/
def noteIndexed (v : Version) : ObjectEvent :=
  ⟨note.1, note.2, .indexed v.etag.val "text/markdown".toList 1, .indexer⟩

/-- One writer's note is announced and indexed, while another's PUT was dropped and stored
nothing. -/
theorem indexed_follows_written_oneLetter :
    ∃ D before, (letterServer true).worker.events = true ∧ Opens emptyServer ∧
      (∀ event, ¬ (letterServer true).semantics.mayFail (.publish event)) ∧
      DropPool.Reach (server (letterServer true)) (Drops (letterServer true)) Orderly
        (· = emptyServer) D ∧
      D.dropped = [droppedPut] ∧ D.pool.state.world.events = before ++ [noteIndexed oneLetter] ∧
      Announced note oneLetter.etag.val before := by
  have hdropped := reach_droppedPut (fun _ _ => orderly_of_op?_none)
    (.init rfl : DropPool.Reach (server (letterServer true)) (Drops (letterServer true)) Orderly
      (· = emptyServer) _)
  have hreach := hdropped.pool (fun _ _ h => h) reaches_indexedNote
  have houtcome : indexedNote.1 = .ok (.indexed oneLetter.etag.val "text/markdown".toList 1) := by
    decide
  rw [houtcome] at hreach
  have horderly : Orderly ⟨⟨indexedNote.2, [(.handler note, reportOutcome (letterServer true).worker
      note.1 note.2 false (.ok (.indexed oneLetter.etag.val "text/markdown".toList 1)))]⟩,
      [droppedPut]⟩ (.thread (.op (.handler note) (.publish (noteIndexed oneLetter)))) := by
    intro event etag mime chunks heq hkind
    cases heq
    rintro (⟨th, hth, hwill⟩ | ⟨d, hd, hwill⟩)
    · cases List.mem_singleton.mp hth
      rcases hwill with ⟨size, mime, source, h⟩ | h
      · cases h
      · exact h (.ok ())
    · cases List.mem_singleton.mp hd
      rcases hwill with ⟨size, mime, source, h⟩ | h
      · cases h
      · exact h (.error .preconditionFailed)
  have hpublished := hreach.step (.thread (Pool.Step.op_head
    (alone_sem (fun _ _ => trivial) (letterStamp oneLetter) (.publish (noteIndexed oneLetter))
      indexedNote.2))) horderly
  refine ⟨_, indexedNote.2.world.events, rfl, opens_emptyServer, fun _ h => h, hpublished, rfl, rfl,
    ?_⟩
  exact (indexed_follows_written rfl (fun _ h => h) opens_emptyServer hpublished).2 _ _ [] rfl _ _ _
    rfl fun v hv => by cases hv

/-! ## Two writers -/

/-- The first write is stored, announced and queued, and the second is stored. -/
def secondStored : State :=
  (alone (letterServer true) (letterStamp anotherLetter) (.storage (.put note.1 note.2
    anotherLetter.bytes anotherLetter.contentType {})) (afterPut true oneLetter emptyServer)).2

/-- The first write's event is handled. -/
def overtaken : State :=
  afterHandler (letterServer true) (letterStamp anotherLetter) note noteEvent
    (nextLanes (accepted secondStored).lanes) (accepted secondStored).world

/-- The last event on the log is the outcome of indexing a version that was stored through the server
and is not announced. -/
def Unannounced (D : Crowd) : Prop :=
  ∃ before, D.pool.state.world.events = before ++ [noteIndexed anotherLetter] ∧
    (note, anotherLetter) ∈ D.pool.state.world.store.written ∧
    ¬ Announced note anotherLetter.etag.val before

theorem unannounced_overtaken (h : D.pool.state = overtaken) : Unannounced D := by
  rw [Unannounced, h]
  refine ⟨overtaken.world.events.dropLast, by decide, by decide, ?_⟩
  rintro ⟨event, hmem, -, size, mime, hkind⟩
  have hall : ∀ event ∈ overtaken.world.events.dropLast,
      event.kind.etag ≠ some anotherLetter.etag.val := by decide
  exact hall event hmem (by rw [hkind]; rfl)

/-- The first writer's event is accepted and handled while the other threads stand still. -/
theorem reach_overtaken {init : State → Prop} {ts : List (Party × Program Unit)}
    (h : Pool.Reach (server (letterServer true)) Pool.anyStep init ⟨secondStored, ts⟩) :
    Pool.Reach (server (letterServer true)) Pool.anyStep init ⟨overtaken, ts⟩ := by
  have hnext : NoteNext secondStored := by decide
  have haccept := reach_accept (fun _ _ _ => trivial) h hnext.1
  exact reach_handler (fun _ _ => trivial) (letterStamp anotherLetter) haccept hnext.2.1
    hnext.startNext

/-- Two writers of one note. The handling of the first one's event finds the version of the second
and reports it indexed. The second writer has not announced it yet; or it was dropped while storage
wrote the note, and nobody ever will. -/
theorem outcome_overtakes_announcement :
    (letterServer true).worker.events = true ∧ Opens emptyServer ∧
      (∀ event, ¬ (letterServer true).semantics.mayFail (.publish event)) ∧
      (∀ v, (note, v) ∉ emptyServer.world.store.history) ∧
      (∃ D, DropPool.Reach (server (letterServer true)) (Drops (letterServer true))
        DropPool.anyStep (· = emptyServer) D ∧ D.dropped = [] ∧ Unannounced D) ∧
      ∃ D, DropPool.Reach (server (letterServer true)) (Drops (letterServer true))
        DropPool.anyStep (· = emptyServer) D ∧ D.pool.threads = [] ∧ Unannounced D := by
  have hinit : Pool.Reach (server (letterServer true)) Pool.anyStep (· = emptyServer)
      ⟨emptyServer, []⟩ := .init rfl
  have hfirst := reach_request (fun _ _ => trivial) (letterStamp oneLetter)
    (fun _ _ _ => trivial) (fun _ _ _ => trivial) hinit (isRequest_putNote true oneLetter.bytes)
  have hput := @alone_sem (letterServer true) (fun _ _ => trivial)
    (letterStamp anotherLetter) (.storage (.put note.1 note.2 anotherLetter.bytes
      anotherLetter.contentType {})) (afterPut true oneLetter emptyServer)
  have hstart : DropPool.Reach (server (letterServer true)) (Drops (letterServer true))
      DropPool.anyStep (· = emptyServer) ⟨⟨emptyServer, []⟩, []⟩ := .init rfl
  refine ⟨rfl, opens_emptyServer, fun _ h => h, fun v hv => (by cases hv), ?_, ?_⟩
  · have hstarts : (server (letterServer true)).spawn (afterPut true oneLetter emptyServer) .request
        (putNote true anotherLetter.bytes).discard (afterPut true oneLetter emptyServer) :=
      And.intro (isRequest_putNote true anotherLetter.bytes) rfl
    have hsecond := (hfirst.step (.spawn hstarts) trivial).step (.op_head hput) trivial
    exact ⟨_, hstart.pool (fun _ _ _ => trivial) (reach_overtaken hsecond), rfl,
      unannounced_overtaken rfl⟩
  · have hdropped := reach_droppedPut (fun _ _ _ => trivial)
      (hstart.pool (fun _ _ _ => trivial) hfirst)
    have hlate := hdropped.step (.late_head hput) trivial
    exact ⟨_, hlate.pool (fun _ _ _ => trivial) (reach_overtaken (.init rfl)), rfl,
      unannounced_overtaken rfl⟩

end EventOrder
