-- SUMMARY: Which states of an object the worker announces, over every run of the server with changes from outside.
import NotedThat.System.Server

/-!
# Announcing detected changes

A refresh announces the state its HEAD finds, unless the worker remembers having seen it. The worker
remembers more than was announced: an index event of a write makes it remember whatever HEAD finds.
This module follows, for every key, whether its current state has been announced since it arose,
and shows when a refresh that finds an unannounced state announces it.
-/

namespace Announcements

open Indexer
open Server

/-! ## States and announcements -/

/-- What identifies the state of a key: the entity tag of its version, none if it has none. -/
def stamp (w : World) (k : Key) : Option Text := (w.get k).map (·.etag.val)

/-- The event is about a change, not about what became of it in the index. -/
def isChange : ObjectEventKind → Bool
  | .written .. | .deleted => true
  | .indexed .. | .indexFailed .. => false

/-- The event says that `k` has come to this state. -/
def announces (k : Key) (etag : Option Text) (event : ObjectEvent) : Bool :=
  event.key = k ∧ event.kind.etag = etag ∧ isChange event.kind

/-- Which keys are in a state nobody has announced since it arose, as the world moves on. -/
def observe (w w' : World) (unannounced : Key → Bool) (k : Key) : Bool :=
  if stamp w' k ≠ stamp w k then true
  else if (w'.events.drop w.events.length).any (announces k (stamp w' k)) then false
  else unannounced k

/-- The object is changed by somebody else than the server. -/
def external (P : Threads) (effect : StorageOp.Effect) : Threads :=
  { P with state.world.store := P.state.world.store.apply effect false }

/-- A condition on a step: the threads before it, the keys unannounced then, and the threads after. -/
abbrev Condition := Threads → (Key → Bool) → Pool.Label Party Op → Threads → Prop

/-- The runs of the server among changes from outside, from any objects, announced or not, with
nothing remembered. All steps meet the condition. -/
inductive Run (setup : Setup) (allowed : Condition) : Threads → (Key → Bool) → Prop
  | init {s : State} {unannounced : Key → Bool} : s.lanes = Lanes.empty → s.world.lastSeen = [] →
      Run setup allowed ⟨s, []⟩ unannounced
  | step {P P' : Threads} {unannounced : Key → Bool} {l : Pool.Label Party Op} :
      Run setup allowed P unannounced → Pool.Step (server setup) P l P' → allowed P unannounced l P' →
      Run setup allowed P' (observe P.state.world P'.state.world unannounced)
  | external {P : Threads} {unannounced : Key → Bool} {effect : StorageOp.Effect} :
      Run setup allowed P unannounced → setup.semantics.admissible P.state.world.store effect →
      allowed P unannounced .env (external P effect) →
      Run setup allowed (external P effect)
        (observe P.state.world (external P effect).state.world unannounced)

/-! ## What a handling does -/

/-- Neither announces a state nor asks or records what was seen. -/
def Quiet : Op → Prop
  | .publish event => isChange event.kind = false
  | .remember .. => False
  | .isNews .. => False
  | _ => True

abbrev Works (p : Program Unit) : Prop := p.Only Quiet fun _ => True

/-- The program is about to publish the event. -/
def Tells (event : ObjectEvent) (p : Program Unit) : Prop :=
  ∃ c, p = .op (.publish event) c ∧ ∀ r, Works (c r)

/-- The program is about to record the state the event is about, and then to publish the event. -/
def Records (k : Key) (event : ObjectEvent) (p : Program Unit) : Prop :=
  ∃ c, p = .op (.remember k event.kind.etag) c ∧ Tells event (c ())

/-- The program is about to ask whether the state is news, and to record and publish it if so. -/
def Asks (k : Key) (event : ObjectEvent) (p : Program Unit) : Prop :=
  ∃ c, p = .op (.isNews k event.kind.etag) c ∧ Records k event (c true) ∧ Works (c false)

/-- How far a handling of `k` has come. -/
inductive Handling (k : Key) : Program Unit → Prop
  | heads {c} : (∀ r, Handling k (c r)) → Handling k (.op (.storage (.head k.1 k.2 {})) c)
  | asks {event p} : announces k event.kind.etag event → Asks k event p → Handling k p
  | records {event p} : announces k event.kind.etag event → Records k event p → Handling k p
  | tells {event p} : announces k event.kind.etag event → Tells event p → Handling k p
  | told {etag c} : Works (c ()) → Handling k (.op (.remember k etag) c)
  | works {p} : Works p → Handling k p

theorem Handling.answer {k : Key} {o : Op} {c : o.Res → Program Unit} (h : Handling k (.op o c))
    (r : o.Res) : Handling k (c r) := by
  cases h with
  | heads hc => exact hc r
  | asks hevent hasks =>
    obtain ⟨c', heq, hrecords, hworks⟩ := hasks
    cases heq
    cases r with
    | true => exact .records hevent hrecords
    | false => exact .works hworks
  | records hevent hrecords =>
    obtain ⟨c', heq, htells⟩ := hrecords
    cases heq
    exact .tells hevent htells
  | tells hevent htells =>
    obtain ⟨c', heq, hworks⟩ := htells
    cases heq
    exact .works (hworks r)
  | told hworks => exact .works hworks
  | works hworks => exact .works (hworks.2 r)

theorem WorkOp.quiet {k : Key} {o : Op} (h : WorkOp k o) : Quiet o := by
  cases o with
  | publish event => exact absurd rfl (h.2.1 event)
  | remember k etag => exact absurd rfl (h.2.2.1 k etag)
  | isNews k etag => exact absurd rfl (h.2.2.2 k etag)
  | _ => trivial

section Programs

variable {worker : IndexerWorker} {kb : KbSlug} {objectKey : ObjectPath} {f : Unit → Program Unit}

theorem reportOutcome_works {tombstone : Bool} {result : Except PipelineFailure PipelineOutcome} :
    Works (reportOutcome worker kb objectKey tombstone result) := by
  have hpublish : ∀ event : ObjectEvent, isChange event.kind = false → Works (publish worker event) := by
    intro event hkind
    unfold publish
    split
    · exact ⟨hkind, fun _ => trivial⟩
    · trivial
  cases result with
  | error failure =>
    simp only [reportOutcome]
    split
    · exact hpublish _ rfl
    · trivial
  | ok outcome =>
    cases outcome with
    | indexed etag mime chunks => exact hpublish _ rfl
    | skipped => trivial
    | tombstoned => trivial

/-- What a handling does about a key it does not find, once it has said so. -/
theorem tombstone_works {tombstone : Bool} : Works ((tombstoneBeforeHead kb objectKey).bind
    (reportOutcome worker kb objectKey tombstone)) := by
  have hquiet : (tombstoneBeforeHead kb objectKey).Only Quiet fun _ => True :=
    (tombstoneBeforeHead_only none).mono (fun _ => WorkOp.quiet) fun _ _ => trivial
  exact hquiet.andThen fun _ => reportOutcome_works

/-- What a handling does about a key it finds, once it has said so. -/
theorem indexHead_works {head : ObjectMeta} {mime : Text} {skip : Skip}
    {g : Except String PipelineOutcome → Program Unit} (hg : ∀ r, Works (g r)) :
    Works ((indexHead worker kb objectKey head mime skip).bind g) := by
  have hquiet : (indexHead worker kb objectKey head mime skip).Only Quiet fun _ => True :=
    indexHead_only.mono (fun _ => WorkOp.quiet) fun _ _ => trivial
  exact hquiet.andThen hg

variable (hevents : worker.events = true) (hf : ∀ u, Works (f u))

include hevents hf

theorem announce_asks (event : ObjectEvent) : Asks event.key event ((announce worker event).bind f) := by
  unfold announce remember publish
  simp only [hevents]
  exact ⟨_, rfl, ⟨_, rfl, _, rfl, fun _ => hf ()⟩, hf ()⟩

theorem remember_handling (etag : Option Text) :
    Handling (kb, objectKey) ((remember worker kb objectKey etag).bind f) := by
  unfold remember
  simp only [hevents]
  exact .told (hf ())

theorem tellMissing_handling (told : Told) :
    Handling (kb, objectKey) ((tellMissing worker kb objectKey told).bind f) := by
  cases told with
  | nothing source => exact .asks (by simp [announces, isChange, ObjectEvent.key]) (announce_asks hevents hf _)
  | deleted => exact remember_handling hevents hf none
  | written => exact .works (hf ())

theorem tellFound_handling (head : ObjectMeta) (told : Told) :
    Handling (kb, objectKey) ((tellFound worker kb objectKey head told).bind f) := by
  cases told with
  | nothing source => exact .asks (by simp [announces, isChange, ObjectEvent.key]) (announce_asks hevents hf _)
  | written => exact remember_handling hevents hf head.etag
  | deleted => exact .works (hf ())

omit hf

theorem handleUpsert_handling (skip : Skip) (told : Told) (tombstone : Bool) :
    Handling (kb, objectKey) ((handleUpsert worker kb objectKey skip told).bind
      (reportOutcome worker kb objectKey tombstone)) := by
  unfold handleUpsert
  split
  · exact .works tombstone_works
  · simp only [Program.storage, Prog.bind_eq, Prog.call_bind, Prog.op_bind]
    refine .heads fun r => ?_
    cases r with
    | ok head =>
      dsimp only
      rw [Prog.bind_assoc]
      refine tellFound_handling hevents (fun _ => ?_) head told
      rw [Prog.bind_assoc]
      refine indexHead_works fun r => ?_
      cases r with
      | error message => exact reportOutcome_works
      | ok outcome => exact reportOutcome_works
    | error e =>
      dsimp only
      split
      · rw [Prog.bind_assoc]
        exact tellMissing_handling hevents (fun _ => tombstone_works) told
      · split
        · exact .works tombstone_works
        · exact .works tombstone_works
        · exact .works reportOutcome_works
      · next h => cases h

theorem handle_handling (event : IndexEvent) : Handling event.key (handle worker event) := by
  cases event with
  | upsert kb objectKey => exact handleUpsert_handling hevents .never .written false
  | refresh kb objectKey origin =>
    exact handleUpsert_handling hevents .ifUnchanged (.nothing origin.source) false
  | tombstone kb objectKey => exact handleUpsert_handling hevents .ifUnchanged .deleted true

/-- A refresh that HEADs its key asks about the state it finds, and announces nothing if the HEAD
fails. -/
theorem refresh_asks {origin : RefreshOrigin} {c : Except StorageError ObjectMeta → Program Unit}
    (hhead : handle worker (.refresh kb objectKey origin) = .op (.storage (.head kb objectKey {})) c) :
    (∀ head, Asks (kb, objectKey) ⟨kb, objectKey, .written (head.etag.getD []) head.size
      (head.contentType.getD []), origin.source⟩ (c (.ok head))) ∧
    (∀ path, Asks (kb, objectKey) ⟨kb, objectKey, .deleted, origin.source⟩
      (c (.error (.notFound path)))) ∧
    ∀ r, (Op.storage (.head kb objectKey {})).Failed r → Works (c r) := by
  rw [handle, handleUpsert] at hhead
  split at hhead
  · cases hhead
  · simp only [Program.storage, Prog.bind_eq, Prog.call_bind, Prog.op_bind] at hhead
    cases hhead
    refine ⟨fun head => ?_, fun path => ?_, fun r hfailed => ?_⟩
    · dsimp only
      rw [Prog.bind_assoc]
      refine announce_asks hevents (fun _ => ?_) _
      rw [Prog.bind_assoc]
      refine indexHead_works fun r => ?_
      cases r with
      | error message =>
        change Works (reportOutcome worker kb objectKey false (.error _))
        exact reportOutcome_works
      | ok outcome =>
        change Works (reportOutcome worker kb objectKey false (.ok outcome))
        exact reportOutcome_works
    · dsimp only
      rw [Prog.bind_assoc]
      exact announce_asks hevents (fun _ => tombstone_works) _
    · obtain ⟨message, rfl | rfl⟩ := hfailed
      · change Works (reportOutcome worker kb objectKey false (.error _))
        exact reportOutcome_works
      · change Works (reportOutcome worker kb objectKey false (.error _))
        exact reportOutcome_works

end Programs

/-! ## What is remembered -/

theorem mem_record {seen : LastSeen} {k k' : Key} {etag etag' : Option Text}
    (h : (k, etag) ∈ seen.record k' etag') :
    k = k' ∧ etag = etag' ∨ k ≠ k' ∧ (k, etag) ∈ seen := by
  unfold LastSeen.record at h
  split at h
  · obtain ⟨entry, hentry, heq⟩ := List.mem_map.mp h
    split at heq
    · cases heq
      exact .inl ⟨rfl, rfl⟩
    · next hne =>
      cases heq
      exact .inr ⟨hne, hentry⟩
  · next hnone =>
    rcases List.mem_append.mp (List.mem_of_mem_drop h) with hold | hnew
    · refine .inr ⟨fun hk => hnone ?_, hold⟩
      exact List.any_eq_true.mpr ⟨_, hold, by simpa using hk⟩
    · cases List.mem_singleton.mp hnew
      exact .inl ⟨rfl, rfl⟩

theorem differs_eq {seen : LastSeen} {k : Key} {etag : Option Text} :
    seen.differs k etag = decide ((k, etag) ∉ seen) := by
  rw [LastSeen.differs, decide_not]
  congr 1
  rw [Bool.eq_iff_iff, List.any_eq_true, decide_eq_true_iff]
  constructor
  · rintro ⟨⟨k', etag'⟩, hmem, heq⟩
    obtain ⟨rfl, rfl⟩ := of_decide_eq_true heq
    exact hmem
  · exact fun hmem => ⟨_, hmem, by simp⟩

/-! ## Careful runs -/

variable {setup : Setup} {P P' : Threads} {unannounced : Key → Bool} {l : Pool.Label Party Op}

/-- The handler of `k` is about to announce this state. -/
def AboutToAnnounce (P : Threads) (k : Key) (etag : Option Text) : Prop :=
  ∃ event c, (.handler k, .op (.publish event) c) ∈ P.threads ∧ announces k etag event = true

/-- The condition on a step. A change does not bring back the state that is remembered; the state that
is recorded, if it is the current one, has been announced since it arose, unless the handler records
it because it is about to announce it; and the announcements of the worker do not fail. -/
structure Careful (P : Threads) (unannounced : Key → Bool) (l : Pool.Label Party Op) (P' : Threads) :
    Prop where
  noReturn : ∀ k, stamp P'.state.world k ≠ stamp P.state.world k →
    (k, stamp P'.state.world k) ∉ P.state.world.lastSeen
  recorded : ∀ k etag, l = .op (.handler k) (.remember k etag) → stamp P.state.world k = etag →
    unannounced k = true → AboutToAnnounce P' k etag
  published : ∀ k event, l = .op (.handler k) (.publish event) → isChange event.kind = true →
    P'.state.world.events = P.state.world.events ++ [event]

/-- What every state of any run keeps. -/
structure Regular (setup : Setup) (P : Threads) : Prop where
  sound : Sound setup P
  handlings : ∀ th ∈ P.threads, ∀ k, th.1 = .handler k → Handling k th.2

/-- What every state of a careful run keeps: a current state that is remembered and not announced is
about to be announced. -/
structure Sane (setup : Setup) (P : Threads) (unannounced : Key → Bool) : Prop where
  regular : Regular setup P
  seen : ∀ k etag, (k, etag) ∈ P.state.world.lastSeen → stamp P.state.world k = etag →
    unannounced k = true → AboutToAnnounce P k etag

theorem observe_of_same {w w' : World} {k : Key} (hstamp : stamp w' k = stamp w k)
    (hevents : w'.events = w.events) : observe w w' unannounced k = unannounced k := by
  rw [observe, if_neg (by rw [hstamp]; simp), hevents, List.drop_length, List.any_nil]
  rfl

theorem observe_of_announced {w w' : World} {k : Key} {event : ObjectEvent}
    (hstamp : stamp w' k = stamp w k) (hevents : w'.events = w.events ++ [event])
    (hevent : announces k (stamp w' k) event = true) : observe w w' unannounced k = false := by
  rw [observe, if_neg (by rw [hstamp]; simp), hevents, List.drop_left, List.any_cons, hevent]
  rfl

/-- What is unannounced after a step, in the same state as before, was so before. -/
theorem unannounced_of_observe {w w' : World} {k : Key} (hstamp : stamp w' k = stamp w k)
    (h : observe w w' unannounced k = true) : unannounced k = true := by
  rw [observe, if_neg (by rw [hstamp]; simp)] at h
  split at h
  · cases h
  · exact h

theorem Handling.remember_key {k k' : Key} {etag : Option Text} {c : Unit → Program Unit}
    (h : Handling k (.op (.remember k' etag) c)) : k' = k := by
  cases h with
  | asks _ hasks =>
    obtain ⟨_, heq, -⟩ := hasks
    cases heq
  | records _ hrecords =>
    obtain ⟨_, heq, -⟩ := hrecords
    cases heq
    rfl
  | tells _ htells =>
    obtain ⟨_, heq, -⟩ := htells
    cases heq
  | told => rfl
  | works hworks => exact hworks.1.elim

/-- A handling that is told the state is no news announces nothing. -/
theorem Handling.unasked {k k' : Key} {etag : Option Text} {c : Bool → Program Unit}
    (h : Handling k (.op (.isNews k' etag) c)) : Works (c false) := by
  cases h with
  | asks _ hasks =>
    obtain ⟨c', heq, -, hworks⟩ := hasks
    cases heq
    exact hworks
  | records _ hrecords =>
    obtain ⟨_, heq, -⟩ := hrecords
    cases heq
  | tells _ htells =>
    obtain ⟨_, heq, -⟩ := htells
    cases heq
  | works hworks => exact hworks.1.elim

/-- What is remembered changes only when the handler of a key records a state of it. -/
theorem Regular.lastSeen_cases (h : Regular setup P) (hs : Pool.Step (server setup) P l P') :
    P'.state.world.lastSeen = P.state.world.lastSeen ∨
      ∃ k etag, l = .op (.handler k) (.remember k etag) ∧
        P'.state.world.lastSeen = P.state.world.lastSeen.record k etag ∧
        P'.state.world.store = P.state.world.store := by
  cases step_moves hs with
  | @op s world t o c r before after hsem =>
    rcases hsem.lastSeen_cases with hsame | ⟨k, etag, rfl, hrecord⟩
    · exact .inl hsame
    · have hbehaves := h.sound.programs (t, .op (.remember k etag) c) (by simp)
      cases t with
      | request => exact hbehaves.1.elim
      | handler key =>
        obtain rfl := (h.handlings (.handler key, .op (.remember k etag) c) (by simp) key rfl).remember_key
        exact .inr ⟨k, etag, rfl, hrecord, hsem.store_eq (by simp)⟩
  | _ => exact .inl rfl

theorem AboutToAnnounce.step {k : Key} {etag : Option Text} (h : AboutToAnnounce P k etag)
    (hs : Pool.Step (server setup) P l P') :
    AboutToAnnounce P' k etag ∨
      ∃ event, l = .op (.handler k) (.publish event) ∧ announces k etag event = true := by
  obtain ⟨event, c, hmem, hevent⟩ := h
  cases hs with
  | env he => exact .inl ⟨event, c, hmem, hevent⟩
  | spawn hsp => exact .inl ⟨event, c, List.mem_append_left _ hmem, hevent⟩
  | @op s s' t o c' r before after hsem =>
    simp only [List.mem_append, List.mem_cons] at hmem
    rcases hmem with hmem | heq | hmem
    · exact .inl ⟨event, c, by simp [hmem], hevent⟩
    · cases heq
      exact .inr ⟨event, rfl, hevent⟩
    · exact .inl ⟨event, c, by simp [hmem], hevent⟩
  | @finish s s' t before after hf =>
    simp only [List.mem_append, List.mem_cons] at hmem
    rcases hmem with hmem | heq | hmem
    · exact .inl ⟨event, c, by simp [hmem], hevent⟩
    · cases heq
    · exact .inl ⟨event, c, by simp [hmem], hevent⟩

theorem stamp_eq_of_store {w w' : World} (h : w'.store = w.store) (k : Key) : stamp w' k = stamp w k := by
  rw [stamp, World.get, h]
  rfl

theorem Regular.step (hevents : setup.worker.events = true) (h : Regular setup P)
    (hs : Pool.Step (server setup) P l P') : Regular setup P' where
  sound := h.sound.step hs
  handlings := by
    refine hs.threads (K := fun (t : Party) p => ∀ k, t = Party.handler k → Handling k p)
      (fun t p s' hsp => ?_) (fun t o c r hc k hk => (hc k hk).answer r) h.handlings
    rintro k rfl
    obtain ⟨event, lanes, -, hstart, rfl, -⟩ := hsp
    exact h.sound.startNext_key hstart ▸ handle_handling hevents event

theorem Regular.external (h : Regular setup P) (effect : StorageOp.Effect) :
    Regular setup (external P effect) :=
  ⟨⟨h.sound.lanes, h.sound.own, h.sound.active, h.sound.single, h.sound.programs⟩, h.handlings⟩

theorem regular_init {s : State} (hlanes : s.lanes = Lanes.empty) : Regular setup ⟨s, []⟩ :=
  ⟨sound_init hlanes, by simp⟩

theorem Run.regular (hevents : setup.worker.events = true) {allowed : Condition}
    (h : Run setup allowed P unannounced) : Regular setup P := by
  induction h with
  | init hlanes _ => exact regular_init hlanes
  | step _ hs _ ih => exact ih.step hevents hs
  | external _ _ _ ih => exact ih.external _

theorem Sane.step (hevents : setup.worker.events = true) (h : Sane setup P unannounced)
    (hs : Pool.Step (server setup) P l P') (hcareful : Careful P unannounced l P') :
    Sane setup P' (observe P.state.world P'.state.world unannounced) where
  regular := h.regular.step hevents hs
  seen := by
    intro k etag hmem hstamp hobserve
    have hold : (k, etag) ∈ P.state.world.lastSeen → AboutToAnnounce P' k etag := by
      intro hmem
      by_cases hsame : stamp P'.state.world k = stamp P.state.world k
      · have hannounce := h.seen k etag hmem (hsame ▸ hstamp) (unannounced_of_observe hsame hobserve)
        rcases hannounce.step hs with hlater | ⟨event, rfl, hevent⟩
        · exact hlater
        · -- it has just been announced
          have hchange : isChange event.kind = true := (of_decide_eq_true hevent).2.2
          have hlog := hcareful.published k event rfl hchange
          rw [observe_of_announced hsame hlog (hstamp ▸ hevent)] at hobserve
          cases hobserve
      · exact absurd (hstamp ▸ hmem) (hcareful.noReturn k hsame)
    rcases h.regular.lastSeen_cases hs with hsame | ⟨k', etag', rfl, hrecord, hstore⟩
    · exact hold (hsame ▸ hmem)
    · rw [hrecord] at hmem
      rcases mem_record hmem with ⟨rfl, rfl⟩ | ⟨-, hmem⟩
      · have hsame := stamp_eq_of_store hstore k
        exact hcareful.recorded k etag rfl (hsame ▸ hstamp) (unannounced_of_observe hsame hobserve)
      · exact hold hmem

theorem Sane.external {effect : StorageOp.Effect} (h : Sane setup P unannounced)
    (hcareful : Careful P unannounced .env (external P effect)) :
    Sane setup (external P effect)
      (observe P.state.world (Announcements.external P effect).state.world unannounced) where
  regular := h.regular.external effect
  seen := by
    intro k etag hmem hstamp hobserve
    by_cases hsame : stamp (Announcements.external P effect).state.world k = stamp P.state.world k
    · exact h.seen k etag hmem (hsame ▸ hstamp) (unannounced_of_observe hsame hobserve)
    · exact absurd (hstamp ▸ hmem) (hcareful.noReturn k hsame)

theorem Run.sane (hevents : setup.worker.events = true) (h : Run setup Careful P unannounced) :
    Sane setup P unannounced := by
  induction h with
  | init hlanes hseen =>
    refine ⟨regular_init hlanes, fun k etag hmem => ?_⟩
    rw [show (Pool.mk _ [] : Threads).state.world.lastSeen = [] from hseen] at hmem
    cases hmem
  | step _ hs hcareful ih => exact ih.step hevents hs hcareful
  | external _ _ hcareful ih => exact ih.external hcareful

/-! ## What the handler does next -/

/-- A step that is not one of the handler of `k`. -/
def Others (setup : Setup) (k : Key) (P P' : Threads) : Prop :=
  (∃ l, Pool.Step (server setup) P l P' ∧ (∀ o, l ≠ .op (.handler k) o) ∧ l ≠ .finish (.handler k)) ∨
    ∃ effect, setup.semantics.admissible P.state.world.store effect ∧ P' = external P effect

/-- Whatever the others do meanwhile, the next operations of the handler of `k` are these. -/
def Performs (setup : Setup) (k : Key) : List Op → Threads → Prop
  | [], _ => True
  | o :: ops, P => ∀ P', Relation.ReflTransGen (Others setup k) P P' →
      (∃ c, (.handler k, .op o c) ∈ P'.threads) ∧
        ∀ P'', Pool.Step (server setup) P' (.op (.handler k) o) P'' → Performs setup k ops P''

/-- The others leave the handler of `k` where it is, and record nothing about `k`. -/
theorem Others.keeps (hevents : setup.worker.events = true) {k : Key} (h : Others setup k P P')
    (hregular : Regular setup P) : Regular setup P' ∧
      (∀ p, (.handler k, p) ∈ P.threads → (.handler k, p) ∈ P'.threads) ∧
      ∀ etag, (k, etag) ∈ P'.state.world.lastSeen → (k, etag) ∈ P.state.world.lastSeen := by
  rcases h with ⟨l, hs, hop, hfinish⟩ | ⟨effect, -, rfl⟩
  · refine ⟨hregular.step hevents hs, fun p hp => ?_, fun etag hmem => ?_⟩
    · cases hs with
      | env he => exact hp
      | spawn hsp => exact List.mem_append_left _ hp
      | @op s s' t o c r before after hsem =>
        simp only [List.mem_append, List.mem_cons] at hp
        rcases hp with hp | heq | hp
        · simp [hp]
        · cases heq
          exact absurd rfl (hop o)
        · simp [hp]
      | @finish s s' t before after hf =>
        simp only [List.mem_append, List.mem_cons] at hp
        rcases hp with hp | heq | hp
        · simp [hp]
        · cases heq
          exact absurd rfl hfinish
        · simp [hp]
    · rcases hregular.lastSeen_cases hs with hsame | ⟨k', etag', rfl, hrecord, -⟩
      · exact hsame ▸ hmem
      · rw [hrecord] at hmem
        rcases mem_record hmem with ⟨rfl, -⟩ | ⟨-, hmem⟩
        · exact absurd rfl (hop _)
        · exact hmem
  · exact ⟨hregular.external effect, fun _ hp => hp, fun _ hmem => hmem⟩

theorem others_keep (hevents : setup.worker.events = true) {k : Key}
    (h : Relation.ReflTransGen (Others setup k) P P') (hregular : Regular setup P) :
    Regular setup P' ∧ (∀ p, (.handler k, p) ∈ P.threads → (.handler k, p) ∈ P'.threads) ∧
      ∀ etag, (k, etag) ∈ P'.state.world.lastSeen → (k, etag) ∈ P.state.world.lastSeen := by
  induction h with
  | refl => exact ⟨hregular, fun _ hp => hp, fun _ hmem => hmem⟩
  | tail _ hstep ih =>
    obtain ⟨hregular', hthreads, hseen⟩ := hstep.keeps hevents ih.1
    exact ⟨hregular', fun p hp => hthreads p (ih.2.1 p hp), fun etag hmem => ih.2.2 etag (hseen etag hmem)⟩

/-- A step of the handler of `k` from a known program. -/
theorem Regular.op_handler (h : Regular setup P) {k : Key} {o o' : Op} {c : o.Res → Program Unit}
    (hmem : (.handler k, .op o c) ∈ P.threads)
    (hs : Pool.Step (server setup) P (.op (.handler k) o') P') :
    ∃ r, setup.semantics.Step P.state.world o r P'.state.world ∧ (.handler k, c r) ∈ P'.threads := by
  obtain ⟨c', r, before, after, hsem, hthreads, hthreads'⟩ := hs.op_inv
  have heq : Prog.op o c = Prog.op o' c' := h.sound.unique hmem (by simp [hthreads])
  cases heq
  exact ⟨r, hsem.1, by simp [hthreads']⟩

section Performs

variable (hevents : setup.worker.events = true) {k : Key} {event : ObjectEvent} {p : Program Unit}

include hevents

theorem performs_tells (h : Regular setup P) (hmem : (.handler k, p) ∈ P.threads)
    (hp : Tells event p) : Performs setup k [.publish event] P := by
  intro P' hothers
  obtain ⟨c, rfl, -⟩ := hp
  exact ⟨⟨c, (others_keep hevents hothers h).2.1 _ hmem⟩, fun _ _ => trivial⟩

theorem performs_records (h : Regular setup P) (hmem : (.handler k, p) ∈ P.threads)
    (hp : Records k event p) :
    Performs setup k [.remember k event.kind.etag, .publish event] P := by
  intro P' hothers
  obtain ⟨c, rfl, htells⟩ := hp
  obtain ⟨h', hthreads, -⟩ := others_keep hevents hothers h
  refine ⟨⟨c, hthreads _ hmem⟩, fun P'' hs => ?_⟩
  obtain ⟨r, -, hmem'⟩ := h'.op_handler (hthreads _ hmem) hs
  exact performs_tells hevents (h'.step hevents hs) hmem' htells

/-- A state that is not remembered is announced. -/
theorem performs_asks (h : Regular setup P) (hmem : (.handler k, p) ∈ P.threads) (hp : Asks k event p)
    (hnews : (k, event.kind.etag) ∉ P.state.world.lastSeen) :
    Performs setup k [.isNews k event.kind.etag, .remember k event.kind.etag, .publish event] P := by
  intro P' hothers
  obtain ⟨c, rfl, hrecords, -⟩ := hp
  obtain ⟨h', hthreads, hseen⟩ := others_keep hevents hothers h
  refine ⟨⟨c, hthreads _ hmem⟩, fun P'' hs => ?_⟩
  obtain ⟨r, hstep, hmem'⟩ := h'.op_handler (hthreads _ hmem) hs
  have hr : r = true := by
    rcases hstep.other_cases (by simp) with ⟨stamp, rfl, -⟩ | ⟨-, hfailed, -⟩
    · change P'.state.world.lastSeen.differs k event.kind.etag = true
      rw [differs_eq, decide_eq_true_iff]
      exact fun hold => hnews (hseen _ hold)
    · exact hfailed.elim
  rw [hr] at hmem'
  exact performs_records hevents (h'.step hevents hs) hmem' hrecords

end Performs

/-- The HEAD of a refresh fails: its handler goes on with the failure. -/
def HeadFails (setup : Setup) (kb : KbSlug) (objectKey : ObjectPath) (origin : RefreshOrigin)
    (P' : Threads) : Prop :=
  ∃ c r, handle setup.worker (.refresh kb objectKey origin) = .op (.storage (.head kb objectKey {})) c ∧
    (Op.storage (.head kb objectKey {})).Failed r ∧ (.handler (kb, objectKey), c r) ∈ P'.threads

/-- In every careful run, a refresh whose HEAD finds a state nobody has announced since it arose asks
about it, records it and publishes it next, whatever others do meanwhile. And in any run, a handler
that asks about a state that is remembered announces nothing. -/
theorem unannounced_states_are_announced {setup : Setup} (hevents : setup.worker.events = true) :
    (∀ P unannounced, Run setup Careful P unannounced → ∀ kb objectKey origin P',
      (.handler (kb, objectKey), handle setup.worker (.refresh kb objectKey origin)) ∈ P.threads →
      unannounced (kb, objectKey) = true →
      Pool.Step (server setup) P (.op (.handler (kb, objectKey)) (.storage (.head kb objectKey {}))) P' →
      HeadFails setup kb objectKey origin P' ∨
        ∃ event, announces (kb, objectKey) (stamp P.state.world (kb, objectKey)) event = true ∧
          event.source = origin.source ∧
          Performs setup (kb, objectKey) [.isNews (kb, objectKey) event.kind.etag,
            .remember (kb, objectKey) event.kind.etag, .publish event] P') ∧
    ∀ allowed P unannounced, Run setup allowed P unannounced → ∀ k etag c P',
      (.handler k, .op (.isNews k etag) c) ∈ P.threads → (k, etag) ∈ P.state.world.lastSeen →
      Pool.Step (server setup) P (.op (.handler k) (.isNews k etag)) P' →
      ∃ p, (.handler k, p) ∈ P'.threads ∧ Works p := by
  constructor
  · intro P unannounced hP kb objectKey origin P' hmem hunannounced hs
    have hsane := hP.sane hevents
    obtain ⟨c, r, before, after, hsem, hthreads, hthreads'⟩ := hs.op_inv
    have hop : (.handler (kb, objectKey), .op (.storage (.head kb objectKey {})) c) ∈ P.threads := by
      simp [hthreads]
    have hhead := hsane.regular.sound.unique hmem hop
    have hregular := hsane.regular.step hevents hs
    have hmem' : (.handler (kb, objectKey), c r) ∈ P'.threads := by simp [hthreads']
    have hworld := hsem.1.head_world
    -- were the state remembered, this handler would be about to announce it, but it HEADs
    have hnews : ((kb, objectKey), stamp P.state.world (kb, objectKey)) ∉ P'.state.world.lastSeen := by
      rw [hworld]
      intro hseen
      obtain ⟨event, c', hpublish, -⟩ := hsane.seen _ _ hseen rfl hunannounced
      cases hsane.regular.sound.unique hpublish hop
    obtain ⟨hfound, hmissing, -⟩ := refresh_asks hevents hhead
    cases r with
    | ok head =>
      obtain ⟨-, v, hv, rfl⟩ := hsem.1.head_ok
      have hstamp : stamp P.state.world (kb, objectKey) = some v.etag.val := by rw [stamp, hv]; rfl
      rw [hstamp] at hnews
      refine .inr ⟨_, ?_, rfl, performs_asks hevents hregular hmem' (hfound _) hnews⟩
      rw [hstamp]
      exact decide_eq_true ⟨rfl, rfl, rfl⟩
    | error e =>
      rcases hsem.1.head_error with ⟨hnone, rfl⟩ | ⟨-, message, hfailed⟩
      · have hstamp : stamp P.state.world (kb, objectKey) = none := by rw [stamp, hnone]; rfl
        rw [hstamp] at hnews
        refine .inr ⟨_, ?_, rfl, performs_asks hevents hregular hmem' (hmissing _) hnews⟩
        rw [hstamp]
        exact decide_eq_true ⟨rfl, rfl, rfl⟩
      · refine .inl ⟨c, .error e, hhead, ⟨message, ?_⟩, hmem'⟩
        simpa using hfailed
  · intro allowed P unannounced hP k etag c P' hmem hseen hs
    have hregular := hP.regular hevents
    obtain ⟨r, hstep, hmem'⟩ := hregular.op_handler hmem hs
    have hr : r = false := by
      rcases hstep.other_cases (by simp) with ⟨stamp, rfl, -⟩ | ⟨-, hfailed, -⟩
      · change P.state.world.lastSeen.differs k etag = false
        rw [differs_eq, decide_eq_false_iff_not]
        exact fun hnews => hnews hseen
      · exact hfailed.elim
    rw [hr] at hmem'
    refine ⟨c false, hmem', ?_⟩
    exact (hregular.handlings _ hmem k rfl).unasked

/-! ## A note found at the start -/

/-- Any step may be taken. -/
def anyStep : Condition := fun _ _ _ _ => True

/-- The note is there when the server starts, and a refresh of it is due. -/
def foundNote : State :=
  { emptyServer with world.store := Store.empty.apply (.stored note oneLetter) false }

def noteRefresh : IndexEvent := .refresh note.1 note.2 .watch

/-- The refresh of the note is queued and accepted. -/
def refreshing (s : State) : State := ⟨s.world, s.lanes.accept noteRefresh⟩

/-- The refresh of the note is next, and a handler is free. -/
def RefreshNext (s : State) : Prop :=
  s.world.queue = [] ∧ (refreshing s).lanes.active.card < 1 ∧
    (refreshing s).lanes.startNext.map (·.map Prod.fst) = .ok (some (note, noteRefresh))

instance (s : State) : Decidable (RefreshNext s) := inferInstanceAs (Decidable (_ ∧ _ ∧ _))

/-- The threads once the refresh of the note has started. -/
def refreshed (s : State) : Threads :=
  ⟨⟨s.world, nextLanes (refreshing s).lanes⟩,
    [(.handler note, handle (letterServer true).worker noteRefresh)]⟩

theorem observe_eq {w w' : World} (hstore : w'.store = w.store) (hevents : w'.events = w.events) :
    observe w w' unannounced = unannounced :=
  funext fun k => observe_of_same (stamp_eq_of_store hstore k) hevents

section Refresh

variable {allowed : Condition} {s : State}
variable (hquiet : ∀ P unannounced l P', (∀ t o, l ≠ .op t o) →
  P'.state.world.store = P.state.world.store → allowed P unannounced l P')

include hquiet

/-- A step that is no operation leaves the unannounced keys as they are. -/
theorem Run.calm (h : Run setup allowed P unannounced) (hs : Pool.Step (server setup) P l P')
    (hl : ∀ t o, l ≠ .op t o) : Run setup allowed P' unannounced := by
  rcases step_world hs with ⟨t, o, -, heq, -⟩ | ⟨hstore, hevents, -⟩
  · exact absurd heq (hl t o)
  · have hstep := h.step hs (hquiet _ _ _ _ hl hstore)
    rwa [observe_eq hstore hevents] at hstep

/-- A refresh of the note starts. -/
theorem run_refreshed (hnext : RefreshNext s)
    (h : Run (letterServer true) allowed ⟨s, []⟩ unannounced) :
    Run (letterServer true) allowed (refreshed s) unannounced := by
  obtain ⟨⟨store, events, queue, points, lastSeen⟩, lanes⟩ := s
  obtain rfl : queue = [] := hnext.1
  have hqueued := h.calm hquiet (.env (.inr ⟨note.1, note.2, .watch, rfl⟩)) (by simp)
  have haccepted := hqueued.calm hquiet (.env (.inl ⟨noteRefresh, [], rfl, rfl⟩)) (by simp)
  have hstarts : (server (letterServer true)).spawn _ (.handler note)
      (handle (letterServer true).worker noteRefresh) _ :=
    Exists.intro noteRefresh ⟨_, hnext.2.1, startNext_eq_nextLanes hnext.2.2, rfl, rfl⟩
  exact haccepted.calm hquiet (.spawn hstarts) (by simp)

omit hquiet

/-- The HEAD of the refresh. -/
theorem refreshed_head {v : Version} (hv : s.world.get note = some v) : ∃ c,
    handle (letterServer true).worker noteRefresh = .op (.storage (.head note.1 note.2 {})) c ∧
      Pool.Step (server (letterServer true)) (refreshed s)
        (.op (.handler note) (.storage (.head note.1 note.2 {})))
        ⟨(refreshed s).state, [(.handler note, c (.ok (v.objectMeta note.2 v.size)))]⟩ := by
  have hget : s.world.store.objects.get (note.1, note.2) = some v := hv
  have heval : (StorageOp.head note.1 note.2 {}).eval (letterServer true).semantics.parseHttpDate
      ⟨v.etag, v.lastModified⟩ s.world.store.objects = (.ok (v.objectMeta note.2 v.size), .unchanged) := by
    simp [StorageOp.eval, hget]
  exact ⟨_, rfl, .op_head ⟨.of_eval heval trivial, rfl⟩⟩

/-- The HEAD has found the note. -/
theorem found_not_headFails {c : Except StorageError ObjectMeta → Program Unit} {head : ObjectMeta}
    (hhead : handle (letterServer true).worker noteRefresh = .op (.storage (.head note.1 note.2 {})) c) :
    ¬ HeadFails (letterServer true) note.1 note.2 .watch ⟨s, [(.handler note, c (.ok head))]⟩ := by
  rintro ⟨c', r, hhead', hfailed, hmem⟩
  obtain ⟨-, -, hworks⟩ := refresh_asks rfl hhead'
  cases hhead.symm.trans hhead'
  have hsame : c r = c (.ok head) := congrArg Prod.snd (List.mem_singleton.mp hmem)
  obtain ⟨_, heq, -⟩ := (refresh_asks rfl hhead).1 head
  have hbad := hworks r hfailed
  rw [hsame, heq] at hbad
  exact hbad.1

end Refresh

theorem careful_of_calm (P : Threads) (unannounced : Key → Bool) (l : Pool.Label Party Op) (P' : Threads)
    (hl : ∀ t o, l ≠ .op t o) (hstore : P'.state.world.store = P.state.world.store) :
    Careful P unannounced l P' where
  noReturn k hne := absurd (stamp_eq_of_store hstore k) hne
  recorded _ _ heq := absurd heq (hl _ _)
  published _ _ heq := absurd heq (hl _ _)

theorem unannounced_states_are_announced_start : ∃ P unannounced P' event,
    (letterServer true).worker.events = true ∧ Run (letterServer true) Careful P unannounced ∧
    (.handler note, handle (letterServer true).worker noteRefresh) ∈ P.threads ∧
    unannounced note = true ∧
    Pool.Step (server (letterServer true)) P (.op (.handler note) (.storage (.head note.1 note.2 {}))) P' ∧
    announces note (some oneLetter.etag.val) event = true ∧
    Performs (letterServer true) note [.isNews note event.kind.etag, .remember note event.kind.etag,
      .publish event] P' := by
  have hrun : Run (letterServer true) Careful (refreshed foundNote) fun _ => true :=
    run_refreshed careful_of_calm (by decide) (.init rfl rfl)
  have hfound : foundNote.world.get note = some oneLetter := by decide
  obtain ⟨c, hhead, hstep⟩ := refreshed_head hfound
  have hmem : (.handler note, handle (letterServer true).worker noteRefresh) ∈ (refreshed foundNote).threads :=
    List.mem_singleton.mpr rfl
  rcases (unannounced_states_are_announced rfl).1 _ _ hrun note.1 note.2 .watch _ hmem rfl hstep with
    hfails | ⟨event, hevent, -, hperforms⟩
  · exact absurd hfails (found_not_headFails hhead)
  · exact ⟨_, _, _, event, rfl, hrun, hmem, rfl, hstep, hevent, hperforms⟩

/-! ## A note edited behind the server's back -/

/-- The operation announces no change. -/
def Hushed (o : Op) : Prop := ∀ event, o = .publish event → isChange event.kind = false

theorem Quiet.hushed {o : Op} (h : Quiet o) : Hushed o := by
  rintro event rfl
  exact h

/-- The handling of a write announces nothing. -/
theorem handleUpsert_hushed {worker : IndexerWorker} {kb : KbSlug} {objectKey : ObjectPath} {skip : Skip} :
    (handleUpsert worker kb objectKey skip .written).Only Hushed fun _ => True := by
  have htombstone : (tombstoneBeforeHead kb objectKey).Only Hushed fun _ => True :=
    (tombstoneBeforeHead_only none).mono (fun _ h => (WorkOp.quiet h).hushed) fun _ _ => trivial
  have hremember : ∀ etag, (remember worker kb objectKey etag).Only Hushed fun _ => True := by
    intro etag
    unfold remember
    split
    · exact ⟨nofun, fun _ => trivial⟩
    · trivial
  unfold handleUpsert
  split
  · exact htombstone
  · refine Prog.Only.call nofun fun r => ?_
    cases r with
    | ok head =>
      have hindex : (indexHead worker kb objectKey head (resolveMime head.contentType objectKey)
          skip).Only Hushed fun _ => True :=
        indexHead_only.mono (fun _ h => (WorkOp.quiet h).hushed) fun _ _ => trivial
      refine (hremember head.etag).andThen fun _ => hindex.andThen fun r => ?_
      cases r with
      | error message => trivial
      | ok outcome => trivial
    | error e =>
      dsimp only
      split
      · exact Prog.Only.andThen (p := .ret ()) trivial fun _ => htombstone
      · split
        · exact htombstone
        · exact htombstone
        · trivial
      · next h => cases h

/-- A step that announces no change. -/
def hushedStep (_ : Threads) (l : Pool.Label Party Op) : Prop := ∀ t o, l = .op t o → Hushed o

/-- A state that is unannounced stays so, or gives way to another, until a change is announced. -/
theorem observe_of_hushed {w w' : World} {k : Key} (h : unannounced k = true)
    (hevents : w'.events = w.events ∨ ∃ event, w'.events = w.events ++ [event] ∧ isChange event.kind = false) :
    observe w w' unannounced k = true := by
  unfold observe
  split
  · rfl
  · rcases hevents with hsame | ⟨event, hmore, hchange⟩
    · rw [hsame, List.drop_length, List.any_nil]
      exact h
    · have hnot : announces k (stamp w' k) event = false := by simp [announces, hchange]
      rw [hmore, List.drop_left, List.any_cons, hnot]
      exact h

theorem run_of_reach {s : State} {k : Key} (h : Pool.Reach (server setup) hushedStep (· = s) P)
    (hrun : Run setup anyStep ⟨s, []⟩ unannounced) (hk : unannounced k = true) :
    ∃ unannounced', Run setup anyStep P unannounced' ∧ unannounced' k = true := by
  induction h with
  | init hs =>
    subst hs
    exact ⟨unannounced, hrun, hk⟩
  | step _ hs hhushed ih =>
    obtain ⟨unannounced', hrun', hk'⟩ := ih
    refine ⟨_, hrun'.step hs trivial, observe_of_hushed hk' ?_⟩
    rcases step_world hs with ⟨t, o, r, rfl, hstep⟩ | ⟨-, hsame, -⟩
    · rcases hstep.events_cases with hsame | ⟨event, rfl, hmore⟩
      · exact .inl hsame
      · exact .inr ⟨event, hmore, hhushed t _ rfl event rfl⟩
    · exact .inl hsame

theorem run_of_reach_any {s : State} (h : Pool.Reach (server setup) Pool.anyStep (· = s) P)
    (hrun : Run setup anyStep ⟨s, []⟩ unannounced) : ∃ unannounced', Run setup anyStep P unannounced' := by
  induction h with
  | init hs =>
    subst hs
    exact ⟨unannounced, hrun⟩
  | step _ hs _ ih =>
    obtain ⟨unannounced', hrun'⟩ := ih
    exact ⟨_, hrun'.step hs trivial⟩

/-- What somebody else writes into the note. -/
def edited : Version := Version.tagged '2' (Utf8.encode ['b'])

/-- The note is stored through the server and announced, and then edited by somebody else. -/
def editedNote : State :=
  (external ⟨afterPut true oneLetter emptyServer, []⟩ (.stored note edited)).state

/-- The index event of the write is handled: its HEAD finds the edited note. -/
def handledNote : State :=
  afterHandler (letterServer true) ⟨edited.etag, edited.lastModified⟩ note noteEvent
    (nextLanes (accepted editedNote).lanes) (accepted editedNote).world

theorem reaches_handledNote :
    Pool.Reach (server (letterServer true)) hushedStep (· = editedNote) ⟨handledNote, []⟩ := by
  have hnext : NoteNext editedNote := by decide
  have hquiet : ∀ (P : Threads) (l : Pool.Label Party Op), (∀ t o, l ≠ .op t o) → hushedStep P l :=
    fun _ _ hl t o heq => absurd heq (hl t o)
  have hinit : Pool.Reach (server (letterServer true)) hushedStep (· = editedNote) ⟨editedNote, []⟩ :=
    .init rfl
  have haccept := reach_accept hquiet hinit hnext.1
  have hstart := reach_start hquiet haccept hnext.2.1 hnext.startNext
  rw [← Prog.bind_ret (handle (letterServer true).worker noteEvent)] at hstart
  have honly : (handle (letterServer true).worker noteEvent).Only Hushed fun _ => True :=
    handleUpsert_hushed.andThen fun _ => reportOutcome_works.mono (fun _ => Quiet.hushed) fun _ h => h
  have hrun := Pool.Reach.run (alone_sem (fun _ _ => trivial) ⟨edited.etag, edited.lastModified⟩)
    (fun s o c ho t o' heq => by cases heq; exact ho) honly hstart
  have hdone := hrun.step (.finish rfl) (hquiet _ _ (by simp))
  rwa [List.append_nil] at hdone

/-- A handler that asks about a remembered state does not go on to record it. -/
theorem remembered_not_performed {s : State} {p : Program Unit} {event : ObjectEvent} {ops : List Op}
    {etag : Option Text} (hasks : Asks note event p) (hetag : event.kind.etag = etag)
    (hseen : s.world.lastSeen.differs note etag = false) :
    ¬ Performs (letterServer true) note (.isNews note etag :: .remember note etag :: ops)
      ⟨s, [(.handler note, p)]⟩ := by
  subst hetag
  intro hperforms
  obtain ⟨c, rfl, -, hworks⟩ := hasks
  have hstep : (letterServer true).semantics.Step s.world (.isNews note event.kind.etag) false s.world := by
    have hasked := Semantics.Step.other (S := (letterServer true).semantics) (w := s.world)
      (.isNews note event.kind.etag) ⟨oneLetter.etag, oneLetter.lastModified⟩ (by simp)
    rwa [World.perform, hseen] at hasked
  obtain ⟨-, hnext⟩ := hperforms _ .refl
  obtain ⟨⟨c', hmem⟩, -⟩ := hnext ⟨s, [(.handler note, c false)]⟩ (.op_head ⟨hstep, rfl⟩) _ .refl
  have heq : Prog.op (.remember note event.kind.etag) c' = c false :=
    congrArg Prod.snd (List.mem_singleton.mp hmem)
  rw [← heq] at hworks
  exact hworks.1

/-- A note is stored through the server and announced, and edited by somebody else before the index
event of the write is handled. That handling remembers the edited note. The refresh that finds it,
which nobody has announced, then announces nothing. -/
theorem edit_behind_a_write_is_not_announced :
    ∃ P unannounced P', (letterServer true).worker.events = true ∧
      Run (letterServer true) anyStep P unannounced ∧
      (.handler note, handle (letterServer true).worker noteRefresh) ∈ P.threads ∧
      unannounced note = true ∧
      Pool.Step (server (letterServer true)) P
        (.op (.handler note) (.storage (.head note.1 note.2 {}))) P' ∧
      P.state.world.get note = some edited ∧
      (∀ event ∈ P.state.world.events, announces note (some edited.etag.val) event = false) ∧
      ¬ HeadFails (letterServer true) note.1 note.2 .watch P' ∧
      ¬ ∃ event, announces note (some edited.etag.val) event = true ∧
        Performs (letterServer true) note [.isNews note event.kind.etag,
          .remember note event.kind.etag, .publish event] P' := by
  have hput := reach_request (fun _ _ => trivial) ⟨oneLetter.etag, oneLetter.lastModified⟩
    (fun _ _ _ => trivial) (fun _ _ _ => trivial)
    (Pool.Reach.init rfl : Pool.Reach (server (letterServer true)) Pool.anyStep (· = emptyServer) _)
    (isRequest_putNote true oneLetter.bytes)
  have hinit : Run (letterServer true) anyStep ⟨emptyServer, []⟩ fun _ => false := .init rfl rfl
  obtain ⟨unannounced₀, hstored⟩ := run_of_reach_any hput hinit
  have hedited : Run (letterServer true) anyStep ⟨editedNote, []⟩ _ := hstored.external trivial trivial
  have hfresh : observe (afterPut true oneLetter emptyServer).world editedNote.world unannounced₀ note =
      true := if_pos (by decide)
  obtain ⟨unannounced, hhandled, hnote⟩ := run_of_reach reaches_handledNote hedited hfresh
  have hrun := run_refreshed (fun _ _ _ _ _ _ => trivial) (by decide) hhandled
  have hget : handledNote.world.get note = some edited := by decide
  obtain ⟨c, hhead, hstep⟩ := refreshed_head hget
  have hasks := (refresh_asks rfl hhead).1 (edited.objectMeta note.2 edited.size)
  refine ⟨_, unannounced, _, rfl, hrun, List.mem_singleton.mpr rfl, hnote, hstep, hget,
    (by decide), found_not_headFails hhead, ?_⟩
  rintro ⟨event, hevent, hperforms⟩
  rw [(of_decide_eq_true hevent).2.1] at hperforms
  exact remembered_not_performed hasks rfl (by decide) hperforms

end Announcements
