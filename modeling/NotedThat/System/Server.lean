-- SUMMARY: The whole server as one pool: write requests, the index queue, the worker's lanes and the handlers they start.
import NotedThat.Indexer.Lanes
import NotedThat.Indexer.Specs
import NotedThat.Write.Duties
import Mathlib.Data.Finset.Card

/-!
# The server

Write requests and index handlings run side by side. A request leaves its event in the index
queue, the worker takes the queue into its lanes, and a lane starts the next handler of its key
when the last one has finished. Watchers and reconciliation may queue a refresh of any key.
-/

namespace Server

open Indexer (Lanes IndexerWorker HandlerOp handle)
open Write (Dutiful Offers)

/-- How a server is set up. Its requests and its worker share one event log, if there is one. -/
structure Setup where
  json : ManifestJson
  semantics : Semantics
  worker : IndexerWorker
  concurrency : Nat

/-- What a thread is. -/
inductive Party where
  | request
  | handler (key : Key)
deriving DecidableEq

/-- The key a party handles. -/
def Party.key? : Party → Option Key
  | .request => none
  | .handler key => some key

structure State where
  world : World
  lanes : Lanes

variable (setup : Setup)

/-- The requests that write: their programs, for any arguments. -/
inductive IsRequest : Program Unit → Prop where
  | commit (sinks : WriteSinks) (kb : KbSlug) (path : ObjectPath) (body : StagedBody)
      (callerContentType : Option Text) (conditionals : ConditionalHeaders)
      (hevents : sinks.events = setup.worker.events) :
      IsRequest (Write.commit setup.json sinks kb path body callerContentType conditionals).discard
  | patch (sinks : WriteSinks) (request : Write.PatchRequest)
      (hevents : sinks.events = setup.worker.events) :
      IsRequest (Write.patch setup.json sinks request).discard
  | replace (sinks : WriteSinks) (request : Write.ReplaceRequest)
      (hevents : sinks.events = setup.worker.events) :
      IsRequest (Write.replace setup.json sinks request).discard
  | copyOrMove (state : Webdav.WebDavState) (req : Request) (deleteSource : Bool)
      (hevents : state.sinks.events = setup.worker.events) :
      IsRequest (Webdav.handleCopyOrMove state req deleteSource).discard
  | delete (sinks : WriteSinks) (kb : KbSlug) (path : ObjectPath)
      (conditionals : ConditionalHeaders) (hevents : sinks.events = setup.worker.events) :
      IsRequest (Write.commitDelete sinks kb path conditionals).discard

/-- The worker accepts the oldest queued event. -/
def Accepts (s s' : State) : Prop :=
  ∃ event rest, s.world.queue = event :: rest ∧
    s' = ⟨{ s.world with queue := rest }, s.lanes.accept event⟩

/-- A refresh is queued. -/
def Refreshes (s s' : State) : Prop :=
  ∃ kb objectKey origin,
    s' = ⟨{ s.world with queue := s.world.queue ++ [.refresh kb objectKey origin] }, s.lanes⟩

/-- What starts: any request, or the next handler of the lanes, while there is a free slot. -/
def Starts (s : State) : Party → Program Unit → State → Prop
  | .request, p, s' => IsRequest setup p ∧ s' = s
  | .handler key, p, s' => ∃ event lanes, s.lanes.active.card < setup.concurrency ∧
      s.lanes.startNext = .ok (some ((key, event), lanes)) ∧ p = handle setup.worker event ∧
      s' = ⟨s.world, lanes⟩

/-- What the end of a thread does. -/
def Finishes (s : State) : Party → State → Prop
  | .request, s' => s' = s
  | .handler key, s' => s' = ⟨s.world, s.lanes.finish key⟩

/-- The server as a pool of requests and handlers. -/
def server : Pool.System State Party Op Op.Res where
  sem := fun s o r s' => setup.semantics.Step s.world o r s'.world ∧ s'.lanes = s.lanes
  env := fun s s' => Accepts s s' ∨ Refreshes s s'
  spawn := Starts setup
  finish := Finishes

abbrev Threads := Pool State Party Op Op.Res

variable {setup} {P P' : Threads} {l : Pool.Label Party Op}

theorem IsRequest.dutiful {p : Program Unit} (hp : IsRequest setup p) :
    Dutiful setup.worker.events p := by
  cases hp with
  | commit _ _ _ _ _ _ hevents => exact hevents ▸ Write.commit_dutiful.discard
  | patch _ _ hevents => exact hevents ▸ Write.patch_dutiful.discard
  | replace _ _ hevents => exact hevents ▸ Write.replace_dutiful.discard
  | copyOrMove _ _ _ hevents => exact hevents ▸ Webdav.handleCopyOrMove_dutiful.discard
  | delete _ _ _ _ hevents => exact Write.commitDelete_dutiful.discard

/-! ## The steps one by one -/

/-- What each kind of step needs, and what it makes of the server. -/
inductive Moves (setup : Setup) : Threads → Pool.Label Party Op → Threads → Prop where
  | accept {s : State} {event : IndexEvent} {rest : List IndexEvent} {ts : List (Party × Program Unit)}
      (hqueue : s.world.queue = event :: rest) :
      Moves setup ⟨s, ts⟩ .env ⟨⟨{ s.world with queue := rest }, s.lanes.accept event⟩, ts⟩
  | refresh {s : State} {kb : KbSlug} {objectKey : ObjectPath} {origin : RefreshOrigin}
      {ts : List (Party × Program Unit)} :
      Moves setup ⟨s, ts⟩ .env
        ⟨⟨{ s.world with queue := s.world.queue ++ [.refresh kb objectKey origin] }, s.lanes⟩, ts⟩
  | request {s : State} {p : Program Unit} {ts : List (Party × Program Unit)} (hp : IsRequest setup p) :
      Moves setup ⟨s, ts⟩ (.spawn .request) ⟨s, ts ++ [(.request, p)]⟩
  | handler {s : State} {key : Key} {event : IndexEvent} {lanes : Lanes}
      {ts : List (Party × Program Unit)} (hfree : s.lanes.active.card < setup.concurrency)
      (hstart : s.lanes.startNext = .ok (some ((key, event), lanes))) :
      Moves setup ⟨s, ts⟩ (.spawn (.handler key))
        ⟨⟨s.world, lanes⟩, ts ++ [(.handler key, handle setup.worker event)]⟩
  | op {s : State} {world : World} {t : Party} {o : Op} {c : o.Res → Program Unit} {r : o.Res}
      {before after : List (Party × Program Unit)} (hsem : setup.semantics.Step s.world o r world) :
      Moves setup ⟨s, before ++ (t, .op o c) :: after⟩ (.op t o)
        ⟨⟨world, s.lanes⟩, before ++ (t, c r) :: after⟩
  | requestDone {s : State} {before after : List (Party × Program Unit)} :
      Moves setup ⟨s, before ++ (.request, .ret ()) :: after⟩ (.finish .request) ⟨s, before ++ after⟩
  | handlerDone {s : State} {key : Key} {before after : List (Party × Program Unit)} :
      Moves setup ⟨s, before ++ (.handler key, .ret ()) :: after⟩ (.finish (.handler key))
        ⟨⟨s.world, s.lanes.finish key⟩, before ++ after⟩

/-- Every step is one of these. -/
theorem step_moves (hs : Pool.Step (server setup) P l P') : Moves setup P l P' := by
  cases hs with
  | env he =>
    rcases he with ⟨event, rest, hqueue, rfl⟩ | ⟨kb, objectKey, origin, rfl⟩
    · exact .accept hqueue
    · exact .refresh
  | @spawn s s' t p ts hsp =>
    cases t with
    | request =>
      obtain ⟨hp, rfl⟩ := hsp
      exact .request hp
    | handler key =>
      obtain ⟨event, lanes, hfree, hstart, rfl, rfl⟩ := hsp
      exact .handler hfree hstart
  | @op s s' t o c r before after hsem =>
    obtain ⟨world, lanes⟩ := s'
    obtain ⟨hstep, rfl⟩ := hsem
    exact .op hstep
  | @finish s s' t before after hf =>
    cases t with
    | request =>
      cases hf
      exact .requestDone
    | handler key =>
      cases hf
      exact .handlerDone

/-! ## What every state keeps -/

/-- What is known of a thread's program: a request is dutiful, and a handler keeps to its key. -/
def Behaves (setup : Setup) : Party → Program Unit → Prop
  | .request, p => Dutiful setup.worker.events p
  | .handler key, p => p.Only (HandlerOp key) fun _ => True

/-- The keys of the running handlers. -/
def handled (P : Threads) : List Key := P.threads.filterMap (·.1.key?)

theorem mem_handled {P : Threads} {k : Key} : k ∈ handled P ↔ ∃ p, (.handler k, p) ∈ P.threads := by
  simp only [handled, List.mem_filterMap]
  constructor
  · rintro ⟨⟨t, p⟩, hmem, hkey⟩
    cases t with
    | request => cases hkey
    | handler key =>
      cases hkey
      exact ⟨p, hmem⟩
  · rintro ⟨p, hmem⟩
    exact ⟨_, hmem, rfl⟩

/-- The lanes are consistent and hold the events of their keys, the handlers running are those of
the active keys, one each, and every thread behaves. -/
structure Sound (setup : Setup) (P : Threads) : Prop where
  lanes : P.state.lanes.Consistent
  own : ∀ k, ∀ event ∈ P.state.lanes.lane k, event.key = k
  active : ∀ k, k ∈ P.state.lanes.active ↔ k ∈ handled P
  single : (handled P).Nodup
  programs : ∀ th ∈ P.threads, Behaves setup th.1 th.2

theorem sound_init {s : State} (h : s.lanes = Lanes.empty) : Sound setup ⟨s, []⟩ := by
  obtain ⟨world, lanes⟩ := s
  cases h
  refine ⟨.empty, fun k event hevent => ?_, fun k => ?_, List.nodup_nil, by simp⟩
  · cases hevent
  · simp [handled]

/-- A lane's next event is one of its key. -/
theorem Sound.startNext_key (h : Sound setup P) {key : Key} {event : IndexEvent} {lanes : Lanes}
    (hstart : P.state.lanes.startNext = .ok (some ((key, event), lanes))) : event.key = key := by
  refine h.own key event ?_
  rw [(Lanes.lane_startNext hstart).1]
  exact List.mem_cons_self

theorem Sound.behaves (h : Sound setup P) (hs : Pool.Step (server setup) P l P') :
    ∀ th ∈ P'.threads, Behaves setup th.1 th.2 := by
  refine hs.threads (fun t p s' hsp => ?_) (fun t o k r hk => ?_) h.programs
  · cases t with
    | request => exact hsp.1.dutiful
    | handler key =>
      obtain ⟨event, lanes, -, hstart, rfl, -⟩ := hsp
      exact h.startNext_key hstart ▸ Indexer.handle_only
  · cases t with
    | request => exact (hk.2 r).2
    | handler key => exact hk.2 r

/-- The start of a handler, as the lanes see it. -/
theorem Sound.startNext (h : Sound setup P) {key : Key} {event : IndexEvent} {lanes : Lanes}
    (hstart : P.state.lanes.startNext = .ok (some ((key, event), lanes))) :
    key ∉ handled P ∧ ∀ k, k ∈ lanes.active ↔ k = key ∨ k ∈ P.state.lanes.active := by
  obtain ⟨ready, rest, hready, -, rfl⟩ := Lanes.startNext_eq_some hstart
  have hidle := ((h.lanes.ready key).mp (by simp [hready])).2
  rw [h.active] at hidle
  exact ⟨hidle, fun k => Finset.mem_insert⟩

theorem Sound.step (h : Sound setup P) (hs : Pool.Step (server setup) P l P') :
    Sound setup P' := by
  have hprograms := h.behaves hs
  cases step_moves hs with
  | @accept s event rest ts hqueue =>
    refine ⟨h.lanes.accept event, fun k e he => ?_, h.active, h.single, hprograms⟩
    dsimp only at he
    rw [Lanes.lane_accept] at he
    split at he
    · next hk =>
      rcases List.mem_append.mp he with he | he
      · exact h.own k e he
      · rw [List.mem_singleton.mp he, hk]
    · exact h.own k e he
  | refresh => exact ⟨h.lanes, h.own, h.active, h.single, hprograms⟩
  | @request s p ts hp =>
    have hsame : handled ⟨s, ts ++ [(.request, p)]⟩ = handled ⟨s, ts⟩ := by
      simp [handled, Party.key?]
    exact ⟨h.lanes, h.own, hsame ▸ h.active, hsame ▸ h.single, hprograms⟩
  | @handler s key event lanes ts _ hstart =>
    obtain ⟨hfree, hactive⟩ := h.startNext hstart
    obtain ⟨hhead, hother⟩ := Lanes.lane_startNext hstart
    have hmore : handled ⟨⟨s.world, lanes⟩, ts ++ [(.handler key, handle setup.worker event)]⟩ =
        handled ⟨s, ts⟩ ++ [key] := by
      simp [handled, Party.key?]
    refine ⟨h.lanes.startNext hstart, fun k e he => ?_, fun k => ?_, ?_, hprograms⟩
    · by_cases hk : k = key
      · subst hk
        refine h.own k e ?_
        dsimp only at he ⊢
        rw [hhead]
        exact List.mem_cons_of_mem _ he
      · exact h.own k e (hother k hk ▸ he)
    · have hk := h.active k
      simp only [hmore, hactive, hk, List.mem_append, List.mem_singleton, Or.comm]
    · rw [hmore]
      exact h.single.append (List.nodup_singleton _) (by simpa using hfree)
  | @op s world t o c r before after hsem =>
    have hsame : handled ⟨⟨world, s.lanes⟩, before ++ (t, c r) :: after⟩ =
        handled ⟨s, before ++ (t, .op o c) :: after⟩ := by
      simp [handled, List.filterMap_cons]
    exact ⟨h.lanes, h.own, hsame ▸ h.active, hsame ▸ h.single, hprograms⟩
  | @requestDone s before after =>
    have hsame : handled ⟨s, before ++ (.request, .ret ()) :: after⟩ = handled ⟨s, before ++ after⟩ := by
      simp [handled, Party.key?]
    exact ⟨h.lanes, h.own, hsame ▸ h.active, hsame ▸ h.single, hprograms⟩
  | @handlerDone s key before after =>
    have hkeys : handled ⟨s, before ++ (.handler key, .ret ()) :: after⟩ =
        before.filterMap (·.1.key?) ++ key :: after.filterMap (·.1.key?) := by
      simp [handled, Party.key?]
    have hless : handled ⟨⟨s.world, s.lanes.finish key⟩, before ++ after⟩ =
        before.filterMap (·.1.key?) ++ after.filterMap (·.1.key?) := by
      simp [handled]
    have hsingle := h.single
    rw [hkeys] at hsingle
    have hnodup := List.nodup_cons.mp (List.nodup_middle.mp hsingle)
    refine ⟨h.lanes.finish ((h.active key).mpr (by simp [hkeys])), h.own, fun k => ?_, ?_, hprograms⟩
    · have hk := h.active k
      rw [hkeys] at hk
      rw [hless]
      simp only [Lanes.finish, Finset.mem_erase, hk, List.mem_append, List.mem_cons]
      by_cases heq : k = key
      · subst heq
        simpa using hnodup.1
      · simp [heq]
    · rw [hless]
      exact hnodup.2

/-- The store and the event log change by operations only. -/
theorem step_world (hs : Pool.Step (server setup) P l P') :
    (∃ t o r, l = .op t o ∧ setup.semantics.Step P.state.world o r P'.state.world) ∨
      (P'.state.world.store = P.state.world.store ∧
        P'.state.world.events = P.state.world.events ∧ ∀ t o, l ≠ .op t o) := by
  cases step_moves hs with
  | op hsem => exact .inl ⟨_, _, _, rfl, hsem⟩
  | _ => exact .inr ⟨rfl, rfl, by simp⟩

/-- A key has one handler at most. -/
theorem Sound.unique (h : Sound setup P) {k : Key} {p p' : Program Unit}
    (hp : (.handler k, p) ∈ P.threads) (hp' : (.handler k, p') ∈ P.threads) : p = p' := by
  have hpairs := List.pairwise_filterMap.mp h.single
  by_contra hne
  have hsymm : Std.Symm fun th th' : Party × Program Unit =>
      ∀ b, th.1.key? = some b → ∀ b', th'.1.key? = some b' → b ≠ b' := by
    refine ⟨fun th th' hth b' hb' b hb heq => ?_⟩
    exact hth b hb b' hb' heq.symm
  exact hpairs.forall hp hp' (by simpa using hne) k rfl k rfl rfl

/-! ## Events that are due -/

/-- The event is promised, queued, or waits in its lane. -/
def Due (event : IndexEvent) (P : Threads) : Prop :=
  P.Owed (Offers event) ∨ event ∈ P.state.world.queue ∨ event ∈ P.state.lanes.lane event.key

/-- The step that starts a handler of `event` for `k`. -/
structure Starting (setup : Setup) (k : Key) (event : IndexEvent) (P P' : Threads) : Prop where
  world : P'.state.world = P.state.world
  threads : P'.threads = P.threads ++ [(.handler k, handle setup.worker event)]
  lanes : P.state.lanes.startNext = .ok (some ((k, event), P'.state.lanes))

/-- An event that is due stays so until a handler of it starts. -/
theorem Due.step {event : IndexEvent} (hS : ¬ setup.semantics.mayFail (.trySend event))
    (h : Due event P) (hs : Pool.Step (server setup) P l P') :
    Due event P' ∨ Starting setup event.key event P P' := by
  rcases h with howed | hqueue | hlane
  · rcases howed.step hs with howed | ⟨t, o, r, rfl, rfl, hsem⟩
    · exact .inl (.inl howed)
    · exact .inl (.inr (.inl (hsem.1.trySend_queue hS)))
  · refine .inl (.inr ?_)
    cases step_moves hs with
    | @accept s event' rest ts heq =>
      dsimp only at hqueue ⊢
      rw [heq] at hqueue
      rcases List.mem_cons.mp hqueue with rfl | hrest
      · refine .inr ?_
        rw [Lanes.lane_accept, if_pos rfl]
        simp
      · exact .inl hrest
    | refresh => exact .inl (List.mem_append_left _ hqueue)
    | op hsem => exact .inl (hsem.queue_subset hqueue)
    | _ => exact .inl hqueue
  · cases step_moves hs with
    | accept =>
      refine .inl (.inr (.inr ?_))
      dsimp only
      rw [Lanes.lane_accept]
      split
      · exact List.mem_append_left _ hlane
      · exact hlane
    | @handler s key event' lanes ts _ hstart =>
      obtain ⟨hhead, hother⟩ := Lanes.lane_startNext hstart
      by_cases hk : event.key = key
      · subst hk
        dsimp only at hlane
        rw [hhead] at hlane
        rcases List.mem_cons.mp hlane with rfl | hlane
        · exact .inr ⟨rfl, rfl, hstart⟩
        · exact .inl (.inr (.inr hlane))
      · refine .inl (.inr (.inr ?_))
        dsimp only
        rw [hother _ hk]
        exact hlane
    | _ => exact .inl (.inr (.inr hlane))

/-! ## What a step does to one key -/

/-- Everything a step may do that matters to the points of `k`: nothing, a change of the object,
which makes its event due, or a step of the key's handler. -/
inductive KeyStep (setup : Setup) (k : Key) (P P' : Threads) : Prop where
  | calm (hget : P'.state.world.get k = P.state.world.get k)
      (hpoints : P'.state.world.points k = P.state.world.points k)
      (hhandler : ∀ p, (.handler k, p) ∈ P'.threads ↔ (.handler k, p) ∈ P.threads)
  | changed (hdue : Due (.upsert k.1 k.2) P' ∨
      (P'.state.world.get k = none ∧ Due (.tombstone k.1 k.2) P'))
  | moved (o : Op) (c : o.Res → Program Unit) (r : o.Res)
      (hbefore : (.handler k, .op o c) ∈ P.threads)
      (hget : P'.state.world.get k = P.state.world.get k)
      (hstep : setup.semantics.Step P.state.world o r P'.state.world)
      (hafter : (.handler k, c r) ∈ P'.threads)
  | started (event : IndexEvent) (hkey : event.key = k) (hstart : Starting setup k event P P')
      (hfree : k ∉ handled P)
  | finished (hbefore : (.handler k, .ret ()) ∈ P.threads)
      (hworld : P'.state.world = P.state.world) (hafter : k ∉ handled P')

/-- A step of a request. -/
theorem keyStep_request {s s' : State} {o : Op} {c : o.Res → Program Unit} {r : o.Res}
    {before after : List (Party × Program Unit)}
    (hsem : setup.semantics.Step s.world o r s'.world)
    (hp : Dutiful setup.worker.events (.op o c)) (k : Key) :
    KeyStep setup k ⟨s, before ++ (.request, .op o c) :: after⟩
      ⟨s', before ++ (.request, c r) :: after⟩ := by
  have hpays : ∀ event, Write.duties setup.worker.events o r (Offers event) →
      Due event ⟨s', before ++ (.request, c r) :: after⟩ := by
    intro event hduty
    exact .inl ⟨(.request, c r), by simp, (hp.2 r).1 _ hduty⟩
  rcases Write.get_eq_or_duties setup.worker.events hsem k with hget | hduty | ⟨hnone, hduty⟩
  · refine .calm hget ?_ fun p => by simp
    rw [hp.1.points hsem]
  · exact .changed (.inl (hpays _ hduty))
  · exact .changed (.inr ⟨hnone, hpays _ hduty⟩)

theorem Sound.keyStep (h : Sound setup P) (hs : Pool.Step (server setup) P l P') (k : Key) :
    KeyStep setup k P P' := by
  have h' := h.step hs
  cases step_moves hs with
  | accept => exact .calm rfl rfl fun _ => Iff.rfl
  | refresh => exact .calm rfl rfl fun _ => Iff.rfl
  | request => exact .calm rfl rfl fun _ => by simp
  | @handler s key event lanes ts _ hstart =>
    by_cases hk : k = key
    · subst hk
      exact .started event (h.startNext_key hstart) ⟨rfl, rfl, hstart⟩ (h.startNext hstart).1
    · exact .calm rfl rfl fun _ => by simp [hk]
  | @op s world t o c r before after hsem =>
    have hp := h.programs (t, .op o c) (by simp)
    cases t with
    | request => exact keyStep_request hsem hp k
    | handler key =>
      obtain ⟨hstore, hpoints⟩ := hp.1.step hsem
      have hget : world.get k = s.world.get k := by rw [World.get, hstore]
      by_cases hk : k = key
      · subst hk
        exact .moved o c r (by simp) hget hsem (by simp)
      · exact .calm hget (hpoints k hk) fun _ => by simp [hk]
  | requestDone => exact .calm rfl rfl fun _ => by simp
  | @handlerDone s key before after =>
    by_cases hk : k = key
    · subst hk
      refine .finished (by simp) rfl ?_
      rw [← h'.active]
      simp [Lanes.finish]
    · exact .calm rfl rfl fun _ => by simp [hk]

/-! ## Undisturbed parts of a run -/

/-- The machine a thread runs on while nobody disturbs it and nothing fails. -/
def alone (setup : Setup) (stamp : Stamp) (o : Op) (s : State) : o.Res × State :=
  let answer := s.world.perform setup.semantics.parseHttpDate stamp o
  (answer.1, ⟨answer.2, s.lanes⟩)

section Undisturbed

variable {allowed : Threads → Pool.Label Party Op → Prop} {init : State → Prop} {s : State}
variable {ts : List (Party × Program Unit)}
variable (hadm : ∀ store effect, setup.semantics.admissible store effect) (stamp : Stamp)

include hadm in
theorem alone_sem (o : Op) (s : State) :
    (server setup).sem s o (alone setup stamp o s).1 (alone setup stamp o s).2 := by
  refine ⟨?_, rfl⟩
  cases o with
  | storage o => exact .storage o stamp (hadm _ _)
  | _ => exact .other _ stamp (by simp)

include hadm in
/-- A request is served, where its operations and whatever is no operation are allowed. -/
theorem reach_request {α : Type} {p : Program α}
    (hquiet : ∀ P l, (∀ t o, l ≠ .op t o) → allowed P l)
    (hops : ∀ P o, Write.RequestOp o → allowed P (.op .request o))
    (h : Pool.Reach (server setup) allowed init ⟨s, ts⟩) (hp : IsRequest setup p.discard) :
    Pool.Reach (server setup) allowed init ⟨(p.run (alone setup stamp) s).2, ts⟩ := by
  have hstarts : (server setup).spawn s .request p.discard s := And.intro hp rfl
  have hspawned := h.step (.spawn hstarts) (hquiet _ _ (by simp))
  have honly : p.Only Write.RequestOp fun _ => True := Prog.Only.of_discard hp.dutiful.only
  have hrun := Pool.Reach.run (alone_sem hadm stamp) (fun s o _ ho => hops _ o ho) honly hspawned
  have hdone := hrun.step (.finish rfl) (hquiet _ _ (by simp))
  rwa [List.append_nil] at hdone

/-- The worker takes an event from the queue. -/
theorem reach_accept {event : IndexEvent} {rest : List IndexEvent}
    (hquiet : ∀ P l, (∀ t o, l ≠ .op t o) → allowed P l)
    (h : Pool.Reach (server setup) allowed init ⟨s, ts⟩)
    (hqueue : s.world.queue = event :: rest) :
    Pool.Reach (server setup) allowed init
      ⟨⟨{ s.world with queue := rest }, s.lanes.accept event⟩, ts⟩ :=
  h.step (.env (.inl ⟨event, rest, hqueue, rfl⟩)) (hquiet _ _ (by simp))

/-- The next handler starts. -/
theorem reach_start {key : Key} {event : IndexEvent} {lanes : Lanes}
    (hquiet : ∀ P l, (∀ t o, l ≠ .op t o) → allowed P l)
    (h : Pool.Reach (server setup) allowed init ⟨s, ts⟩)
    (hslot : s.lanes.active.card < setup.concurrency)
    (hstart : s.lanes.startNext = .ok (some ((key, event), lanes))) :
    Pool.Reach (server setup) allowed init
      ⟨⟨s.world, lanes⟩, ts ++ [(.handler key, handle setup.worker event)]⟩ := by
  have hstarts : (server setup).spawn s (.handler key) (handle setup.worker event)
      ⟨s.world, lanes⟩ := Exists.intro event ⟨lanes, hslot, hstart, rfl, rfl⟩
  exact h.step (.spawn hstarts) (hquiet _ _ (by simp))

/-- What one handler leaves when nobody disturbs it. -/
def afterHandler (setup : Setup) (stamp : Stamp) (key : Key) (event : IndexEvent) (lanes : Lanes)
    (world : World) : State :=
  let s := ((handle setup.worker event).run (alone setup stamp) ⟨world, lanes⟩).2
  ⟨s.world, s.lanes.finish key⟩

include hadm in
/-- The next handler starts, runs and finishes. -/
theorem reach_handler {key : Key} {event : IndexEvent} {lanes : Lanes}
    (h : Pool.Reach (server setup) Pool.anyStep init ⟨s, ts⟩)
    (hslot : s.lanes.active.card < setup.concurrency)
    (hstart : s.lanes.startNext = .ok (some ((key, event), lanes))) :
    Pool.Reach (server setup) Pool.anyStep init
      ⟨afterHandler setup stamp key event lanes s.world, ts⟩ := by
  have hspawned := reach_start (fun _ _ _ => trivial) h hslot hstart
  rw [← Prog.bind_ret (handle setup.worker event)] at hspawned
  have hrun := Pool.Reach.run (alone_sem hadm stamp) (fun _ _ _ _ => trivial) (.any _) hspawned
  have hdone := hrun.step (.finish rfl) trivial
  rwa [List.append_nil] at hdone

end Undisturbed

/-! ## A server of letters -/

/-- A server with one handler, on a backend that stores whatever it is asked to. -/
def letterServer (events : Bool) : Setup where
  json := ⟨fun _ => .error "expected value at line 1 column 1", fun _ => []⟩
  semantics := .faultless fun _ _ => True
  worker := Indexer.lettersWorker events
  concurrency := 1

/-- The server with nothing stored. -/
def emptyServer : State := ⟨World.empty, Lanes.empty⟩

def note : Key := (KbSlug.notes, ObjectPath.aMd)

def noteEvent : IndexEvent := .upsert note.1 note.2

/-- The note with one letter. -/
def oneLetter : Version := Version.tagged '1' (Utf8.encode ['a'])

/-- The PUT of the note with these bytes. -/
def putNote (events : Bool) (bytes : Bytes) : Program (Except WriteError PutOutcome) :=
  Write.commit (letterServer events).json ⟨events, .http⟩ note.1 note.2 ⟨bytes, none⟩ none {}

theorem isRequest_putNote (events : Bool) (bytes : Bytes) :
    IsRequest (letterServer events) (putNote events bytes).discard :=
  .commit ⟨events, .http⟩ note.1 note.2 ⟨bytes, none⟩ none {} rfl

/-- The server after a PUT of the note that nobody disturbs; `v` is what it stores. -/
def afterPut (events : Bool) (v : Version) (s : State) : State :=
  ((putNote events v.bytes).run (alone (letterServer events) ⟨v.etag, v.lastModified⟩) s).2

/-- The server with the note's event, the only one queued, accepted. -/
def accepted (s : State) : State := ⟨{ s.world with queue := [] }, s.lanes.accept noteEvent⟩

/-- The lanes once the next event has started. -/
def nextLanes (lanes : Lanes) : Lanes :=
  match lanes.startNext with
  | .ok (some (_, lanes')) => lanes'
  | _ => lanes

/-- The note's event is all there is to do, and a handler is free. -/
def NoteNext (s : State) : Prop :=
  s.world.queue = [noteEvent] ∧ (accepted s).lanes.active.card < 1 ∧
    (accepted s).lanes.startNext.map (·.map Prod.fst) = .ok (some (note, noteEvent))

instance (s : State) : Decidable (NoteNext s) := inferInstanceAs (Decidable (_ ∧ _ ∧ _))

theorem startNext_eq_nextLanes {lanes : Lanes} {file : Key × IndexEvent}
    (h : lanes.startNext.map (·.map Prod.fst) = .ok (some file)) :
    lanes.startNext = .ok (some (file, nextLanes lanes)) := by
  unfold nextLanes
  rcases hstart : lanes.startNext with e | _ | ⟨file', lanes'⟩
  · simp [hstart, Except.map] at h
  · simp [hstart, Except.map] at h
  · simp only [hstart, Except.map, Option.map_some, Except.ok.injEq, Option.some.injEq] at h
    rw [h]

theorem NoteNext.startNext {s : State} (h : NoteNext s) : (accepted s).lanes.startNext =
    .ok (some ((note, noteEvent), nextLanes (accepted s).lanes)) :=
  startNext_eq_nextLanes h.2.2

end Server
