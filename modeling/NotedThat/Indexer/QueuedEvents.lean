-- SUMMARY: No accepted event is lost or doubled on its way through the index queue, and its permits bound all that is unhandled.
import NotedThat.Indexer.Queue

/-!
# Queued events

However producers, the worker and its cancellation interleave: the permits that are out are those of
the events that are unhandled, each key's events are handled in the order they were accepted, and a
worker that ends by itself has handled all that was accepted before its drain began.
-/

namespace Indexer

open Traces

/-! ## How many events wait -/

namespace Lanes

variable {l l' : Lanes} {key : Key} {queued : IndexEvent}

theorem length_kerase (lanes : List (Sigma fun _ : Key => List IndexEvent)) (key : Key) :
    ((lanes.kerase key).map fun lane => lane.2.length).sum + ((lanes.dlookup key).getD []).length =
      (lanes.map fun lane => lane.2.length).sum := by
  induction lanes with
  | nil => rfl
  | cons lane lanes ih =>
    obtain ⟨k, events⟩ := lane
    by_cases hk : key = k
    · subst hk
      have hcut : (⟨key, events⟩ :: lanes : List (Sigma fun _ : Key => List IndexEvent)).kerase key = lanes :=
        List.kerase_cons_eq rfl
      rw [hcut, List.dlookup_cons_eq]
      simp [Nat.add_comm]
    · rw [List.kerase_cons_ne hk, List.dlookup_cons_ne _ _ hk]
      simp only [List.map_cons, List.sum_cons]
      omega

theorem waitingCount_accept : (l.accept queued).waitingCount = l.waitingCount + 1 := by
  have hsum := length_kerase l.waiting.entries queued.key
  have hinsert : (l.accept queued).waiting.entries =
      ⟨queued.key, l.lane queued.key ++ [queued]⟩ :: l.waiting.entries.kerase queued.key := rfl
  have hlane : (l.lane queued.key).length = ((l.waiting.entries.dlookup queued.key).getD []).length := rfl
  rw [waitingCount, hinsert, waitingCount]
  simp only [List.map_cons, List.sum_cons, List.length_append, List.length_singleton]
  omega

theorem waitingCount_startNext (h : l.startNext = .ok (some ((key, queued), l'))) :
    l'.waitingCount + 1 = l.waitingCount := by
  obtain ⟨ready, rest, -, hlane, rfl⟩ := startNext_eq_some h
  have hsum := length_kerase l.waiting.entries key
  rw [show l.waiting.entries.dlookup key = some (queued :: rest) from hlane] at hsum
  simp only [Option.getD_some, List.length_cons] at hsum
  by_cases hrest : rest = []
  · subst hrest
    exact hsum
  · have hinsert : (l.waiting.insert key rest).entries = ⟨key, rest⟩ :: l.waiting.entries.kerase key := rfl
    rw [if_neg hrest, waitingCount, hinsert, waitingCount]
    simp only [List.map_cons, List.sum_cons]
    omega

@[simp] theorem waitingCount_finish : (l.finish key).waitingCount = l.waitingCount := rfl

@[simp] theorem waitingCount_empty : Lanes.empty.waitingCount = 0 := rfl

end Lanes

namespace Loop

variable {s s' : Loop} {concurrency : Nat}

/-- The events of the handlers in flight. -/
def inFlight (s : Loop) : List IndexEvent := s.running.map (·.2)

/-- Starting handlers accepts nothing, and what waits less runs more. -/
theorem startReady_moves (hs : s.startReady concurrency = .ok s') :
    s'.accepted = s.accepted ∧
      s'.lanes.waitingCount + s'.running.length = s.lanes.waitingCount + s.running.length ∧
      ∃ more, s'.started = s.started ++ more ∧ s'.inFlight = s.inFlight ++ more := by
  fun_induction Loop.startReady concurrency s with
  | case1 => cases hs
  | case2 =>
    cases hs
    exact ⟨rfl, rfl, [], by simp, by simp⟩
  | case3 s hlt file lanes hnext ih =>
    obtain ⟨haccepted, hcount, more, hstarted, hinFlight⟩ := ih hs
    have hone := Lanes.waitingCount_startNext hnext
    refine ⟨haccepted, ?_, file.2 :: more, ?_, ?_⟩
    · rw [hcount]
      simp only [launch, List.length_append, List.length_singleton]
      omega
    · rw [hstarted]
      simp [launch]
    · rw [hinFlight]
      simp [launch, inFlight]
  | case4 =>
    cases hs
    exact ⟨rfl, rfl, [], by simp, by simp⟩

theorem ofKey_append (key : Key) (events events' : List IndexEvent) :
    ofKey key (events ++ events') = ofKey key events ++ ofKey key events' := List.filter_append ..

/-- At most one handler runs for a key, so the events handled and those in flight are in order. -/
theorem ofKey_finish {file : Key × IndexEvent} {before after : List (Key × IndexEvent)} (h : s.Sound)
    (hrun : s.running = before ++ file :: after) (key : Key) :
    ofKey key s.inFlight = ofKey key [file.2] ++ ofKey key ((before ++ after).map (·.2)) := by
  have hsingle := h.single
  have hown := h.own
  rw [hrun] at hsingle hown
  rw [inFlight, hrun]
  simp only [List.map_append, List.map_cons, ofKey_append]
  by_cases hkey : file.2.key = key
  · -- no other handler is of this key
    have hnone : ∀ other ∈ before, decide (other.2.key = key) = false := by
      intro other hmem
      rw [List.map_append, List.map_cons] at hsingle
      have hne : other.1 ≠ file.1 := by
        intro heq
        exact List.disjoint_of_nodup_append hsingle (List.mem_map_of_mem hmem) (heq ▸ List.mem_cons_self)
      have hother := hown other (List.mem_append_left _ hmem)
      have hfile := hown file (List.mem_append_right _ List.mem_cons_self)
      exact decide_eq_false fun heq => hne (by rw [← hother, ← hfile, heq, hkey])
    have hbefore : ofKey key (before.map (·.2)) = [] := by
      refine List.filter_eq_nil_iff.mpr fun e hmem => ?_
      obtain ⟨other, hother, rfl⟩ := List.mem_map.mp hmem
      rw [hnone other hother]
      exact Bool.false_ne_true
    rw [hbefore, List.nil_append, List.nil_append, ← List.singleton_append, ofKey_append]
  · have hnil : ofKey key [file.2] = [] := by simp [ofKey, hkey]
    rw [hnil, List.nil_append, ← List.singleton_append, ofKey_append, hnil, List.nil_append]

end Loop

/-! ## What happened -/

namespace QueueEvent

variable {P : Type}

/-- The drain begins. -/
def isDrains : QueueEvent P → Bool
  | .drains => true
  | _ => false

/-- No event is accepted or handled, and no drain begins or is abandoned. -/
def isQuiet : QueueEvent P → Bool
  | .step | .refused _ _ _ => true
  | _ => false

end QueueEvent

namespace Service

variable {P : Type} {capacity concurrency : Nat} {s s' : Service P} {events : List (QueueEvent P)}
  {event : QueueEvent P}

def acceptedOf (events : List (QueueEvent P)) : List IndexEvent :=
  events.filterMap fun
    | .accepted _ e => some e
    | _ => none

def handledOf (events : List (QueueEvent P)) : List IndexEvent :=
  events.filterMap fun
    | .handled e => some e
    | _ => none

/-- What happened until a drain began. -/
def beforeDrain (events : List (QueueEvent P)) : List (QueueEvent P) := events.takeWhile fun e => !e.isDrains

theorem acceptedOf_append (events events' : List (QueueEvent P)) :
    acceptedOf (events ++ events') = acceptedOf events ++ acceptedOf events' := List.filterMap_append

theorem handledOf_append (events events' : List (QueueEvent P)) :
    handledOf (events ++ events') = handledOf events ++ handledOf events' := List.filterMap_append

theorem beforeDrain_eq (h : ∀ e ∈ events, e.isDrains = false) : beforeDrain events = events := by
  refine List.takeWhile_eq_self_iff.mpr fun e hmem => ?_
  rw [h e hmem]
  rfl

theorem beforeDrain_drains (h : ∀ e ∈ events, e.isDrains = false) :
    beforeDrain (events ++ [.drains]) = events := by
  rw [beforeDrain, List.takeWhile_append_of_pos fun e hmem => by rw [h e hmem]; rfl]
  exact List.append_nil events

/-- Once a drain has begun, nothing comes before it. -/
theorem beforeDrain_append (h : ∃ e ∈ events, e.isDrains = true) (more : List (QueueEvent P)) :
    beforeDrain (events ++ more) = beforeDrain events := by
  obtain ⟨e, hmem, hdrains⟩ := h
  induction events with
  | nil => cases hmem
  | cons first events ih =>
    rcases hfirst : first.isDrains
    · have hrest : e ∈ events := by
        rcases List.mem_cons.mp hmem with rfl | hrest
        · rw [hdrains] at hfirst
          cases hfirst
        · exact hrest
      have hcons : ∀ l : List (QueueEvent P), beforeDrain (first :: l) = first :: beforeDrain l := by
        intro l
        simp [beforeDrain, hfirst]
      rw [List.cons_append, hcons, hcons, ih hrest]
    · simp [beforeDrain, hfirst]

/-- An event by which nothing is accepted and no drain begins. -/
theorem acceptedOf_rest (haccepted : acceptedOf [event] = []) (hdrains : event.isDrains = false)
    (events : List (QueueEvent P)) : acceptedOf (events ++ [event]) = acceptedOf events ∧
      acceptedOf (beforeDrain (events ++ [event])) = acceptedOf (beforeDrain events) := by
  refine ⟨by rw [acceptedOf_append, haccepted, List.append_nil], ?_⟩
  by_cases hbegun : ∃ e ∈ events, e.isDrains = true
  · rw [beforeDrain_append hbegun]
  · have hnone : ∀ e ∈ events, e.isDrains = false := by simpa using hbegun
    rw [beforeDrain_eq hnone, beforeDrain_eq, acceptedOf_append, haccepted, List.append_nil]
    intro e hmem
    rcases List.mem_append.mp hmem with hmem | hmem
    · exact hnone e hmem
    · rw [List.mem_singleton.mp hmem, hdrains]

/-- A quiet event changes no account. -/
theorem acceptedOf_quiet (h : event.isQuiet = true) (events : List (QueueEvent P)) :
    acceptedOf (events ++ [event]) = acceptedOf events ∧ handledOf (events ++ [event]) = handledOf events ∧
      acceptedOf (beforeDrain (events ++ [event])) = acceptedOf (beforeDrain events) := by
  have haccepted : acceptedOf [event] = [] := by cases event <;> first | rfl | cases h
  have hhandled : handledOf [event] = [] := by cases event <;> first | rfl | cases h
  have hdrains : event.isDrains = false := by cases event <;> first | rfl | cases h
  obtain ⟨hall, hbefore⟩ := acceptedOf_rest haccepted hdrains events
  exact ⟨hall, by rw [handledOf_append, hhandled, List.append_nil], hbefore⟩

/-! ## Permits -/

/-- Each permit is free, or belongs to an event that is unhandled. -/
def Permits (capacity : Nat) (s : Service P) : Prop :=
  s.queue.capacity = capacity ∧
    s.queue.permits + s.holding.length + s.queue.channel.length + s.loop.lanes.waitingCount +
      s.loop.running.length = capacity

theorem Permits.stop (h : s.Permits capacity) : s.stop.Permits capacity := by
  refine ⟨h.1, ?_⟩
  have hsum := h.2
  simp only [Service.stop, IndexQueue.release, List.length_nil, Lanes.waitingCount_empty]
  omega

theorem Permits.startReady {loop : Loop} {control : Control} (h : s.Permits capacity)
    (hs : s.loop.startReady concurrency = .ok loop) :
    Permits capacity { s with loop := loop, control := control } := by
  obtain ⟨-, hcount, -⟩ := Loop.startReady_moves hs
  refine ⟨h.1, ?_⟩
  have hsum := h.2
  simp only
  omega

theorem Permits.take {e : IndexEvent} {rest : List IndexEvent} {control : Control} (h : s.Permits capacity)
    (hchannel : s.queue.channel = e :: rest) : (s.take e rest control).Permits capacity := by
  refine ⟨h.1, ?_⟩
  have hsum := h.2
  rw [hchannel] at hsum
  simp only [Service.take, Loop.accept, Lanes.waitingCount_accept, List.length_cons] at hsum ⊢
  omega

theorem Permits.finish {file : Key × IndexEvent} {before after : List (Key × IndexEvent)} {control : Control}
    (h : s.Permits capacity) (hrun : s.loop.running = before ++ file :: after) :
    (s.finish file (before ++ after) control).Permits capacity := by
  refine ⟨h.1, ?_⟩
  have hsum := h.2
  rw [hrun] at hsum
  simp only [Service.finish, IndexQueue.release, Lanes.waitingCount_finish, List.length_append,
    List.length_cons] at hsum ⊢
  omega

theorem Permits.step (h : s.Permits capacity) (hstep : Step concurrency s event s') : s'.Permits capacity := by
  have hsum := h.2
  cases hstep with
  | @acquire q p e _ hacquire =>
    unfold IndexQueue.tryAcquire at hacquire
    split at hacquire
    · cases hacquire
    · obtain rfl := Option.some.inj hacquire
      refine ⟨h.1, ?_⟩
      simp only [List.length_append, List.length_singleton]
      omega
  | deliver hholding =>
    refine ⟨h.1, ?_⟩
    rw [hholding] at hsum
    simp only [IndexQueue.push, List.length_append, List.length_cons, List.length_nil] at hsum ⊢
    omega
  | closed hholding =>
    refine ⟨h.1, ?_⟩
    rw [hholding] at hsum
    simp only [IndexQueue.release, List.length_append, List.length_cons] at hsum ⊢
    omega
  | startReady _ hs => exact h.startReady hs
  | startDraining _ _ hs => exact h.startReady hs
  | @ends loop hcontrol hs =>
    have hstarted : Permits capacity { s with loop := loop } := h.startReady hs
    exact hstarted.stop
  | receive _ hchannel => exact h.take hchannel
  | tryRecv _ hchannel => exact h.take hchannel
  | finished _ hrun => exact h.finish hrun
  | finishedDraining _ hrun => exact h.finish hrun
  | drained => exact h.stop
  | timeout => exact h.stop
  | panic => exact h.stop
  | full | dropSenders | cancel | disconnected | shutdown | drains => exact h

/-! ## The order of events -/

/-- What the worker has of the events: those handled and those in flight are those started, and those
that it took are the first that were accepted. -/
structure Serving (concurrency : Nat) (events : List (QueueEvent P)) (s : Service P) : Prop where
  receiver : s.queue.receiver = true
  run : s.loop.Run
  busy : s.loop.running.length ≤ concurrency
  started : ∀ key, Loop.ofKey key s.loop.started =
    Loop.ofKey key (handledOf events) ++ Loop.ofKey key s.loop.inFlight
  accepted : acceptedOf events = s.loop.accepted ++ s.queue.channel

/-- Nothing is left of the worker. It has handled what was accepted before its drain, unless that was
abandoned. -/
structure Stopped (events : List (QueueEvent P)) (s : Service P) : Prop where
  receiver : s.queue.receiver = false
  channel : s.queue.channel = []
  lanes : s.loop.lanes = .empty
  running : s.loop.running = []
  handled : .abandoned ∉ events → ∀ key,
    Loop.ofKey key (handledOf events) = Loop.ofKey key (acceptedOf (beforeDrain events))

/-- The account of the events, by where the worker is. -/
def Flow (concurrency : Nat) (events : List (QueueEvent P)) (s : Service P) : Prop :=
  match s.control with
  | .looping receiverOpen | .selecting receiverOpen =>
    Serving concurrency events s ∧ (∀ e ∈ events, e.isDrains = false) ∧
      (receiverOpen = false → s.senders = false ∧ s.queue.channel = [])
  | .receiving => Serving concurrency events s ∧ ∀ e ∈ events, e.isDrains = false
  | .draining | .awaiting =>
    Serving concurrency events s ∧ (∃ e ∈ events, e.isDrains = true) ∧
      acceptedOf (beforeDrain events) = s.loop.accepted
  | .stopped => Stopped events s

theorem no_drains_append (h : ∀ e ∈ events, e.isDrains = false) (hevent : event.isDrains = false) :
    ∀ e ∈ events ++ [event], e.isDrains = false := by
  intro e hmem
  rcases List.mem_append.mp hmem with hmem | hmem
  · exact h e hmem
  · rw [List.mem_singleton.mp hmem, hevent]

theorem drains_append (h : ∃ e ∈ events, e.isDrains = true) (more : List (QueueEvent P)) :
    ∃ e ∈ events ++ more, e.isDrains = true := by
  obtain ⟨e, hmem, hdrains⟩ := h
  exact ⟨e, List.mem_append_left _ hmem, hdrains⟩

theorem isDrains_of_quiet (h : event.isQuiet = true) : event.isDrains = false := by
  cases event <;> first | rfl | cases h

/-- A quiet event is no change in the account. -/
theorem Flow.quiet (h : s.Flow concurrency events) (hquiet : event.isQuiet = true) :
    s.Flow concurrency (events ++ [event]) := by
  obtain ⟨haccepted, hhandled, hbefore⟩ := acceptedOf_quiet hquiet events
  have hdrains := isDrains_of_quiet hquiet
  have hserving : Serving concurrency events s → Serving concurrency (events ++ [event]) s := fun h =>
    ⟨h.receiver, h.run, h.busy, by rw [hhandled]; exact h.started, by rw [haccepted]; exact h.accepted⟩
  unfold Flow at h ⊢
  split at h
  · exact ⟨hserving h.1, no_drains_append h.2.1 hdrains, h.2.2⟩
  · exact ⟨hserving h.1, no_drains_append h.2.1 hdrains, h.2.2⟩
  · exact ⟨hserving h.1, no_drains_append h.2 hdrains⟩
  · exact ⟨hserving h.1, drains_append h.2.1 _, hbefore.trans h.2.2⟩
  · exact ⟨hserving h.1, drains_append h.2.1 _, hbefore.trans h.2.2⟩
  · refine ⟨h.receiver, h.channel, h.lanes, h.running, fun habandoned key => ?_⟩
    rw [hhandled, hbefore]
    exact h.handled (fun hmem => habandoned (List.mem_append_left _ hmem)) key

theorem Flow.stepped (h : s.Flow concurrency events) : s.Flow concurrency (events ++ [.step]) := h.quiet rfl

theorem Flow.serving (h : s.Flow concurrency events) (hserves : s.control ≠ .stopped) :
    Serving concurrency events s := by
  unfold Flow at h
  split at h
  · exact h.1
  · exact h.1
  · exact h.1
  · exact h.1
  · exact h.1
  · next hstopped => exact absurd hstopped hserves

/-- What the producers hold is not in the account. -/
theorem Flow.producer {q : IndexQueue} {holding : List (P × IndexEvent)} {senders cancelled : Bool}
    (h : s.Flow concurrency events) (hchannel : q.channel = s.queue.channel)
    (hreceiver : q.receiver = s.queue.receiver) (hsenders : s.senders = false → senders = false) :
    Flow concurrency events
      { s with queue := q, holding := holding, senders := senders, cancelled := cancelled } := by
  have hserving : Serving concurrency events s → Serving concurrency events
      { s with queue := q, holding := holding, senders := senders, cancelled := cancelled } := fun h =>
    ⟨hreceiver.trans h.receiver, h.run, h.busy, h.started, by rw [hchannel]; exact h.accepted⟩
  obtain ⟨queue, _, _, loop, control, _⟩ := s
  cases control with
  | looping receiverOpen =>
    exact ⟨hserving h.1, h.2.1, fun hopen => ⟨hsenders (h.2.2 hopen).1, hchannel.trans (h.2.2 hopen).2⟩⟩
  | selecting receiverOpen =>
    exact ⟨hserving h.1, h.2.1, fun hopen => ⟨hsenders (h.2.2 hopen).1, hchannel.trans (h.2.2 hopen).2⟩⟩
  | receiving => exact ⟨hserving h.1, h.2⟩
  | draining => exact ⟨hserving h.1, h.2⟩
  | awaiting => exact ⟨hserving h.1, h.2⟩
  | stopped =>
    exact ⟨hreceiver.trans h.receiver, hchannel.trans h.channel, h.lanes, h.running, h.handled⟩

/-- A producer delivers while the worker is there. -/
theorem Flow.deliver {p : P} {e : IndexEvent} {holding : List (P × IndexEvent)}
    (h : s.Flow concurrency events) (hreceiver : s.queue.receiver = true) (hsenders : s.senders = true) :
    Flow concurrency (events ++ [.accepted p e]) { s with holding := holding, queue := s.queue.push e } := by
  have haccepted : acceptedOf (events ++ [.accepted p e]) = acceptedOf events ++ [e] := acceptedOf_append _ _
  have hhandled : handledOf (events ++ [.accepted p e]) = handledOf events := by
    rw [handledOf_append]
    exact List.append_nil _
  have hserving : Serving concurrency events s → Serving concurrency (events ++ [.accepted p e])
      { s with holding := holding, queue := s.queue.push e } := fun h => by
    refine ⟨h.receiver, h.run, h.busy, by rw [hhandled]; exact h.started, ?_⟩
    rw [haccepted, h.accepted, List.append_assoc]
    rfl
  have hopen : ∀ {receiverOpen : Bool} {Q : Prop}, (receiverOpen = false → s.senders = false ∧ Q) →
      receiverOpen = false → False := fun h hclosed => by
    have hgone := (h hclosed).1
    rw [hsenders] at hgone
    cases hgone
  obtain ⟨queue, _, _, loop, control, _⟩ := s
  cases control with
  | looping receiverOpen =>
    exact ⟨hserving h.1, no_drains_append h.2.1 rfl, fun hclosed => (hopen h.2.2 hclosed).elim⟩
  | selecting receiverOpen =>
    exact ⟨hserving h.1, no_drains_append h.2.1 rfl, fun hclosed => (hopen h.2.2 hclosed).elim⟩
  | receiving => exact ⟨hserving h.1, no_drains_append h.2 rfl⟩
  | draining =>
    exact ⟨hserving h.1, drains_append h.2.1 _, by rw [beforeDrain_append h.2.1]; exact h.2.2⟩
  | awaiting =>
    exact ⟨hserving h.1, drains_append h.2.1 _, by rw [beforeDrain_append h.2.1]; exact h.2.2⟩
  | stopped =>
    rw [h.receiver] at hreceiver
    cases hreceiver

/-! ## The worker's steps -/

theorem Serving.startReady {loop : Loop} {control : Control} (h : Serving concurrency events s)
    (hs : s.loop.startReady concurrency = .ok loop) :
    Serving concurrency events { s with loop := loop, control := control } := by
  obtain ⟨hrun, hbusy⟩ := h.run.startReady h.busy hs
  obtain ⟨haccepted, -, more, hstarted, hinFlight⟩ := Loop.startReady_moves hs
  refine ⟨h.receiver, hrun, hbusy, fun key => ?_, ?_⟩
  · rw [hstarted, hinFlight, Loop.ofKey_append, Loop.ofKey_append, h.started key, List.append_assoc]
  · rw [haccepted]
    exact h.accepted

theorem Serving.take {e : IndexEvent} {rest : List IndexEvent} {control : Control}
    (h : Serving concurrency events s) (hchannel : s.queue.channel = e :: rest) :
    Serving concurrency events (s.take e rest control) := by
  refine ⟨h.receiver, .accept e h.run, h.busy, h.started, ?_⟩
  rw [h.accepted, hchannel, ← List.singleton_append, ← List.append_assoc]
  rfl

theorem Serving.control {control : Control} (h : Serving concurrency events s) :
    Serving concurrency events { s with control := control } :=
  ⟨h.receiver, h.run, h.busy, h.started, h.accepted⟩

theorem Serving.finish {file : Key × IndexEvent} {before after : List (Key × IndexEvent)} {control : Control}
    (h : Serving concurrency events s) (hrun : s.loop.running = before ++ file :: after) :
    Serving concurrency (events ++ [.handled file.2]) (s.finish file (before ++ after) control) := by
  have haccepted : acceptedOf (events ++ [.handled file.2]) = acceptedOf events := by
    rw [acceptedOf_append]
    exact List.append_nil _
  have hhandled : handledOf (events ++ [.handled file.2]) = handledOf events ++ [file.2] := handledOf_append _ _
  refine ⟨h.receiver, .finish h.run hrun, ?_, fun key => ?_, by rw [haccepted]; exact h.accepted⟩
  · have hbusy := h.busy
    rw [hrun] at hbusy
    simp only [Service.finish, List.length_append, List.length_cons] at hbusy ⊢
    omega
  · have hstarted := h.started key
    rw [Loop.ofKey_finish h.run.sound hrun] at hstarted
    rw [hhandled, Loop.ofKey_append, List.append_assoc]
    exact hstarted

/-- Nothing waits and nothing runs: what was accepted is handled. -/
theorem Serving.done (h : Serving concurrency events s) (hdone : s.done = true) (key : Key) :
    Loop.ofKey key (handledOf events) = Loop.ofKey key s.loop.accepted := by
  obtain ⟨hidle, hrunning⟩ := of_decide_eq_true hdone
  have hlane : s.loop.lanes.lane key = [] := by
    by_contra hne
    have hmem := h.run.sound.lanes.mem_waiting.mpr hne
    rw [Lanes.isIdle, List.isEmpty_iff] at hidle
    rw [AList.mem_keys, AList.keys, hidle] at hmem
    cases hmem
  rw [h.run.sound.order key, hlane, List.append_nil, h.started key, Loop.inFlight, hrunning]
  exact (List.append_nil _).symm

/-- The worker is dropped. -/
theorem Stopped.stop (hhandled : .abandoned ∉ events → ∀ key,
    Loop.ofKey key (handledOf events) = Loop.ofKey key (acceptedOf (beforeDrain events))) :
    s.stop.Flow concurrency events := ⟨rfl, rfl, rfl, rfl, hhandled⟩

/-- Senders that are gone deliver nothing. -/
def Alone (s : Service P) : Prop := s.senders = false → s.holding = []

theorem Alone.step (h : s.Alone) (hstep : Step concurrency s event s') : s'.Alone := by
  cases hstep with
  | acquire p e hsenders =>
    intro hgone
    rw [show s.senders = false from hgone] at hsenders
    cases hsenders
  | deliver hholding =>
    intro hgone
    rw [h hgone] at hholding
    exact absurd hholding.symm (List.append_ne_nil_of_right_ne_nil _ (List.cons_ne_nil _ _))
  | closed hholding =>
    intro hgone
    rw [h hgone] at hholding
    exact absurd hholding.symm (List.append_ne_nil_of_right_ne_nil _ (List.cons_ne_nil _ _))
  | dropSenders hholding => exact fun _ => hholding
  | full | cancel | startReady | ends | receive | disconnected | finished | shutdown | tryRecv | drains |
    startDraining | finishedDraining | drained | timeout | panic => exact h

/-- Each step keeps the account. -/
theorem Flow.step (h : s.Flow concurrency events) (halone : s.Alone) (hstep : Step concurrency s event s') :
    s'.Flow concurrency (events ++ [event]) := by
  cases hstep with
  | @acquire q p e hsenders hacquire =>
    unfold IndexQueue.tryAcquire at hacquire
    split at hacquire
    · cases hacquire
    · obtain rfl := Option.some.inj hacquire
      exact (h.quiet rfl).producer rfl rfl id
  | full => exact h.quiet rfl
  | deliver hholding hreceiver =>
    refine h.deliver hreceiver ?_
    by_contra hgone
    rw [halone (by simpa using hgone)] at hholding
    exact absurd hholding.symm (List.append_ne_nil_of_right_ne_nil _ (List.cons_ne_nil _ _))
  | closed => exact (h.quiet rfl).producer rfl rfl id
  | dropSenders => exact (h.quiet rfl).producer rfl rfl fun _ => rfl
  | cancel => exact (h.quiet rfl).producer rfl rfl id
  | startReady hcontrol hs =>
    have hquiet := h.stepped
    rw [Flow, hcontrol] at hquiet
    exact ⟨hquiet.1.startReady hs, hquiet.2⟩
  | @ends loop hcontrol hs hdone =>
    have hquiet := h.stepped
    rw [Flow, hcontrol] at hquiet
    obtain ⟨hserving, hdrains, hclosed⟩ := hquiet
    have hstarted : Serving concurrency (events ++ [.step]) { s with loop := loop } := hserving.startReady hs
    refine Stopped.stop fun _ key => ?_
    rw [beforeDrain_eq hdrains, hstarted.done hdone key, hstarted.accepted]
    rw [show ({ s with loop := loop } : Service P).queue.channel = [] from (hclosed rfl).2, List.append_nil]
  | receive hcontrol hchannel =>
    have hquiet := h.stepped
    rw [Flow, hcontrol] at hquiet
    exact ⟨hquiet.1.take hchannel, hquiet.2.1, fun hclosed => nomatch hclosed⟩
  | disconnected hcontrol hchannel hgone =>
    have hquiet := h.stepped
    rw [Flow, hcontrol] at hquiet
    exact ⟨hquiet.1.control, hquiet.2.1, fun _ => ⟨hgone, hchannel⟩⟩
  | finished hcontrol hrun =>
    rw [Flow, hcontrol] at h
    exact ⟨h.1.finish hrun, no_drains_append h.2.1 rfl, h.2.2⟩
  | shutdown hcontrol =>
    have hquiet := h.stepped
    rw [Flow, hcontrol] at hquiet
    exact ⟨hquiet.1.control, hquiet.2.1⟩
  | tryRecv hcontrol hchannel =>
    have hquiet := h.stepped
    rw [Flow, hcontrol] at hquiet
    exact ⟨hquiet.1.take hchannel, hquiet.2⟩
  | drains hcontrol hchannel =>
    rw [Flow, hcontrol] at h
    obtain ⟨hserving, hnone⟩ := h
    have haccepted : acceptedOf (events ++ [.drains]) = acceptedOf events := by
      rw [acceptedOf_append]
      exact List.append_nil _
    have hhandled : handledOf (events ++ [.drains]) = handledOf events := by
      rw [handledOf_append]
      exact List.append_nil _
    refine ⟨⟨hserving.receiver, hserving.run, hserving.busy, ?_, ?_⟩, ⟨.drains, ?_, rfl⟩, ?_⟩
    · rw [hhandled]
      exact hserving.started
    · rw [haccepted]
      exact hserving.accepted
    · exact List.mem_append_right _ (List.mem_singleton_self _)
    · rw [beforeDrain_drains hnone, hserving.accepted, hchannel, List.append_nil]
  | startDraining hcontrol _ hs =>
    have hquiet := h.stepped
    rw [Flow, hcontrol] at hquiet
    refine ⟨hquiet.1.startReady hs, hquiet.2.1, ?_⟩
    rw [hquiet.2.2, (Loop.startReady_moves hs).1]
  | finishedDraining hcontrol hrun =>
    rw [Flow, hcontrol] at h
    exact ⟨h.1.finish hrun, drains_append h.2.1 _, by rw [beforeDrain_append h.2.1]; exact h.2.2⟩
  | drained hcontrol hdone =>
    have hquiet := h.stepped
    rw [Flow, hcontrol] at hquiet
    refine Stopped.stop fun _ key => ?_
    rw [hquiet.2.2, hquiet.1.done hdone key]
  | timeout => exact Stopped.stop fun hmem => absurd (List.mem_append_right _ (List.mem_singleton_self _)) hmem
  | panic => exact Stopped.stop fun hmem => absurd (List.mem_append_right _ (List.mem_singleton_self _)) hmem

/-- What holds of every run. -/
theorem account {capacity : Nat} (hrun : Run (Step concurrency) (.new capacity) events s) :
    s.Permits capacity ∧ s.Alone ∧ s.Flow concurrency events := by
  refine hrun.invariant (P := fun events s => s.Permits capacity ∧ s.Alone ∧ s.Flow concurrency events) ?_ ?_
  · refine ⟨⟨rfl, rfl⟩, fun hgone => (nomatch hgone), ?_⟩
    exact ⟨⟨rfl, .empty, Nat.zero_le _, fun _ => rfl, rfl⟩, fun _ hmem => (nomatch hmem), fun h => (nomatch h)⟩
  · rintro events event s s' ⟨hpermits, halone, hflow⟩ hstep
    exact ⟨hpermits.step hstep, halone.step hstep, hflow.step halone hstep⟩

/-- In whatever order producers, the worker and whoever cancels it take their steps: the permits that are
out are those of unhandled events; at most one handler runs for a key, and no more than the concurrency;
each key's events are handled in the order they were accepted, none lost and none twice; a worker that
ends without abandoning its drain has handled all that was accepted before it; and a queue without a
worker accepts nothing and keeps nobody waiting. -/
theorem queued_events_are_handled (capacity concurrency : Nat) (events : List (QueueEvent P)) (s : Service P)
    (hrun : Run (Step concurrency) (.new capacity) events s) :
    (s.queue.depth ≤ capacity ∧ s.queue.depth = s.holding.length + s.queue.channel.length +
      s.loop.lanes.waitingCount + s.loop.running.length) ∧
    ((s.loop.running.map (·.1)).Nodup ∧ s.loop.running.length ≤ concurrency) ∧
    (s.control ≠ .stopped → ∀ key, Loop.ofKey key (acceptedOf events) =
      Loop.ofKey key (handledOf events) ++ Loop.ofKey key s.loop.inFlight ++ s.loop.lanes.lane key ++
        Loop.ofKey key s.queue.channel) ∧
    (s.control = .stopped →
      (.abandoned ∉ events → ∀ key,
        Loop.ofKey key (handledOf events) = Loop.ofKey key (acceptedOf (beforeDrain events))) ∧
      s.queue.depth = s.holding.length ∧ ∀ p event s', ¬ Step concurrency s (.accepted p event) s') := by
  obtain ⟨hpermits, -, hflow⟩ := account hrun
  obtain ⟨hcapacity, hsum⟩ := hpermits
  have hdepth : s.queue.depth = s.holding.length + s.queue.channel.length + s.loop.lanes.waitingCount +
      s.loop.running.length := by
    rw [IndexQueue.depth]
    omega
  refine ⟨⟨by rw [IndexQueue.depth]; omega, hdepth⟩, ?_, fun hserves key => ?_, fun hstopped => ?_⟩
  · by_cases hstopped : s.control = .stopped
    · rw [Flow, hstopped] at hflow
      rw [hflow.running]
      exact ⟨List.nodup_nil, Nat.zero_le _⟩
    · have hserving := hflow.serving hstopped
      exact ⟨hserving.run.sound.single, hserving.busy⟩
  · have hserving := hflow.serving hserves
    rw [hserving.accepted, Loop.ofKey_append, hserving.run.sound.order key, hserving.started key]
  · rw [Flow, hstopped] at hflow
    refine ⟨hflow.handled, ?_, fun p event s' hstep => ?_⟩
    · rw [hdepth, hflow.channel, hflow.lanes, hflow.running]
      rfl
    · cases hstep with
      | deliver _ hreceiver =>
        rw [hflow.receiver] at hreceiver
        cases hreceiver

/-- A document that was written. -/
def document : IndexEvent := .upsert .notes ObjectPath.a

/-- Its handler is running. -/
def oneRunning : Loop :=
  (Loop.empty.accept document).launch (document.key, document)
    ⟨(AList.insert document.key [document] ∅).erase document.key, {document.key}, []⟩

theorem startReady_empty : Loop.empty.startReady 1 = .ok Loop.empty := by
  rw [Loop.startReady]
  rfl

theorem startReady_document : (Loop.empty.accept document).startReady 1 = .ok oneRunning := by
  rw [Loop.startReady, if_pos (by decide)]
  exact (Loop.startReady.eq_def 1 oneRunning).trans (if_neg (by decide))

/-- One event through a queue of one permit: a second one is refused meanwhile. -/
theorem queued_events_are_handled_one : ∃ events s,
    Run (Step 1) (.new 1 : Service Unit) events s ∧ s.control = .stopped ∧
      .refused () document .full ∈ events ∧ acceptedOf events = [document] ∧
      ∀ key, Loop.ofKey key (handledOf events) = Loop.ofKey key (acceptedOf (beforeDrain events)) := by
  have hstart : Run (Step 1) (.new 1 : Service Unit) [] (.new 1) := .start
  have hacquired := (hstart.step (.startReady rfl startReady_empty (by decide))).step
    (.acquire () document rfl rfl)
  have haccepted := hacquired.step (@Step.deliver _ 1 _ () document [] [] rfl rfl)
  have hrefused := (haccepted.step (.receive rfl rfl)).step (.full () document rfl rfl)
  have hstarted := hrefused.step (.startReady rfl startReady_document (by decide))
  have hdrains := ((hstarted.step .cancel).step (.shutdown rfl rfl)).step (.drains rfl rfl)
  have hbusy : oneRunning.startReady 1 = .ok oneRunning :=
    (Loop.startReady.eq_def 1 oneRunning).trans (if_neg (by decide))
  have hhandled := (hdrains.step (.startDraining rfl (by decide) hbusy)).step
    (@Step.finishedDraining _ 1 _ (document.key, document) [] [] rfl rfl)
  have hstopped := hhandled.step (.drained rfl (by decide))
  exact ⟨_, _, hstopped, rfl, by simp, rfl,
    ((queued_events_are_handled 1 1 _ _ hstopped).2.2.2 rfl).1 (by simp)⟩

end Service
end Indexer
