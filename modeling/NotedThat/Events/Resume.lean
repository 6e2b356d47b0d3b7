-- SUMMARY: A subscriber that reconnects with the id of the last event it received misses nothing it may see and sees nothing twice.
import NotedThat.Events.Delivery
import NotedThat.Events.Frames

/-!
# Resuming an event stream

One subscriber follows a knowledge base over any number of connections. A connection ends when the
log lags, when the credential expires or when it is cut, and frames that were sent may be lost with
it. Each later connection asks to resume after the last event received.
-/

namespace Events

open Api (KbAccess ApiError)

/-! ## A subscriber and its connections -/

/-- A connection: what is left of the stream on the server, the frames sent over it, and how many
of them have arrived. -/
structure Connection where
  body : Option Open
  sent : List Frame
  received : Nat

/-- The frames that have arrived. -/
def Connection.got (c : Connection) : List Frame := c.sent.take c.received

/-- The log, what arrived over each connection that is gone, and the current connection. -/
structure Session where
  publisher : MemoryPublisher
  past : List (List Frame)
  current : Option Connection

/-- The events among some frames, with their ids. -/
def eventsOf (frames : List Frame) : List Entry :=
  frames.filterMap fun
    | .event id event => some (id, event)
    | .ended _ => none
    | .credentialExpired => none

namespace Session

def log (s : Session) : List Entry := s.publisher.tx.sent

/-- The events that have arrived, over all connections. -/
def received (s : Session) : List Entry :=
  eventsOf s.past.flatten ++ s.current.elim [] fun c => eventsOf c.got

variable (access : KbAccess) (query : EventsQuery)

/-- Publishes and the life of a subscriber, in any order. Until it has received an event it may
connect with any position; after that it resumes after the last event received. -/
inductive Reach (capacity depth : Nat) : Session → Prop where
  | new : Reach capacity depth ⟨.new capacity depth, [], none⟩
  | publish {s : Session} (event : ObjectEvent) : Reach capacity depth s →
      Reach capacity depth { s with publisher := (s.publisher.publish event).2 }
  | connect {s : Session} {o : Open} (lastEventId : Option (Option Text)) :
      Reach capacity depth s → s.current = none → s.received = [] →
        subscribeEvents access (some s.publisher) query lastEventId = .ok o →
          Reach capacity depth { s with current := some ⟨some o, [], 0⟩ }
  | reconnect {s : Session} {last : Entry} {o : Open} :
      Reach capacity depth s → s.current = none → s.received.getLast? = some last →
        subscribeEvents access (some s.publisher) query (some (some (Nat.toDigits 10 last.1))) =
          .ok o → Reach capacity depth { s with current := some ⟨some o, [], 0⟩ }
  | turn {s : Session} {c : Connection} {o : Open} {frame : Option Frame} {body : Option Open} :
      Reach capacity depth s → s.current = some c → c.body = some o →
        o.turn s.publisher = some (frame, body) →
          Reach capacity depth
            { s with current := some { c with body := body, sent := c.sent ++ frame.toList } }
  | expire {s : Session} {c : Connection} {o : Open} :
      Reach capacity depth s → s.current = some c → c.body = some o →
        Reach capacity depth { s with
          current := some { c with body := none, sent := c.sent ++ [.credentialExpired] } }
  | receive {s : Session} {c : Connection} :
      Reach capacity depth s → s.current = some c → c.received < c.sent.length →
        Reach capacity depth { s with current := some { c with received := c.received + 1 } }
  | disconnect {s : Session} {c : Connection} :
      Reach capacity depth s → s.current = some c →
        Reach capacity depth ⟨s.publisher, s.past ++ [c.got], none⟩

end Session

/-! ## What a subscriber may see -/

section Visible

variable (access : KbAccess) (filter : EventFilter)

/-- The caller may list the event's key, and the filter selects the event. -/
def Sees (event : ObjectEvent) : Prop :=
  event.kb = access.kb ∧ access.allows .list event.objectKey.val = true ∧
    filter.matchesEvent event = true

instance (event : ObjectEvent) : Decidable (Sees access filter event) :=
  inferInstanceAs (Decidable (_ ∧ _ ∧ _))

/-- The events the caller is shown between two positions, as they are logged. -/
def visible (log : List Entry) (start bound : Nat) : List Entry :=
  log.filter fun e => decide (Sees access filter e.2 ∧ start < e.1 ∧ e.1 ≤ bound)

/-- An event as the caller is sent it: the failure summary only to those who may list every
key. -/
def asSent (e : Entry) : Entry :=
  (e.1, if (access.filter .list).coversWholeKb then e.2 else withholdSummary e.2)

variable {access filter} {log : List Entry} {start middle bound : Nat}

theorem visible_eq : visible access filter log start bound =
    (between log access.kb start bound).filter fun e =>
      access.allows .list e.2.objectKey.val && filter.matchesEvent e.2 := by
  rw [visible, between, List.filter_filter]
  refine List.filter_congr fun e _ => ?_
  rw [Bool.eq_iff_iff]
  simp only [decide_eq_true_eq, Bool.and_eq_true]
  unfold Sees
  tauto

@[simp] theorem visible_self : visible access filter log start start = [] := by simp [visible_eq]

theorem visible_trans (h : NumberedFrom 0 log) (hle : start ≤ middle) (hle' : middle ≤ bound) :
    visible access filter log start middle ++ visible access filter log middle bound =
      visible access filter log start bound := by
  rw [visible_eq, visible_eq, visible_eq, ← List.filter_append, Broker.between_trans h hle hle']

theorem visible_append {e : Entry} (h : NumberedFrom 0 (log ++ [e])) (hle : bound ≤ log.length) :
    visible access filter (log ++ [e]) start bound = visible access filter log start bound := by
  rw [visible_eq, visible_eq, between_append h hle]

/-- The id of the last of some events, or the position before them. -/
def lastId (start : Nat) (events : List Entry) : Nat := (events.getLast?.map (·.1)).getD start

theorem lastId_append (start : Nat) (ds es : List Entry) :
    lastId start (ds ++ es) = lastId (lastId start ds) es := by
  cases hes : es.getLast? with
  | none => simp [lastId, List.getLast?_append, hes]
  | some e => simp [lastId, List.getLast?_append, hes]

@[simp] theorem lastId_asSent (start : Nat) (es : List Entry) :
    lastId start (es.map (asSent access)) = lastId start es := by
  simp only [lastId, List.getLast?_map, Option.map_map]
  rfl

theorem mem_visible {e : Entry} (he : e ∈ visible access filter log start bound) :
    e ∈ log ∧ Sees access filter e.2 ∧ start < e.1 ∧ e.1 ≤ bound := by
  obtain ⟨hmem, h⟩ := List.mem_filter.mp he
  exact ⟨hmem, of_decide_eq_true h⟩

/-- An initial part of the visible events is what is visible up to its last one. -/
theorem visible_take (h : NumberedFrom 0 log) (hle : start ≤ bound) (n : Nat) :
    start ≤ lastId start ((visible access filter log start bound).take n) ∧
      lastId start ((visible access filter log start bound).take n) ≤ bound ∧
      (visible access filter log start bound).take n =
        visible access filter log start
          (lastId start ((visible access filter log start bound).take n)) := by
  have hsplit := List.take_append_drop n (visible access filter log start bound)
  cases hlast : ((visible access filter log start bound).take n).getLast? with
  | none =>
    have hnil := List.getLast?_eq_none_iff.mp hlast
    simp [lastId, hnil, hle]
  | some last =>
    have hmem : last ∈ visible access filter log start bound :=
      List.mem_of_mem_take (List.mem_of_getLast? hlast)
    obtain ⟨-, -, hstart, hbound⟩ := mem_visible hmem
    have hsorted : (visible access filter log start bound).Pairwise fun d e => d.1 < e.1 :=
      h.pairwise.filter _
    rw [← hsplit] at hsorted
    have htake := filter_le_last hsorted hlast
    rw [hsplit] at htake
    simp only [lastId, hlast, Option.map_some, Option.getD_some]
    refine ⟨Nat.le_of_lt hstart, hbound, ?_⟩
    rw [← htake, visible, List.filter_filter]
    refine List.filter_congr fun e _ => ?_
    rw [Bool.eq_iff_iff]
    simp only [decide_eq_true_eq, Bool.and_eq_true]
    constructor
    · rintro ⟨hle, hsees, hlt, -⟩
      exact ⟨hsees, hlt, hle⟩
    · rintro ⟨hsees, hlt, hle⟩
      exact ⟨hle, hsees, hlt, hle.trans hbound⟩

/-- The visible events begin with the first of them, wherever the position before it. -/
theorem visible_first (h : NumberedFrom 0 log) {first : Entry}
    (hfirst : first ∈ (visible access filter log start bound).head?) :
    visible access filter log start bound =
      log.filter fun e => decide (Sees access filter e.2 ∧ first.1 ≤ e.1 ∧ e.1 ≤ bound) := by
  obtain ⟨-, -, hstart, -⟩ := mem_visible (List.mem_of_mem_head? hfirst)
  have hsorted : (visible access filter log start bound).Pairwise fun d e => d.1 < e.1 :=
    h.pairwise.filter _
  have hleast : ∀ e ∈ visible access filter log start bound, first.1 ≤ e.1 := by
    intro e he
    obtain ⟨rest, hrest⟩ := List.head?_eq_some_iff.mp hfirst
    rw [hrest] at he hsorted
    rcases List.mem_cons.mp he with rfl | he
    · exact le_rfl
    · exact Nat.le_of_lt (List.rel_of_pairwise_cons hsorted he)
  refine List.filter_congr fun e he => ?_
  rw [Bool.eq_iff_iff, decide_eq_true_eq, decide_eq_true_eq]
  constructor
  · rintro ⟨hsees, hlt, hle⟩
    exact ⟨hsees, hleast e (List.mem_filter.mpr ⟨he, decide_eq_true ⟨hsees, hlt, hle⟩⟩), hle⟩
  · rintro ⟨hsees, hge, hle⟩
    exact ⟨hsees, hstart.trans_le hge, hle⟩

end Visible

/-! ## One connection -/

/-- The frame of a visible event. -/
def eventFrame (access : KbAccess) (e : Entry) : Frame :=
  .event (asSent access e).1 (asSent access e).2

theorem eventsOf_append (fs gs : List Frame) : eventsOf (fs ++ gs) = eventsOf fs ++ eventsOf gs :=
  List.filterMap_append

@[simp] theorem eventsOf_eventFrames (access : KbAccess) (es : List Entry) :
    eventsOf (es.map (eventFrame access)) = es.map (asSent access) := by
  simp [eventsOf, eventFrame, List.filterMap_map, Function.comp_def]

theorem mem_eventsOf {id : Nat} {event : ObjectEvent} {frames : List Frame}
    (h : .event id event ∈ frames) : (id, event) ∈ eventsOf frames :=
  List.mem_filterMap.mpr ⟨_, h, rfl⟩

/-- The summary of a failure is sent only to a caller who may list every key. -/
theorem coversWholeKb_of_summary {access : KbAccess} {es : List Entry} {id : Nat}
    {event : ObjectEvent} (h : (id, event) ∈ es.map (asSent access)) {etag mime : Option Text}
    {summary : String} (hkind : event.kind = .indexFailed etag mime (some summary)) :
    (access.filter .list).coversWholeKb = true := by
  obtain ⟨e, -, he⟩ := List.mem_map.mp h
  by_contra hcovers
  simp only [asSent, hcovers, if_false, Prod.mk.injEq] at he
  rw [← he.2] at hkind
  unfold withholdSummary at hkind
  split at hkind
  · cases hkind
  · next hother => exact hother _ _ _ hkind

/-- A connection that was opened behind `start`: it sent a frame for each event visible up to the
position its stream has reached, and a terminal frame once it is over. -/
structure Connection.Sound (access : KbAccess) (filter : EventFilter) (publisher : MemoryPublisher)
    (start : Nat) (c : Connection) : Prop where
  running : ∀ o ∈ c.body, o.access = access ∧ o.filter = filter ∧
    o.summaryVisible = (access.filter .list).coversWholeKb ∧ o.log.kb = access.kb ∧
    o.log.Follows publisher start ∧
    c.sent = (visible access filter publisher.tx.sent start o.log.cursor).map (eventFrame access)
  ended : c.body = none → ∃ bound terminal, start ≤ bound ∧ bound ≤ publisher.tx.sent.length ∧
    terminal.isTerminal = true ∧
    c.sent = (visible access filter publisher.tx.sent start bound).map (eventFrame access) ++
      [terminal]

namespace Connection.Sound

variable {access : KbAccess} {filter : EventFilter} {publisher : MemoryPublisher} {start : Nat}
variable {c : Connection}

/-- What was sent, whether or not the connection is over. -/
theorem sent (h : c.Sound access filter publisher start) :
    ∃ bound terminals, start ≤ bound ∧ bound ≤ publisher.tx.sent.length ∧
      eventsOf terminals = [] ∧ terminals.length ≤ 1 ∧ c.sent =
        (visible access filter publisher.tx.sent start bound).map (eventFrame access) ++ terminals := by
  cases hbody : c.body with
  | none =>
    obtain ⟨bound, terminal, hstart, hle, hterminal, hsent⟩ := h.ended hbody
    refine ⟨bound, [terminal], hstart, hle, ?_, Nat.le_refl 1, hsent⟩
    cases terminal with
    | event => cases hterminal
    | ended => rfl
    | credentialExpired => rfl
  | some o =>
    obtain ⟨-, -, -, -, hfollows, hsent⟩ := h.running o hbody
    exact ⟨o.log.cursor, [], hfollows.start_le, hfollows.cursor_le, rfl, Nat.zero_le 1,
      by simpa using hsent⟩

/-- The events that arrived are those visible up to the last of them. -/
theorem got (hp : publisher.Coherent) (h : c.Sound access filter publisher start) :
    ∃ bound, start ≤ bound ∧ bound ≤ publisher.tx.sent.length ∧
      eventsOf c.got = (visible access filter publisher.tx.sent start bound).map (asSent access) ∧
      bound = lastId start (eventsOf c.got) := by
  obtain ⟨bound, terminals, hstart, hle, hterminals, -, hsent⟩ := h.sent
  obtain ⟨hlow, hhigh, htake⟩ :=
    @visible_take access filter _ start bound hp.numbered hstart c.received
  have hnone : eventsOf (terminals.take (c.received -
      ((visible access filter publisher.tx.sent start bound).map (eventFrame access)).length)) = [] := by
    refine List.filterMap_eq_nil_iff.mpr fun f hf => ?_
    exact List.filterMap_eq_nil_iff.mp hterminals f (List.mem_of_mem_take hf)
  have hgot : eventsOf c.got = ((visible access filter publisher.tx.sent start bound).take
      c.received).map (asSent access) := by
    rw [Connection.got, hsent, List.take_append, eventsOf_append, hnone, List.append_nil,
      ← List.map_take, eventsOf_eventFrames]
  refine ⟨_, hlow, hhigh.trans hle, ?_, ?_⟩
  · rw [hgot, ← htake]
  · rw [hgot, lastId_asSent]

theorem publish (hp : publisher.Coherent) (h : c.Sound access filter publisher start)
    (event : ObjectEvent) : c.Sound access filter (publisher.publish event).2 start := by
  have hnum := (hp.publish event).numbered
  have hsent : (publisher.publish event).2.tx.sent =
      publisher.tx.sent ++ [(publisher.ring.nextId, event)] := rfl
  rw [hsent] at hnum
  constructor
  · intro o ho
    obtain ⟨haccess, hfilter, hsummary, hkb, hfollows, hframes⟩ := h.running o ho
    refine ⟨haccess, hfilter, hsummary, hkb, hfollows.publish hp event, ?_⟩
    rw [hsent, visible_append hnum hfollows.cursor_le]
    exact hframes
  · intro hnone
    obtain ⟨bound, terminal, hstart, hle, hterminal, hframes⟩ := h.ended hnone
    refine ⟨bound, terminal, hstart, ?_, hterminal, ?_⟩
    · rw [hsent, List.length_append]
      omega
    · rw [hsent, visible_append hnum hle]
      exact hframes

/-- A turn on the log. -/
theorem turn (hp : publisher.Coherent) (h : c.Sound access filter publisher start) {o : Open}
    (ho : c.body = some o) {frame : Option Frame} {body : Option Open}
    (hs : o.turn publisher = some (frame, body)) :
    Sound access filter publisher start { c with body := body, sent := c.sent ++ frame.toList } := by
  obtain ⟨rfl, rfl, hsummary, hkb, hfollows, hframes⟩ := h.running o ho
  have hvisible : ∀ {out log'}, o.log.step publisher = some (out, log') →
      visible o.access o.filter publisher.tx.sent start log'.cursor =
        visible o.access o.filter publisher.tx.sent start o.log.cursor ++
          out.yielded.filter fun e => o.shows e.2 := by
    intro out log' hstep
    have := (hfollows.step hp hstep).2.2
    rw [hkb] at this
    rw [visible_eq, visible_eq, this, List.filter_append]
    rfl
  have goOn : ∀ {out log'} {frame' : Option Frame}, o.log.step publisher = some (out, log') → out ≠ .lagged →
      frame'.toList = (out.yielded.filter fun e => o.shows e.2).map (eventFrame o.access) →
      Sound o.access o.filter publisher start
        { c with body := some { o with log := log' }, sent := c.sent ++ frame'.toList } := by
    intro out log' frame' hstep hne hframe
    obtain ⟨hnext, hkb', -⟩ := hfollows.step hp hstep
    refine ⟨?_, by simp⟩
    intro o' ho'
    cases ho'
    refine ⟨rfl, rfl, hsummary, hkb'.trans hkb, (hnext.resolve_left fun hl => hne hl.1).2, ?_⟩
    rw [hframes, hframe, hvisible hstep, List.map_append]
  unfold Open.turn at hs
  split at hs
  · cases hs
  · next log hstep =>
    cases hs
    exact goOn hstep (by simp) rfl
  · next e log hstep =>
    cases hs
    refine goOn hstep (by simp) ?_
    by_cases hshows : o.shows e.2 = true
    · simp [Step.yielded, hshows, Open.frameFor, eventFrame, asSent, hsummary]
    · simp [Step.yielded, hshows]
  · next log hstep =>
    cases hs
    refine ⟨by simp, fun _ => ⟨o.log.cursor, .ended (.lagged log.cursor), hfollows.start_le,
      hfollows.cursor_le, rfl, ?_⟩⟩
    rw [hframes]
    rfl

end Connection.Sound

/-- The position a connection is opened behind. -/
theorem subscribeEvents_ok {access : KbAccess} {publisher : MemoryPublisher} {query : EventsQuery}
    {lastEventId : Option (Option Text)} {o : Open} (hp : publisher.Coherent)
    (h : subscribeEvents access (some publisher) query lastEventId = .ok o) :
    ∃ filter after, EventFilter.parse query = .ok filter ∧ parseLastEventId lastEventId = .ok after ∧
      Connection.Sound access filter publisher (after.getD publisher.latest) ⟨some o, [], 0⟩ := by
  obtain ⟨-, -, h⟩ := Except.bind_eq_ok.mp h
  obtain ⟨filter, hfilter, h⟩ := Except.bind_eq_ok.mp h
  obtain ⟨after, hafter, h⟩ := Except.bind_eq_ok.mp h
  refine ⟨filter, after, hfilter, hafter, ?_, by simp⟩
  simp only [Option.mem_some_iff, forall_eq']
  split at h
  · cases h
  · cases h
  · next log hlog =>
    cases h
    obtain ⟨hkb, hcursor, hfollows⟩ := Subscription.Follows.subscribe hp hlog
    exact ⟨rfl, rfl, rfl, hkb, hfollows, by simp [hcursor]⟩

/-- The header of a client that resumes names the event it received. -/
theorem parseLastEventId_toDigits {n : Nat} {after : Option Nat}
    (h : parseLastEventId (some (some (Nat.toDigits 10 n))) = .ok after) : after = some n := by
  have htrim : Text.trim (Nat.toDigits 10 n) = Nat.toDigits 10 n := by
    have hdigits : ∀ c ∈ Nat.toDigits 10 n, Text.isWhitespace c = false := by
      intro c hc
      exact Text.isWhitespace_of_isDigit (Nat.isDigit_of_mem_toDigits (by omega) le_rfl hc)
    refine Text.trim_eq_self ?_ ?_
    · intro c hc
      exact hdigits c (List.mem_of_mem_head? hc)
    · intro c hc
      exact hdigits c (List.mem_of_getLast? hc)
  simp only [parseLastEventId, Option.bind_some, htrim] at h
  split at h
  · next m hm =>
    cases h
    rw [Text.parseU64_toDigits hm]
  · cases h

/-! ## A whole session -/

/-- A terminal frame is the last of its connection. -/
def TerminalLast (frames : List Frame) : Prop :=
  ∀ before f after, frames = before ++ f :: after → f.isTerminal = true → after = []

theorem TerminalLast.take {frames : List Frame} (h : TerminalLast frames) (n : Nat) :
    TerminalLast (frames.take n) := by
  intro before f after heq hf
  have hall : frames = before ++ f :: (after ++ frames.drop n) := by
    calc frames = frames.take n ++ frames.drop n := (List.take_append_drop n frames).symm
      _ = before ++ f :: (after ++ frames.drop n) := by rw [heq]; simp
  exact (List.append_eq_nil_iff.mp (h before f _ hall hf)).1

theorem Connection.Sound.terminalLast {access : KbAccess} {filter : EventFilter}
    {publisher : MemoryPublisher} {start : Nat} {c : Connection}
    (h : c.Sound access filter publisher start) : TerminalLast c.sent := by
  obtain ⟨bound, terminals, -, -, -, hlen, hsent⟩ := h.sent
  intro before f after heq hf
  rw [hsent] at heq
  obtain ⟨more, rfl, hmore⟩ | ⟨more, hmore, hrest⟩ := List.append_eq_append_iff.mp heq
  · rw [hmore] at hlen
    simp only [List.length_append, List.length_cons] at hlen
    exact List.length_eq_zero_iff.mp (by omega)
  · cases more with
    | nil =>
      rw [List.nil_append] at hrest
      rw [← hrest, List.length_cons] at hlen
      exact List.length_eq_zero_iff.mp (by omega)
    | cons g more =>
      -- the frame would be one of the events
      obtain ⟨rfl, -⟩ := List.cons.inj hrest
      have : f ∈ (visible access filter publisher.tx.sent start bound).map (eventFrame access) := by
        simp [hmore]
      obtain ⟨e, -, rfl⟩ := List.mem_map.mp this
      cases hf

namespace Session

variable {access : KbAccess} {query : EventsQuery} {filter : EventFilter} {capacity depth : Nat}
variable {s : Session}

/-- What arrived over past connections is what is visible behind `start` up to its last event, and
a current connection goes on from there. -/
structure Sound (access : KbAccess) (filter : EventFilter) (s : Session) (start : Nat) : Prop where
  coherent : s.publisher.Coherent
  start_le : start ≤ lastId start (eventsOf s.past.flatten)
  last_le : lastId start (eventsOf s.past.flatten) ≤ s.log.length
  past : eventsOf s.past.flatten = (visible access filter s.log start
    (lastId start (eventsOf s.past.flatten))).map (asSent access)
  current : ∀ c ∈ s.current,
    c.Sound access filter s.publisher (lastId start (eventsOf s.past.flatten))
  terminal : ∀ frames ∈ s.past, TerminalLast frames

namespace Sound

variable {start : Nat}

theorem publish (h : s.Sound access filter start) (event : ObjectEvent) :
    Sound access filter { s with publisher := (s.publisher.publish event).2 } start := by
  have hnum := (h.coherent.publish event).numbered
  have hlog : (s.publisher.publish event).2.tx.sent =
      s.log ++ [(s.publisher.ring.nextId, event)] := rfl
  rw [hlog] at hnum
  refine ⟨h.coherent.publish event, h.start_le, ?_, ?_, ?_, h.terminal⟩
  · simp only [log, hlog, List.length_append]
    exact h.last_le.trans (Nat.le_add_right _ _)
  · change eventsOf s.past.flatten = (visible access filter (s.log ++ [_]) start _).map _
    rw [visible_append hnum h.last_le]
    exact h.past
  · intro c hc
    exact (h.current c hc).publish h.coherent event

/-- Replacing the current connection. -/
theorem withCurrent (h : s.Sound access filter start) {c : Connection}
    (hc : c.Sound access filter s.publisher (lastId start (eventsOf s.past.flatten))) :
    Sound access filter { s with current := some c } start := by
  refine ⟨h.coherent, h.start_le, h.last_le, h.past, ?_, h.terminal⟩
  intro c' hc'
  cases hc'
  exact hc

/-- All that arrived, the current connection included. -/
theorem received (h : s.Sound access filter start) :
    start ≤ lastId start s.received ∧ lastId start s.received ≤ s.log.length ∧
      s.received = (visible access filter s.log start (lastId start s.received)).map
        (asSent access) := by
  cases hc : s.current with
  | none =>
    have : s.received = eventsOf s.past.flatten := by simp [Session.received, hc]
    rw [this]
    exact ⟨h.start_le, h.last_le, h.past⟩
  | some c =>
    obtain ⟨bound, hstart, hle, hgot, hbound⟩ := (h.current c hc).got h.coherent
    have hreceived : s.received = eventsOf s.past.flatten ++ eventsOf c.got := by
      simp [Session.received, hc]
    rw [hreceived, lastId_append, ← hbound]
    refine ⟨h.start_le.trans hstart, hle, ?_⟩
    have hnum : NumberedFrom 0 s.log := h.coherent.numbered
    rw [hgot, ← visible_trans hnum h.start_le hstart, List.map_append, ← h.past]
    rfl

theorem disconnect (h : s.Sound access filter start) {c : Connection} (hc : s.current = some c) :
    Sound access filter ⟨s.publisher, s.past ++ [c.got], none⟩ start := by
  have hreceived : eventsOf (s.past ++ [c.got]).flatten = s.received := by
    simp [Session.received, hc, eventsOf_append]
  obtain ⟨hstart, hle, heq⟩ := h.received
  refine ⟨h.coherent, ?_, ?_, ?_, by simp, ?_⟩
  · rw [hreceived]
    exact hstart
  · rw [hreceived]
    exact hle
  · rw [hreceived]
    exact heq
  · intro frames hframes
    obtain hpast | rfl : frames ∈ s.past ∨ frames = c.got := by simpa using hframes
    · exact h.terminal frames hpast
    · exact (h.current c hc).terminalLast.take _

end Sound

theorem Reach.sound (hfilter : EventFilter.parse query = .ok filter)
    (h : Reach access query capacity depth s) : ∃ start, s.Sound access filter start := by
  induction h with
  | new =>
    refine ⟨0, .new capacity depth, ?_, ?_, ?_, by simp, by simp⟩
    all_goals simp [lastId, eventsOf]
  | publish event _ ih =>
    obtain ⟨start, ih⟩ := ih
    exact ⟨start, ih.publish event⟩
  | @connect s o lastEventId _ hnone hempty hok ih =>
    obtain ⟨start, ih⟩ := ih
    obtain ⟨filter', after, hfilter', -, hc⟩ := subscribeEvents_ok ih.coherent hok
    obtain rfl : filter' = filter := by
      rw [hfilter] at hfilter'
      cases hfilter'
      rfl
    have hpast : eventsOf s.past.flatten = [] := by simpa [received, hnone] using hempty
    have hstart := (hc.running o rfl).2.2.2.2.1
    refine ⟨after.getD s.publisher.latest, ih.coherent, ?_, ?_, ?_, ?_, ih.terminal⟩
    · simp [hpast, lastId]
    · simp only [hpast, lastId, List.getLast?_nil, Option.map_none, Option.getD_none]
      exact hstart.start_le.trans hstart.cursor_le
    · simp [hpast, lastId]
    · intro c hc'
      cases hc'
      simpa [hpast, lastId] using hc
  | @reconnect s last o _ hnone hlast hok ih =>
    obtain ⟨start, ih⟩ := ih
    obtain ⟨filter', after, hfilter', hafter, hc⟩ := subscribeEvents_ok ih.coherent hok
    obtain rfl : filter' = filter := by
      rw [hfilter] at hfilter'
      cases hfilter'
      rfl
    have hid : lastId start (eventsOf s.past.flatten) = last.1 := by
      have hpast : eventsOf s.past.flatten = s.received := by simp [received, hnone]
      simp [lastId, hpast, hlast]
    refine ⟨start, ih.withCurrent ?_⟩
    rw [hid]
    rw [parseLastEventId_toDigits hafter] at hc
    exact hc
  | @turn s c o frame body _ hc ho hs ih =>
    obtain ⟨start, ih⟩ := ih
    exact ⟨start, ih.withCurrent ((ih.current c hc).turn ih.coherent ho hs)⟩
  | @expire s c o _ hc ho ih =>
    obtain ⟨start, ih⟩ := ih
    obtain ⟨-, -, -, -, hfollows, hframes⟩ := (ih.current c hc).running o ho
    refine ⟨start, ih.withCurrent ⟨by simp, fun _ => ?_⟩⟩
    refine ⟨o.log.cursor, .credentialExpired, hfollows.start_le, hfollows.cursor_le, rfl, ?_⟩
    rw [hframes]
  | @receive s c _ hc hlt ih =>
    obtain ⟨start, ih⟩ := ih
    exact ⟨start, ih.withCurrent ⟨(ih.current c hc).running, (ih.current c hc).ended⟩⟩
  | disconnect _ hc ih =>
    obtain ⟨start, ih⟩ := ih
    exact ⟨start, ih.disconnect hc⟩

/-! ## Catching up -/

/-- The steps of a connection that nothing interrupts: a turn of the stream, or a frame that
arrives. -/
inductive CatchesUp : Session → Session → Prop where
  | turn {s : Session} {c : Connection} {o : Open} {frame : Option Frame} {body : Option Open} :
      s.current = some c → c.body = some o → o.turn s.publisher = some (frame, body) →
        CatchesUp s
          { s with current := some { c with body := body, sent := c.sent ++ frame.toList } }
  | receive {s : Session} {c : Connection} : s.current = some c → c.received < c.sent.length →
      CatchesUp s { s with current := some { c with received := c.received + 1 } }

theorem Reach.catchesUp {s' : Session} (h : Reach access query capacity depth s)
    (hup : Relation.ReflTransGen CatchesUp s s') : Reach access query capacity depth s' := by
  induction hup with
  | refl => exact h
  | tail _ hstep ih =>
    cases hstep with
    | turn hc ho hs => exact ih.turn hc ho hs
    | receive hc hlt => exact ih.receive hc hlt

/-- Twice the turns that are left, and the frames on their way. -/
def behind (s : Session) : Nat :=
  s.current.elim 0 fun c =>
    2 * (c.body.elim 0 fun o => o.log.left s.publisher + 1) + (c.sent.length - c.received)

theorem CatchesUp.behind_lt {s s' : Session} (h : CatchesUp s s') : s'.behind < s.behind := by
  cases h with
  | @turn c o frame body hc ho hs =>
    have hsent : (c.sent ++ frame.toList).length - c.received ≤ c.sent.length - c.received + 1 := by
      cases frame with
      | none => simp
      | some f => simp; omega
    have hbody : (body.elim 0 fun o => o.log.left s.publisher + 1) < o.log.left s.publisher + 1 := by
      unfold Open.turn at hs
      split at hs
      · cases hs
      · next log hstep =>
        cases hs
        simpa using (Subscription.step_left hstep).resolve_left (by simp)
      · next e log hstep =>
        cases hs
        simpa using (Subscription.step_left hstep).resolve_left (by simp)
      · cases hs
        simp
    simp only [behind, hc, ho, Option.elim_some]
    omega
  | receive hc hlt =>
    simp only [behind, hc, Option.elim_some]
    omega

/-- The connection has nothing on its way, and its stream waits or is over. -/
def CaughtUp (s : Session) : Prop :=
  ∀ c ∈ s.current, c.sent.length ≤ c.received ∧ ∀ o ∈ c.body, o.turn s.publisher = none

theorem exists_caughtUp (s : Session) :
    ∃ s', Relation.ReflTransGen CatchesUp s s' ∧ s'.CaughtUp := by
  obtain ⟨s', hreach, hstuck⟩ := Relation.exists_stuck behind (fun _ _ => CatchesUp.behind_lt) s
  refine ⟨s', hreach, ?_⟩
  intro c hc
  constructor
  · by_contra hlt
    exact hstuck _ (.receive hc (Nat.lt_of_not_le hlt))
  · intro o ho
    refine Option.eq_none_iff_forall_ne_some.mpr fun out hout => ?_
    exact hstuck _ (.turn hc ho hout)

theorem Sound.caughtUp {start : Nat} (h : s.Sound access filter start) (hup : s.CaughtUp)
    {c : Connection} (hc : s.current = some c) {o : Open} (ho : c.body = some o) :
    s.received = (visible access filter s.log start s.log.length).map (asSent access) := by
  obtain ⟨-, -, -, -, hfollows, hframes⟩ := (h.current c hc).running o ho
  obtain ⟨hgot, hidle⟩ := hup c hc
  have hcursor : o.log.cursor = s.log.length := by
    refine hfollows.idle ?_
    have := hidle o ho
    unfold Open.turn at this
    split at this
    · next hstep => exact hstep
    all_goals cases this
  have hnum : NumberedFrom 0 s.log := h.coherent.numbered
  have hreceived : s.received = eventsOf s.past.flatten ++ eventsOf c.sent := by
    simp [Session.received, hc, Connection.got, List.take_of_length_le hgot]
  rw [hreceived, hframes, eventsOf_eventFrames, hcursor, ← visible_trans hnum h.start_le h.last_le,
    List.map_append, ← h.past]
  rfl

/-- What arrived, told from its first event. -/
theorem received_from_first {start bound : Nat} (hnum : NumberedFrom 0 s.log)
    (h : s.received = (visible access filter s.log start bound).map (asSent access)) {first : Entry}
    (hfirst : first ∈ s.received.head?) :
    s.received = (s.log.filter fun e =>
      decide (Sees access filter e.2 ∧ first.1 ≤ e.1 ∧ e.1 ≤ bound)).map (asSent access) := by
  rw [h, List.head?_map] at hfirst
  obtain ⟨e, he, rfl⟩ := Option.map_eq_some_iff.mp hfirst
  rw [h, visible_first hnum he]
  rfl

/-- Whatever disconnects, lag ends and expired credentials interrupt a subscriber that resumes
after the last event it received, what it received is the log's events from its first one to its
last one that it may list and asked for, each once and in order; when it has caught up, to the end
of the log. A terminal frame ends its connection, and a failure summary reaches only a caller who
may list every key. -/
theorem resume_exact (hfilter : EventFilter.parse query = .ok filter)
    (h : Reach access query capacity depth s) :
    (∀ first ∈ s.received.head?, ∀ last ∈ s.received.getLast?,
      s.received = (s.log.filter fun e =>
        decide (Sees access filter e.2 ∧ first.1 ≤ e.1 ∧ e.1 ≤ last.1)).map (asSent access)) ∧
    s.received.Pairwise (fun d e => d.1 < e.1) ∧
    (∀ first ∈ s.received.head?, ∀ c ∈ s.current, c.body ≠ none → s.CaughtUp →
      s.received = (s.log.filter fun e =>
        decide (Sees access filter e.2 ∧ first.1 ≤ e.1)).map (asSent access)) ∧
    (∃ s', Relation.ReflTransGen CatchesUp s s' ∧ Reach access query capacity depth s' ∧
      s'.CaughtUp) ∧
    (∀ frames ∈ s.past, TerminalLast frames) ∧ (∀ c ∈ s.current, TerminalLast c.sent) ∧
    ∀ id event etag mime summary, .event id event ∈ s.past.flatten ∨
        (∃ c ∈ s.current, .event id event ∈ c.sent) →
      event.kind = .indexFailed etag mime (some summary) →
        (access.filter .list).coversWholeKb = true := by
  obtain ⟨start, hs⟩ := h.sound hfilter
  have hnum : NumberedFrom 0 s.log := hs.coherent.numbered
  obtain ⟨-, -, hreceived⟩ := hs.received
  refine ⟨?_, ?_, ?_, ?_, hs.terminal, fun c hc => (hs.current c hc).terminalLast, ?_⟩
  · intro first hfirst last hlast
    have hid : lastId start s.received = last.1 := by
      rw [lastId, Option.mem_def.mp hlast]
      rfl
    rw [← hid]
    exact received_from_first hnum hreceived hfirst
  · rw [hreceived]
    exact List.pairwise_map.mpr (hnum.pairwise.filter _)
  · intro first hfirst c hc hbody hup
    obtain ⟨o, ho⟩ := Option.ne_none_iff_exists'.mp hbody
    rw [received_from_first hnum (hs.caughtUp hup hc ho) hfirst]
    congr 1
    refine List.filter_congr fun e he => ?_
    have hle : e.1 ≤ s.log.length := by simpa using (hnum.lt_of_mem he).2
    simp [hle]
  · obtain ⟨s', hreach, hup⟩ := s.exists_caughtUp
    exact ⟨s', hreach, h.catchesUp hreach, hup⟩
  · rintro id event etag mime summary (hpast | ⟨c, hc, hcurrent⟩) hkind
    · have hmem := mem_eventsOf hpast
      rw [hs.past] at hmem
      exact coversWholeKb_of_summary hmem hkind
    · obtain ⟨bound, terminals, -, -, hnone, -, hsent⟩ := (hs.current c hc).sent
      have hmem := mem_eventsOf hcurrent
      rw [hsent, eventsOf_append, hnone, List.append_nil, eventsOf_eventFrames] at hmem
      exact coversWholeKb_of_summary hmem hkind

/-- The service token, on a knowledge base with the default rules. -/
def tokenAccess : KbAccess := ⟨.notes, .signedIn .serviceToken, .signedInFull⟩

/-- A deletion. -/
def deletedEvent : ObjectEvent := ⟨.notes, ObjectPath.a, .deleted, .http⟩

/-- The connection is cut after the first of two deletions. -/
theorem resume_exact_twoDeleted : ∃ s, Reach tokenAccess ⟨none, none, none⟩ 4 4 s ∧
    s.past.length = 1 ∧ s.received = [(1, deletedEvent), (2, deletedEvent)] ∧
    s.received = (s.log.filter fun e => decide
      (Sees tokenAccess ⟨none, none, none⟩ e.2 ∧ 1 ≤ e.1 ∧ e.1 ≤ 2)).map (asSent tokenAccess) := by
  have h₁ : Reach tokenAccess ⟨none, none, none⟩ 4 4 _ := Reach.new.connect none rfl rfl rfl
  have h₂ : Reach tokenAccess ⟨none, none, none⟩ 4 4 _ :=
    (h₁.publish deletedEvent).turn rfl rfl rfl
  have h₃ : Reach tokenAccess ⟨none, none, none⟩ 4 4 _ :=
    (h₂.receive rfl (by decide)).disconnect rfl
  have h₄ : Reach tokenAccess ⟨none, none, none⟩ 4 4 _ :=
    (h₃.publish deletedEvent).reconnect rfl rfl rfl
  have h₅ : Reach tokenAccess ⟨none, none, none⟩ 4 4 _ := (h₄.turn rfl rfl rfl)
  have h₆ := h₅.receive rfl (by decide)
  refine ⟨_, h₆, rfl, rfl, ?_⟩
  exact (resume_exact rfl h₆).1 (1, deletedEvent) rfl (2, deletedEvent) rfl

end Session

end Events
