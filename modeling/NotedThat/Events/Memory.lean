-- SUMMARY: The in-memory event log: a ring of the last events, a broadcast channel for live ones, and the streams spliced from both.
import NotedThat.Core.World
import NotedThat.Lib.Numbered
import Mathlib.Logic.Relation

/-!
# The in-memory event log

Every operation on the ring runs under its lock and is one step here. A subscriber's turn is one
step as well, but for a lag: the channel reports it first, and the ring is locked afterwards.
Ids are natural numbers: a log does not reach `2 ^ 64` events.
-/

namespace Events

/-- An event under its id. -/
abbrev Entry := Nat × ObjectEvent

/-- Why a subscription was refused. -/
inductive SubscribeError where
  | gone (requested oldest : Nat)
  | unavailable (message : String)
deriving DecidableEq

/-- Why a stream ended early. -/
inductive StreamError where
  | lagged (resumeAfter : Nat)
  | broker (message : String)
deriving DecidableEq

/-! ## The broadcast channel -/

/-- A bounded queue for any number of receivers: all that was sent, and how much of it is kept.
A receiver is the number of entries it has passed. -/
structure Channel where
  depth : Nat
  sent : List Entry

inductive Received where
  | entry (e : Entry)
  | lagged
  | empty

namespace Channel

def send (tx : Channel) (e : Entry) : Channel := { tx with sent := tx.sent ++ [e] }

/-- A receiver at the end of what was sent. -/
def subscribe (tx : Channel) : Nat := tx.sent.length

/-- A receiver lags when the entry it would read next was overwritten. -/
def recv (tx : Channel) (rx : Nat) : Received :=
  match tx.sent[rx]? with
  | none => .empty
  | some e => if tx.depth < tx.sent.length - rx then .lagged else .entry e

end Channel

/-! ## The ring -/

structure Ring where
  nextId : Nat
  capacity : Nat
  buf : List Entry

namespace Ring

def oldest (ring : Ring) : Option Nat := ring.buf.head?.map (·.1)

def after (ring : Ring) (cursor : Nat) : List Entry :=
  ring.buf.filter fun e => decide (cursor < e.1)

end Ring

/-- A ring of the last `capacity` events and a broadcast channel for live ones. -/
structure MemoryPublisher where
  ring : Ring
  tx : Channel

/-- One subscriber's position. `refilling` is set between the report of a lag and the lock of the
ring. -/
structure Subscription where
  kb : KbSlug
  backlog : List Entry
  rx : Nat
  cursor : Nat
  refilling : Bool

inductive Step where
  | yield (e : Entry)
  | skip
  | lagged

/-- What a turn hands out. -/
def Step.yielded : Step → List Entry
  | .yield e => [e]
  | .skip => []
  | .lagged => []

namespace Subscription

/-- The end of a turn that took an entry: what the backlog already covered is passed over, and so
are the events of other knowledge bases. -/
def pass (sub : Subscription) (e : Entry) : Step × Subscription :=
  if e.1 ≤ sub.cursor then (.skip, sub)
  else (if e.2.kb = sub.kb then .yield e else .skip, { sub with cursor := e.1 })

/-- What a turn does once the channel reported a lag and the ring is locked. -/
def refill (sub : Subscription) (publisher : MemoryPublisher) : Step × Subscription :=
  let sub := { sub with rx := publisher.tx.subscribe, refilling := false }
  if publisher.ring.oldest.any fun oldest => decide (oldest > sub.cursor + 1) then (.lagged, sub)
  else (.skip, { sub with backlog := publisher.ring.after sub.cursor })

/-- One turn, `none` while there is nothing to receive. The channel never closes: the
subscription holds its sender. -/
def step (sub : Subscription) (publisher : MemoryPublisher) : Option (Step × Subscription) :=
  if sub.refilling then some (sub.refill publisher)
  else
    match sub.backlog with
    | e :: backlog => some ({ sub with backlog := backlog }.pass e)
    | [] =>
      match publisher.tx.recv sub.rx with
      | .empty => none
      | .lagged => some (.skip, { sub with refilling := true })
      | .entry e => some ({ sub with rx := sub.rx + 1 }.pass e)

end Subscription

namespace MemoryPublisher

/-- A ring retaining `capacity` events, at least one, and a channel that keeps `depth`. -/
def new (capacity depth : Nat) : MemoryPublisher := ⟨⟨1, max capacity 1, []⟩, ⟨depth, []⟩⟩

def publish (publisher : MemoryPublisher) (event : ObjectEvent) : Nat × MemoryPublisher :=
  let ring := publisher.ring
  let entry : Entry := (ring.nextId, event)
  let buf := ring.buf ++ [entry]
  (ring.nextId, ⟨⟨ring.nextId + 1, ring.capacity, buf.drop (buf.length - ring.capacity)⟩,
    publisher.tx.send entry⟩)

/-- The last id ever handed out; zero before the first publish. -/
def latest (publisher : MemoryPublisher) : Nat := publisher.ring.nextId - 1

/-- The position that is refused: behind the ring, or ahead of every id. -/
def refusal (publisher : MemoryPublisher) (requested : Nat) : Option SubscribeError :=
  let oldest := publisher.ring.oldest.getD publisher.ring.nextId
  let behind := requested < publisher.latest ∧ requested + 1 < oldest
  if behind ∨ requested > publisher.latest then some (.gone requested oldest) else none

def subscribe (publisher : MemoryPublisher) (kb : KbSlug) (after : Option Nat) :
    Except SubscribeError Subscription :=
  match after.bind publisher.refusal with
  | some e => .error e
  | none =>
    let rx := publisher.tx.subscribe
    let fromNow : Subscription := ⟨kb, [], rx, publisher.latest, false⟩
    match after with
    | some after =>
      if after < publisher.latest then .ok ⟨kb, publisher.ring.after after, rx, after, false⟩
      else .ok fromNow
    | none => .ok fromNow

end MemoryPublisher

/-! ## Streams -/

/-- A stream that was handed out: what it was asked for, the last id there was then, what is left
of it (nothing once it ended), and the items it has yielded. -/
structure Stream where
  kb : KbSlug
  after : Option Nat
  latest : Nat
  state : Option Subscription
  items : List (Except StreamError Entry)

namespace Stream

/-- One turn of the stream's loop; `none` when it waits or has ended. -/
def poll (s : Stream) (publisher : MemoryPublisher) : Option Stream :=
  match s.state with
  | none => none
  | some sub =>
    match sub.step publisher with
    | none => none
    | some (.yield e, sub) => some { s with state := some sub, items := s.items ++ [.ok e] }
    | some (.skip, sub) => some { s with state := some sub }
    | some (.lagged, sub) =>
      some { s with state := none, items := s.items ++ [.error (.lagged sub.cursor)] }

/-- The events a stream has yielded. -/
def delivered (s : Stream) : List Entry := s.items.filterMap Except.toOption

/-- The position a stream starts behind. -/
def start (s : Stream) : Nat := s.after.getD s.latest

end Stream

/-- A publisher and the streams it handed out. -/
structure Broker where
  publisher : MemoryPublisher
  streams : List Stream

namespace Broker

/-- Every event published so far, with its id. -/
def log (b : Broker) : List Entry := b.publisher.tx.sent

/-- Publishes, subscriptions and turns of streams, in any order. -/
inductive Reach (capacity depth : Nat) : Broker → Prop where
  | new : Reach capacity depth ⟨.new capacity depth, []⟩
  | publish {b : Broker} (event : ObjectEvent) :
      Reach capacity depth b → Reach capacity depth ⟨(b.publisher.publish event).2, b.streams⟩
  | subscribe {b : Broker} {kb : KbSlug} {after : Option Nat} {sub : Subscription} :
      Reach capacity depth b → b.publisher.subscribe kb after = .ok sub →
        Reach capacity depth
          ⟨b.publisher, b.streams ++ [⟨kb, after, b.publisher.latest, some sub, []⟩]⟩
  | poll {b : Broker} {s s' : Stream} {before after : List Stream} :
      Reach capacity depth b → b.streams = before ++ s :: after →
        s.poll b.publisher = some s' → Reach capacity depth ⟨b.publisher, before ++ s' :: after⟩

end Broker

/-! ## What every operation keeps -/

/-- The events of a knowledge base between two positions. -/
def between (log : List Entry) (kb : KbSlug) (start bound : Nat) : List Entry :=
  log.filter fun e => decide (e.2.kb = kb ∧ start < e.1 ∧ e.1 ≤ bound)

/-- The channel has every event under its id, and the ring the last of them. -/
structure MemoryPublisher.Coherent (publisher : MemoryPublisher) : Prop where
  numbered : NumberedFrom 0 publisher.tx.sent
  nextId : publisher.ring.nextId = publisher.tx.sent.length + 1
  capacity : 0 < publisher.ring.capacity
  buf : publisher.ring.buf =
    publisher.tx.sent.drop (publisher.tx.sent.length - publisher.ring.capacity)

namespace MemoryPublisher.Coherent

variable {publisher : MemoryPublisher}

theorem new (capacity depth : Nat) : (MemoryPublisher.new capacity depth).Coherent where
  numbered := trivial
  nextId := rfl
  capacity := Nat.lt_of_lt_of_le Nat.one_pos (Nat.le_max_right _ _)
  buf := by simp [MemoryPublisher.new]

theorem publish (h : publisher.Coherent) (event : ObjectEvent) :
    (publisher.publish event).2.Coherent where
  numbered := by
    refine h.numbered.append ⟨?_, trivial⟩
    simpa using h.nextId
  nextId := by simp [MemoryPublisher.publish, Channel.send, h.nextId]
  capacity := h.capacity
  buf := by
    have hcap := h.capacity
    simp only [MemoryPublisher.publish, Channel.send, h.buf, List.length_append,
      List.length_singleton, List.length_drop]
    rw [← List.drop_append_of_le_length (by omega), List.drop_drop]
    congr 1
    omega

theorem latest (h : publisher.Coherent) : publisher.latest = publisher.tx.sent.length := by
  rw [MemoryPublisher.latest, h.nextId, Nat.add_sub_cancel]

/-- The oldest id in the ring is the one behind those dropped. -/
theorem oldest (h : publisher.Coherent) {id : Nat} (hid : publisher.ring.oldest = some id) :
    id = publisher.tx.sent.length - publisher.ring.capacity + 1 ∧ id ≤ publisher.tx.sent.length := by
  simp only [Ring.oldest, h.buf, Option.map_eq_some_iff] at hid
  obtain ⟨e, he, rfl⟩ := hid
  have hdrop := h.numbered.drop (publisher.tx.sent.length - publisher.ring.capacity)
  cases hbuf : publisher.tx.sent.drop (publisher.tx.sent.length - publisher.ring.capacity) with
  | nil =>
    rw [hbuf] at he
    cases he
  | cons d rest =>
    rw [hbuf] at he hdrop
    cases he
    have hlen := congrArg List.length hbuf
    simp only [List.length_drop, List.length_cons] at hlen
    have := hdrop.1
    omega

/-- The ring is empty only when nothing was published. -/
theorem oldest_none (h : publisher.Coherent) (hnone : publisher.ring.oldest = none) :
    publisher.tx.sent = [] := by
  have hcap := h.capacity
  simp only [Ring.oldest, h.buf, Option.map_eq_none_iff, List.head?_eq_none_iff,
    List.drop_eq_nil_iff] at hnone
  exact List.length_eq_zero_iff.mp (by omega)

/-- When nothing behind the cursor was dropped, the ring has everything behind it. -/
theorem after (h : publisher.Coherent) {cursor : Nat}
    (hgap : publisher.tx.sent.length - publisher.ring.capacity ≤ cursor) :
    publisher.ring.after cursor = publisher.tx.sent.drop cursor := by
  have hdrop := h.numbered.drop (publisher.tx.sent.length - publisher.ring.capacity)
  rw [Ring.after, h.buf, hdrop.filter_lt, List.drop_drop]
  congr 1
  omega

/-- An event behind a position was dropped exactly when the ring starts behind the next one. -/
theorem dropped (h : publisher.Coherent) {requested : Nat} :
    (∃ e ∈ publisher.tx.sent, requested < e.1 ∧ e ∉ publisher.ring.buf) ↔
      requested + 1 ≤ publisher.tx.sent.length - publisher.ring.capacity := by
  have hnum := h.numbered
  have hsplit := List.take_append_drop
    (publisher.tx.sent.length - publisher.ring.capacity) publisher.tx.sent
  rw [h.buf]
  constructor
  · rintro ⟨e, he, hlt, hbuf⟩
    -- the event stands in the part that was dropped, so its id is that of a dropped one
    have htake : e ∈ publisher.tx.sent.take
        (publisher.tx.sent.length - publisher.ring.capacity) := by
      rw [← hsplit] at he
      exact (List.mem_append.mp he).resolve_right hbuf
    have hle := (hnum.take _).lt_of_mem htake
    simp only [List.length_take] at hle
    omega
  · intro hle
    have hmin : publisher.tx.sent.length - publisher.ring.capacity ≤ publisher.tx.sent.length :=
      Nat.sub_le _ _
    obtain ⟨e, he, hid⟩ := (hnum.take (publisher.tx.sent.length - publisher.ring.capacity)).exists_mem
      (n := requested + 1) (by omega) (by rw [List.length_take]; omega)
    refine ⟨e, List.mem_of_mem_take he, by omega, ?_⟩
    intro hbuf
    have := ((hnum.drop _).lt_of_mem hbuf).1
    omega

/-- A position is refused exactly when an event behind it was dropped or it is ahead of every
id. -/
theorem gone_iff (h : publisher.Coherent) {kb : KbSlug} {requested : Nat} :
    (∃ oldest, publisher.subscribe kb (some requested) = .error (.gone requested oldest)) ↔
      (∃ e ∈ publisher.tx.sent, requested < e.1 ∧ e ∉ publisher.ring.buf) ∨
        publisher.tx.sent.length < requested := by
  have hbehind : (requested < publisher.latest ∧
      requested + 1 < publisher.ring.oldest.getD publisher.ring.nextId) ↔
        requested + 1 ≤ publisher.tx.sent.length - publisher.ring.capacity := by
    rw [h.latest]
    cases hold : publisher.ring.oldest with
    | none => simp [h.oldest_none hold]
    | some id =>
      have := h.oldest hold
      rw [Option.getD_some]
      omega
  rw [h.dropped, ← hbehind, ← h.latest]
  unfold MemoryPublisher.subscribe MemoryPublisher.refusal
  simp only [Option.bind_some]
  constructor
  · rintro ⟨oldest, hgone⟩
    by_contra hcond
    rw [if_neg hcond] at hgone
    simp only at hgone
    split at hgone
    · cases hgone
    · cases hgone
  · intro hcond
    rw [if_pos hcond]
    exact ⟨_, rfl⟩

end MemoryPublisher.Coherent

/-! ## One subscription -/

@[simp] theorem between_self (log : List Entry) (kb : KbSlug) (n : Nat) :
    between log kb n n = [] := by
  refine List.filter_eq_nil_iff.mpr fun e _ => ?_
  simp only [decide_eq_true_eq, not_and]
  omega

theorem between_append {log : List Entry} {e : Entry} (h : NumberedFrom 0 (log ++ [e])) {kb : KbSlug}
    {start bound : Nat} (hle : bound ≤ log.length) :
    between (log ++ [e]) kb start bound = between log kb start bound := by
  have he : log.length < e.1 := by
    have := (h.drop log.length).lt_of_mem (e := e) (by simp)
    simp at this
    omega
  simp only [between, List.filter_append]
  rw [List.filter_cons_of_neg (by simp; omega), List.filter_nil, List.append_nil]

/-- The entry behind a position adds itself, if it is of the knowledge base. -/
theorem between_succ {log rest : List Entry} {e : Entry} (h : NumberedFrom 0 log) (kb : KbSlug)
    {start cursor : Nat} (hle : start ≤ cursor) (hdrop : log.drop cursor = e :: rest) :
    e.1 = cursor + 1 ∧ between log kb start e.1 =
      between log kb start cursor ++ if e.2.kb = kb then [e] else [] := by
  have hnum := h.drop cursor
  have hlen := congrArg List.length hdrop
  rw [List.length_drop, List.length_cons] at hlen
  rw [hdrop] at hnum
  have hid : e.1 = cursor + 1 := by
    have := hnum.1
    omega
  refine ⟨hid, ?_⟩
  have hsplit : ∀ bound, between log kb start bound =
      between (log.take cursor) kb start bound ++ between (e :: rest) kb start bound := by
    intro bound
    unfold between
    rw [← List.filter_append, ← hdrop, List.take_append_drop]
  have hbefore : between (log.take cursor) kb start e.1 = between (log.take cursor) kb start cursor := by
    refine List.filter_congr fun d hd => ?_
    have := ((h.take cursor).lt_of_mem hd).2
    rw [List.length_take] at this
    have hle : d.1 ≤ cursor := by omega
    have hle' : d.1 ≤ e.1 := by omega
    simp [hle, hle']
  have hrest : ∀ bound, bound ≤ e.1 → between rest kb start bound = [] := by
    intro bound hbound
    refine List.filter_eq_nil_iff.mpr fun d hd => ?_
    have := (hnum.2.lt_of_mem hd).1
    simp only [decide_eq_true_eq, not_and]
    omega
  have hhead : between (e :: rest) kb start e.1 = if e.2.kb = kb then [e] else [] := by
    have := hrest e.1 le_rfl
    unfold between at this ⊢
    rw [List.filter_cons, this]
    have hlt : start < e.1 := by omega
    simp [hlt]
  have hnone : between (e :: rest) kb start cursor = [] := by
    have := hrest cursor (by omega)
    unfold between at this ⊢
    rw [List.filter_cons_of_neg (by simp; omega), this]
  rw [hsplit, hsplit cursor, hbefore, hhead, hnone, List.append_nil]

/-- A subscription that started behind `start` has passed exactly the ids up to its cursor, and
what it will take next are the events behind it. -/
structure Subscription.Follows (publisher : MemoryPublisher) (start : Nat) (sub : Subscription) :
    Prop where
  start_le : start ≤ sub.cursor
  cursor_le : sub.cursor ≤ publisher.tx.sent.length
  rx_le : sub.rx ≤ publisher.tx.sent.length
  covers : sub.refilling = false →
    (sub.backlog ++ publisher.tx.sent.drop sub.rx).filter (fun e => decide (sub.cursor < e.1)) =
      publisher.tx.sent.drop sub.cursor

namespace Subscription.Follows

variable {publisher : MemoryPublisher} {start : Nat} {sub sub' : Subscription} {out : Step}

theorem publish (hp : publisher.Coherent) (h : sub.Follows publisher start) (event : ObjectEvent) :
    sub.Follows (publisher.publish event).2 start := by
  have hsent : (publisher.publish event).2.tx.sent =
      publisher.tx.sent ++ [(publisher.ring.nextId, event)] := rfl
  have hnext := hp.nextId
  have hc := h.cursor_le
  refine ⟨h.start_le, ?_, ?_, ?_⟩
  · rw [hsent, List.length_append]
    omega
  · have := h.rx_le
    rw [hsent, List.length_append]
    omega
  · intro hr
    rw [hsent, List.drop_append_of_le_length h.rx_le, List.drop_append_of_le_length hc,
      ← List.append_assoc, List.filter_append, h.covers hr,
      List.filter_cons_of_pos (by simp; omega), List.filter_nil]

/-- The position a subscription starts from. -/
theorem subscribe (hp : publisher.Coherent) {kb : KbSlug} {after : Option Nat}
    (h : publisher.subscribe kb after = .ok sub) :
    sub.kb = kb ∧ sub.cursor = after.getD publisher.latest ∧
      sub.Follows publisher (after.getD publisher.latest) := by
  have hlatest := hp.latest
  have fromNow : ∀ start, start = publisher.latest →
      Follows publisher start ⟨kb, [], publisher.tx.subscribe, publisher.latest, false⟩ := by
    rintro _ rfl
    exact ⟨le_rfl, hlatest.le, le_rfl, fun _ => by simp [Channel.subscribe, hlatest]⟩
  unfold MemoryPublisher.subscribe at h
  split at h
  · cases h
  · next hok =>
    cases after with
    | none =>
      cases h
      exact ⟨rfl, rfl, fromNow _ rfl⟩
    | some requested =>
      simp only [Option.bind_some, MemoryPublisher.refusal, ite_eq_right_iff, reduceCtorEq,
        imp_false, not_or, not_and, not_lt] at hok
      simp only at h
      split at h
      · next hlt =>
        cases h
        have hle : requested ≤ publisher.tx.sent.length := by omega
        refine ⟨rfl, rfl, le_rfl, hle, le_rfl, fun _ => ?_⟩
        have hgap : publisher.tx.sent.length - publisher.ring.capacity ≤ requested := by
          have := hok.1 hlt
          cases hold : publisher.ring.oldest with
          | none => simp [hp.oldest_none hold]
          | some id =>
            rw [hold, Option.getD_some] at this
            have := (hp.oldest hold).1
            omega
        simp only [Channel.subscribe, List.drop_length, List.append_nil, hp.after hgap]
        rw [(hp.numbered.drop requested).filter_lt, Nat.zero_add, Nat.min_eq_left hle,
          Nat.sub_self, List.drop_zero]
      · cases h
        have heq : requested = publisher.latest := by omega
        exact ⟨rfl, heq.symm, fromNow _ heq⟩

/-- An entry is taken: it is the next one behind the cursor, or one already passed. -/
theorem pass {e : Entry} (hp : publisher.Coherent) (h : sub.pass e = (out, sub'))
    (hstart : start ≤ sub.cursor) (hcursor : sub.cursor ≤ publisher.tx.sent.length)
    (hrx : sub.rx ≤ publisher.tx.sent.length)
    (hcovers : (e :: (sub.backlog ++ publisher.tx.sent.drop sub.rx)).filter
      (fun e => decide (sub.cursor < e.1)) = publisher.tx.sent.drop sub.cursor) :
    (out ≠ .lagged ∧ sub'.Follows publisher start) ∧ sub'.kb = sub.kb ∧
      between publisher.tx.sent sub.kb start sub'.cursor =
        between publisher.tx.sent sub.kb start sub.cursor ++ out.yielded := by
  unfold Subscription.pass at h
  split at h
  · next hle =>
    cases h
    rw [List.filter_cons_of_neg (by simpa using hle)] at hcovers
    exact ⟨⟨by simp, hstart, hcursor, hrx, fun _ => hcovers⟩, rfl, by simp [Step.yielded]⟩
  · next hlt =>
    rw [not_le] at hlt
    rw [List.filter_cons_of_pos (by simpa using hlt)] at hcovers
    obtain ⟨hid, hbetween⟩ := between_succ hp.numbered sub.kb hstart hcovers.symm
    have hlen := congrArg List.length hcovers
    rw [List.length_cons, List.length_drop] at hlen
    have hrest : (sub.backlog ++ publisher.tx.sent.drop sub.rx).filter
        (fun d => decide (e.1 < d.1)) = publisher.tx.sent.drop e.1 := by
      have hdrop : publisher.tx.sent.drop e.1 = (sub.backlog ++ publisher.tx.sent.drop sub.rx).filter
          (fun d => decide (sub.cursor < d.1)) := by
        rw [hid, ← List.drop_drop, ← hcovers, List.drop_succ_cons, List.drop_zero]
      have hnum := (hp.numbered.drop e.1).filter_lt e.1
      have hmin : e.1 - (0 + min e.1 publisher.tx.sent.length) = 0 := by omega
      rw [hmin, List.drop_zero, hdrop, List.filter_filter] at hnum
      rw [hdrop, ← hnum]
      refine List.filter_congr fun d _ => ?_
      by_cases hd : e.1 < d.1
      · have : sub.cursor < d.1 := by omega
        simp [hd, this]
      · simp [hd]
    obtain ⟨rfl, rfl⟩ := Prod.mk.inj h
    refine ⟨⟨?_, by simp only; omega, by simp only; omega, hrx, fun _ => hrest⟩, rfl, ?_⟩
    · split
      · simp
      · simp
    · rw [hbetween]
      by_cases hkb : e.2.kb = sub.kb
      · simp [hkb, Step.yielded]
      · simp [hkb, Step.yielded]

/-- What one turn does to a subscription: it hands out the events it moves its cursor past, and
unless it lags it goes on as before. -/
theorem step (hp : publisher.Coherent) (h : sub.Follows publisher start)
    (hs : sub.step publisher = some (out, sub')) :
    (out = .lagged ∧ sub'.cursor = sub.cursor ∨ out ≠ .lagged ∧ sub'.Follows publisher start) ∧
      sub'.kb = sub.kb ∧
      between publisher.tx.sent sub.kb start sub'.cursor =
        between publisher.tx.sent sub.kb start sub.cursor ++ out.yielded := by
  obtain ⟨hstart, hcursor, hrx, hcovers⟩ := h
  unfold Subscription.step at hs
  split at hs
  · -- the ring is locked after a lag
    simp only [Subscription.refill, Option.some.injEq] at hs
    split at hs
    · cases hs
      exact ⟨.inl ⟨rfl, rfl⟩, rfl, by simp [Step.yielded]⟩
    · next hgap =>
      cases hs
      have hkept : publisher.tx.sent.length - publisher.ring.capacity ≤ sub.cursor := by
        cases hold : publisher.ring.oldest with
        | none => simp [hp.oldest_none hold]
        | some id =>
          simp only [hold, Option.any_some, decide_eq_true_eq, not_lt] at hgap
          have := (hp.oldest hold).1
          omega
      refine ⟨.inr ⟨by simp, hstart, hcursor, le_rfl, fun _ => ?_⟩, rfl, by simp [Step.yielded]⟩
      simp only [Channel.subscribe, List.drop_length, List.append_nil, hp.after hkept]
      rw [(hp.numbered.drop sub.cursor).filter_lt, Nat.zero_add, Nat.min_eq_left hcursor,
        Nat.sub_self, List.drop_zero]
  · next hrefill =>
    have hcovers := hcovers (by simpa using hrefill)
    split at hs
    · next e backlog hbacklog =>
      rw [hbacklog] at hcovers
      obtain ⟨hfollows, hrest⟩ := pass hp (Option.some.inj hs) hstart hcursor hrx hcovers
      exact ⟨.inr hfollows, hrest⟩
    · next hbacklog =>
      rw [hbacklog, List.nil_append] at hcovers
      unfold Channel.recv at hs
      cases hget : publisher.tx.sent[sub.rx]? with
      | none => simp [hget] at hs
      | some e =>
        simp only [hget] at hs
        obtain ⟨hlt, hget⟩ := List.getElem?_eq_some_iff.mp hget
        by_cases hlag : publisher.tx.depth < publisher.tx.sent.length - sub.rx
        · simp only [hlag, if_true, Option.some.injEq, Prod.mk.injEq] at hs
          obtain ⟨rfl, rfl⟩ := hs
          exact ⟨.inr ⟨by simp, hstart, hcursor, hrx, fun h => by cases h⟩, rfl,
            by simp [Step.yielded]⟩
        · simp only [hlag, if_false, Option.some.injEq] at hs
          rw [List.drop_eq_getElem_cons hlt, hget] at hcovers
          obtain ⟨hfollows, hrest⟩ := pass hp hs hstart hcursor hlt
            (by simpa [hbacklog] using hcovers)
          exact ⟨.inr hfollows, hrest⟩

/-- A subscription that waits has passed every event. -/
theorem idle (h : sub.Follows publisher start) (hs : sub.step publisher = none) :
    sub.cursor = publisher.tx.sent.length := by
  unfold Subscription.step at hs
  split at hs
  · cases hs
  · next hrefill =>
    have hcovers := h.covers (by simpa using hrefill)
    split at hs
    · cases hs
    · next hbacklog =>
      unfold Channel.recv at hs
      cases hget : publisher.tx.sent[sub.rx]? with
      | none =>
        rw [List.getElem?_eq_none_iff] at hget
        rw [hbacklog, List.drop_eq_nil_of_le hget, List.append_nil, List.filter_nil] at hcovers
        have := List.drop_eq_nil_iff.mp hcovers.symm
        exact le_antisymm h.cursor_le this
      | some e =>
        simp only [hget] at hs
        by_cases hlag : publisher.tx.depth < publisher.tx.sent.length - sub.rx
        · simp [hlag] at hs
        · simp [hlag] at hs

end Subscription.Follows

end Events
