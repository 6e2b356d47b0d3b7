-- SUMMARY: The event log on a shared stream of a broker: subjects, the bounds of retention, and subscriptions in two requests.
import NotedThat.Events.Memory

/-!
# The shared event log

The log is one stream of a message broker, shared by every replica and every knowledge base. A
subscription takes two requests: one reads the bounds of the stream, the next creates a consumer.
The broker may accept messages and drop old ones at any time between them. Its consumers are taken
as documented: one delivers, from its start on, the messages of its subject that are still retained when
it comes to them, in order. Nothing tells a subscription that one it had not come to is gone.
-/

namespace Events.Nats

/-! ## Subjects -/

/-- A subject filter: `*` stands for one token and a final `>` for one or more. -/
def matchesTokens : List Text → List Text → Bool
  | [], [] => true
  | p :: ps, t :: ts =>
    if p = ['>'] ∧ ps = [] then true else (p = ['*'] ∨ p = t) && matchesTokens ps ts
  | _, _ => false

def subjectMatches (filter subject : Text) : Bool :=
  matchesTokens (filter.splitOn '.') (subject.splitOn '.')

def subjectRoot : Text := "notedthat.events".toList

/-- The subject one knowledge base's events are published under. -/
def kbSubject (kb : KbSlug) : Text := subjectRoot ++ '.' :: (kb.val ++ ".>".toList)

/-- The subject one event is published to. -/
def eventSubject (event : ObjectEvent) : Text :=
  let kind := match event.kind with
    | .written .. => "written"
    | .deleted => "deleted"
    | .indexed .. => "indexed"
    | .indexFailed .. => "index_failed"
  subjectRoot ++ '.' :: (event.kb.val ++ '.' :: kind.toList)

theorem dot_not_mem_slug (kb : KbSlug) : '.' ∉ kb.val := by
  intro hmem
  have := validateSlug_chars kb.valid '.' hmem
  revert this
  decide

/-- The events under a knowledge base's subject are its own. -/
theorem subjectMatches_event (kb : KbSlug) (event : ObjectEvent) :
    subjectMatches (kbSubject kb) (eventSubject event) = decide (event.kb = kb) := by
  have hsplit : ∀ (slug : KbSlug) (rest : Text),
      (subjectRoot ++ '.' :: (slug.val ++ '.' :: rest)).splitOn '.' =
        ["notedthat".toList, "events".toList, slug.val] ++ rest.splitOn '.' := by
    intro slug rest
    rw [List.splitOn_append_cons_self,
      List.splitOn_append_cons_self_of_not_mem (dot_not_mem_slug slug)]
    rfl
  have hone : ∀ kind : Text, '.' ∉ kind →
      subjectMatches (kbSubject kb) (subjectRoot ++ '.' :: (event.kb.val ++ '.' :: kind)) =
        decide (event.kb = kb) := by
    intro kind hkind
    have hstar : kb.val ≠ ['*'] := by
      intro heq
      have := kb.valid
      rw [heq] at this
      cases this
    have hkb : event.kb = kb ↔ kb.val = event.kb.val :=
      ⟨fun h => by rw [h], fun h => KbSlug.ext h.symm⟩
    rw [subjectMatches, kbSubject, show ".>".toList = '.' :: ['>'] from rfl, hsplit, hsplit,
      List.splitOn_eq_singleton hkind]
    have hall : matchesTokens (['>'].splitOn '.') [kind] = true := rfl
    simp only [hkb, List.cons_append, List.nil_append]
    simp [matchesTokens, hstar, hall]
  unfold eventSubject
  cases event.kind with
  | written => exact hone "written".toList (by decide)
  | deleted => exact hone "deleted".toList (by decide)
  | indexed => exact hone "indexed".toList (by decide)
  | indexFailed => exact hone "index_failed".toList (by decide)

/-! ## The stream -/

structure Message where
  subject : Text
  payload : Bytes

/-- Every message that was ever accepted, under its sequence, and how many of the oldest ones
retention has removed. -/
structure Stream where
  log : List (Nat × Message)
  removed : Nat

namespace Stream

def publish (stream : Stream) (message : Message) : Stream :=
  { stream with log := stream.log ++ [(stream.log.length + 1, message)] }

def retained (stream : Stream) : List (Nat × Message) := stream.log.drop stream.removed

/-- The first and last sequence in the stream's state. -/
def bounds (stream : Stream) : Nat × Nat :=
  if stream.log = [] then (0, 0) else (stream.removed + 1, stream.log.length)

end Stream

/-- Where a consumer starts. -/
inductive DeliverPolicy where
  | byStartSequence (startSequence : Nat)
  | new
deriving DecidableEq

/-- A consumer with a subject filter: the sequence it has come to, and the events the subscription
handed on so far. -/
structure Consumer where
  filterSubject : Text
  position : Nat
  items : List Entry

def Consumer.accepts (c : Consumer) (m : Nat × Message) : Bool :=
  c.position < m.1 && subjectMatches c.filterSubject m.2.subject

namespace Stream

def createConsumer (stream : Stream) (filterSubject : Text) (policy : DeliverPolicy) : Consumer :=
  let position := match policy with
    | .byStartSequence n => n - 1
    | .new => stream.log.length
  ⟨filterSubject, position, []⟩

/-- What a consumer has yet to deliver, as long as it is retained. -/
def pending (stream : Stream) (c : Consumer) : List (Nat × Message) := stream.retained.filter c.accepts

end Stream

/-! ## Subscriptions -/

/-- Whether resuming after a position cannot be honoured, for the bounds of the stream. -/
def isGone (after first last : Nat) : Bool :=
  decide ((after < last ∧ after + 1 < first) ∨ after > last)

/-- How far a subscription has come. -/
inductive Phase where
  | idle
  | starting (kb : KbSlug) (after : Option Nat)
  | positioned (kb : KbSlug) (after : Option Nat) (policy : DeliverPolicy)
  | refused (error : SubscribeError)
  | streaming (kb : KbSlug) (after : Option Nat) (consumer : Consumer)

/-- The first request: the bounds, and what follows from them. -/
def readBounds (stream : Stream) (kb : KbSlug) (after : Option Nat) : Phase :=
  let (first, last) := stream.bounds
  match after with
  | some requested =>
    if isGone requested first last then .refused (.gone requested (max first 1))
    -- one past the position even at the end: `new` would skip what is published meanwhile
    else .positioned kb after (.byStartSequence (requested + 1))
  | none => .positioned kb after .new

section Subscriptions

variable (decode : Bytes → Option ObjectEvent)

/-- The event in a message, none for one that cannot be read. -/
def eventIn (m : Nat × Message) : Option Entry := (decode m.2.payload).map fun event => (m.1, event)

/-- The consumer's next message: skipped when it cannot be read. -/
def Consumer.next (stream : Stream) (c : Consumer) : Option Consumer :=
  match stream.pending c with
  | [] => none
  | m :: _ => some { c with position := m.1, items := c.items ++ (eventIn decode m).toList }

/-- The decodable events of a knowledge base behind a position. -/
def eventsAfter (log : List (Nat × Message)) (kb : KbSlug) (after : Nat) : List Entry :=
  (log.filter fun m => after < m.1 && subjectMatches (kbSubject kb) m.2.subject).filterMap
    (eventIn decode)

/-- The stream and any number of subscriptions. -/
structure Broker where
  stream : Stream
  phase : Nat → Phase

namespace Broker

def withPhase (b : Broker) (i : Nat) (phase : Phase) : Broker :=
  { b with phase := Function.update b.phase i phase }

def publish (b : Broker) (message : Message) : Broker := { b with stream := b.stream.publish message }

/-- Retention removes the oldest message. -/
def expire (b : Broker) : Broker := { b with stream := { b.stream with removed := b.stream.removed + 1 } }

/-- Publishes, retention and the steps of the subscriptions, in any order. Where a consumer is created to
resume after a position, `kept` holds of the messages that are removed already; where a message is removed,
it holds of that message, for every such consumer and what it has come to. -/
inductive Run (kept : List (Nat × Message) → KbSlug → Nat → Prop) : Broker → Prop where
  | new : Run kept ⟨⟨[], 0⟩, fun _ => .idle⟩
  | publish {b : Broker} (message : Message) : Run kept b → Run kept (b.publish message)
  | expire {b : Broker} : Run kept b → b.stream.removed < b.stream.log.length →
      (∀ i kb after c, b.phase i = .streaming kb (some after) c →
        kept (b.stream.retained.take 1) kb c.position) → Run kept b.expire
  | subscribe {b : Broker} {i : Nat} (kb : KbSlug) (after : Option Nat) :
      Run kept b → b.phase i = .idle → Run kept (b.withPhase i (.starting kb after))
  | readBounds {b : Broker} {i : Nat} {kb : KbSlug} {after : Option Nat} :
      Run kept b → b.phase i = .starting kb after →
        Run kept (b.withPhase i (Nats.readBounds b.stream kb after))
  | createConsumer {b : Broker} {i : Nat} {kb : KbSlug} {after : Option Nat}
      {policy : DeliverPolicy} :
      Run kept b → b.phase i = .positioned kb after policy →
        (∀ requested ∈ after, kept (b.stream.log.take b.stream.removed) kb requested) →
          Run kept (b.withPhase i
            (.streaming kb after (b.stream.createConsumer (kbSubject kb) policy)))
  | unavailable {b : Broker} {i : Nat} (message : String) :
      Run kept b → (∀ kb after c, b.phase i ≠ .streaming kb after c) →
        Run kept (b.withPhase i (.refused (.unavailable message)))
  | deliver {b : Broker} {i : Nat} {kb : KbSlug} {after : Option Nat} {c c' : Consumer} :
      Run kept b → b.phase i = .streaming kb after c → c.next decode b.stream = some c' →
        Run kept (b.withPhase i (.streaming kb after c'))

end Broker

/-! ## What a consumer delivers -/

namespace Consumer

/-- What the consumer has delivered and what it has yet to deliver. -/
def drained (stream : Stream) (c : Consumer) : List Entry :=
  c.items ++ (stream.pending c).filterMap (eventIn decode)

/-- Left to itself, the consumer delivers exactly the events of the knowledge base behind the
position. -/
def Exact (stream : Stream) (kb : KbSlug) (after : Nat) (c : Consumer) : Prop :=
  ∃ d, Relation.ReflTransGen (fun a b : Consumer => a.next decode stream = some b) c d ∧
    d.next decode stream = none ∧ d.items = eventsAfter decode stream.log kb after

variable {decode} {stream : Stream} {c d : Consumer}

/-- The message that is delivered is the first of those the consumer has yet to deliver, and no other. -/
theorem next_spec (hsorted : stream.retained.Pairwise fun m m' => m.1 < m'.1)
    (h : c.next decode stream = some d) : ∃ m ∈ stream.retained, d.filterSubject = c.filterSubject ∧
      c.position < m.1 ∧ d.position = m.1 ∧ stream.pending c = m :: stream.pending d ∧
      d.items = c.items ++ (eventIn decode m).toList := by
  unfold next at h
  split at h
  · cases h
  · next m rest hpending =>
    cases h
    have hmem : m ∈ stream.pending c := hpending ▸ List.mem_cons_self
    obtain ⟨hretained, haccepts⟩ := List.mem_filter.mp hmem
    obtain ⟨hlt, hsubject⟩ := (Bool.and_eq_true _ _).mp haccepts
    have hlt := of_decide_eq_true hlt
    refine ⟨m, hretained, rfl, hlt, rfl, ?_, rfl⟩
    rw [hpending]
    congr 1
    have hrest : (m :: rest).Pairwise fun m m' => m.1 < m'.1 := hpending ▸ hsorted.filter _
    -- the rest is what a consumer that has come to `m` accepts of all that was pending
    calc rest = (m :: rest).filter fun m' => decide (m.1 < m'.1) := by
          rw [List.filter_cons_of_neg (by simp)]
          exact (List.filter_eq_self.mpr fun m' hm' =>
            decide_eq_true (List.rel_of_pairwise_cons hrest hm')).symm
      _ = (stream.pending c).filter fun m' => decide (m.1 < m'.1) := by rw [hpending]
      _ = _ := by
          rw [Stream.pending, List.filter_filter]
          refine List.filter_congr fun m' _ => ?_
          simp only [accepts]
          by_cases hm' : m.1 < m'.1
          · simp [hm', hlt.trans hm']
          · simp [hm']

theorem drained_next (hsorted : stream.retained.Pairwise fun m m' => m.1 < m'.1)
    (h : c.next decode stream = some d) : d.drained decode stream = c.drained decode stream := by
  obtain ⟨m, -, -, -, -, hpending, hitems⟩ := next_spec hsorted h
  rw [drained, drained, hitems, hpending, List.filterMap_cons, List.append_assoc]
  cases hm : eventIn decode m <;> rfl

theorem drained_of_next_none (h : c.next decode stream = none) : c.drained decode stream = c.items := by
  unfold next at h
  split at h
  · next hpending => simp [drained, hpending]
  · cases h

theorem exact_iff (hsorted : stream.retained.Pairwise fun m m' => m.1 < m'.1) {kb : KbSlug} {after : Nat} :
    c.Exact decode stream kb after ↔ c.drained decode stream = eventsAfter decode stream.log kb after := by
  have hdrained : ∀ d, Relation.ReflTransGen (fun a b : Consumer => a.next decode stream = some b) c d →
      d.drained decode stream = c.drained decode stream := by
    intro d hd
    induction hd with
    | refl => rfl
    | tail _ hstep ih => exact (drained_next hsorted hstep).trans ih
  constructor
  · rintro ⟨d, hd, hnone, hitems⟩
    rw [← hdrained d hd, drained_of_next_none hnone, hitems]
  · intro heq
    have hless : ∀ a b : Consumer, a.next decode stream = some b →
        (stream.pending b).length < (stream.pending a).length := by
      intro a b hab
      obtain ⟨m, -, -, -, -, hpending, -⟩ := next_spec hsorted hab
      rw [hpending, List.length_cons]
      exact Nat.lt_succ_self _
    obtain ⟨d, hd, hstuck⟩ := Relation.exists_stuck (fun a => (stream.pending a).length) hless c
    have hnone : d.next decode stream = none := Option.eq_none_iff_forall_ne_some.mpr hstuck
    refine ⟨d, hd, hnone, ?_⟩
    rw [← drained_of_next_none hnone, hdrained d hd, heq]

end Consumer

/-- Among these messages, which are removed, is no event of the knowledge base behind the position. -/
def Kept (removed : List (Nat × Message)) (kb : KbSlug) (after : Nat) : Prop :=
  eventsAfter decode removed kb after = []

end Subscriptions

/-! ## Any interleaving -/

section Runs

variable {decode : Bytes → Option ObjectEvent} {kept : List (Nat × Message) → KbSlug → Nat → Prop}
variable {b : Broker}

theorem eventsAfter_append (log log' : List (Nat × Message)) (kb : KbSlug) (after : Nat) :
    eventsAfter decode (log ++ log') kb after =
      eventsAfter decode log kb after ++ eventsAfter decode log' kb after := by
  simp [eventsAfter]

theorem eventsAfter_singleton (m : Nat × Message) (kb : KbSlug) {after after' : Nat} (h : after < m.1)
    (h' : after' < m.1) : eventsAfter decode [m] kb after = eventsAfter decode [m] kb after' := by
  simp only [eventsAfter, List.filter_singleton, decide_eq_true h, decide_eq_true h']

/-- The events of a knowledge base that a consumer has yet to deliver. -/
theorem drained_eq (stream : Stream) {kb : KbSlug} {c : Consumer} (h : c.filterSubject = kbSubject kb) :
    c.drained decode stream = c.items ++ eventsAfter decode stream.retained kb c.position := by
  have haccepts : c.accepts = fun m => decide (c.position < m.1) && subjectMatches (kbSubject kb) m.2.subject := by
    rw [← h]
    rfl
  rw [Consumer.drained, Stream.pending, haccepts, eventsAfter]

/-- What is retained is the message that is removed next, and what is retained without it. -/
theorem eventsAfter_retained (b : Broker) (kb : KbSlug) (after : Nat) :
    eventsAfter decode b.stream.retained kb after =
      eventsAfter decode (b.stream.retained.take 1) kb after ++
        eventsAfter decode b.expire.stream.retained kb after := by
  rw [← eventsAfter_append]
  have hdrop : b.expire.stream.retained = b.stream.retained.drop 1 := by
    simp only [Broker.expire, Stream.retained, List.drop_drop]
  rw [hdrop, List.take_append_drop]

namespace Broker

/-- The stream is numbered, and whoever resumes does so from a position that the stream had come to, one
past it. -/
structure Shape (b : Broker) : Prop where
  numbered : NumberedFrom 0 b.stream.log
  removed_le : b.stream.removed ≤ b.stream.log.length
  positioned : ∀ i kb after policy, b.phase i = .positioned kb (some after) policy →
    policy = .byStartSequence (after + 1) ∧ after ≤ b.stream.log.length
  streaming : ∀ i kb after c, b.phase i = .streaming kb (some after) c →
    c.filterSubject = kbSubject kb ∧ after ≤ c.position ∧ c.position ≤ b.stream.log.length

theorem Shape.sorted (h : b.Shape) : b.stream.retained.Pairwise fun m m' => m.1 < m'.1 :=
  (h.numbered.drop _).pairwise

theorem Shape.withPhase (h : b.Shape) {i : Nat} {phase : Phase}
    (hpositioned : ∀ kb after policy, phase = .positioned kb (some after) policy →
      policy = .byStartSequence (after + 1) ∧ after ≤ b.stream.log.length)
    (hstreaming : ∀ kb after c, phase = .streaming kb (some after) c →
      c.filterSubject = kbSubject kb ∧ after ≤ c.position ∧ c.position ≤ b.stream.log.length) :
    (b.withPhase i phase).Shape := by
  refine ⟨h.numbered, h.removed_le, ?_, ?_⟩
  · intro j kb after policy hj
    by_cases hij : j = i
    · subst hij
      simp only [Broker.withPhase, Function.update_self] at hj
      exact hpositioned kb after policy hj
    · simp only [Broker.withPhase, Function.update_of_ne hij] at hj
      exact h.positioned j kb after policy hj
  · intro j kb after c hj
    by_cases hij : j = i
    · subst hij
      simp only [Broker.withPhase, Function.update_self] at hj
      exact hstreaming kb after c hj
    · simp only [Broker.withPhase, Function.update_of_ne hij] at hj
      exact h.streaming j kb after c hj

/-- What the bounds of the stream tell. -/
theorem isGone_iff (hnumbered : NumberedFrom 0 b.stream.log) (hle : b.stream.removed ≤ b.stream.log.length)
    (after : Nat) : isGone after b.stream.bounds.1 b.stream.bounds.2 = true ↔
      (∃ m ∈ b.stream.log.take b.stream.removed, after < m.1) ∨ b.stream.log.length < after := by
  have hremoved : (∃ m ∈ b.stream.log.take b.stream.removed, after < m.1) ↔
      after < b.stream.removed := by
    constructor
    · rintro ⟨m, hm, hlt⟩
      have := ((hnumbered.take b.stream.removed).lt_of_mem hm).2
      rw [List.length_take] at this
      omega
    · intro hlt
      obtain ⟨m, hm, hid⟩ := (hnumbered.take b.stream.removed).exists_mem
        (Nat.zero_lt_of_lt hlt) (by simp [hle])
      exact ⟨m, hm, by omega⟩
  rw [hremoved, isGone, decide_eq_true_eq]
  unfold Stream.bounds
  split
  · next hnil =>
    have : b.stream.log.length = 0 := by simp [hnil]
    omega
  · omega

theorem Run.shape (h : Run decode kept b) : b.Shape := by
  induction h with
  | new => exact ⟨trivial, le_rfl, nofun, nofun⟩
  | @publish b message _ ih =>
    have hgrows : b.stream.log.length ≤ (b.publish message).stream.log.length := by
      simp [Broker.publish, Stream.publish]
    refine ⟨ih.numbered.append ⟨by simp, trivial⟩, ih.removed_le.trans hgrows, ?_, ?_⟩
    · intro i kb after policy hi
      obtain ⟨hpolicy, hle⟩ := ih.positioned i kb after policy hi
      exact ⟨hpolicy, hle.trans hgrows⟩
    · intro i kb after c hi
      obtain ⟨hfilter, hafter, hle⟩ := ih.streaming i kb after c hi
      exact ⟨hfilter, hafter, hle.trans hgrows⟩
  | expire _ hlt _ ih => exact ⟨ih.numbered, hlt, ih.positioned, ih.streaming⟩
  | subscribe kb after _ _ ih => exact ih.withPhase nofun nofun
  | @readBounds b i kb after _ _ ih =>
    refine ih.withPhase ?_ ?_
    · intro kb' after' policy heq
      simp only [Nats.readBounds] at heq
      split at heq
      · split_ifs at heq with hgone
        cases heq
        rw [isGone_iff ih.numbered ih.removed_le] at hgone
        exact ⟨rfl, Nat.le_of_not_lt fun hlt => hgone (.inr hlt)⟩
      · cases heq
    · intro kb' after' c heq
      simp only [Nats.readBounds] at heq
      split at heq
      · split_ifs at heq
      · cases heq
  | @createConsumer b i kb after policy _ hi _ ih =>
    refine ih.withPhase nofun ?_
    rintro kb' after' c ⟨⟩
    obtain ⟨rfl, hle⟩ := ih.positioned i kb after' policy hi
    exact ⟨rfl, Nat.le_refl _, hle⟩
  | unavailable message _ _ ih => exact ih.withPhase nofun nofun
  | @deliver b i kb after c c' _ hi hnext ih =>
    refine ih.withPhase nofun ?_
    rintro kb' after' d ⟨⟩
    obtain ⟨hfilter, hafter, -⟩ := ih.streaming i kb after' c hi
    obtain ⟨m, hm, hfilter', hlt, hposition, -⟩ := Consumer.next_spec ih.sorted hnext
    have hmem := (ih.numbered.lt_of_mem (List.mem_of_mem_drop hm)).2
    rw [Nat.zero_add] at hmem
    exact ⟨hfilter'.trans hfilter, by omega, by omega⟩

/-- What a consumer that resumes has delivered and what is retained for it are the events behind its
position. -/
def Streams (b : Broker) (decode : Bytes → Option ObjectEvent) : Prop :=
  ∀ i kb after c, b.phase i = .streaming kb (some after) c →
    c.drained decode b.stream = eventsAfter decode b.stream.log kb after

theorem Streams.withPhase (h : b.Streams decode) {i : Nat} {phase : Phase}
    (hphase : ∀ kb after c, phase = .streaming kb (some after) c →
      c.drained decode b.stream = eventsAfter decode b.stream.log kb after) :
    (b.withPhase i phase).Streams decode := by
  intro j kb after c hj
  by_cases hij : j = i
  · subst hij
    simp only [Broker.withPhase, Function.update_self] at hj
    exact hphase kb after c hj
  · simp only [Broker.withPhase, Function.update_of_ne hij] at hj
    exact h j kb after c hj

/-- A new message is behind everything a consumer has come to. -/
theorem Streams.publish (h : b.Streams decode) (hshape : b.Shape) (message : Message) :
    (b.publish message).Streams decode := by
  intro i kb after c hi
  obtain ⟨hfilter, hafter, hle⟩ := hshape.streaming i kb after c hi
  have hretained : (b.publish message).stream.retained =
      b.stream.retained ++ [(b.stream.log.length + 1, message)] :=
    List.drop_append_of_le_length hshape.removed_le
  have hlog : (b.publish message).stream.log = b.stream.log ++ [(b.stream.log.length + 1, message)] := rfl
  have hdrained := h i kb after c hi
  rw [drained_eq _ hfilter] at hdrained ⊢
  rw [hretained, hlog, eventsAfter_append, eventsAfter_append, ← List.append_assoc, hdrained,
    eventsAfter_singleton _ kb (Nat.lt_succ_of_le hle) (Nat.lt_succ_of_le (hafter.trans hle))]

/-- A consumer that was exact stays so if and only if it had come past the message that is removed, or was
not to deliver it. -/
theorem drained_expire_iff (hshape : b.Shape) {i : Nat} {kb : KbSlug} {after : Nat} {c : Consumer}
    (hi : b.phase i = .streaming kb (some after) c)
    (h : c.drained decode b.stream = eventsAfter decode b.stream.log kb after) :
    c.drained decode b.expire.stream = eventsAfter decode b.expire.stream.log kb after ↔
      Kept decode (b.stream.retained.take 1) kb c.position := by
  obtain ⟨hfilter, -, -⟩ := hshape.streaming i kb after c hi
  have hlog : b.expire.stream.log = b.stream.log := rfl
  rw [drained_eq _ hfilter] at h ⊢
  rw [hlog, ← h, eventsAfter_retained b, Kept, List.append_cancel_left_eq]
  exact List.self_eq_append_left

/-- A consumer that resumes one past a position delivers what is retained of the events behind it. -/
theorem drained_createConsumer_iff (stream : Stream) (kb : KbSlug) (after : Nat) :
    (stream.createConsumer (kbSubject kb) (.byStartSequence (after + 1))).drained decode stream =
      eventsAfter decode stream.log kb after ↔ Kept decode (stream.log.take stream.removed) kb after := by
  have hfilter : (stream.createConsumer (kbSubject kb)
      (.byStartSequence (after + 1))).filterSubject = kbSubject kb := rfl
  rw [drained_eq stream hfilter, Kept]
  conv_lhs => rw [← List.take_append_drop stream.removed stream.log, eventsAfter_append]
  exact List.self_eq_append_left

theorem Run.streams (h : Run decode (Kept decode) b) : b.Streams decode := by
  induction h with
  | new => exact nofun
  | publish message hrun ih => exact ih.publish hrun.shape message
  | expire hrun _ hkept ih => exact fun i kb after c hi =>
      (drained_expire_iff hrun.shape hi (ih i kb after c hi)).mpr (hkept i kb after c hi)
  | subscribe kb after _ _ ih => exact ih.withPhase nofun
  | @readBounds b i kb after _ _ ih =>
    refine ih.withPhase ?_
    intro kb' after' c heq
    simp only [Nats.readBounds] at heq
    split at heq
    · split_ifs at heq
    · cases heq
  | @createConsumer b i kb after policy hrun hi hkept ih =>
    refine ih.withPhase ?_
    rintro kb' after' c ⟨⟩
    obtain ⟨rfl, -⟩ := hrun.shape.positioned i kb after' policy hi
    exact (drained_createConsumer_iff _ _ _).mpr (hkept after' rfl)
  | unavailable message _ _ ih => exact ih.withPhase nofun
  | @deliver b i kb after c c' hrun hi hnext ih =>
    refine ih.withPhase ?_
    rintro kb' after' d ⟨⟩
    exact (Consumer.drained_next hrun.shape.sorted hnext).trans (ih i kb after' c hi)

theorem pairwise_eventsAfter {log : List (Nat × Message)} (h : NumberedFrom 0 log) (kb : KbSlug)
    (after : Nat) : (eventsAfter decode log kb after).Pairwise fun d e => d.1 < e.1 := by
  refine (h.pairwise.filter _).filterMap _ ?_
  intro m m' hlt e he e' he'
  obtain ⟨event, -, rfl⟩ := Option.map_eq_some_iff.mp he
  obtain ⟨event', -, rfl⟩ := Option.map_eq_some_iff.mp he'
  exact hlt

/-- If retention removes no event behind a position before the consumer that resumes there is created, and
none behind what such a consumer has come to, every subscription delivers exactly the events of its
knowledge base behind its position. A new consumer is exact only then, and stays exact at a removal only
then; the bounds that were read before do not tell. -/
theorem exact_iff_kept (decode : Bytes → Option ObjectEvent) :
    (∀ b, Run decode (Kept decode) b → ∀ i kb after c,
      b.phase i = .streaming kb (some after) c →
        c.Exact decode b.stream kb after ∧
        c.items <+: eventsAfter decode b.stream.log kb after ∧
        c.items.Pairwise fun d e => d.1 < e.1) ∧
    (∀ b, Run decode (fun _ _ _ => True) b → ∀ i kb after policy,
      b.phase i = .positioned kb (some after) policy →
        ((b.stream.createConsumer (kbSubject kb) policy).Exact decode b.stream kb after ↔
          Kept decode (b.stream.log.take b.stream.removed) kb after)) ∧
    (∀ b, Run decode (fun _ _ _ => True) b → b.stream.removed < b.stream.log.length → ∀ i kb after c,
      b.phase i = .streaming kb (some after) c → c.Exact decode b.stream kb after →
        (c.Exact decode b.expire.stream kb after ↔ Kept decode (b.stream.retained.take 1) kb c.position)) ∧
    (∀ b, Run decode (fun _ _ _ => True) b → ∀ kb after,
      (∃ oldest, readBounds b.stream kb (some after) = .refused (.gone after oldest)) ↔
        (∃ m ∈ b.stream.log.take b.stream.removed, after < m.1) ∨ b.stream.log.length < after) := by
  refine ⟨?_, ?_, ?_, ?_⟩
  · intro b hrun i kb after c hi
    have hdrained := hrun.streams i kb after c hi
    have hitems : c.items <+: eventsAfter decode b.stream.log kb after := ⟨_, hdrained⟩
    refine ⟨(Consumer.exact_iff hrun.shape.sorted).mpr hdrained, hitems, ?_⟩
    exact (pairwise_eventsAfter hrun.shape.numbered kb after).sublist hitems.sublist
  · intro b hrun i kb after policy hi
    obtain ⟨rfl, -⟩ := hrun.shape.positioned i kb after policy hi
    rw [Consumer.exact_iff hrun.shape.sorted]
    exact drained_createConsumer_iff _ _ _
  · intro b hrun hlt i kb after c hi hexact
    have hexpired : Run decode (fun _ _ _ => True) b.expire := hrun.expire hlt (by simp)
    rw [Consumer.exact_iff hexpired.shape.sorted]
    exact drained_expire_iff hrun.shape hi ((Consumer.exact_iff hrun.shape.sorted).mp hexact)
  · intro b hrun kb after
    rw [← isGone_iff hrun.shape.numbered hrun.shape.removed_le]
    simp only [readBounds]
    split_ifs with hgone
    · simp [hgone]
    · simp [hgone]

/-- A deletion, the message it is published as, and a reader that knows this message. -/
def deleted : ObjectEvent := ⟨.notes, ObjectPath.a, .deleted, .http⟩

def deletedMessage : Message :=
  ⟨eventSubject deleted, Utf8.encode ("\x7b\"kb\":\"notes\",\"object_key\":\"a\"," ++
    "\"event\":\"object.deleted\",\"source\":\"http\",\"occurred_at\":\"2026-01-01T00:00:00Z\"\x7d").toList⟩

def readDeleted (payload : Bytes) : Option ObjectEvent :=
  if payload = deletedMessage.payload then some deleted else none

/-- A subscription behind `0` that has read the bounds when one event was published. -/
def resuming : Broker :=
  ((Broker.publish ⟨⟨[], 0⟩, fun _ => .idle⟩ deletedMessage).withPhase 0
    (.starting .notes (some 0))).withPhase 0 (.positioned .notes (some 0) (.byStartSequence 1))

theorem run_resuming (kept : List (Nat × Message) → KbSlug → Nat → Prop) : Run readDeleted kept resuming := by
  have hstart : Run readDeleted kept _ :=
    (Run.new.publish deletedMessage).subscribe (i := 0) .notes (some 0) rfl
  exact hstart.readBounds (i := 0) rfl

theorem resuming_phase : resuming.phase 0 = .positioned .notes (some 0) (.byStartSequence 1) := rfl

theorem eventsAfter_resuming : eventsAfter readDeleted resuming.stream.log .notes 0 = [(1, deleted)] := by
  have hmatches : subjectMatches (kbSubject .notes) deletedMessage.subject = true := by
    rw [deletedMessage, subjectMatches_event]
    exact decide_eq_true rfl
  have hread : readDeleted deletedMessage.payload = some deleted := if_pos rfl
  have hlog : resuming.stream.log = [(1, deletedMessage)] := rfl
  rw [hlog, eventsAfter]
  simp [hmatches, eventIn, hread]

/-- The subscription when its consumer is created. -/
def resumed : Broker := resuming.withPhase 0
  (.streaming .notes (some 0) (resuming.stream.createConsumer (kbSubject .notes) (.byStartSequence 1)))

theorem run_resumed {kept : List (Nat × Message) → KbSlug → Nat → Prop} (h : kept [] .notes 0) :
    Run readDeleted kept resumed :=
  (run_resuming kept).createConsumer resuming_phase (by rintro _ ⟨⟩; exact h)

theorem exact_iff_kept_resuming : ∃ b c, Run readDeleted (Kept readDeleted) b ∧
    b.phase 0 = .streaming .notes (some 0) c ∧
    eventsAfter readDeleted b.stream.log .notes 0 = [(1, deleted)] ∧
    c.Exact readDeleted b.stream .notes 0 :=
  ⟨_, _, run_resumed rfl, rfl, eventsAfter_resuming,
    ((exact_iff_kept readDeleted).1 _ (run_resumed rfl) 0 _ _ _ rfl).1⟩

/-- Where all is removed, nothing is delivered. -/
theorem not_exact_of_removed {b : Broker} {c : Consumer} (hrun : Run readDeleted (fun _ _ _ => True) b)
    (hlog : b.stream.log = resuming.stream.log) (hremoved : b.stream.removed = 1) (hitems : c.items = []) :
    ¬ c.Exact readDeleted b.stream .notes 0 := by
  rw [Consumer.exact_iff hrun.shape.sorted, hlog, eventsAfter_resuming, Consumer.drained, hitems,
    Stream.pending, Stream.retained, hlog, hremoved]
  exact List.cons_ne_nil _ _ ∘ Eq.symm

/-- The event expires between the two requests, or before a consumer that was exact comes to it: it existed,
the subscription was accepted, and it is never delivered. -/
theorem expired_before_delivery :
    (∃ b c, Run readDeleted (fun _ _ _ => True) b ∧ b.phase 0 = .streaming .notes (some 0) c ∧
      eventsAfter readDeleted b.stream.log .notes 0 = [(1, deleted)] ∧
      ¬ c.Exact readDeleted b.stream .notes 0) ∧
    ∃ b c, Run readDeleted (fun _ _ _ => True) b ∧ b.phase 0 = .streaming .notes (some 0) c ∧
      c.Exact readDeleted b.stream .notes 0 ∧ Run readDeleted (fun _ _ _ => True) b.expire ∧
      ¬ c.Exact readDeleted b.expire.stream .notes 0 := by
  constructor
  · have hrun : Run readDeleted (fun _ _ _ => True) _ :=
      ((run_resuming _).expire (by decide) (by simp)).createConsumer (i := 0) resuming_phase (by simp)
    exact ⟨_, _, hrun, rfl, eventsAfter_resuming, not_exact_of_removed hrun rfl rfl rfl⟩
  · have hrun : Run readDeleted (fun _ _ _ => True) resumed := run_resumed trivial
    have hexpired : Run readDeleted (fun _ _ _ => True) resumed.expire := hrun.expire (by decide) (by simp)
    refine ⟨_, _, hrun, rfl, ?_, hexpired, not_exact_of_removed hexpired rfl rfl rfl⟩
    exact (Consumer.exact_iff hrun.shape.sorted).mpr ((drained_createConsumer_iff _ _ _).mpr rfl)

end Broker

end Runs

end Events.Nats
