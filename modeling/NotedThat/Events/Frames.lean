-- SUMMARY: The event stream endpoint: its filters and its position header, and the frames a subscriber is sent.
import NotedThat.Api.Errors
import NotedThat.Events.Memory
import NotedThat.Indexer.Pipeline

/-!
# The event stream endpoint

A connection turns the stream of the log into frames: events the caller may list and asked for,
until the log lags or the credential expires. Keep-alive comments and the first frame, a retry
hint, are left out: they carry no id and depend on nothing.
-/

namespace Events

open Api (KbAccess ApiError)

/-! ## Filters -/

/-- The kinds of event a subscriber may select. -/
inductive Kind where
  | written
  | deleted
  | indexed
  | indexFailed
deriving DecidableEq

namespace Kind

/-- The prefix `object.` of the wire name is accepted. -/
def parse (raw : Text) : Option Kind :=
  let name := (Text.stripPrefix "object.".toList raw).getD raw
  if name = "written".toList then some .written
  else if name = "deleted".toList then some .deleted
  else if name = "indexed".toList then some .indexed
  else if name = "index_failed".toList then some .indexFailed
  else none

def of : ObjectEventKind → Kind
  | .written .. => .written
  | .deleted => .deleted
  | .indexed .. => .indexed
  | .indexFailed .. => .indexFailed

end Kind

/-- The content type an event carries, when it knows one. -/
def mimeOf : ObjectEventKind → Option Text
  | .written _ _ mime => some mime
  | .deleted => none
  | .indexed _ mime _ => some mime
  | .indexFailed _ mime _ => mime

structure EventsQuery where
  keyPrefix : Option Text
  event : Option Text
  mime : Option Text

/-- The validated form of a query; the type is a media type without parameters, never empty. -/
structure EventFilter where
  keyPrefix : Option Text
  kind : Option Kind
  mime : Option Text
deriving DecidableEq

/-- `pattern` is a media type or `type/*`. -/
def mimeMatches (pattern mime : Text) : Bool :=
  let mime := Indexer.essence mime
  match (Text.stripSuffix '*' pattern).bind (Text.stripSuffix '/') with
  | some kind => (Text.splitOnce '/' mime).any fun parts => parts.1 = kind
  | none => pattern = mime

namespace EventFilter

def parse (query : EventsQuery) : Except ApiError EventFilter := do
  let kind ← match query.event with
    | none => .ok none
    | some raw =>
      match Kind.parse raw with
      | some kind => .ok (some kind)
      | none => .error (.core (.invalidInput
          ("event must be one of \"written\", \"deleted\", \"indexed\" or \"index_failed\" " ++
            "(an \"object.\" prefix is accepted), got \"" ++ String.ofList raw ++ "\"")))
  .ok ⟨query.keyPrefix.filter fun p => !p.isEmpty, kind,
    (query.mime.map Indexer.essence).filter fun m => !m.isEmpty⟩

def matchesEvent (filter : EventFilter) (event : ObjectEvent) : Bool :=
  if filter.keyPrefix.any fun p => !p.isPrefixOf event.objectKey.val then false
  else if filter.kind.any fun kind => kind ≠ Kind.of event.kind then false
  else
    match filter.mime, mimeOf event.kind with
    | none, _ => true
    | some _, none => false
    | some pattern, some mime => mimeMatches pattern mime

end EventFilter

/-- The header a client resumes with; `none` stands for a value that is not text. -/
def parseLastEventId : Option (Option Text) → Except ApiError (Option Nat)
  | none => .ok none
  | some raw =>
    match raw.bind fun s => Text.parseU64 (Text.trim s) with
    | some id => .ok (some id)
    | none => .error (.core (.invalidInput "Last-Event-ID must be a non-negative integer"))

/-! ## Frames -/

/-- A frame of the stream. The last two are terminal and carry no id. -/
inductive Frame where
  | event (id : Nat) (event : ObjectEvent)
  | ended (error : StreamError)
  | credentialExpired
deriving DecidableEq

def Frame.isTerminal : Frame → Bool
  | .event .. => false
  | .ended _ => true
  | .credentialExpired => true

/-- Strip the failure summary from an event. -/
def withholdSummary (event : ObjectEvent) : ObjectEvent :=
  match event.kind with
  | .indexFailed etag mime _ => { event with kind := .indexFailed etag mime none }
  | _ => event

/-- A stream that has not ended yet, and what it filters by. -/
structure Open where
  access : KbAccess
  filter : EventFilter
  summaryVisible : Bool
  log : Subscription

namespace Open

/-- Whether the caller may see an event and asked for it. -/
def shows (o : Open) (event : ObjectEvent) : Bool :=
  o.access.allows .list event.objectKey.val && o.filter.matchesEvent event

/-- The frame of an event that is shown. -/
def frameFor (o : Open) (e : Entry) : Frame :=
  .event e.1 (if o.summaryVisible then e.2 else withholdSummary e.2)

/-- One turn on the log: a frame or none, and what is left of the stream. It is `none` as long as
the log has nothing to take. -/
def turn (o : Open) (publisher : MemoryPublisher) : Option (Option Frame × Option Open) :=
  match o.log.step publisher with
  | none => none
  | some (.skip, log) => some (none, some { o with log := log })
  | some (.yield e, log) =>
    some (if o.shows e.2 then some (o.frameFor e) else none, some { o with log := log })
  | some (.lagged, log) => some (some (.ended (.lagged log.cursor)), none)

end Open

/-- The handler: authorize `list` on anything, then look for a log, then read the query and the
position. -/
def subscribeEvents (access : KbAccess) (events : Option MemoryPublisher) (query : EventsQuery)
    (lastEventId : Option (Option Text)) : Except ApiError Open := do
  access.requireAny .list
  match events with
  | none => .error (.core (.notFound
      ("object change events are not enabled on this server; set NOTEDTHAT_EVENTS_BACKEND to " ++
        "memory or nats")))
  | some publisher =>
    let filter ← EventFilter.parse query
    let after ← parseLastEventId lastEventId
    match publisher.subscribe access.kb after with
    | .error (.gone requested oldest) => .error (.eventsGone requested oldest)
    | .error (.unavailable message) => .error (.eventsUnavailable message)
    | .ok log => .ok ⟨access, filter, (access.filter .list).coversWholeKb, log⟩

end Events
