-- SUMMARY: The shared write path: commit, copy, in-place rewrite and delete, each with its publication and its index event.
import NotedThat.Core.Steps
import NotedThat.Write.Manifest

/-!
# The write path

Storing, publishing and enqueueing are separate steps, in this order. Nothing is cancelled here,
so the guard that enqueues from `Drop` never fires, and the health view, which no decision
reads, is left out.
-/

/-- Where a durable write is reported: whether there is an event log, and which surface
reports. -/
structure WriteSinks where
  events : Bool
  source : EventSource
deriving DecidableEq

/-- An infallible return of a fallible program. -/
abbrev Program.ok {ε α : Type} (a : α) : Program (Except ε α) := .ret (.ok a)

abbrev Program.error {ε α : Type} (e : ε) : Program (Except ε α) := .ret (.error e)

namespace Write

/-- Maximum upload size accepted by shared write paths. -/
def maxUploadBytes : Nat := 5 * 1024 * 1024 * 1024

def checkSize (size limit : Nat) : Except WriteError Unit :=
  if size > limit then .error (.tooLarge size limit) else .ok ()

/-- The content type of an object write: the caller's, unless it says nothing. -/
def sniffContentType (caller : Option Text) (path : ObjectPath) : Text :=
  match caller.filter (· ≠ "application/octet-stream".toList) with
  | some contentType => contentType
  | none =>
    let ext := Text.toAsciiLowercase ((path.val.splitOn '.').getLast?.getD [])
    if ext = "md".toList ∨ ext = "markdown".toList then "text/markdown".toList
    else "application/octet-stream".toList

/-! ## Reporting a change -/

def publish (event : ObjectEvent) (after : WriteEffect) : Program (Except WriteError Unit) := do
  match ← Prog.call (Op.publish event) with
  | .ok () => .ok ()
  | .error _ => .error (.eventPublishFailed after)

/-- Publish, when there is an event log. -/
def announce (sinks : WriteSinks) (event : ObjectEvent) (after : WriteEffect) :
    Program (Except WriteError Unit) :=
  if sinks.events then publish event after else .ok ()

/-- Offer an event to the index queue without waiting. The write keeps the publication's answer
unless the queue is full; a worker that has ended is only logged. -/
def offerToIndex (indexEvent : IndexEvent) (backpressure : WriteError)
    (published : Except WriteError Unit) : Program (Except WriteError Unit) := do
  match ← Prog.call (Op.trySend indexEvent) with
  | .queued => .ret published
  | .full => .error backpressure
  | .closed => .ret published

/-- Publish, then enqueue whether or not the publication succeeded. -/
def report (sinks : WriteSinks) (event : ObjectEvent) (after : WriteEffect)
    (indexEvent : IndexEvent) (backpressure : WriteError) : Program (Except WriteError Unit) := do
  let published ← announce sinks event after
  offerToIndex indexEvent backpressure published

/-- Report a durable write. -/
def afterWrite (sinks : WriteSinks) (kb : KbSlug) (path : ObjectPath) (outcome : PutOutcome)
    (size : Nat) (mime : Text) : Program (Except WriteError Unit) :=
  report sinks ⟨kb, path, .written (outcome.etag.getD []) size mime, sinks.source⟩ .stored
    (.upsert kb path) .indexerBackpressureUpsert

/-- Report a delete. -/
def afterDelete (sinks : WriteSinks) (kb : KbSlug) (path : ObjectPath) :
    Program (Except WriteError Unit) :=
  report sinks ⟨kb, path, .deleted, sinks.source⟩ .deleted (.tombstone kb path)
    .indexerBackpressureTombstone

/-! ## Whole writes -/

/-- Store an object, publish the change and enqueue it for indexing. -/
def commit (json : ManifestJson) (sinks : WriteSinks) (kb : KbSlug) (path : ObjectPath)
    (body : StagedBody) (callerContentType : Option Text) (conditionals : ConditionalHeaders) :
    Program (Except WriteError PutOutcome) :=
  match checkSize body.len maxUploadBytes with
  | .error e => .error e
  | .ok () =>
    match Manifest.checkStagedManifest json kb path body with
    | .error e => .error e
    | .ok () => do
      let mime := sniffContentType callerContentType path
      match ← Program.storage (.put kb path body.bytes (some mime) conditionals) with
      | .error e => .error (.storage e)
      | .ok outcome =>
        match ← afterWrite sinks kb path outcome body.len mime with
        | .error e => .error e
        | .ok () => .ok outcome

/-- The check a copy onto the manifest makes: it never has the bytes in hand, so the source is
read, bounded by its HEAD first. -/
def checkCopiedManifest (json : ManifestJson) (kb : KbSlug) (source destination : ObjectPath) :
    Program (Except WriteError Unit) := do
  if !Manifest.isManifest destination then .ok ()
  else
    match ← Program.storage (.head kb source {}) with
    | .error e => .error (.storage e)
    | .ok objectMeta =>
      match Manifest.checkSize objectMeta.size with
      | .error e => .error e
      | .ok () =>
        match ← Program.storage (.get kb source none {}) with
        | .error e => .error (.storage e)
        | .ok read => .ret (Manifest.checkManifestBytes json kb destination read.bytes)

/-- The size and type the event of a copy reports; a HEAD that fails only degrades them. -/
def copyStamp (sinks : WriteSinks) (kb : KbSlug) (destination : ObjectPath)
    (contentType : Option Text) : Program (Nat × Option Text) := do
  if !sinks.events then return (0, contentType)
  match ← Program.storage (.head kb destination {}) with
  | .ok objectMeta => return (objectMeta.size, objectMeta.contentType.or contentType)
  | .error _ => return (0, contentType)

/-- Copy an object natively, publish the change and enqueue its destination. -/
def commitCopy (json : ManifestJson) (sinks : WriteSinks) (kb : KbSlug)
    (source destination : ObjectPath) (options : CopyObjectOptions) :
    Program (Except WriteError PutOutcome) := do
  match ← checkCopiedManifest json kb source destination with
  | .error e => .error e
  | .ok () =>
    match ← Program.storage (.copy kb source destination options) with
    | .error e => .error (.storage e)
    | .ok outcome =>
      let (size, mime) ← copyStamp sinks kb destination options.contentType
      match ← afterWrite sinks kb destination outcome size (mime.getD []) with
      | .error e => .error e
      | .ok () => .ok outcome

/-- Delete an object idempotently, publish the change and enqueue a tombstone. -/
def commitDelete (sinks : WriteSinks) (kb : KbSlug) (path : ObjectPath)
    (conditionals : ConditionalHeaders) : Program (Except WriteError Unit) := do
  match ← Program.storage (.delete kb path conditionals) with
  -- a missing key still publishes and enqueues: that is the retry path
  | .ok _ => afterDelete sinks kb path
  | .error (.notFound _) => afterDelete sinks kb path
  | .error e => .error (.storage e)

/-! ## Rewriting in place -/

/-- The object a rewrite reads, splices and writes back. -/
structure CasRewrite where
  kb : KbSlug
  path : ObjectPath
  callerIfMatch : Option Text
  maxSize : Nat
  callerContentType : Option Text

/-- HEAD the object, check the caller's `If-Match` and then the size limit, and return the
entity tag that anchors the rewrite. -/
def headAnchor (target : CasRewrite) : Program (Except WriteError Text) := do
  match ← Program.storage (.head target.kb target.path {}) with
  | .error e => .error (.storage e)
  | .ok objectMeta =>
    if target.callerIfMatch.any fun callerEtag => objectMeta.etag ≠ some callerEtag then
      .error (.storage .preconditionFailed)
    else if objectMeta.size > target.maxSize then
      .error (.patchTooLarge objectMeta.size target.maxSize)
    else
      match objectMeta.etag with
      | some etag => .ok etag
      | none => .error (.patchInvalidRange "backend did not return ETag on HEAD")

/-- One attempt of a rewrite and the `retries` it may still make. HEAD, GET and PUT are all
conditional on the HEAD's entity tag, and only a lost race is retried. -/
def casAttempt {T : Type} (json : ManifestJson) (sinks : WriteSinks) (target : CasRewrite)
    (splice : Bytes → Except WriteError (Bytes × T)) (retries : Nat) :
    Program (Except WriteError (PutOutcome × T)) := do
  match ← headAnchor target with
  | .error e => .error e
  | .ok headEtag =>
    match ← Program.storage (.get target.kb target.path none (.ofIfMatch headEtag)) with
    | .error e =>
      match retries with
      | retries + 1 =>
        if e = .preconditionFailed then casAttempt json sinks target splice retries
        else .error (.storage e)
      | 0 => .error (.storage e)
    | .ok read =>
      match splice read.bytes with
      | .error e => .error e
      | .ok (newBytes, extra) =>
        match Manifest.checkManifestBytes json target.kb target.path newBytes with
        | .error e => .error e
        | .ok () =>
          let contentType := (target.callerContentType.or read.objectMeta.contentType).getD
            "application/octet-stream".toList
          match ← Program.storage (.put target.kb target.path newBytes (some contentType)
              (.ofIfMatch headEtag)) with
          | .error e =>
            match retries with
            | retries + 1 =>
              if e = .preconditionFailed then casAttempt json sinks target splice retries
              else .error (.storage e)
            | 0 => .error (.storage e)
          | .ok outcome =>
            match ← afterWrite sinks target.kb target.path outcome newBytes.length contentType with
            | .error e => .error e
            | .ok () => .ok (outcome, extra)

/-- What an attempt goes on with when storage refuses its read or its write. -/
def casLost {T : Type} (json : ManifestJson) (sinks : WriteSinks) (target : CasRewrite)
    (splice : Bytes → Except WriteError (Bytes × T)) (retries : Nat) (e : StorageError) :
    Program (Except WriteError (PutOutcome × T)) :=
  match retries with
  | retries + 1 =>
    if e = .preconditionFailed then casAttempt json sinks target splice retries
    else .error (.storage e)
  | 0 => .error (.storage e)

/-- It gives up, or it is a next attempt. -/
theorem casLost_cases {T : Type} {json : ManifestJson} {sinks : WriteSinks} {target : CasRewrite}
    {splice : Bytes → Except WriteError (Bytes × T)} {retries : Nat} {e : StorageError}
    {P : Program (Except WriteError (PutOutcome × T)) → Prop}
    (hstop : P (.ret (.error (.storage e))))
    (hretry : ∀ n, retries = n + 1 → P (casAttempt json sinks target splice n)) :
    P (casLost json sinks target splice retries e) := by
  unfold casLost
  split
  · split
    · exact hretry _ rfl
    · exact hstop
  · exact hstop

/-- What holds of giving up, and of an attempt whenever it holds of what the attempt goes on with,
holds of the whole loop. -/
theorem casAttempt_rule {T : Type} {json : ManifestJson} {sinks : WriteSinks} {target : CasRewrite}
    {splice : Bytes → Except WriteError (Bytes × T)}
    {P : Program (Except WriteError (PutOutcome × T)) → Prop}
    (hstop : ∀ e, P (.ret (.error (.storage e))))
    (hattempt : ∀ retries, (∀ e, P (casLost json sinks target splice retries e)) →
      P (casAttempt json sinks target splice retries)) (retries : Nat) :
    P (casAttempt json sinks target splice retries) := by
  induction retries with
  | zero =>
    refine hattempt 0 fun e => casLost_cases (hstop e) fun n hn => ?_
    cases hn
  | succ retries ih =>
    refine hattempt (retries + 1) fun e => casLost_cases (hstop e) fun n hn => ?_
    cases hn
    exact ih

/-- Rewrite an object in place. With a caller's `If-Match` a lost race is final. -/
def casRewrite {T : Type} (json : ManifestJson) (sinks : WriteSinks) (target : CasRewrite)
    (splice : Bytes → Except WriteError (Bytes × T)) :
    Program (Except WriteError (PutOutcome × T)) :=
  casAttempt json sinks target splice (if target.callerIfMatch.isSome then 0 else 2)

end Write
