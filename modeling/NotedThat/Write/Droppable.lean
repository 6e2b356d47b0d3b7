-- SUMMARY: Write requests as futures that may be dropped, with the guard that enqueues from its drop and the health view.
import NotedThat.Indexer.Health
import NotedThat.Lib.Futures
import NotedThat.Write.Patch

/-!
# Write requests that may be dropped

A client that disconnects, or a timeout, drops a request where it awaits. Once storage has changed
an object its index event must still be offered, so the report of a change arms a guard before it
publishes, and the guard offers the event when the future goes. What a request does apart from that
is what the programs of `Write.Commit` do.
-/

namespace Write.Droppable

/-! ## Offering an event -/

/-- What a request does without awaiting. -/
inductive Sync where
  | trySend (event : IndexEvent)
  | stamp (stamp : HealthStamp)

abbrev Sync.Res : Sync → Type
  | .trySend _ => Offered
  | .stamp _ => Unit

/-- A request; its guard holds the event it offers. -/
abbrev Task (α : Type) := Future Op Sync IndexEvent Op.Res Sync.Res α

abbrev Task.ok {ε α : Type} (a : α) : Task (Except ε α) := .ret (.ok a)

abbrev Task.error {ε α : Type} (e : ε) : Task (Except ε α) := .ret (.error e)

/-- What the health view is told of an offer. -/
def healthStamp (kb : KbSlug) : Offered → HealthStamp
  | .queued => .enqueued kb
  | .full => .backpressured kb
  | .closed => .workerStopped

/-- Offer an event to the index queue without waiting, and tell the health view, where there is one,
what became of it. -/
def offerToIndex (health : Bool) (event : IndexEvent) : Prog Sync Sync.Res Offered := do
  let offered ← Prog.call (Sync.trySend event)
  if health then Prog.call (Sync.stamp (healthStamp event.key.1 offered))
  return offered

/-- The drop of the guard: only a log line tells of an event that could not be queued. -/
def enqueueOnDrop (health : Bool) (event : IndexEvent) : Prog Sync Sync.Res Unit :=
  (offerToIndex health event).discard

/-- What the guard of a request holds while the request awaits an operation: the index event of the
change that is being published, and else there is no guard. -/
def guard : Op → Option IndexEvent
  | .publish ⟨kb, path, .written .., _⟩ => some (.upsert kb path)
  | .publish ⟨kb, path, .deleted, _⟩ => some (.tombstone kb path)
  | _ => none

/-! ## Reporting a change -/

/-- Publish, then enqueue whether or not the publication succeeded. -/
def report (sinks : WriteSinks) (health : Bool) (event : ObjectEvent) (after : WriteEffect)
    (indexEvent : IndexEvent) (backpressure : WriteError) : Task (Except WriteError Unit) := do
  Prog.call (Act.arm indexEvent)
  let published ← Future.lift (announce sinks event after)
  Prog.call Act.disarm
  match ← Future.atOnce (offerToIndex health indexEvent) with
  | .queued => .ret published
  | .full => .error backpressure
  | .closed => .ret published

def afterWrite (sinks : WriteSinks) (health : Bool) (kb : KbSlug) (path : ObjectPath)
    (outcome : PutOutcome) (size : Nat) (mime : Text) : Task (Except WriteError Unit) :=
  report sinks health ⟨kb, path, .written (outcome.etag.getD []) size mime, sinks.source⟩ .stored
    (.upsert kb path) .indexerBackpressureUpsert

def afterDelete (sinks : WriteSinks) (health : Bool) (kb : KbSlug) (path : ObjectPath) :
    Task (Except WriteError Unit) :=
  report sinks health ⟨kb, path, .deleted, sinks.source⟩ .deleted (.tombstone kb path)
    .indexerBackpressureTombstone

/-! ## Requests -/

section Requests

variable (json : ManifestJson) (sinks : WriteSinks) (health : Bool)

def commit (kb : KbSlug) (path : ObjectPath) (body : StagedBody) (callerContentType : Option Text)
    (conditionals : ConditionalHeaders) : Task (Except WriteError PutOutcome) :=
  match checkSize body.len maxUploadBytes with
  | .error e => .error e
  | .ok () =>
    match Manifest.checkStagedManifest json kb path body with
    | .error e => .error e
    | .ok () => do
      let mime := sniffContentType callerContentType path
      match ← Future.lift (Program.storage (.put kb path body.bytes (some mime) conditionals)) with
      | .error e => .error (.storage e)
      | .ok outcome =>
        match ← afterWrite sinks health kb path outcome body.len mime with
        | .error e => .error e
        | .ok () => .ok outcome

/-- The HEAD for the event's stamp comes after the copy and before the guard. -/
def commitCopy (kb : KbSlug) (source destination : ObjectPath) (options : CopyObjectOptions) :
    Task (Except WriteError PutOutcome) := do
  match ← Future.lift (checkCopiedManifest json kb source destination) with
  | .error e => .error e
  | .ok () =>
    match ← Future.lift (Program.storage (.copy kb source destination options)) with
    | .error e => .error (.storage e)
    | .ok outcome =>
      let (size, mime) ← Future.lift (copyStamp sinks kb destination options.contentType)
      match ← afterWrite sinks health kb destination outcome size (mime.getD []) with
      | .error e => .error e
      | .ok () => .ok outcome

def commitDelete (kb : KbSlug) (path : ObjectPath) (conditionals : ConditionalHeaders) :
    Task (Except WriteError Unit) := do
  match ← Future.lift (Program.storage (.delete kb path conditionals)) with
  | .ok _ => afterDelete sinks health kb path
  | .error (.notFound _) => afterDelete sinks health kb path
  | .error e => .error (.storage e)

def casAttempt {T : Type} (target : CasRewrite) (splice : Bytes → Except WriteError (Bytes × T))
    (retries : Nat) : Task (Except WriteError (PutOutcome × T)) := do
  match ← Future.lift (headAnchor target) with
  | .error e => .error e
  | .ok headEtag =>
    match ← Future.lift
        (Program.storage (.get target.kb target.path none (.ofIfMatch headEtag))) with
    | .error e =>
      match retries with
      | retries + 1 =>
        if e = .preconditionFailed then casAttempt target splice retries else .error (.storage e)
      | 0 => .error (.storage e)
    | .ok read =>
      match splice read.bytes with
      | .error e => .error e
      | .ok (newBytes, extra) =>
        match Manifest.checkManifestBytes json target.kb target.path newBytes with
        | .error e => .error e
        | .ok () =>
          let contentType := (target.callerContentType.or read.objectMeta.contentType).getD
            "application/octet-stream".toList
          match ← Future.lift (Program.storage (.put target.kb target.path newBytes
              (some contentType) (.ofIfMatch headEtag))) with
          | .error e =>
            match retries with
            | retries + 1 =>
              if e = .preconditionFailed then casAttempt target splice retries
              else .error (.storage e)
            | 0 => .error (.storage e)
          | .ok outcome =>
            match ← afterWrite sinks health target.kb target.path outcome newBytes.length
                contentType with
            | .error e => .error e
            | .ok () => .ok (outcome, extra)

/-- What an attempt goes on with when storage refuses its read or its write. -/
def casLost {T : Type} (target : CasRewrite) (splice : Bytes → Except WriteError (Bytes × T))
    (retries : Nat) (e : StorageError) : Task (Except WriteError (PutOutcome × T)) :=
  match retries with
  | retries + 1 =>
    if e = .preconditionFailed then casAttempt json sinks health target splice retries
    else .error (.storage e)
  | 0 => .error (.storage e)

def casRewrite {T : Type} (target : CasRewrite) (splice : Bytes → Except WriteError (Bytes × T)) :
    Task (Except WriteError (PutOutcome × T)) :=
  casAttempt json sinks health target splice (if target.callerIfMatch.isSome then 0 else 2)

def patch (request : PatchRequest) : Task (Except WriteError PutOutcome) :=
  match validateCallerIfMatch request.patchMode request.callerConditionals with
  | .error e => .error e
  | .ok () => do
    let target : CasRewrite := ⟨request.kb, request.path, request.callerConditionals.ifMatch,
      request.maxPatchableSize, request.callerContentType⟩
    match ← casRewrite json sinks health target fun src =>
        (applyPatch request.patchMode src request.maxPatchableSize).map fun bytes => (bytes, ()) with
    | .error e => .error e
    | .ok (outcome, ()) => .ok outcome

def replace (request : ReplaceRequest) : Task (Except WriteError ReplaceOutcome) :=
  if request.oldString = [] then
    .error (.patchInvalidRange "old_string must be non-empty (would match every byte position)")
  else
    match requireStrongIfMatch request.callerConditionals with
    | .error e => .error e
    | .ok () => do
      let target : CasRewrite := ⟨request.kb, request.path, request.callerConditionals.ifMatch,
        request.maxPatchableSize, request.callerContentType⟩
      match ← casRewrite json sinks health target fun src =>
          replaceIn src (Utf8.encode request.oldString) (Utf8.encode request.newString)
            request.replaceAll request.maxPatchableSize with
      | .error e => .error e
      | .ok (putOutcome, matchCount) => .ok ⟨putOutcome, matchCount⟩

end Requests

/-- The write requests. -/
inductive WriteRequest where
  | commit (kb : KbSlug) (path : ObjectPath) (body : StagedBody) (callerContentType : Option Text)
      (conditionals : ConditionalHeaders)
  | commitCopy (kb : KbSlug) (source destination : ObjectPath) (options : CopyObjectOptions)
  | patch (request : PatchRequest)
  | replace (request : ReplaceRequest)
  | commitDelete (kb : KbSlug) (path : ObjectPath) (conditionals : ConditionalHeaders)

namespace WriteRequest

/-- What a request returns when it succeeds. -/
abbrev Out : WriteRequest → Type
  | .commit .. => PutOutcome
  | .commitCopy .. => PutOutcome
  | .patch _ => PutOutcome
  | .replace _ => ReplaceOutcome
  | .commitDelete .. => Unit

def future (json : ManifestJson) (sinks : WriteSinks) (health : Bool) :
    (w : WriteRequest) → Task (Except WriteError w.Out)
  | .commit kb path body callerContentType conditionals =>
    Droppable.commit json sinks health kb path body callerContentType conditionals
  | .commitCopy kb source destination options =>
    Droppable.commitCopy json sinks health kb source destination options
  | .patch request => Droppable.patch json sinks health request
  | .replace request => Droppable.replace json sinks health request
  | .commitDelete kb path conditionals => Droppable.commitDelete sinks health kb path conditionals

/-- The request when nobody drops it and nobody watches its health stamps. -/
def program (json : ManifestJson) (sinks : WriteSinks) :
    (w : WriteRequest) → Program (Except WriteError w.Out)
  | .commit kb path body callerContentType conditionals =>
    Write.commit json sinks kb path body callerContentType conditionals
  | .commitCopy kb source destination options =>
    Write.commitCopy json sinks kb source destination options
  | .patch request => Write.patch json sinks request
  | .replace request => Write.replace json sinks request
  | .commitDelete kb path conditionals => Write.commitDelete sinks kb path conditionals

end WriteRequest

/-! ## Without dropping -/

/-- The offer is an operation on the world; the health view is not part of it. -/
def onWorld : (a : Sync) → Program a.Res
  | .trySend event => Prog.call (Op.trySend event)
  | .stamp _ => .ret ()

theorem erase_offerToIndex (health : Bool) (event : IndexEvent) :
    (Future.atOnce (offerToIndex health event) : Task Offered).erase onWorld =
      Prog.call (Op.trySend event) := by
  cases health with
  | false => rfl
  | true => rfl

theorem erase_report (sinks : WriteSinks) (health : Bool) (event : ObjectEvent)
    (after : WriteEffect) (indexEvent : IndexEvent) (backpressure : WriteError) :
    (report sinks health event after indexEvent backpressure).erase onWorld =
      Write.report sinks event after indexEvent backpressure := by
  simp only [report, Prog.bind_eq, Prog.call_bind, Future.erase, Future.erase_bind,
    Future.erase_lift, erase_offerToIndex]
  refine congrArg (Prog.bind _) (funext fun published => congrArg (Prog.op _) (funext fun offered => ?_))
  cases offered with
  | queued => rfl
  | full => rfl
  | closed => rfl

section Erase

variable {json : ManifestJson} {sinks : WriteSinks} {health : Bool}

theorem erase_afterWrite {kb : KbSlug} {path : ObjectPath} {outcome : PutOutcome} {size : Nat}
    {mime : Text} : (afterWrite sinks health kb path outcome size mime).erase onWorld =
      Write.afterWrite sinks kb path outcome size mime := erase_report ..

theorem erase_afterDelete {kb : KbSlug} {path : ObjectPath} :
    (afterDelete sinks health kb path).erase onWorld = Write.afterDelete sinks kb path :=
  erase_report ..

/-- A report, and what its caller makes of the answer. -/
theorem erase_reported {α : Type} {kb : KbSlug} {path : ObjectPath} {outcome : PutOutcome}
    {size : Nat} {mime : Text} {f : Except WriteError Unit → Task α}
    {g : Except WriteError Unit → Program α} (herror : ∀ e, (f (.error e)).erase onWorld = g (.error e))
    (hok : (f (.ok ())).erase onWorld = g (.ok ())) :
    Future.erase onWorld ((afterWrite sinks health kb path outcome size mime).bind f) =
      (Write.afterWrite sinks kb path outcome size mime).bind g := by
  rw [Future.erase_bind, erase_afterWrite]
  refine congrArg (Prog.bind _) (funext fun reported => ?_)
  cases reported with
  | error e => exact herror e
  | ok _ => exact hok

theorem erase_casLost {T : Type} {target : CasRewrite}
    {splice : Bytes → Except WriteError (Bytes × T)} {retries : Nat}
    (h : ∀ n, retries = n + 1 → (casAttempt json sinks health target splice n).erase onWorld =
      Write.casAttempt json sinks target splice n) (e : StorageError) :
    (casLost json sinks health target splice retries e).erase onWorld =
      Write.casLost json sinks target splice retries e := by
  cases retries with
  | zero => rfl
  | succ retries =>
    simp only [casLost, Write.casLost]
    split
    · exact h retries rfl
    · rfl

/-- An attempt without dropping, if what it goes on with is. -/
theorem erase_casAttempt_step {T : Type} {target : CasRewrite}
    {splice : Bytes → Except WriteError (Bytes × T)} {retries : Nat}
    (h : ∀ e, (casLost json sinks health target splice retries e).erase onWorld =
      Write.casLost json sinks target splice retries e) :
    (casAttempt json sinks health target splice retries).erase onWorld =
      Write.casAttempt json sinks target splice retries := by
  rw [casAttempt, Write.casAttempt]
  simp only [Prog.bind_eq, Future.erase_bind, Future.erase_lift]
  refine congrArg (Prog.bind _) (funext fun anchor => ?_)
  cases anchor with
  | error e => rfl
  | ok headEtag =>
    dsimp only
    rw [Future.erase_bind, Future.erase_lift]
    refine congrArg (Prog.bind _) (funext fun got => ?_)
    cases got with
    | error e => exact h e
    | ok read =>
      cases hsplice : splice read.bytes with
      | error e =>
        simp only [hsplice]
        rfl
      | ok spliced =>
        cases hmanifest : Manifest.checkManifestBytes json target.kb target.path spliced.1 with
        | error e =>
          simp only [hsplice, hmanifest]
          rfl
        | ok _ =>
          simp only [hsplice, hmanifest, Future.erase_bind, Future.erase_lift]
          refine congrArg (Prog.bind _) (funext fun put => ?_)
          cases put with
          | error e => exact h e
          | ok outcome => exact erase_reported (fun _ => rfl) rfl

theorem erase_casAttempt {T : Type} {target : CasRewrite}
    {splice : Bytes → Except WriteError (Bytes × T)} (retries : Nat) :
    (casAttempt json sinks health target splice retries).erase onWorld =
      Write.casAttempt json sinks target splice retries := by
  induction retries with
  | zero => exact erase_casAttempt_step (erase_casLost nofun)
  | succ retries ih =>
    refine erase_casAttempt_step (erase_casLost fun n hn => ?_)
    cases hn
    exact ih

theorem erase_commit {kb : KbSlug} {path : ObjectPath} {body : StagedBody}
    {callerContentType : Option Text} {conditionals : ConditionalHeaders} :
    (commit json sinks health kb path body callerContentType conditionals).erase onWorld =
      Write.commit json sinks kb path body callerContentType conditionals := by
  unfold commit Write.commit
  cases checkSize body.len maxUploadBytes with
  | error e => rfl
  | ok _ =>
    cases Manifest.checkStagedManifest json kb path body with
    | error e => rfl
    | ok _ =>
      simp only [Prog.bind_eq, Future.erase_bind, Future.erase_lift]
      refine congrArg (Prog.bind _) (funext fun put => ?_)
      cases put with
      | error e => rfl
      | ok outcome => exact erase_reported (fun _ => rfl) rfl

theorem erase_commitCopy {kb : KbSlug} {source destination : ObjectPath}
    {options : CopyObjectOptions} :
    (commitCopy json sinks health kb source destination options).erase onWorld =
      Write.commitCopy json sinks kb source destination options := by
  simp only [commitCopy, Write.commitCopy, Prog.bind_eq, Future.erase_bind, Future.erase_lift]
  refine congrArg (Prog.bind _) (funext fun checked => ?_)
  cases checked with
  | error e => rfl
  | ok _ =>
    dsimp only
    rw [Future.erase_bind, Future.erase_lift]
    refine congrArg (Prog.bind _) (funext fun copied => ?_)
    cases copied with
    | error e => rfl
    | ok outcome =>
      dsimp only
      rw [Future.erase_bind, Future.erase_lift]
      exact congrArg (Prog.bind _) (funext fun stamp => erase_reported (fun _ => rfl) rfl)

theorem erase_commitDelete {kb : KbSlug} {path : ObjectPath} {conditionals : ConditionalHeaders} :
    (commitDelete sinks health kb path conditionals).erase onWorld =
      Write.commitDelete sinks kb path conditionals := by
  simp only [commitDelete, Write.commitDelete, Prog.bind_eq, Future.erase_bind, Future.erase_lift]
  refine congrArg (Prog.bind _) (funext fun deleted => ?_)
  cases deleted with
  | ok _ => exact erase_afterDelete
  | error e =>
    cases e with
    | notFound key => exact erase_afterDelete
    | _ => rfl

end Erase

/-- A request that nobody drops is the program of `Write.Commit`. -/
theorem erase_future (json : ManifestJson) (sinks : WriteSinks) (health : Bool) (w : WriteRequest) :
    (w.future json sinks health).erase onWorld = w.program json sinks := by
  cases w with
  | commit kb path body callerContentType conditionals => exact erase_commit
  | commitCopy kb source destination options => exact erase_commitCopy
  | patch request =>
    simp only [WriteRequest.future, WriteRequest.program, patch, Write.patch]
    cases validateCallerIfMatch request.patchMode request.callerConditionals with
    | error e => rfl
    | ok _ =>
      simp only [Prog.bind_eq, Future.erase_bind, casRewrite, Write.casRewrite, erase_casAttempt]
      refine congrArg (Prog.bind _) (funext fun rewritten => ?_)
      cases rewritten with
      | error e => rfl
      | ok _ => rfl
  | replace request =>
    simp only [WriteRequest.future, WriteRequest.program, replace, Write.replace]
    split
    · rfl
    · cases requireStrongIfMatch request.callerConditionals with
      | error e => rfl
      | ok _ =>
        simp only [Prog.bind_eq, Future.erase_bind, casRewrite, Write.casRewrite, erase_casAttempt]
        refine congrArg (Prog.bind _) (funext fun rewritten => ?_)
        cases rewritten with
        | error e => rfl
        | ok _ => rfl
  | commitDelete kb path conditionals => exact erase_commitDelete

end Write.Droppable
