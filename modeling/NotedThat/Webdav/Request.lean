-- SUMMARY: WebDAV requests and responses, the surface's state, and the status table of its write path.
import NotedThat.Core.Access
import NotedThat.Core.Headers
import NotedThat.Core.Staging
import NotedThat.Webdav.IfHeader
import NotedThat.Webdav.Path
import NotedThat.Write.Commit

/-!
# Requests and responses

What the middleware and the handlers read of a request. `http::Uri` and `serde_json` are fields
of the state. A request identifier is a random header of the answer and is left out.
-/

/-! ## Headers -/

/-- The request's `If` header, if any; `none` when it is malformed. -/
def IfHeader.fromHeaders (headers : HeaderMap) : Option (Option IfHeader) :=
  match headers.single "if" with
  | none => none
  | some none => some none
  | some (some value) => (IfHeader.parse value).map some

/-! ## Requests and responses -/

/-- The parts of a parsed `http::Uri` that are read. -/
structure Uri where
  authority : Option Text
  path : Text
deriving DecidableEq

/-- A request body as it arrives. `spool` and `readBack` say whether the private file of a large
body fails to be written or read back. -/
structure BodyStream where
  chunks : List (Except String Bytes)
  spool : Option String := none
  readBack : Option String := none

structure Request where
  method : String
  path : Text
  headers : HeaderMap
  body : BodyStream

structure Response where
  status : Nat
  headers : List (String × Text) := []
  body : Text := []
deriving DecidableEq

namespace Webdav

structure WebDavState where
  declaredKbs : DeclaredKbs
  accessPolicies : List (Text × AccessPolicy)
  events : Bool
  json : ManifestJson
  parseUri : Text → Option Uri

namespace WebDavState

/-- Where a write made through this surface is reported. -/
def sinks (state : WebDavState) : WriteSinks := ⟨state.events, .webdav⟩

/-- The policy of a knowledge base; a missing one grants nothing. -/
def policyFor (state : WebDavState) (kb : KbSlug) : AccessPolicy :=
  match state.accessPolicies.find? (·.1 = kb.val) with
  | some (_, policy) => policy
  | none => AccessPolicy.empty

/-- The evaluator's answer for a key. -/
def May (state : WebDavState) (principal : Principal) (verb : Verb) (k : Key) : Prop :=
  (state.policyFor k.1).allows principal verb k.2.val = true

end WebDavState

/-! ## Receiving a body -/

inductive StageError where
  | tooLarge (size limit : Nat)
  | lengthMismatch (expected actual : Nat)
  | read (source : String)
  | write (source : String)

namespace StagedBody

/-- Largest body retained in memory before staging spills to disk. -/
def memoryThreshold : Nat := 16 * 1024 * 1024

/-- Append the chunks of a stream to what was received. -/
def stageChunks (limit : Nat) (spool : Option String) :
    Bytes → List (Except String Bytes) → Except StageError Bytes
  | received, [] => .ok received
  | _, .error e :: _ => .error (.read e)
  | received, .ok chunk :: rest =>
    let received := received ++ chunk
    if received.length > limit then .error (.tooLarge received.length limit)
    else
      match spool.filter fun _ => received.length > memoryThreshold with
      | some e => .error (.write e)
      | none => stageChunks limit spool received rest

/-- Receive a body, verifying its declared and maximum lengths. -/
def stageStream (body : BodyStream) (expectedLen : Option Nat) (limit : Nat) :
    Except StageError StagedBody :=
  match expectedLen.filter (· > limit) with
  | some size => .error (.tooLarge size limit)
  | none =>
    match stageChunks limit body.spool [] body.chunks with
    | .error e => .error e
    | .ok bytes =>
      match expectedLen.filter (· ≠ bytes.length) with
      | some expected => .error (.lengthMismatch expected bytes.length)
      | none => .ok ⟨bytes, body.readBack.filter fun _ => bytes.length > memoryThreshold⟩

end StagedBody

def StageError.toStaging : StageError → Staging.StageError
  | .tooLarge size limit => .tooLarge size limit
  | .lengthMismatch expected actual => .lengthMismatch expected actual
  | .read source => .read source
  | .write source => .write source

namespace StagedBody

section Staging

variable {limit : UInt64}

theorem stageChunks_receive {received : Bytes} {chunks : List (Except String Bytes)}
    (hreceived : received.length ≤ limit.toNat)
    (hchunks : ∀ chunk, .ok chunk ∈ chunks → limit.toNat + chunk.length < 2 ^ 64) :
    (stageChunks limit.toNat none received chunks).mapError StageError.toStaging =
      Staging.receive limit received chunks := by
  induction chunks generalizing received with
  | nil => rfl
  | cons item chunks ih =>
    cases item with
    | error e => rfl
    | ok chunk =>
      have hchunk := hchunks chunk List.mem_cons_self
      rw [stageChunks, Staging.receive, U64.add_eq (by omega)]
      dsimp only
      rw [List.length_append]
      by_cases hlarge : received.length + chunk.length > limit.toNat
      · rw [if_pos hlarge, if_pos hlarge]
        rfl
      · rw [if_neg hlarge, if_neg hlarge]
        exact ih (by rw [List.length_append]; omega) fun chunk h => hchunks chunk (List.mem_cons_of_mem _ h)

/-- Where the private file does not fail, receiving a body comes to what staging it does. No chunk is as long
as what the 64 bits of a length leave above the limit. -/
theorem stageStream_outcome {body : BodyStream} (hspool : body.spool = none) (expectedLen : Option UInt64)
    (hchunks : ∀ chunk, .ok chunk ∈ body.chunks → limit.toNat + chunk.length < 2 ^ 64) :
    ((stageStream body (expectedLen.map UInt64.toNat) limit.toNat).map (·.bytes)).mapError StageError.toStaging =
      Staging.outcome body.chunks expectedLen limit := by
  have hreceive := @stageChunks_receive limit [] body.chunks (Nat.zero_le _) hchunks
  unfold stageStream Staging.outcome
  rw [hspool]
  have hsize : (expectedLen.map UInt64.toNat).filter (· > limit.toNat) =
      (expectedLen.filter (· > limit)).map UInt64.toNat := by
    cases expectedLen with
    | none => rfl
    | some declared => simp [Option.filter, UInt64.lt_iff_toNat_lt, apply_ite]
  rw [hsize]
  cases expectedLen.filter (· > limit) with
  | some size => rfl
  | none =>
    dsimp only [Option.map_none]
    cases hstaged : stageChunks limit.toNat none [] body.chunks with
    | error e =>
      rw [hstaged] at hreceive
      rw [← hreceive]
      rfl
    | ok bytes =>
      rw [hstaged] at hreceive
      rw [← hreceive]
      have hexpected : (expectedLen.map UInt64.toNat).filter (· ≠ bytes.length) =
          (expectedLen.filter (·.toNat ≠ bytes.length)).map UInt64.toNat := by
        cases expectedLen with
        | none => rfl
        | some declared => simp [Option.filter, apply_ite]
      simp only [Except.mapError]
      rw [hexpected]
      cases expectedLen.filter (·.toNat ≠ bytes.length) with
      | some declared => rfl
      | none => rfl

end Staging

end StagedBody

/-! ## Errors -/

def davErrorBody (condition : String) : Text :=
  ("<?xml version=\"1.0\" encoding=\"utf-8\"?><D:error xmlns:D=\"DAV:\" " ++
    "xmlns:nt=\"urn:notedthat:error\"><nt:" ++ condition ++ "/></D:error>").toList

/-- What to tell the client when storage did the work but a queue behind it did not. -/
structure Retry where
  queueFull : String
  publishFailed : String

def retryLater (message : String) : Response where
  status := 503
  headers := [("retry-after", "5".toList), ("content-type", "application/json".toList)]
  body := ("\x7b\"error\":\"backend_unavailable\",\"message\":\"" ++ message ++ "\"\x7d").toList

/-- The status of a storage failure. -/
def storageStatus : StorageError → Nat
  | .notFound _ => 404
  | .bucketNotFound _ => 404
  | .backendUnavailable _ => 503
  | .preconditionFailed => 412
  | .notModified _ => 500
  | .rangeNotSatisfiable _ => 500
  | .other _ => 500

/-- The response for a failed write. -/
def writeErrorResponse (error : WriteError) (retry : Retry) : Response :=
  match error with
  | .tooLarge .. => { status := 413 }
  | .patchTooLarge .. => { status := 413 }
  | .storage e => { status := storageStatus e }
  | .indexerBackpressureUpsert => retryLater retry.queueFull
  | .indexerBackpressureTombstone => retryLater retry.queueFull
  | .eventPublishFailed _ => retryLater retry.publishFailed
  | .invalidManifest message => { status := 400, body := message.toList }
  | .patchInvalidRange message => { status := 400, body := message.toList }
  | .preconditionRequired _ => { status := 428 }
  | .patchLineOutOfRange .. => { status := 416 }
  | .replaceNoMatch => { status := 422 }
  | .replaceAmbiguous _ => { status := 422 }

/-! ## Targets -/

inductive TargetError where
  | collection
  | forbidden

def TargetError.intoResponse : TargetError → Response
  | .collection => { status := 403, body := davErrorBody "no-collection-move" }
  | .forbidden => { status := 403 }

def objectTargetOrCollectionError : DavTarget → Except TargetError Key
  | .object kb path => .ok (kb, path)
  | .root => .error .collection
  | .kbRoot _ => .error .collection
  | .nonDeclaredKb => .error .forbidden

theorem objectTargetOrCollectionError_eq_ok {target : DavTarget} {k : Key} :
    objectTargetOrCollectionError target = .ok k ↔ target = .object k.1 k.2 := by
  cases target with
  | object kb path =>
    refine ⟨fun h => ?_, fun h => ?_⟩
    · cases h
      rfl
    · cases h
      rfl
  | root => simp [objectTargetOrCollectionError]
  | kbRoot kb => simp [objectTargetOrCollectionError]
  | nonDeclaredKb => simp [objectTargetOrCollectionError]

def responseWithOptionalEtag (status : Nat) (etag : Option Text) : Response where
  status := status
  headers := (etag.map fun etag => ("etag", etag)).toList

end Webdav
