-- SUMMARY: The errors of the HTTP API with their status codes, and authorization against the policy of a knowledge base.
import NotedThat.Core.Access
import NotedThat.Write.Manifest

/-!
# API errors

Errors of the storage and of the write path become errors of the API, and these become status codes. A
missing bucket is described without its name. Errors that only the reconciliation route answers with
are left out.
-/

namespace Api

inductive ApiError where
  | unauthorized
  | forbidden
  | indexerBackpressureUpsert
  | indexerBackpressureTombstone
  | eventPublishFailed (after : WriteEffect)
  | eventsGone (requested oldest : Nat)
  | eventsUnavailable (message : String)
  | core (e : Error)
  | preconditionRequired (message : String)
  | lineRangeNotSatisfiable (lineTotal byteTotal : Nat)
  | replaceNoMatch
  | replaceAmbiguous (count : Nat)
deriving DecidableEq

namespace ApiError

def ofStorage : StorageError → ApiError
  | .bucketNotFound _ => .core (.notFound "knowledge base storage")
  | e => .core (.storage e)

def ofWrite : WriteError → ApiError
  | .storage e => ofStorage e
  | .tooLarge size limit | .patchTooLarge size limit => .core (.payloadTooLarge size limit)
  | .indexerBackpressureUpsert => .indexerBackpressureUpsert
  | .indexerBackpressureTombstone => .indexerBackpressureTombstone
  | .eventPublishFailed after => .eventPublishFailed after
  | .patchLineOutOfRange _ _ totalLines totalBytes => .lineRangeNotSatisfiable totalLines totalBytes
  | .preconditionRequired message => .preconditionRequired message
  | .patchInvalidRange message | .invalidManifest message => .core (.invalidInput message)
  | .replaceNoMatch => .replaceNoMatch
  | .replaceAmbiguous count => .replaceAmbiguous count

def storageStatus : StorageError → Nat
  | .notFound _ | .bucketNotFound _ => 404
  | .backendUnavailable _ => 503
  | .notModified _ => 304
  | .preconditionFailed => 412
  | .rangeNotSatisfiable _ => 416
  | .other _ => 500

def status : ApiError → Nat
  | .unauthorized => 401
  | .forbidden => 403
  | .indexerBackpressureUpsert | .indexerBackpressureTombstone | .eventPublishFailed _
  | .eventsUnavailable _ => 503
  | .eventsGone .. => 410
  | .core (.invalidInput _) => 400
  | .core (.notFound _) => 404
  | .core (.payloadTooLarge ..) => 413
  | .core (.malformedRange _) => 400
  | .lineRangeNotSatisfiable .. => 416
  | .preconditionRequired _ => 428
  | .replaceNoMatch | .replaceAmbiguous _ => 422
  | .core (.bucketNameTooLong ..) | .core (.config _) => 500
  | .core (.storage e) => storageStatus e

end ApiError

-- ---------------------------------------------------------------------------
-- Access
-- ---------------------------------------------------------------------------

/-- A resolved knowledge base, the asking principal, and the policy between them. -/
structure KbAccess where
  kb : KbSlug
  principal : Principal
  policy : AccessPolicy

namespace KbAccess

def filter (access : KbAccess) (verb : Verb) : KeyFilter := access.policy.keyFilter access.principal verb

def allows (access : KbAccess) (verb : Verb) (key : Text) : Bool :=
  access.policy.allows access.principal verb key

def kbNotFound (slug : Text) : ApiError := .core (.notFound ("KB '" ++ String.ofList slug ++ "' not declared"))

/-- To an anonymous caller the knowledge base is described as undeclared. -/
def denial (access : KbAccess) : ApiError :=
  match access.principal with
  | .anyone => kbNotFound access.kb.val
  | .signedIn _ => .forbidden

def requireAny (access : KbAccess) (verb : Verb) : Except ApiError Unit :=
  if access.policy.grantsAny access.principal verb then .ok () else .error access.denial

end KbAccess

end Api
