-- SUMMARY: Errors of the shared write path, and the validation of a body about to become a manifest.
import NotedThat.Core.Kb

/-!
# Writing a manifest

Every surface stores through the write path, and a body about to become
`.notedthat/manifest.json` is checked there: its size, that it is a manifest document naming
the knowledge base it is written to, and the limits of `KbManifest.validate`.
-/

/-- What a write had already done to storage when a later step failed. -/
inductive WriteEffect where
  | stored
  | deleted
deriving DecidableEq, Repr

/-- Errors of the shared write operations. -/
inductive WriteError where
  | storage (e : StorageError)
  | tooLarge (size limit : Nat)
  | indexerBackpressureUpsert
  | indexerBackpressureTombstone
  | eventPublishFailed (after : WriteEffect)
  | patchTooLarge (size limit : Nat)
  | patchLineOutOfRange (first last totalLines totalBytes : Nat)
  | preconditionRequired (message : String)
  | patchInvalidRange (message : String)
  | invalidManifest (message : String)
  | replaceNoMatch
  | replaceAmbiguous (count : Nat)
deriving DecidableEq, Repr

/-- A body received whole before it is stored. One that was spilled to a file may fail to be
read back. -/
structure StagedBody where
  bytes : Bytes
  readBack : Option String
deriving DecidableEq

namespace StagedBody

def len (body : StagedBody) : Nat := body.bytes.length

/-- Read the first `limit` bytes back. -/
def readPrefix (body : StagedBody) (limit : Nat) : Except String Bytes :=
  match body.readBack with
  | some error => .error error
  | none => .ok (body.bytes.take limit)

end StagedBody

/-- `serde_json` at the manifest type: reading a document, and writing one. -/
structure ManifestJson where
  fromSlice : Bytes → Except String KbManifest
  toVecPretty : KbManifest → Bytes

namespace Manifest

/-- The most bytes a manifest may be. -/
def maxBytes : Nat := 1024 * 1024

/-- Whether `path` is the knowledge base's manifest. -/
def isManifest (path : ObjectPath) : Bool := path.val = KbManifest.key

def checkSize (size : Nat) : Except WriteError Unit :=
  if size > maxBytes then
    .error (.invalidManifest ("manifest is " ++ toString size ++
      " bytes; a manifest is at most " ++ toString maxBytes))
  else .ok ()

variable (json : ManifestJson)

/-- The checks startup makes: a manifest document, naming this knowledge base, within the
limits. -/
def validateManifestBytes (kb : KbSlug) (bytes : Bytes) : Except WriteError Unit :=
  match json.fromSlice bytes with
  | .error e =>
    .error (.invalidManifest ("manifest is not a valid manifest document: " ++ e))
  | .ok manifest =>
    if manifest.kbSlug ≠ kb then
      .error (.invalidManifest ("manifest names knowledge base '" ++
        String.ofList manifest.kbSlug.val ++ "' but was written to '" ++
        String.ofList kb.val ++ "'"))
    else
      match manifest.validate with
      | .error e => .error (.invalidManifest e.display)
      | .ok () => .ok ()

/-- Validate `bytes` as the manifest of `kb`, when `path` is the manifest key. -/
def checkManifestBytes (kb : KbSlug) (path : ObjectPath) (bytes : Bytes) :
    Except WriteError Unit := do
  if !isManifest path then .ok ()
  else
    checkSize bytes.length
    validateManifestBytes json kb bytes

/-- Validate a staged body as the manifest of `kb`, when `path` is the manifest key. -/
def checkStagedManifest (kb : KbSlug) (path : ObjectPath) (body : StagedBody) :
    Except WriteError Unit := do
  if !isManifest path then .ok ()
  else
    checkSize body.len
    match body.readPrefix body.len with
    | .error e =>
      .error (.invalidManifest ("manifest could not be read back for validation: " ++ e))
    | .ok bytes => validateManifestBytes json kb bytes

/-- Bytes that are a manifest of `kb`: small enough, and accepted by the validator. -/
def Valid (kb : KbSlug) (bytes : Bytes) : Prop :=
  bytes.length ≤ maxBytes ∧ validateManifestBytes json kb bytes = .ok ()

variable {json} {kb : KbSlug} {path : ObjectPath}

theorem validateManifestBytes_eq_ok {bytes : Bytes} :
    validateManifestBytes json kb bytes = .ok () ↔
      ∃ manifest, json.fromSlice bytes = .ok manifest ∧ manifest.kbSlug = kb ∧
        manifest.validate = .ok () := by
  unfold validateManifestBytes
  constructor
  · intro h
    split at h
    · cases h
    · next manifest hparse =>
      split at h
      · cases h
      · next hslug =>
        split at h
        · cases h
        · next hvalid => exact ⟨manifest, hparse, not_not.mp hslug, hvalid⟩
  · rintro ⟨manifest, hparse, hslug, hvalid⟩
    simp [hparse, hslug, hvalid]

theorem checkSize_eq_ok {size : Nat} : checkSize size = .ok () ↔ size ≤ maxBytes := by
  unfold checkSize
  split <;> simp <;> omega

theorem checkManifestBytes_valid {bytes : Bytes} (hpath : isManifest path = true)
    (h : checkManifestBytes json kb path bytes = .ok ()) : Valid json kb bytes := by
  simp only [checkManifestBytes, hpath, Bool.not_true, Bool.false_eq_true, if_false] at h
  cases hsize : checkSize bytes.length with
  | error e => rw [hsize] at h; cases h
  | ok u =>
    rw [hsize] at h
    exact ⟨checkSize_eq_ok.mp hsize, h⟩

theorem checkStagedManifest_valid {body : StagedBody} (hpath : isManifest path = true)
    (h : checkStagedManifest json kb path body = .ok ()) : Valid json kb body.bytes := by
  simp only [checkStagedManifest, hpath, Bool.not_true, Bool.false_eq_true, if_false,
    StagedBody.len, StagedBody.readPrefix] at h
  cases hsize : checkSize body.bytes.length with
  | error e => rw [hsize] at h; cases h
  | ok u =>
    rw [hsize] at h
    cases hread : body.readBack with
    | some e => rw [hread] at h; cases h
    | none =>
      rw [hread, List.take_length] at h
      exact ⟨checkSize_eq_ok.mp hsize, h⟩

theorem checkManifestBytes_of_valid {bytes : Bytes} (h : Valid json kb bytes) :
    checkManifestBytes json kb path bytes = .ok () := by
  unfold checkManifestBytes
  split
  · rfl
  · rw [checkSize_eq_ok.mpr h.1]
    exact h.2

theorem checkStagedManifest_of_valid {bytes : Bytes} (h : Valid json kb bytes) :
    checkStagedManifest json kb path ⟨bytes, none⟩ = .ok () := by
  unfold checkStagedManifest
  split
  · rfl
  · rw [StagedBody.len, checkSize_eq_ok.mpr h.1, StagedBody.readPrefix]
    dsimp only
    rw [List.take_length]
    exact h.2

end Manifest
