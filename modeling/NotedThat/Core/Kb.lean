-- SUMMARY: The knowledge-base manifest and its validation.
import NotedThat.Core.Access

/-!
# Manifests

The manifest is an ordinary object at a fixed key. Reading it as a document is serde_json's
work and a parameter wherever it is used; what the server checks of a document is translated
here.
-/

/-- Embedding configuration recorded in a manifest. -/
structure ManifestEmbedding where
  model : Text
  dimensions : Nat
  endpointUrlHint : Option Text
deriving DecidableEq

structure KbManifest where
  notedthatVersion : Text
  manifestVersion : Nat
  tenantSlug : TenantSlug
  kbSlug : KbSlug
  displayName : Text
  description : Option Text
  createdAt : Int
  qdrantCollection : Option Text
  embedding : Option ManifestEmbedding
  access : AccessPolicy
deriving DecidableEq

/-- What a listing shows about a knowledge base besides its slug. -/
structure KbDetails where
  displayName : Text
  description : Option Text
deriving DecidableEq

/-- The one rule for the manifest's free-text fields. -/
def validateManifestText (field : String) (value : Text) (maxChars : Nat) : Except Error Unit :=
  if (Text.trim value).isEmpty then .error (.invalidInput (field ++ " must not be blank"))
  else if value.any Text.isControl then
    .error (.invalidInput (field ++ " must be a single line without control characters"))
  else if value.length > maxChars then
    .error (.invalidInput (field ++ " exceeds " ++ toString maxChars ++ " code points"))
  else .ok ()

namespace KbManifest

def currentVersion : Nat := 1
def displayNameMaxChars : Nat := 128
def descriptionMaxChars : Nat := 500

/-- The object key the manifest lives under, in every knowledge base. -/
def key : Text := ".notedthat/manifest.json".toList

def path : ObjectPath := ⟨key, by decide⟩

/-- The version of the server's package. -/
def packageVersion : Text := "0.13.0".toList

/-- The manifest of a newly provisioned knowledge base. -/
def newV1 (tenant : TenantSlug) (kb : KbSlug) (displayName : Text) (createdAt : Int) :
    KbManifest where
  notedthatVersion := packageVersion
  manifestVersion := currentVersion
  tenantSlug := tenant
  kbSlug := kb
  displayName := displayName
  description := none
  createdAt := createdAt
  qdrantCollection := none
  embedding := none
  access := AccessPolicy.signedInFull

def validateDisplayName (displayName : Text) : Except Error Unit :=
  validateManifestText "display_name" displayName displayNameMaxChars

def validateDescription (description : Text) : Except Error Unit :=
  validateManifestText "description" description descriptionMaxChars

def validate (manifest : KbManifest) : Except Error Unit := do
  if manifest.manifestVersion ≠ currentVersion then
    .error (.invalidInput ("unsupported manifest_version " ++ toString manifest.manifestVersion ++
      "; expected " ++ toString currentVersion))
  validateDisplayName manifest.displayName
  match manifest.description with
  | some description => validateDescription description
  | none => .ok ()
  manifest.access.validate

def details (manifest : KbManifest) : KbDetails := ⟨manifest.displayName, manifest.description⟩

/-- A slug is a valid display name. -/
theorem validateDisplayName_slug (kb : KbSlug) : validateDisplayName kb.val = .ok () := by
  have hchar : ∀ ch ∈ kb.val, isSlugChar ch = true := validateSlug_chars kb.valid
  have hplain : ∀ ch : Char, isSlugChar ch = true →
      Text.isWhitespace ch = false ∧ Text.isControl ch = false := by
    intro ch hch
    have hrange : ('a' ≤ ch ∧ ch ≤ 'z') ∨ ('0' ≤ ch ∧ ch ≤ '9') ∨ ch = '-' := by
      simpa [isSlugChar, or_assoc] using hch
    have hle : ∀ a b : Char, a ≤ b ↔ a.toNat ≤ b.toNat := fun a b => Iff.rfl
    have hnat : 0x2D ≤ ch.toNat ∧ ch.toNat ≤ 0x7A := by
      rcases hrange with h | h | rfl
      · have h1 := (hle _ _).mp h.1
        have h2 := (hle _ _).mp h.2
        simp at h1 h2
        omega
      · have h1 := (hle _ _).mp h.1
        have h2 := (hle _ _).mp h.2
        simp at h1 h2
        omega
      · decide
    constructor
    · simp only [Text.isWhitespace, Bool.or_eq_false_iff, decide_eq_false_iff_not]
      omega
    · simp only [Text.isControl, Bool.or_eq_false_iff, decide_eq_false_iff_not]
      omega
  have htrim : Text.trim kb.val = kb.val :=
    Text.trim_eq_self (fun c hc => (hplain c (hchar c (List.mem_of_mem_head? hc))).1)
      fun c hc => (hplain c (hchar c (List.mem_of_getLast? hc))).1
  have hcontrol : kb.val.any Text.isControl = false := by
    simp only [List.any_eq_false, Bool.not_eq_true]
    exact fun c hc => (hplain c (hchar c hc)).2
  have hlen : ¬ kb.val.length > displayNameMaxChars := by
    have := kb.length_le
    unfold displayNameMaxChars
    omega
  simp only [validateDisplayName, validateManifestText, htrim, hcontrol, hlen,
    List.isEmpty_eq_false_iff.mpr kb.val_ne_nil, if_false, Bool.false_eq_true]

/-- The manifest a fresh knowledge base gets passes validation. -/
theorem validate_newV1 (tenant : TenantSlug) (kb : KbSlug) (createdAt : Int) :
    (newV1 tenant kb kb.val createdAt).validate = .ok () := by
  have haccess : AccessPolicy.signedInFull.validate = .ok () := by decide
  simp only [validate, newV1, validateDisplayName_slug, haccess]
  rfl

end KbManifest

/-- Metadata about a stored object. -/
structure ObjectMeta where
  key : Text
  size : Nat
  lastModified : Option Int
  contentType : Option Text
  etag : Option Text
deriving DecidableEq
