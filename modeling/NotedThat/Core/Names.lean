-- SUMMARY: Knowledge-base and tenant slugs, object paths, and the errors of the core crate that refuse them.
import NotedThat.Lib.Text

/-!
# Names

The validated identifiers of the core crate. Each is a structure that carries the proof that
its text passed the constructor's checks, so a slug or a path that exists is a valid one.
-/

/-! ## Errors -/

/-- The validators of the object a 304 refers to. -/
structure Validators where
  etag : Option Text
  lastModified : Option Int
deriving DecidableEq, Repr

/-- Storage-layer errors. The opaque cause of `other` is kept as its text. -/
inductive StorageError where
  | notFound (key : Text)
  | bucketNotFound (bucket : Text)
  | backendUnavailable (message : String)
  | other (source : String)
  | notModified (validators : Validators)
  | preconditionFailed
  | rangeNotSatisfiable (completeLength : Nat)
deriving DecidableEq, Repr

/-- Whether the error represents a missing object or bucket. -/
def StorageError.isNotFound : StorageError → Bool
  | .notFound _ | .bucketNotFound _ => true
  | _ => false

def StorageError.display : StorageError → String
  | .notFound key => "object not found: " ++ String.ofList key
  | .bucketNotFound bucket => "bucket not found: " ++ String.ofList bucket
  | .backendUnavailable message => "backend unavailable: " ++ message
  | .other source => "storage error: " ++ source
  | .notModified _ => "not modified"
  | .preconditionFailed => "precondition failed"
  | .rangeNotSatisfiable completeLength =>
    "range not satisfiable (object size: " ++ toString completeLength ++ ")"

/-- The domain error of the API layer. -/
inductive Error where
  | invalidInput (message : String)
  | notFound (resource : String)
  | payloadTooLarge (size limit : Nat)
  | bucketNameTooLong (name : Text) (len : Nat)
  | config (message : String)
  | storage (e : StorageError)
  | malformedRange (message : String)
deriving DecidableEq, Repr

def Error.display : Error → String
  | .invalidInput message => "invalid input: " ++ message
  | .notFound resource => "not found: " ++ resource
  | .payloadTooLarge size limit =>
    "payload too large: " ++ toString size ++ " bytes (limit " ++ toString limit ++ ")"
  | .bucketNameTooLong name len =>
    "bucket name too long: " ++ String.ofList name ++ " (" ++ toString len ++ " chars, max 63)"
  | .config message => "configuration error: " ++ message
  | .storage e => e.display
  | .malformedRange message => "malformed range: " ++ message

/-! ## Slugs -/

/-- The characters of a slug: `[a-z0-9-]`. -/
def isSlugChar (ch : Char) : Bool :=
  ('a' ≤ ch ∧ ch ≤ 'z') || ('0' ≤ ch ∧ ch ≤ '9') || ch = '-'

def validateSlug (s : Text) (maxLen : Nat) : Except Error Unit :=
  if s.isEmpty then
    .error (.invalidInput "slug must not be empty")
  else if (Utf8.encode s).length > maxLen then
    .error (.invalidInput ("slug must be at most " ++ toString maxLen ++ " characters, got " ++
      toString (Utf8.encode s).length))
  else if s.head? = some '-' then
    .error (.invalidInput "slug must not start with a hyphen")
  else if s.getLast? = some '-' then
    .error (.invalidInput "slug must not end with a hyphen")
  else
    match s.find? fun ch => !isSlugChar ch with
    | some ch => .error (.invalidInput ("slug contains invalid character '" ++ toString ch ++
        "'; only [a-z0-9-] allowed"))
    | none => .ok ()

theorem validateSlug_ne_nil {s : Text} {n : Nat} (h : validateSlug s n = .ok ()) : s ≠ [] := by
  rintro rfl
  simp [validateSlug] at h

theorem validateSlug_chars {s : Text} {n : Nat} (h : validateSlug s n = .ok ()) :
    ∀ ch ∈ s, isSlugChar ch = true := by
  unfold validateSlug at h
  split_ifs at h
  split at h
  · cases h
  · next hfind => simpa using hfind

/-- A knowledge-base slug: `[a-z0-9-]{1,40}`, no leading or trailing hyphen. -/
@[ext] structure KbSlug where
  val : Text
  valid : validateSlug val 40 = .ok ()
deriving DecidableEq

namespace KbSlug

def maxLen : Nat := 40

def tryNew (s : Text) : Except Error KbSlug :=
  match h : validateSlug s maxLen with
  | .ok () => .ok ⟨s, h⟩
  | .error e => .error e

theorem tryNew_eq_ok {s : Text} {kb : KbSlug} : tryNew s = .ok kb ↔ s = kb.val := by
  constructor
  · intro h
    unfold tryNew at h
    split at h
    · cases h; rfl
    · cases h
  · rintro rfl
    have hvalid : validateSlug kb.val maxLen = .ok () := kb.valid
    unfold tryNew
    split
    · rfl
    · next e he => rw [hvalid] at he; cases he

@[simp] theorem tryNew_val (kb : KbSlug) : tryNew kb.val = .ok kb := tryNew_eq_ok.mpr rfl

theorem length_le (kb : KbSlug) : kb.val.length ≤ 40 := by
  have h := kb.valid
  unfold validateSlug at h
  split_ifs at h with _ hlen
  exact Nat.le_trans (Utf8.length_le_encode _) (Nat.le_of_not_lt hlen)

theorem val_ne_nil (kb : KbSlug) : kb.val ≠ [] := validateSlug_ne_nil kb.valid

/-- The knowledge base `notes` of the concrete runs. -/
def notes : KbSlug := ⟨"notes".toList, by decide⟩

end KbSlug

/-- A tenant slug: a slug of at most 20 characters without any hyphen. -/
structure TenantSlug where
  val : Text
  valid : validateSlug val 20 = .ok ()
  noHyphen : '-' ∉ val
deriving DecidableEq

namespace TenantSlug

def maxLen : Nat := 20

def tryNew (s : Text) : Except Error TenantSlug :=
  match h : validateSlug s maxLen with
  | .error e => .error e
  | .ok () =>
    if hh : '-' ∈ s then
      .error (.invalidInput ("tenant slug must not contain a hyphen: the first hyphen after the " ++
        "prefix delimits the tenant from the knowledge base in bucket names"))
    else .ok ⟨s, h, hh⟩

/-- The only tenant. -/
def default : TenantSlug := ⟨"default".toList, by decide, by decide⟩

end TenantSlug

/-! ## Bucket names -/

def bucketNameMax : Nat := 63

def bucketNamePrefix : Text := "nt-".toList

def deriveBucketName (tenant : TenantSlug) (kb : KbSlug) : Text :=
  bucketNamePrefix ++ tenant.val ++ '-' :: kb.val

def validateBucketName (tenant : TenantSlug) (kb : KbSlug) : Except Error Unit :=
  let name := deriveBucketName tenant kb
  if (Utf8.encode name).length > bucketNameMax then
    .error (.bucketNameTooLong name (Utf8.encode name).length)
  else .ok ()

/-! ## Object paths -/

/-- Whether a knowledge-base-relative path is in the internal namespace. -/
def isInternalPath (path : Text) : Bool :=
  path = ".notedthat".toList || ".notedthat/".toList.isPrefixOf path

/-- Keys that name a route of the knowledge base rather than an object. -/
def reservedKeys : List Text :=
  ["index".toList, "index/reconcile".toList, "events".toList, "search".toList]

/-- What `try_from_str` checks of one segment of a path. -/
def checkSegment (segment : Text) : Except Error Unit :=
  if segment.isEmpty then
    .error (.invalidInput
      "path must not contain empty segments (double slashes or trailing slash)")
  else if segment = ['.'] ∨ segment = ['.', '.'] then
    .error (.invalidInput "path must not contain '.' or '..' segments")
  else .ok ()

/-- The first refusal among the segments of a path. -/
def checkSegments : List Text → Except Error Unit
  | [] => .ok ()
  | segment :: rest => do
    checkSegment segment
    checkSegments rest

/-- What `try_from_str` checks once the optional leading slash is stripped. -/
def checkPath (s : Text) : Except Error Unit :=
  if s.isEmpty then .error (.invalidInput "path must not be empty")
  else if '\\' ∈ s then .error (.invalidInput "path must not contain backslash")
  else if '\x00' ∈ s then .error (.invalidInput "path must not contain NUL byte")
  else checkSegments (s.splitOn '/')

/-- A normalized object path within a knowledge base. -/
@[ext] structure ObjectPath where
  val : Text
  valid : checkPath val = .ok ()
deriving DecidableEq

namespace ObjectPath

def tryFromStr (input : Text) : Except Error ObjectPath :=
  let s := (Text.stripPrefix ['/'] input).getD input
  match h : checkPath s with
  | .ok () => .ok ⟨s, h⟩
  | .error e => .error e

/-- A key that does not begin with `/` is the path it parses to. -/
theorem tryFromStr_eq_ok {key : Text} (hslash : key.head? ≠ some '/') {p : ObjectPath} :
    tryFromStr key = .ok p ↔ p.val = key := by
  have hstrip : Text.stripPrefix ['/'] key = none := by
    rw [Option.eq_none_iff_forall_ne_some]
    intro rest hrest
    rw [Text.stripPrefix_eq_some.mp hrest] at hslash
    exact hslash rfl
  unfold tryFromStr
  rw [hstrip, Option.getD_none]
  dsimp only
  constructor
  · intro h
    split at h
    · cases h
      rfl
    · cases h
  · rintro rfl
    split
    · rfl
    · next e he =>
      rw [p.valid] at he
      cases he

theorem head_ne_slash (p : ObjectPath) : p.val.head? ≠ some '/' := by
  intro hhead
  obtain ⟨rest, hrest⟩ := List.head?_eq_some_iff.mp hhead
  have hvalid := p.valid
  unfold checkPath at hvalid
  split_ifs at hvalid
  rw [hrest, List.splitOn_cons_eq_if_modifyHead, if_pos (beq_self_eq_true _)] at hvalid
  cases hvalid

@[simp] theorem tryFromStr_val (p : ObjectPath) : tryFromStr p.val = .ok p :=
  (tryFromStr_eq_ok p.head_ne_slash).mpr rfl

theorem val_ne_nil (path : ObjectPath) : path.val ≠ [] := by
  intro hnil
  have hvalid := path.valid
  rw [hnil] at hvalid
  cases hvalid

theorem checkSegments_eq_ok {segments : List Text} (h : checkSegments segments = .ok ()) :
    [] ∉ segments := by
  induction segments with
  | nil => exact List.not_mem_nil
  | cons segment rest ih =>
    intro hmem
    cases segment with
    | nil => cases h
    | cons c segment =>
      rw [checkSegments] at h
      cases hcheck : checkSegment (c :: segment) with
      | error e =>
        rw [hcheck] at h
        cases h
      | ok =>
        rw [hcheck] at h
        rcases List.mem_cons.mp hmem with hnil | hmem
        · cases hnil
        · exact ih h hmem

/-- A path does not end with a slash. -/
theorem val_ne_append_slash (path : ObjectPath) (front : Text) : path.val ≠ front ++ ['/'] := by
  intro hval
  have hvalid := path.valid
  unfold checkPath at hvalid
  split_ifs at hvalid
  rw [hval, List.splitOn_append_cons_self] at hvalid
  exact checkSegments_eq_ok hvalid (by simp)

/-- Whether this is one of the reserved keys, which no object may have. -/
def isReserved (path : ObjectPath) : Bool := reservedKeys.contains path.val

def tryObjectKey (input : Text) : Except Error ObjectPath := do
  let path ← tryFromStr input
  if path.isReserved then
    .error (.invalidInput ("path '" ++ String.ofList path.val ++
      "' is reserved: it names an API route of the knowledge base"))
  else .ok path

theorem tryObjectKey_val {path : ObjectPath} (hkey : path.isReserved = false) : tryObjectKey path.val = .ok path := by
  unfold tryObjectKey
  rw [tryFromStr_val]
  simp [bind, Except.bind, hkey]

/-- What is parsed is the input, or the input without a slash in front. -/
theorem tryObjectKey_eq_ok {path : ObjectPath} {input : Text} (h : tryObjectKey input = .ok path) :
    path.isReserved = false ∧ (input = path.val ∨ input = '/' :: path.val) := by
  unfold tryObjectKey at h
  cases hfrom : tryFromStr input with
  | error e =>
    rw [hfrom] at h
    cases h
  | ok found =>
    rw [hfrom] at h
    simp only [bind, Except.bind] at h
    split_ifs at h with hreserved
    cases h
    refine ⟨by simpa using hreserved, ?_⟩
    have hstripped : ∀ s, (Text.stripPrefix ['/'] input).getD input = s → input = s ∨ input = '/' :: s := by
      rintro s rfl
      cases hstrip : Text.stripPrefix ['/'] input with
      | none => exact Or.inl rfl
      | some rest => exact Or.inr (Text.stripPrefix_eq_some.mp hstrip)
    unfold tryFromStr at hfrom
    dsimp only at hfrom
    split at hfrom
    · cases hfrom
      exact hstripped _ rfl
    · cases hfrom

/-- The key `a`. -/
def a : ObjectPath := ⟨"a".toList, by decide⟩

/-- The key `a.md`. -/
def aMd : ObjectPath := ⟨"a.md".toList, by decide⟩

/-- The key `b.md`. -/
def bMd : ObjectPath := ⟨"b.md".toList, by decide⟩

end ObjectPath
