-- SUMMARY: The URIs of MCP resources: how they are built and taken apart, and which object a resource that was listed is read from.
import NotedThat.Api.Errors
import NotedThat.Mcp.Urls

/-!
# Resource URIs

A resource is an object under the URI `notedthat://<knowledge base>/<encoded key>`. The key is one
encoded segment and is decoded once. Reading the resource then pushes the decoded key onto an API URL,
as the tools do with their arguments. What parsing a URI does is the `url` crate's.
-/

namespace Mcp

-- ---------------------------------------------------------------------------
-- Building a URI
-- ---------------------------------------------------------------------------

/-- The characters that `OBJECT_PATH_ENCODE` leaves as they are, the unreserved ones. -/
def objectPathKeeps (c : Char) : Bool :=
  c.isAlphanum || c = '-' || c = '.' || c = '_' || c = '~'

def encodeObjectPath (path : Text) : Text := Percent.encode objectPathKeeps path

structure Resource where
  uri : Text
  name : Text
deriving DecidableEq

def resourceFor (kbSlug objectKey : Text) : Resource :=
  ⟨"notedthat://".toList ++ kbSlug ++ '/' :: encodeObjectPath objectKey, objectKey⟩

-- ---------------------------------------------------------------------------
-- Taking a URI apart
-- ---------------------------------------------------------------------------

structure ParsedUrl where
  scheme : Text
  host : Option Text
  path : Text
deriving DecidableEq

/-- The segments that a URL parser reads as dots and removes. -/
def dotSegments : List Text :=
  [".".toList, "%2e".toList, "%2E".toList, "..".toList, ".%2e".toList, ".%2E".toList, "%2e.".toList,
    "%2E.".toList, "%2e%2e".toList, "%2e%2E".toList, "%2E%2e".toList, "%2E%2E".toList]

/-- What `Url::parse` does with a `notedthat` URI: host and encoded path are kept as they are written,
but for segments of dots and for characters that are passed over. -/
structure UrlParser where
  parse : Text → Except String ParsedUrl
  keeps : ∀ host path : Text, host ≠ [] → host.all isSlugChar = true →
    path.all (fun c => objectPathKeeps c || c = '%' || c = '/') = true →
    (∀ segment ∈ path.splitOn '/', segment ∉ dotSegments) →
    parse ("notedthat://".toList ++ host ++ '/' :: path) = .ok ⟨"notedthat".toList, some host, '/' :: path⟩

inductive McpError where
  | invalidParams (message : String)
  /-- The API refused a request of the server. -/
  | api (error : Api.ApiError)
deriving DecidableEq

structure ParsedResourceUri where
  kbSlug : Text
  objectKey : Text
deriving DecidableEq

section

variable (urls : UrlParser) (crate : UrlCrate)

/-- The object that a parsed `notedthat` URL names. -/
def resourceOfUrl (parsed : ParsedUrl) : Except McpError ParsedResourceUri :=
  if parsed.scheme ≠ "notedthat".toList then
    .error (.invalidParams "resource URI scheme must be notedthat")
  else
    match parsed.host.filter (· ≠ []) with
    | none => .error (.invalidParams "resource URI must include a knowledge base slug")
    | some kbSlug =>
      let encodedPath := (Text.stripPrefix ['/'] parsed.path).getD parsed.path
      if encodedPath = [] then .error (.invalidParams "resource URI must include an object path")
      else
        -- decoded exactly once: building the API URL encodes once
        match Percent.decodeUtf8 encodedPath with
        | none => .error (.invalidParams "resource object path is not valid UTF-8")
        | some objectKey =>
          if objectKey = [] then .error (.invalidParams "resource URI must include an object path")
          else
            match KbSlug.tryNew kbSlug, ObjectPath.tryObjectKey objectKey with
            | .error e, _ => .error (.invalidParams ("invalid resource knowledge base: " ++ e.display))
            | _, .error e => .error (.invalidParams ("invalid resource object path: " ++ e.display))
            | .ok _, .ok _ => .ok ⟨kbSlug, objectKey⟩

def parseResourceUri (uri : Text) : Except McpError ParsedResourceUri :=
  if uri = [] then .error (.invalidParams "resource URI must not be empty")
  else
    match urls.parse uri with
    | .error e => .error (.invalidParams ("invalid resource URI: " ++ e))
    | .ok parsed => resourceOfUrl parsed

/-- The URL that `resources/read` asks the API for. -/
def readResourceUrl (uri : Text) : Except McpError Text := do
  let parsed ← parseResourceUri urls uri
  return UrlCrate.pathOf (crate.apiV1Url ["knowledgebases".toList, parsed.kbSlug, parsed.objectKey])

/-- The object that reading a resource addresses. -/
def readAddresses (uri : Text) : Option (Text × Text) := do
  let url ← (readResourceUrl urls crate uri).toOption
  let (kb, path) ← addressed url
  return (kb, path.val)

end

-- ---------------------------------------------------------------------------
-- Round trips
-- ---------------------------------------------------------------------------

section

variable {urls : UrlParser} {crate : UrlCrate} {kb kb' : KbSlug} {key key' : Text} {path path' : ObjectPath}

theorem objectPathKeeps_ascii {c : Char} (h : objectPathKeeps c = true) : c.toNat < 0x80 ∧ c ≠ '%' := by
  simp only [objectPathKeeps, Bool.or_eq_true, decide_eq_true_eq] at h
  rcases h with (((h | rfl) | rfl) | rfl) | rfl
  · obtain ⟨-, hle, hplain⟩ := by simpa [keepsInSegment, and_assoc] using keepsInSegment_alphanum c h
    refine ⟨by omega, ?_⟩
    rintro rfl
    exact absurd h (by decide)
  · decide
  · decide
  · decide
  · decide

theorem decode_encodeObjectPath (key : Text) : Percent.decodeUtf8 (encodeObjectPath key) = some key :=
  Percent.decodeUtf8_encode (fun _ => objectPathKeeps_ascii) key

theorem encodeObjectPath_chars (key : Text) :
    (encodeObjectPath key).all (fun c => objectPathKeeps c || c = '%' || c = '/') = true := by
  have hdigits : ∀ n : Fin 16, objectPathKeeps (Percent.hexDigit n) = true := by decide
  rw [List.all_eq_true]
  intro c hc
  rcases Percent.mem_encode hc with hkeep | rfl | ⟨n, rfl⟩
  · simp [hkeep]
  · rfl
  · simp [hdigits n]

theorem slash_not_mem_encodeObjectPath (key : Text) : '/' ∉ encodeObjectPath key :=
  Percent.not_mem_encode (by decide) (by decide) (by decide) key

/-- Only dots are encoded as a segment of dots. -/
theorem encodeObjectPath_not_dots (hkey : isDots key = false) : encodeObjectPath key ∉ dotSegments := by
  have hdecoded : ∀ segment ∈ dotSegments, ∃ dots ∈ Percent.decodeUtf8 segment, isDots dots = true := by
    decide
  intro hmem
  obtain ⟨dots, hdots, htrue⟩ := hdecoded _ hmem
  rw [decode_encodeObjectPath] at hdots
  cases hdots
  rw [hkey] at htrue
  cases htrue

theorem not_dots_of_tryObjectKey (hkey : ObjectPath.tryObjectKey key = .ok path) : isDots key = false := by
  rcases (ObjectPath.tryObjectKey_eq_ok hkey).2 with rfl | rfl
  · exact path_not_dots path
  · simp [isDots]

theorem ne_nil_of_tryObjectKey (hkey : ObjectPath.tryObjectKey key = .ok path) : key ≠ [] := by
  rcases (ObjectPath.tryObjectKey_eq_ok hkey).2 with rfl | rfl
  · exact path.val_ne_nil
  · exact List.cons_ne_nil _ _

/-- The URI of an object is parsed as it was built. -/
theorem parse_resourceFor (hkey : ObjectPath.tryObjectKey key = .ok path) :
    urls.parse (resourceFor kb.val key).uri =
      .ok ⟨"notedthat".toList, some kb.val, '/' :: encodeObjectPath key⟩ := by
  refine urls.keeps kb.val _ kb.val_ne_nil (List.all_eq_true.mpr (validateSlug_chars kb.valid))
    (encodeObjectPath_chars key) fun segment hsegment => ?_
  rw [List.splitOn_eq_singleton (slash_not_mem_encodeObjectPath key)] at hsegment
  rw [List.mem_singleton.mp hsegment]
  exact encodeObjectPath_not_dots (not_dots_of_tryObjectKey hkey)

theorem encodeObjectPath_ne_nil (hkey : key ≠ []) : encodeObjectPath key ≠ [] := by
  intro hnil
  have hempty : Percent.decodeUtf8 [] = some [] := decode_encodeObjectPath []
  have hdecode := decode_encodeObjectPath key
  rw [hnil, hempty] at hdecode
  exact hkey (Option.some.inj hdecode).symm

theorem resourceOfUrl_encoded (hkey : ObjectPath.tryObjectKey key = .ok path) :
    resourceOfUrl ⟨"notedthat".toList, some kb.val, '/' :: encodeObjectPath key⟩ = .ok ⟨kb.val, key⟩ := by
  have hhost : (some kb.val).filter (· ≠ []) = some kb.val := by simp [Option.filter, kb.val_ne_nil]
  have hstrip : Text.stripPrefix ['/'] ('/' :: encodeObjectPath key) = some (encodeObjectPath key) :=
    Text.stripPrefix_append ['/'] _
  unfold resourceOfUrl
  split
  · next hscheme => exact absurd rfl hscheme
  · dsimp only
    rw [hhost]
    dsimp only
    rw [hstrip, Option.getD_some, if_neg (encodeObjectPath_ne_nil (ne_nil_of_tryObjectKey hkey)),
      decode_encodeObjectPath]
    dsimp only
    rw [if_neg (ne_nil_of_tryObjectKey hkey), KbSlug.tryNew_val, hkey]

/-- A resource URI names the knowledge base and the key it was built from. -/
theorem parseResourceUri_resourceFor (hkey : ObjectPath.tryObjectKey key = .ok path) :
    parseResourceUri urls (resourceFor kb.val key).uri = .ok ⟨kb.val, key⟩ := by
  have huri : (resourceFor kb.val key).uri ≠ [] :=
    List.append_ne_nil_of_right_ne_nil _ (List.cons_ne_nil _ _)
  unfold parseResourceUri
  rw [if_neg huri, parse_resourceFor hkey]
  exact resourceOfUrl_encoded hkey

/-- No two objects have the same resource URI. -/
theorem resourceFor_injective (hkey : ObjectPath.tryObjectKey key = .ok path)
    (hkey' : ObjectPath.tryObjectKey key' = .ok path') (urls : UrlParser)
    (h : (resourceFor kb'.val key').uri = (resourceFor kb.val key).uri) : kb' = kb ∧ key' = key := by
  have hparse : parseResourceUri urls (resourceFor kb'.val key').uri = .ok ⟨kb'.val, key'⟩ :=
    parseResourceUri_resourceFor hkey'
  rw [h, parseResourceUri_resourceFor hkey] at hparse
  obtain ⟨hkb, hsame⟩ := ParsedResourceUri.mk.inj (Except.ok.inj hparse)
  exact ⟨KbSlug.ext hkb.symm, hsame.symm⟩

theorem readAddresses_resourceFor (hkey : ObjectPath.tryObjectKey key = .ok path) :
    readAddresses urls crate (resourceFor kb.val key).uri =
      (addressed (UrlCrate.pathOf (crate.apiV1Url ["knowledgebases".toList, kb.val, key]))).map
        fun found => (found.1, found.2.val) := by
  unfold readAddresses readResourceUrl
  rw [parseResourceUri_resourceFor hkey]
  exact Option.map_eq_bind.symm

/-- Reading a resource addresses the object it was listed for exactly if its key is one that a URL
carries and that the API takes as it stands. -/
theorem readAddresses_iff (hkey : ObjectPath.tryObjectKey key = .ok path) :
    readAddresses urls crate (resourceFor kb.val key).uri = some (kb.val, key) ↔
      Unskipped key ∧ key.head? ≠ some '/' := by
  rw [readAddresses_resourceFor hkey]
  obtain ⟨hreserved, hsame⟩ := ObjectPath.tryObjectKey_eq_ok hkey
  rcases hsame with rfl | rfl
  · have hurl : UrlCrate.pathOf (crate.apiV1Url ["knowledgebases".toList, kb.val, path.val]) =
        crate.objectUrl kb path := rfl
    rw [hurl, ← @addressed_objectUrl_iff crate kb path hreserved, and_iff_left path.head_ne_slash,
      Option.map_eq_some_iff]
    constructor
    · rintro ⟨⟨kb', found⟩, hfound, heq⟩
      obtain ⟨rfl, hval⟩ := Prod.mk.inj heq
      obtain rfl : found = path := ObjectPath.ext hval
      exact hfound
    · intro hfound
      exact ⟨_, hfound, rfl⟩
  · -- the API's paths do not begin with a slash
    refine iff_of_false ?_ fun h => h.2 rfl
    rw [Option.map_eq_some_iff]
    rintro ⟨⟨kb', found⟩, -, heq⟩
    obtain ⟨-, hval⟩ := Prod.mk.inj heq
    exact found.head_ne_slash (hval ▸ rfl)

/-- A resource URI is parsed back into the knowledge base and the key it was built from, which is what a
subscription is for, no other object has it, and reading it addresses that object, exactly if the key has
no character that a URL passes over and no slash in front. -/
theorem resource_names_object_iff (urls : UrlParser) (crate : UrlCrate) (kb : KbSlug)
    (hkey : ObjectPath.tryObjectKey key = .ok path) :
    (parseResourceUri urls (resourceFor kb.val key).uri = .ok ⟨kb.val, key⟩ ∧
      (∀ kb' key' path', ObjectPath.tryObjectKey key' = .ok path' →
        (resourceFor kb'.val key').uri = (resourceFor kb.val key).uri → kb' = kb ∧ key' = key) ∧
      readAddresses urls crate (resourceFor kb.val key).uri = some (kb.val, key)) ↔
    Unskipped key ∧ key.head? ≠ some '/' := by
  rw [← @readAddresses_iff urls crate kb key path hkey]
  refine ⟨fun h => h.2.2, fun h => ⟨parseResourceUri_resourceFor hkey, ?_, h⟩⟩
  intro kb' key' path' hkey' huri
  exact resourceFor_injective hkey hkey' urls huri

end

/-! ### A plain parser -/

/-- Take a `notedthat` URI apart at its first slash behind the host. -/
def splitUri (uri : Text) : Except String ParsedUrl :=
  match (Text.stripPrefix "notedthat://".toList uri).bind (Text.splitOnce '/') with
  | some (host, path) => .ok ⟨"notedthat".toList, some host, '/' :: path⟩
  | none => .error "relative URL without a base"

def plainUrls : UrlParser where
  parse := splitUri
  keeps host path _ hhost _ _ := by
    have hslash : '/' ∉ host := fun hmem => absurd (List.all_eq_true.mp hhost _ hmem) (by decide)
    unfold splitUri
    rw [List.append_assoc, Text.stripPrefix_append, Option.bind_some, Text.splitOnce_append hslash]

theorem resource_names_object_iff_aMd :
    readAddresses plainUrls webAddress (resourceFor KbSlug.notes.val "a.md".toList).uri =
      some ("notes".toList, "a.md".toList) := by
  have hkey : ObjectPath.tryObjectKey "a.md".toList = .ok .aMd := rfl
  exact ((resource_names_object_iff plainUrls webAddress .notes hkey).mpr (by decide)).2.2

/-- The resource of `a.md` with a tab in it is listed under a URI of its own, and read from `a.md`. -/
theorem listed_tab_read_elsewhere :
    ObjectPath.tryObjectKey "a\t.md".toList = .ok aTabMd ∧
    readAddresses plainUrls webAddress (resourceFor KbSlug.notes.val "a\t.md".toList).uri ≠
      some (KbSlug.notes.val, "a\t.md".toList) := by
  have hkey : ObjectPath.tryObjectKey "a\t.md".toList = .ok aTabMd := rfl
  refine ⟨hkey, fun hread => ?_⟩
  exact absurd ((readAddresses_iff hkey).mp hread).1 (by decide)

end Mcp
