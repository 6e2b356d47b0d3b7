-- SUMMARY: Writing objects over the HTTP API: PUT, DELETE and the text replacement of POST.
import NotedThat.Api.Errors
import NotedThat.Api.GetObject
import NotedThat.Write.Specs

/-!
# Writing an object

Each handler runs one program of the write path for a caller who may write. The body of a request arrives
in pieces and is bounded before it is read; the JSON of a replacement is read by a parameter.
-/

namespace Api

/-- The body of a replacement request. -/
structure ReplaceBody where
  oldString : Text
  newString : Text
  replaceAll : Bool
deriving DecidableEq

/-- What the handlers read of the application state. -/
structure AppState where
  json : ManifestJson
  events : Bool
  maxBodySize : Nat
  maxPatchableSize : Nat
  replaceJson : Bytes → Except String ReplaceBody

/-- Which surface a write is attributed to. -/
def eventSource (headers : HeaderMap) : EventSource :=
  if headers.get "x-notedthat-source" = some (Utf8.encode "mcp".toList) then .mcp else .http

def AppState.sinks (state : AppState) (headers : HeaderMap) : WriteSinks :=
  ⟨state.events, eventSource headers⟩

/-! ## Bodies -/

/-- The largest value of a 64-bit counter, at which additions stay. -/
def u64Max : Nat := 2 ^ 64 - 1

def saturatingAdd (a b : Nat) : Nat := min (a + b) u64Max

def saturatingMul (a b : Nat) : Nat := min (a * b) u64Max

def rejectDeclaredOversize (headers : HeaderMap) (limit : Nat) : Except ApiError Unit :=
  match (headers.getStr "content-length").bind Text.parseU64 with
  | some size => if size > limit then .error (.core (.payloadTooLarge size limit)) else .ok ()
  | none => .ok ()

/-- `to_bytes`: a body whose stream fails or that is longer than the limit is not read. -/
def collectBody (limit : Nat) : Bytes → List (Except String Bytes) → Option Bytes
  | received, [] => some received
  | _, .error _ :: _ => none
  | received, .ok chunk :: rest =>
    if (received ++ chunk).length > limit then none else collectBody limit (received ++ chunk) rest

def readBoundedBody (headers : HeaderMap) (body : List (Except String Bytes)) (limit : Nat) :
    Except ApiError Bytes := do
  rejectDeclaredOversize headers limit
  match collectBody (saturatingAdd limit 1) [] body with
  | none => .error (.core (.payloadTooLarge (saturatingAdd limit 1) limit))
  | some bytes =>
    if bytes.length > limit then .error (.core (.payloadTooLarge bytes.length limit)) else .ok bytes

/-! ## PUT and DELETE -/

/-- The characters of a path that are not percent-encoded. -/
def isPathChar (c : Char) : Bool :=
  ('a' ≤ c ∧ c ≤ 'z') || ('A' ≤ c ∧ c ≤ 'Z') || ('0' ≤ c ∧ c ≤ '9') || c = '-' || c = '.' || c = '_' ||
    c = '~' || c = '/'

def objectLocation (kb : KbSlug) (path : ObjectPath) : Text :=
  "/api/v1/knowledgebases/".toList ++ kb.val ++ '/' :: Percent.encode isPathChar path.val

theorem isPathChar_visible {c : Char} (h : isPathChar c = true) : HeaderMap.IsVisible c := by
  have between : ∀ lo hi : Char, 32 ≤ lo.toNat → hi.toNat < 127 → lo ≤ c ∧ c ≤ hi →
      HeaderMap.IsVisible c := by
    intro lo hi hlo hhi hc
    exact .inl ⟨hlo.trans hc.1, Nat.lt_of_le_of_lt hc.2 hhi⟩
  simp only [isPathChar, Bool.or_eq_true, decide_eq_true_eq] at h
  rcases h with ((((((h | h) | h) | rfl) | rfl) | rfl) | rfl) | rfl
  · exact between 'a' 'z' (by decide) (by decide) h
  · exact between 'A' 'Z' (by decide) (by decide) h
  · exact between '0' '9' (by decide) (by decide) h
  · exact .inl (by decide)
  · exact .inl (by decide)
  · exact .inl (by decide)
  · exact .inl (by decide)
  · exact .inl (by decide)

theorem isSlugChar_isPathChar {c : Char} (h : isSlugChar c = true) : isPathChar c = true := by
  simp only [isSlugChar, isPathChar, Bool.or_eq_true, decide_eq_true_eq] at h ⊢
  tauto

/-- A location is visible text. -/
theorem objectLocation_visible (kb : KbSlug) (path : ObjectPath) :
    ∀ c ∈ objectLocation kb path, HeaderMap.IsVisible c := by
  have hroot : "/api/v1/knowledgebases/".toList.all isPathChar = true := by decide
  have hdigit : ∀ n : Fin 16, isPathChar (Percent.hexDigit n) = true := by decide
  intro c hc
  unfold objectLocation at hc
  rcases List.mem_append.mp hc with hc | hc
  · rcases List.mem_append.mp hc with hc | hc
    · exact isPathChar_visible (List.all_eq_true.mp hroot c hc)
    · exact isPathChar_visible (isSlugChar_isPathChar (validateSlug_chars kb.valid c hc))
  · rcases List.mem_cons.mp hc with hc | hc
    · rw [hc]
      exact isPathChar_visible (by decide)
    · rcases Percent.mem_encode hc with hkeep | hc | ⟨n, hc⟩
      · exact isPathChar_visible hkeep
      · rw [hc]
        exact .inl (by decide)
      · rw [hc]
        exact isPathChar_visible (hdigit n)

/-- Create or replace an object. -/
def putObject (state : AppState) (kb : KbSlug) (path : ObjectPath) (headers : HeaderMap)
    (body : List (Except String Bytes)) : Program (Except ApiError ObjectResponse) := do
  let contentType := headers.getStr "content-type"
  match readBoundedBody headers body state.maxBodySize with
  | .error e => return .error e
  | .ok bytes =>
    match ← Write.commit state.json (state.sinks headers) kb path ⟨bytes, none⟩ contentType
        (ConditionalHeaders.fromHeaderMap headers) with
    | .error e => return .error (.ofWrite e)
    | .ok outcome =>
      let created : HeaderMap :=
        if outcome.created then [("location", Utf8.encode (objectLocation kb path))] else []
      return .ok (.build (if outcome.created then 201 else 204)
        (created ++ (outcome.etag.map fun etag => ("etag", Utf8.encode etag)).toList) [])

def deleteObject (state : AppState) (kb : KbSlug) (path : ObjectPath) (headers : HeaderMap) :
    Program (Except ApiError ObjectResponse) := do
  match ← Write.commitDelete (state.sinks headers) kb path (ConditionalHeaders.fromHeaderMap headers) with
  | .error e => return .error (.ofWrite e)
  | .ok () => return .ok ⟨204, [], []⟩

/-! ## Replacing text -/

/-- The outcome of a replace, sent as JSON. -/
structure ReplaceResponse where
  etag : Text
  matchCount : Nat
  totalBytes : Nat
deriving DecidableEq

/-- The response of a replace; `body` is `none` when a header could not be sent. -/
structure ReplaceAnswer where
  status : Nat
  headers : HeaderMap
  body : Option ReplaceResponse
deriving DecidableEq

def ReplaceAnswer.build (headers : HeaderMap) (body : ReplaceResponse) : ReplaceAnswer :=
  if headers.all fun header => HeaderMap.isValidValue header.2 then ⟨200, headers, some body⟩
  else ⟨500, [], none⟩

def replaceConditionals (headers : HeaderMap) : Except ApiError ConditionalHeaders :=
  if (headers.get "if-match").isNone then
    .error (.preconditionRequired "If-Match is required for POST replace")
  else
    match headers.getStr "if-match" with
    | none => .error (.core (.invalidInput
        "If-Match is required for POST replace and must be a single strong ETag"))
    | some value =>
      if value = ['*'] ∨ ',' ∈ value then
        .error (.core (.invalidInput
          "If-Match is required for POST replace and must be a single strong ETag"))
      else .ok (ConditionalHeaders.fromHeaderMap headers)

/-- The checks of a replacement request, and what it asks for. -/
def replaceRequest (state : AppState) (kb : KbSlug) (path : ObjectPath) (headers : HeaderMap)
    (body : List (Except String Bytes)) : Except ApiError Write.ReplaceRequest := do
  let jsonCap := saturatingAdd (saturatingMul state.maxPatchableSize 2) 4096
  rejectDeclaredOversize headers jsonCap
  let conditionals ← replaceConditionals headers
  let bytes ← readBoundedBody headers body jsonCap
  match state.replaceJson bytes with
  | .error e => .error (.core (.invalidInput ("malformed replace JSON body: " ++ e)))
  | .ok body =>
    if body.oldString = [] then .error (.core (.invalidInput "old_string must be non-empty"))
    else .ok ⟨kb, path, body.oldString, body.newString, body.replaceAll, conditionals,
      state.maxPatchableSize, none⟩

theorem replaceRequest_key {state : AppState} {kb : KbSlug} {path : ObjectPath} {headers : HeaderMap}
    {body : List (Except String Bytes)} {request : Write.ReplaceRequest}
    (h : replaceRequest state kb path headers body = .ok request) :
    request.kb = kb ∧ request.path = path := by
  unfold replaceRequest at h
  obtain ⟨-, -, h⟩ := Except.bind_eq_ok.mp h
  obtain ⟨conditionals, -, h⟩ := Except.bind_eq_ok.mp h
  obtain ⟨bytes, -, h⟩ := Except.bind_eq_ok.mp h
  split at h
  · cases h
  · split at h
    · cases h
    · cases h
      exact ⟨rfl, rfl⟩

/-- The answer to a replacement: the write's outcome and what a later HEAD reports. -/
def replaceAnswer (kb : KbSlug) (path : ObjectPath) (outcome : Write.ReplaceOutcome)
    (objectMeta : ObjectMeta) : ReplaceAnswer :=
  let etag := (outcome.putOutcome.etag.or objectMeta.etag).getD []
  .build [("content-location", Utf8.encode (objectLocation kb path)), ("etag", Utf8.encode etag)]
    ⟨etag, outcome.matchCount, objectMeta.size⟩

/-- Replace text within an object. -/
def replaceObject (state : AppState) (kb : KbSlug) (path : ObjectPath) (headers : HeaderMap)
    (body : List (Except String Bytes)) : Program (Except ApiError ReplaceAnswer) :=
  match replaceRequest state kb path headers body with
  | .error e => return .error e
  | .ok request => do
    match ← Write.replace state.json (state.sinks headers) request with
    | .error e => return .error (.ofWrite e)
    | .ok outcome =>
      match ← Program.storage (.head kb path {}) with
      | .error e => return .error (.ofStorage e)
      | .ok objectMeta => return .ok (replaceAnswer kb path outcome objectMeta)

/-! ## What the handlers do -/

section Specs

open Prog (wp)
open Semantics (Event Quiet)

variable {S : Semantics} {R : Rely World} {G : List Event → Event → Prop} {h : List Event} {w : World}
variable {state : AppState} {kb : KbSlug} {path : ObjectPath} {headers : HeaderMap}

theorem readBoundedBody_ok {limit : Nat} {bytes received : Bytes}
    (h : readBoundedBody headers [.ok bytes] limit = .ok received) : received = bytes := by
  unfold readBoundedBody at h
  obtain ⟨-, -, h⟩ := Except.bind_eq_ok.mp h
  split at h
  · cases h
  · next collected hcollected =>
    split at h
    · cases h
    · cases h
      simp only [collectBody, List.nil_append] at hcollected
      split at hcollected
      · cases hcollected
      · exact (Option.some.inj hcollected).symm

/-- The version a PUT stores, but for its stamp. -/
def IsPut (headers : HeaderMap) (path : ObjectPath) (bytes : Bytes) (u : Version) : Prop :=
  u.bytes = bytes ∧
    u.contentType = some (Write.sniffContentType (headers.getStr "content-type") path)

/-- A PUT that is answered with success has stored its body. `T` is a preorder that the environment and
every step keep to. -/
theorem wp_putObject (hq : Quiet R G) {T : Rely World} (hrely : ∀ {w w'}, R.rel w w' → T.rel w w')
    (hstep : ∀ {w o r w'}, S.Step w o r w' → T.rel w w') {bytes : Bytes}
    {Q : Except ApiError ObjectResponse → List Event → World → Prop}
    (hG : ∀ w' o r u, G h ⟨w', o, r, w'.apply (.stored (kb, path) u)⟩)
    (hQ : ∀ answer h' w', h <+: h' → T.rel w w' →
      (∀ response, answer = .ok response → ∃ p ∈ h', ∃ u, IsPut headers path bytes u ∧ R.rel w p.pre ∧
        p.post = p.pre.apply (.stored (kb, path) u) ∧ R.rel p.post w') → Q answer h' w') :
    wp S.Step R G (putObject state kb path headers [.ok bytes]) Q h w := by
  have herr : ∀ e h' w', h <+: h' → T.rel w w' → Q (.error e) h' w' := by
    intro e h' w' hh hT
    refine hQ _ _ _ hh hT fun response hok => ?_
    cases hok
  unfold putObject
  dsimp only
  split
  · exact fun w' hR => herr _ _ _ List.prefix_rfl (hrely hR)
  next received hreceived =>
  obtain rfl := readBoundedBody_ok hreceived
  apply wp.bind
  unfold Write.commit
  split
  · exact fun w' hR w'' hR' => herr _ _ _ List.prefix_rfl (hrely (R.trans hR hR'))
  split
  · exact fun w' hR w'' hR' => herr _ _ _ List.prefix_rfl (hrely (R.trans hR hR'))
  refine Semantics.wp_put (fun w₁ e hR₁ => ⟨hq.guarantee _ _ rfl, fun w' hR' w'' hR'' => ?_⟩)
    fun w₁ stamp hR₁ hput _ => ⟨hG _ _ _ _, ?_⟩
  · exact herr _ _ _ (List.prefix_append _ _) (hrely (R.trans hR₁ (R.trans hR' hR'')))
  apply wp.bind
  refine Write.wp_report hq fun reported h' w' hh hR' => ?_
  have hprefix := (List.prefix_append h _).trans hh
  have hstored := T.trans (hrely hR₁) (hstep hput)
  cases reported with
  | error e =>
    exact fun w'' hR'' w₃ hR₃ => herr _ _ _ hprefix
      (T.trans hstored (hrely (R.trans hR' (R.trans hR'' hR₃))))
  | ok u =>
    refine fun w'' hR'' w₃ hR₃ => hQ _ _ _ hprefix
      (T.trans hstored (hrely (R.trans hR' (R.trans hR'' hR₃)))) fun response _ => ?_
    exact ⟨_, hh.subset (List.mem_append_right _ (List.mem_singleton.mpr rfl)),
      ⟨received, _, stamp.etag, stamp.lastModified⟩, ⟨rfl, rfl⟩, hR₁, rfl,
      R.trans hR' (R.trans hR'' hR₃)⟩

/-- The object is gone when a DELETE is answered with success. -/
theorem wp_deleteObject (hq : Quiet R G)
    {Q : Except ApiError ObjectResponse → List Event → World → Prop}
    (hG : ∀ w' v, R.rel w w' → w'.get (kb, path) = some v →
      (∀ expected ∈ headers.getStr "if-match", Preconditions.matchesIfMatch v.etag.val expected = true) →
      ∀ o r, G h ⟨w', o, r, w'.apply (.erased (kb, path))⟩)
    (hQ : ∀ answer h' w', h <+: h' →
      (∀ response, answer = .ok response → ∃ e ∈ h',
        e.op = .storage (.delete kb path (ConditionalHeaders.fromHeaderMap headers)) ∧ R.rel w e.pre ∧
        (e.post = e.pre ∨ e.post = e.pre.apply (.erased (kb, path))) ∧ e.post.get (kb, path) = none ∧
        R.rel e.post w') → Q answer h' w') :
    wp S.Step R G (deleteObject state kb path headers) Q h w := by
  have herr : ∀ e h' w', h <+: h' → Q (.error e) h' w' := by
    intro e h' w' hh
    refine hQ _ _ _ hh fun response hok => ?_
    cases hok
  -- the report of a delete, after an operation that left the object gone
  have hafter : ∀ e : Event, e.op = .storage (.delete kb path (ConditionalHeaders.fromHeaderMap headers)) →
      R.rel w e.pre → (e.post = e.pre ∨ e.post = e.pre.apply (.erased (kb, path))) →
      e.post.get (kb, path) = none →
      wp S.Step R G (Write.afterDelete (state.sinks headers) kb path)
        (fun a h' w' => wp S.Step R G (match a with
          | .error e => .ret (.error (.ofWrite e))
          | .ok () => .ret (.ok ⟨204, [], []⟩)) Q h' w') (h ++ [e]) e.post := by
    intro e hop hR hpost hnone
    refine Write.wp_report hq fun a h' w' hh hR' => ?_
    have hprefix := (List.prefix_append h _).trans hh
    cases a with
    | error e => exact fun w'' _ => herr _ _ _ hprefix
    | ok u =>
      refine fun w'' hR'' => hQ _ _ _ hprefix fun response _ => ?_
      exact ⟨e, hh.subset (List.mem_append_right _ (List.mem_singleton.mpr rfl)), hop, hR, hpost, hnone,
        R.trans hR' hR''⟩
  unfold deleteObject
  apply wp.bind
  intro w₁ hR₁ r w₂ hstep
  have hcases := hstep.delete_cases
  rcases hcases with ⟨e, rfl, rfl⟩ | ⟨hv, rfl, rfl⟩ | ⟨v, hv, hmatch, -, rfl, rfl⟩
  · refine ⟨hq.guarantee _ _ rfl, ?_⟩
    cases e with
    | notFound key => exact absurd hstep (fun h => h.delete_ne_notFound)
    | _ => exact fun w' _ w'' _ => herr _ _ _ (List.prefix_append _ _)
  · exact ⟨hq.guarantee _ _ rfl, hafter _ rfl hR₁ (.inl rfl) hv⟩
  · refine ⟨hG w₁ v hR₁ hv hmatch _ _, hafter _ rfl hR₁ (.inr rfl) ?_⟩
    simp [World.get, Store.get_apply]

end Specs

end Api
