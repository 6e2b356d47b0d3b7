-- SUMMARY: Reading an object over the HTTP API, whole or in part, and which version a conditional range read answers from.
import NotedThat.Api.Errors
import NotedThat.Api.Ranges
import NotedThat.Core.Headers
import NotedThat.Core.Laws

/-!
# Reading an object

A byte range read that carries `If-Range` may read twice: first the slice, then, when the validator does
not match or the slice does not exist, the whole object. Another client may write between the two. The
crates that read media types and format dates are parameters.
-/

namespace Api

/-- A parsed media type. -/
structure Mime where
  type : Text
  subtype : Text
  suffix : Option Text
  charset : Option Text
deriving DecidableEq

/-- The crates behind the read handlers. -/
structure Codecs where
  parseMime : Text → Option Mime
  parseHttpDate : Text → Except String Nat
  fmtHttpDate : Nat → Text

/-! ## Responses -/

structure ObjectResponse where
  status : Nat
  headers : HeaderMap
  body : Bytes
deriving DecidableEq

/-- Finish a response: a header value that cannot be sent makes it a bare 500. -/
def ObjectResponse.build (status : Nat) (headers : HeaderMap) (body : Bytes) : ObjectResponse :=
  if headers.all fun header => HeaderMap.isValidValue header.2 then ⟨status, headers, body⟩
  else ⟨500, [], []⟩

def Mime.isTextual (media : Mime) : Bool :=
  media.type = "text".toList ||
    (media.type = "application".toList &&
      (media.subtype = "json".toList || media.suffix = some "json".toList ||
        media.subtype = "xml".toList || media.suffix = some "xml".toList))

section Responses

variable (codecs : Codecs)

def normalizeContentType (contentType : Text) : Text :=
  match codecs.parseMime contentType with
  | none => contentType
  | some media =>
    if media.isTextual ∧ media.charset = none then contentType ++ "; charset=utf-8".toList
    else contentType

/-- The `Content-Type` a read answers with. -/
def responseContentType (stored : Option Text) : Text :=
  normalizeContentType codecs (stored.getD "application/octet-stream".toList)

/-- The last second that has an HTTP-date. -/
def latestFormattable : Int := 253402300799

def httpDate (unixSeconds : Int) : Option Text :=
  if 0 ≤ unixSeconds ∧ unixSeconds ≤ latestFormattable then some (codecs.fmtHttpDate unixSeconds.toNat)
  else none

/-- The validator headers every object response carries. -/
def validators (etag : Option Text) (lastModified : Option Int) : HeaderMap :=
  (etag.map fun etag => ("etag", Utf8.encode etag)).toList ++
    ((lastModified.bind (httpDate codecs)).map fun date => ("last-modified", Utf8.encode date)).toList

/-- A number as a header value. -/
def decimal (n : Nat) : Bytes := Utf8.encode (Nat.toDigits 10 n)

/-- The response for a byte read: 206 when the backend served a slice, 200 otherwise. -/
def fullOrPartialResponse (read : ObjectRead) : ObjectResponse :=
  .build (if read.contentRange.isSome then 206 else 200)
    ([("content-type", Utf8.encode (responseContentType codecs read.objectMeta.contentType)),
        ("content-length", decimal read.bytes.length), ("accept-ranges", Utf8.encode "bytes".toList)] ++
      validators codecs read.objectMeta.etag read.objectMeta.lastModified ++
      (read.contentRange.map fun value => ("content-range", Utf8.encode value.toList)).toList)
    read.bytes

/-- The headers that say which bytes a line range spans: an empty slice has no inclusive end and names
its offset instead. -/
def byteHeaders (index : LineIndex) (start stop : Nat) : HeaderMap :=
  if stop ≤ start then
    [("x-content-range-bytes", Utf8.encode ("*/".toList ++ Nat.toDigits 10 index.totalBytes)),
      ("x-insert-offset", decimal start)]
  else
    [("x-content-range-bytes", Utf8.encode (Nat.toDigits 10 start ++
      '-' :: Nat.toDigits 10 (stop - 1) ++ '/' :: Nat.toDigits 10 index.totalBytes))]

/-- The response for the lines `lineRange`, which are the bytes from `start` to `stop`. -/
def lineResponse (read : ObjectRead) (lineRange : LineRange) (start stop : Nat) : ObjectResponse :=
  let index := LineIndex.fromBytes read.bytes
  let sliced := (read.bytes.drop start).take (stop - start)
  .build 206
    ([("content-type", Utf8.encode (responseContentType codecs read.objectMeta.contentType)),
        ("content-length", decimal sliced.length)] ++
      validators codecs read.objectMeta.etag read.objectMeta.lastModified ++
      [("content-range", Utf8.encode (index.contentRangeString lineRange))] ++
      byteHeaders index start stop)
    sliced

/-! ## The handler -/

/-- A missing object is reported by its path. -/
def readError (path : ObjectPath) : StorageError → ApiError
  | .notFound _ => .core (.notFound (String.ofList path.val))
  | e => .ofStorage e

/-- Whether the validator describes the version a read was cut from. -/
def readMatches (ifRange : Text) (read : ObjectRead) : Bool :=
  Preconditions.ifRangeMatches codecs.parseHttpDate ifRange read.objectMeta.etag
    read.objectMeta.lastModified

/-- What a line read makes of the whole object. -/
def lineAnswer (lineRange : LineRange) (ifRange : Option Text) (read : ObjectRead) :
    Except ApiError ObjectResponse :=
  if ifRange.any fun ifRange => !readMatches codecs ifRange read then
    .ok (fullOrPartialResponse codecs read)
  else
    let index := LineIndex.fromBytes read.bytes
    match index.byteRange lineRange with
    | none => .error (.lineRangeNotSatisfiable index.totalLines index.totalBytes)
    | some (start, stop) => .ok (lineResponse codecs read lineRange start stop)

def serveLineRangeRead (kb : KbSlug) (path : ObjectPath) (rawRange : Text)
    (conditionals : ConditionalHeaders) (ifRange : Option Text) :
    Program (Except ApiError ObjectResponse) :=
  match Range.parseLineRangeHeader rawRange with
  | .error e => return .error (.core (.malformedRange (String.ofList rawRange ++ ": " ++ e.display)))
  | .ok lineRange => do
    match ← Program.storage (.get kb path none conditionals) with
    | .error e => return .error (readError path e)
    | .ok read => return lineAnswer codecs lineRange ifRange read

/-- The second read of a conditional range read, which asks for the whole object. `unsatisfiable` is what
the first one was refused with. -/
def serveWhole (kb : KbSlug) (path : ObjectPath) (conditionals : ConditionalHeaders) (ifRange : Text)
    (unsatisfiable : Option StorageError) : Program (Except ApiError ObjectResponse) := do
  match ← Program.storage (.get kb path none conditionals) with
  | .error e => return .error (readError path e)
  | .ok full =>
    match unsatisfiable.filter fun _ => readMatches codecs ifRange full with
    | some e => return .error (readError path e)
    | none => return .ok (fullOrPartialResponse codecs full)

/-- A read of bytes, whole or in part. -/
def serveBytes (kb : KbSlug) (path : ObjectPath) (range : Option ByteRange)
    (conditionals : ConditionalHeaders) (ifRange : Option Text) :
    Program (Except ApiError ObjectResponse) := do
  let read ← Program.storage (.get kb path range conditionals)
  match ifRange.filter fun _ => range.isSome with
  | none =>
    match read with
    | .error e => return .error (readError path e)
    | .ok read => return .ok (fullOrPartialResponse codecs read)
  | some ifRange =>
    match read with
    | .ok read =>
      if readMatches codecs ifRange read then return .ok (fullOrPartialResponse codecs read)
      else serveWhole codecs kb path conditionals ifRange none
    | .error (.rangeNotSatisfiable length) =>
      -- a 416 stands only if the validator matches
      serveWhole codecs kb path conditionals ifRange (some (.rangeNotSatisfiable length))
    | .error e => return .error (readError path e)

/-- The validator of a request; one that is no text matches nothing. -/
def ifRangeHeader (headers : HeaderMap) : Option Text :=
  (headers.get "if-range").map fun value => (HeaderMap.toStr value).getD []

/-- Read an object the caller may read. -/
def getObject (kb : KbSlug) (path : ObjectPath) (headers : HeaderMap) :
    Program (Except ApiError ObjectResponse) :=
  let conditionals := ConditionalHeaders.fromHeaderMap headers
  let ifRange := ifRangeHeader headers
  match headers.get "range" with
  | none => serveBytes codecs kb path none conditionals ifRange
  | some raw =>
    match HeaderMap.toStr raw with
    | none => return .error (.core (.malformedRange "non-UTF-8 Range header"))
    | some rawStr =>
      match Range.parseRangeHeader rawStr with
      | .error e => return .error (.core (.malformedRange (String.ofList rawStr ++ ": " ++ e.display)))
      | .ok parsed =>
        if parsed.unit = "lines".toList then
          serveLineRangeRead codecs kb path rawStr conditionals ifRange
        else serveBytes codecs kb path parsed.range conditionals ifRange

end Responses

/-! ## What a response was made from -/

theorem ObjectResponse.build_eq {status : Nat} {headers : HeaderMap} {body : Bytes}
    (h : (build status headers body).status ≠ 500) : build status headers body = ⟨status, headers, body⟩ := by
  unfold build at h ⊢
  split at h
  · next hvalid => rw [if_pos hvalid]
  · exact absurd rfl h

/-- The status of an answer. -/
def answerStatus : Except ApiError ObjectResponse → Nat
  | .ok response => response.status
  | .error e => e.status

/-- The bytes of a version from `start` to `stop`. -/
def cut (v : Version) (start stop : Nat) : Bytes := (v.bytes.drop start).take (stop - start)

section Versions

variable {codecs : Codecs} {path : ObjectPath} {v : Version} {read : ObjectRead}

/-- A successful byte response carries the bytes of the read; it is partial when the read was. -/
theorem fullOrPartialResponse_ok (h : (fullOrPartialResponse codecs read).status ≠ 500) :
    (fullOrPartialResponse codecs read).body = read.bytes ∧
      (fullOrPartialResponse codecs read).status = if read.contentRange.isSome then 206 else 200 := by
  unfold fullOrPartialResponse at h ⊢
  rw [ObjectResponse.build_eq h]
  exact ⟨rfl, rfl⟩

theorem readVersion_none (h : StorageOp.readVersion path v none = .ok read) :
    read = v.wholeRead path := by
  unfold StorageOp.readVersion at h
  simp only [ByteRange.resolveRange, bind, Except.bind, Except.ok.injEq] at h
  exact h.symm

theorem readVersion_some {range : ByteRange} (h : StorageOp.readVersion path v (some range) = .ok read) :
    ∃ start stop, range.toExclusiveRange v.size = some (start, stop) ∧ read.bytes = cut v start stop ∧
      read.contentRange.isSome = true := by
  unfold StorageOp.readVersion at h
  obtain ⟨resolved, hresolved, hread⟩ := Except.bind_eq_ok.mp h
  unfold ByteRange.resolveRange at hresolved
  simp only at hresolved
  split at hresolved
  · cases hresolved
  · next start stop hexclusive =>
    cases hresolved
    cases hread
    exact ⟨start, stop, hexclusive, rfl, rfl⟩

/-- A read shows the validators of the version it was cut from. -/
theorem readVersion_validators {range : Option ByteRange}
    (h : StorageOp.readVersion path v range = .ok read) :
    read.objectMeta.etag = some v.etag.val ∧ read.objectMeta.lastModified = some (v.lastModified : Int) ∧
      read.objectMeta.contentType = v.contentType := by
  unfold StorageOp.readVersion at h
  obtain ⟨resolved, -, hread⟩ := Except.bind_eq_ok.mp h
  split at hread
  · cases hread
    exact ⟨rfl, rfl, rfl⟩
  · cases hread
    exact ⟨rfl, rfl, rfl⟩

theorem fullOrPartialResponse_whole :
    fullOrPartialResponse codecs (v.wholeRead path) =
      .build 200 ([("content-type", Utf8.encode (responseContentType codecs v.contentType)),
        ("content-length", decimal v.bytes.length), ("accept-ranges", Utf8.encode "bytes".toList)] ++
        validators codecs (some v.etag.val) (some (v.lastModified : Int))) v.bytes := by
  simp [fullOrPartialResponse, Version.wholeRead, Version.objectMeta]

/-- What a successful read of the whole object tells. -/
theorem wholeResponse (h : (fullOrPartialResponse codecs (v.wholeRead path)).status ≠ 500) :
    (fullOrPartialResponse codecs (v.wholeRead path)).body = v.bytes ∧
      (fullOrPartialResponse codecs (v.wholeRead path)).headers.getStr "etag" =
        HeaderMap.toStr (Utf8.encode v.etag.val) ∧
      (fullOrPartialResponse codecs (v.wholeRead path)).headers.getStr "content-type" =
        HeaderMap.toStr (Utf8.encode (responseContentType codecs v.contentType)) := by
  unfold fullOrPartialResponse at h ⊢
  rw [ObjectResponse.build_eq h]
  refine ⟨rfl, ?_, ?_⟩
  · simp [Version.wholeRead, Version.objectMeta, validators, HeaderMap.getStr, HeaderMap.get, HeaderMap.getAll]
  · simp [Version.wholeRead, Version.objectMeta, HeaderMap.getStr, HeaderMap.get, HeaderMap.getAll]

end Versions

/-! ## A range with a validator -/

/-- The part of an object that is asked for. -/
inductive Selection where
  | bytes (range : ByteRange)
  | lines (range : LineRange)
deriving DecidableEq

/-- The bytes of a version that are asked for, if it has them. -/
def Selection.slice (v : Version) : Selection → Option (Nat × Nat)
  | .bytes range => range.toExclusiveRange v.size
  | .lines range => (LineIndex.fromBytes v.bytes).byteRange range

/-- What a `Range` header asks for; `none` for the whole object and for a header that is refused. -/
def selection (rawStr : Text) : Option Selection :=
  match Range.parseRangeHeader rawStr with
  | .error _ => none
  | .ok parsed =>
    if parsed.unit = "lines".toList then
      match Range.parseLineRangeHeader rawStr with
      | .error _ => none
      | .ok lineRange => some (.lines lineRange)
    else parsed.range.map .bytes

def requested (headers : HeaderMap) : Option Selection := (headers.getStr "range").bind selection

/-- Whether the validator describes a version. -/
def versionMatches (codecs : Codecs) (ifRange : Text) (v : Version) : Bool :=
  Preconditions.ifRangeMatches codecs.parseHttpDate ifRange (some v.etag.val) (some (v.lastModified : Int))

open Prog (wp)
open Semantics (Event)

/-- The version was current when the request performed one of its operations. -/
def Met (k : Key) (tr : List Event) (v : Version) : Prop := ∃ e ∈ tr, e.pre.get k = some v

/-- A range read with a validator: what a 206, a 200 and a 416 say. -/
structure IfRangeKept (codecs : Codecs) (k : Key) (headers : HeaderMap) (ifRange : Text)
    (tr : List Event) (answer : Except ApiError ObjectResponse) : Prop where
  sliced : ∀ response, answer = .ok response → response.status = 206 →
    ∃ v selection start stop, Met k tr v ∧ versionMatches codecs ifRange v = true ∧
      requested headers = some selection ∧ selection.slice v = some (start, stop) ∧
      response.body = cut v start stop
  whole : ∀ response, answer = .ok response → response.status = 200 →
    ∃ v, Met k tr v ∧ response.body = v.bytes
  refused : answerStatus answer = 416 →
    ∃ v selection, Met k tr v ∧ versionMatches codecs ifRange v = true ∧
      requested headers = some selection ∧ selection.slice v = none

/-- The two reads of a request: the first met a version that the validator does not match and that is
too short, the second one that it does match and that is long enough. -/
def Switched (codecs : Codecs) (k : Key) (headers : HeaderMap) (ifRange : Text) (tr : List Event) : Prop :=
  ∃ e₁ e₂ v₁ v₂, tr = [e₁, e₂] ∧ e₁.pre.get k = some v₁ ∧ e₂.pre.get k = some v₂ ∧
    ∃ selection, requested headers = some selection ∧ selection.slice v₁ = none ∧
      versionMatches codecs ifRange v₁ = false ∧ versionMatches codecs ifRange v₂ = true ∧
      selection.slice v₂ ≠ none

theorem readError_status {path : ObjectPath} {e : StorageError} (h : (readError path e).status = 416) :
    ∃ length, e = .rangeNotSatisfiable length := by
  cases e with
  | rangeNotSatisfiable length => exact ⟨length, rfl⟩
  | _ => simp [readError, ApiError.ofStorage, ApiError.status, ApiError.storageStatus] at h

section Whole

variable {S : Semantics} {codecs : Codecs} {kb : KbSlug} {path : ObjectPath} {headers : HeaderMap}

/-- A read without a range asks storage for the whole object. -/
theorem wp_getObject_whole {R : Rely World} {G : List Event → Event → Prop}
    {h : List Event} {w : World} {Q : Except ApiError ObjectResponse → List Event → World → Prop}
    (hrange : headers.get "range" = none) (hif : headers.get "if-range" = none)
    (hG : ∀ e : Event, e.post = e.pre → G h e)
    (hQ : ∀ answer e w', (∀ response, answer = .ok response → ∃ v, e.pre.get (kb, path) = some v ∧
        response = fullOrPartialResponse codecs (v.wholeRead path)) ∧ answerStatus answer ≠ 416 →
      R.rel w e.pre → e.post = e.pre → R.rel e.post w' → Q answer (h ++ [e]) w') :
    wp S.Step R G (getObject codecs kb path headers) Q h w := by
  have heq : getObject codecs kb path headers =
      serveBytes codecs kb path none (ConditionalHeaders.fromHeaderMap headers) none := by
    simp [getObject, hrange, ifRangeHeader, hif]
  rw [heq]
  unfold serveBytes
  refine Semantics.wp_get (fun w' e hR hstep => ⟨hG _ rfl, fun w'' hR' => hQ _ _ _ ⟨?_, ?_⟩ hR rfl hR'⟩)
    fun w' v read hR hv _ hread => ⟨hG _ rfl, fun w'' hR' => hQ _ _ _ ⟨?_, ?_⟩ hR rfl hR'⟩
  · intro response hok
    cases hok
  · intro hstatus
    obtain ⟨length, rfl⟩ := readError_status hstatus
    obtain ⟨v, r, -, hrange, -⟩ := hstep.get_unsatisfiable
    cases hrange
  · intro response hok
    cases hok
    obtain rfl := readVersion_none hread
    exact ⟨v, hv, rfl⟩
  · intro hstatus
    change (fullOrPartialResponse codecs read).status = 416 at hstatus
    obtain rfl := readVersion_none hread
    rw [fullOrPartialResponse_whole, ObjectResponse.build] at hstatus
    split at hstatus <;> cases hstatus

end Whole

section IfRange

variable {S : Semantics} {codecs : Codecs} {kb : KbSlug} {path : ObjectPath} {headers : HeaderMap}
variable {ifRange : Text} {tr : List Event} {w : World}

theorem IfRangeKept.of_error {e : ApiError}
    (h : e.status = 416 → ∃ v selection, Met (kb, path) tr v ∧ versionMatches codecs ifRange v = true ∧
      requested headers = some selection ∧ selection.slice v = none) :
    IfRangeKept codecs (kb, path) headers ifRange tr (.error e) where
  sliced := by
    intro response hok
    cases hok
  whole := by
    intro response hok
    cases hok
  refused := h

/-- A read of the whole object answers a 200, whatever was asked for. -/
theorem IfRangeKept.of_whole {v : Version} (hv : Met (kb, path) tr v) :
    IfRangeKept codecs (kb, path) headers ifRange tr
      (.ok (fullOrPartialResponse codecs (v.wholeRead path))) := by
  have hbody : (fullOrPartialResponse codecs (v.wholeRead path)).status ≠ 500 →
      (fullOrPartialResponse codecs (v.wholeRead path)).body = v.bytes ∧
        (fullOrPartialResponse codecs (v.wholeRead path)).status = 200 := fullOrPartialResponse_ok
  refine ⟨?_, ?_, ?_⟩
  · intro response hok hstatus
    cases hok
    have := (hbody (by omega)).2
    omega
  · intro response hok hstatus
    cases hok
    exact ⟨v, hv, (hbody (by omega)).1⟩
  · intro hstatus
    change (fullOrPartialResponse codecs (v.wholeRead path)).status = 416 at hstatus
    have := (hbody (by omega)).2
    omega

/-- A slice of a version the validator matches. -/
theorem IfRangeKept.of_sliced {v : Version} {selection : Selection} {start stop : Nat}
    {response : ObjectResponse} (hv : Met (kb, path) tr v)
    (hmatch : versionMatches codecs ifRange v = true) (hrequested : requested headers = some selection)
    (hslice : selection.slice v = some (start, stop))
    (hbody : response.status ≠ 500 → response.body = cut v start stop ∧ response.status = 206) :
    IfRangeKept codecs (kb, path) headers ifRange tr (.ok response) := by
  refine ⟨?_, ?_, ?_⟩
  · intro response' hok hstatus
    cases hok
    exact ⟨v, selection, start, stop, hv, hmatch, hrequested, hslice, (hbody (by omega)).1⟩
  · intro response' hok hstatus
    cases hok
    have := (hbody (by omega)).2
    omega
  · intro hstatus
    change response.status = 416 at hstatus
    have := (hbody (by omega)).2
    omega

/-- The trace of a request that has just read. -/
theorem Met.last {h : List Event} {w' : World} {o : Op} {r : o.Res} {v : Version}
    (hv : w.get (kb, path) = some v) : Met (kb, path) (h ++ [⟨w, o, r, w'⟩]) v :=
  ⟨⟨w, o, r, w'⟩, List.mem_append_right _ (List.mem_singleton.mpr rfl), hv⟩

/-- A line read reads once, so its answer is about the version it read. -/
theorem wp_serveLineRangeRead {rawStr : Text} {conditionals : ConditionalHeaders}
    (hrequested : ∀ lineRange, Range.parseLineRangeHeader rawStr = .ok lineRange →
      requested headers = some (.lines lineRange)) :
    wp S.Step (Rely.any World) (fun _ _ => True)
      (serveLineRangeRead codecs kb path rawStr conditionals (some ifRange))
      (fun answer tr _ => IfRangeKept codecs (kb, path) headers ifRange tr answer) [] w := by
  unfold serveLineRangeRead
  split
  · exact fun w' _ => .of_error fun hstatus => by cases hstatus
  · next lineRange hline =>
    refine Semantics.wp_get (fun w' e _ hstep => ⟨trivial, fun _ _ => ?_⟩)
      fun w' v read _ hv _ hread => ⟨trivial, fun _ _ => ?_⟩
    · refine .of_error fun hstatus => ?_
      obtain ⟨length, rfl⟩ := readError_status hstatus
      obtain ⟨v, r, -, hrange, -⟩ := hstep.get_unsatisfiable
      cases hrange
    · obtain rfl := readVersion_none hread
      unfold lineAnswer
      split
      · exact .of_whole (.last hv)
      · next hmatch =>
        have hmatch : readMatches codecs ifRange (v.wholeRead path) = true := by simpa using hmatch
        dsimp only
        split
        · next hnone =>
          exact .of_error fun _ => ⟨v, _, .last hv, hmatch, hrequested _ hline, hnone⟩
        · next start stop hslice =>
          refine .of_sliced (.last hv) hmatch (hrequested _ hline) hslice fun hstatus => ?_
          unfold lineResponse at hstatus ⊢
          rw [ObjectResponse.build_eq hstatus]
          exact ⟨rfl, rfl⟩

/-- The second read: it serves what is current then, or lets the first read's refusal stand. -/
theorem wp_serveWhole {conditionals : ConditionalHeaders} {e₁ : Event}
    {unsatisfiable : Option StorageError}
    (hfirst : ∀ e ∈ unsatisfiable, ∃ v selection, e₁.pre.get (kb, path) = some v ∧
      requested headers = some selection ∧ selection.slice v = none) :
    wp S.Step (Rely.any World) (fun _ _ => True)
      (serveWhole codecs kb path conditionals ifRange unsatisfiable)
      (fun answer tr _ => ¬ Switched codecs (kb, path) headers ifRange tr →
        IfRangeKept codecs (kb, path) headers ifRange tr answer) [e₁] w := by
  unfold serveWhole
  refine Semantics.wp_get (fun w' e _ hstep => ⟨trivial, fun _ _ _ => ?_⟩)
    fun w' v read _ hv _ hread => ⟨trivial, ?_⟩
  · refine .of_error fun hstatus => ?_
    obtain ⟨length, rfl⟩ := readError_status hstatus
    obtain ⟨v, r, -, hrange, -⟩ := hstep.get_unsatisfiable
    cases hrange
  · obtain rfl := readVersion_none hread
    dsimp only
    split
    · next e he =>
      rw [Option.filter_eq_some_iff] at he
      intro _ _ hswitched
      refine .of_error fun _ => ?_
      obtain ⟨v₁, selection, hv₁, hrequested, hslice⟩ := hfirst e he.1
      have hmatch : versionMatches codecs ifRange v = true := he.2
      by_cases hmatch₁ : versionMatches codecs ifRange v₁ = true
      · exact ⟨v₁, selection, ⟨e₁, by simp, hv₁⟩, hmatch₁, hrequested, hslice⟩
      · refine ⟨v, selection, .last hv, hmatch, hrequested, ?_⟩
        by_contra hlong
        exact hswitched ⟨e₁, _, v₁, v, rfl, hv₁, hv, selection, hrequested, hslice,
          Bool.eq_false_of_not_eq_true hmatch₁, hmatch, hlong⟩
    · exact fun _ _ _ => .of_whole (.last hv)

theorem wp_serveBytes {range : Option ByteRange} {conditionals : ConditionalHeaders}
    (hrequested : ∀ r, range = some r → requested headers = some (.bytes r)) :
    wp S.Step (Rely.any World) (fun _ _ => True)
      (serveBytes codecs kb path range conditionals (some ifRange))
      (fun answer tr _ => ¬ Switched codecs (kb, path) headers ifRange tr →
        IfRangeKept codecs (kb, path) headers ifRange tr answer) [] w := by
  unfold serveBytes
  cases range with
  | none =>
    refine Semantics.wp_get (fun w' e _ hstep => ⟨trivial, fun _ _ _ => ?_⟩)
      fun w' v read _ hv _ hread => ⟨trivial, fun _ _ _ => ?_⟩
    · refine .of_error fun hstatus => ?_
      obtain ⟨length, rfl⟩ := readError_status hstatus
      obtain ⟨v, r, -, hrange, -⟩ := hstep.get_unsatisfiable
      cases hrange
    · obtain rfl := readVersion_none hread
      exact .of_whole (.last hv)
  | some range =>
    have hrequested := hrequested range rfl
    refine Semantics.wp_get (fun w' e _ hstep => ⟨trivial, ?_⟩)
      fun w' v read _ hv _ hread => ⟨trivial, ?_⟩
    · simp only [Option.filter, Option.isSome_some, if_true]
      split
      · next heq => cases heq
      · next length heq =>
        cases heq
        refine wp_serveWhole fun e _ => ?_
        obtain ⟨v, r, hv, hrange, hnone⟩ := hstep.get_unsatisfiable
        cases hrange
        exact ⟨v, _, hv, hrequested, hnone⟩
      · next hne heq =>
        cases heq
        refine fun _ _ _ => .of_error fun hstatus => ?_
        obtain ⟨length, hlength⟩ := readError_status hstatus
        exact absurd hlength (hne length)
    · simp only [Option.filter, Option.isSome_some, if_true]
      split
      · next hmatch =>
        obtain ⟨start, stop, hslice, hbytes, hsome⟩ := readVersion_some hread
        have hmatch : versionMatches codecs ifRange v = true := by
          obtain ⟨hetag, hmodified, -⟩ := readVersion_validators hread
          rwa [readMatches, hetag, hmodified] at hmatch
        refine fun _ _ _ => .of_sliced (.last hv) hmatch hrequested hslice fun hstatus => ?_
        have := fullOrPartialResponse_ok hstatus
        rwa [hsome, hbytes] at this
      · refine wp_serveWhole fun e he => ?_
        cases he

/-- In any interleaving with the operations of others, unless the object is switched under a refused
range: a 206 carries the requested slice of a version the validator matches, a 200 the whole of one
version, and a 416 is about a version the validator matches. -/
theorem getObject_ifRange {env : World → World → Prop} {w' : World}
    {answer : Except ApiError ObjectResponse} (hif : ifRangeHeader headers = some ifRange)
    (hrun : Prog.Exec S.Step env w (getObject codecs kb path headers) tr w' (.ret answer))
    (hswitched : ¬ Switched codecs (kb, path) headers ifRange tr) :
    IfRangeKept codecs (kb, path) headers ifRange tr answer := by
  have hwp : wp S.Step (Rely.any World) (fun _ _ => True) (getObject codecs kb path headers)
      (fun answer tr _ => ¬ Switched codecs (kb, path) headers ifRange tr →
        IfRangeKept codecs (kb, path) headers ifRange tr answer) [] w := by
    unfold getObject
    simp only [hif]
    split
    · exact wp_serveBytes fun r hr => by cases hr
    · next raw hraw =>
      split
      · exact fun _ _ _ => .of_error fun hstatus => by cases hstatus
      · next rawStr hstr =>
        have hrequested : requested headers = selection rawStr := by
          simp [requested, HeaderMap.getStr, hraw, hstr]
        split
        · exact fun _ _ _ => .of_error fun hstatus => by cases hstatus
        · next parsed hparsed =>
          split
          · next hunit =>
            refine (wp_serveLineRangeRead fun lineRange hline => ?_).mono fun _ _ _ hkept _ => hkept
            rw [hrequested, selection, hparsed]
            simp only [hunit, if_true, hline]
          · next hunit =>
            refine wp_serveBytes fun r hr => ?_
            rw [hrequested, selection, hparsed]
            simp only [hunit, if_false, hr, Option.map_some]
  exact (hwp.exec_ret hrun fun _ _ _ => trivial) hswitched

end IfRange

/-! ## A version the client knows comes back -/

/-- A request for a byte range. -/
theorem getObject_bytes {codecs : Codecs} {kb : KbSlug} {path : ObjectPath} {headers : HeaderMap}
    {rawStr : Text} {range : ByteRange} (hraw : headers.getStr "range" = some rawStr)
    (hparsed : Range.parseRangeHeader rawStr = .ok ⟨"bytes".toList, some range⟩) :
    getObject codecs kb path headers = serveBytes codecs kb path (some range)
      (ConditionalHeaders.fromHeaderMap headers) (ifRangeHeader headers) := by
  obtain ⟨raw, hget, hstr⟩ := Option.bind_eq_some_iff.mp hraw
  have hunit : "bytes".toList ≠ "lines".toList := by decide
  simp only [getObject, hget, hstr, hparsed, hunit, if_false]

/-- Codecs that know no media type and no date. -/
def plainCodecs : Codecs := ⟨fun _ => none, fun _ => .error "invalid HTTP-date", fun _ => []⟩

def rangeHeaders : HeaderMap :=
  [("range", Utf8.encode "bytes=4-5".toList), ("if-range", Utf8.encode "\"x\"".toList)]

def knownKey : Key := (KbSlug.notes, ObjectPath.aMd)

/-- The version whose entity tag the client sends. -/
def knownVersion : Version := Version.tagged 'x' [1, 2, 3, 4, 5, 6]

def shortVersion : Version := Version.tagged 'y' [1]

def knownNote : World := World.empty.apply (.stored knownKey knownVersion)

def shortened : World := knownNote.apply (.stored knownKey shortVersion)

/-- The known version is stored again, under the tag its bytes give it. -/
def restored : World := shortened.apply (.stored knownKey knownVersion)

theorem rangeHeaders_bytes : Range.parseRangeHeader "bytes=4-5".toList =
    .ok ⟨"bytes".toList, some (.fromStart 4 5)⟩ := by decide

theorem rangeHeaders_if : ifRangeHeader rangeHeaders = some "\"x\"".toList := by decide

theorem rangeHeaders_conditionals : ConditionalHeaders.fromHeaderMap rangeHeaders = {} := by
  decide

/-- What `bytes=4-5` asks of a read. -/
abbrev slicedGet : Op := .storage (.get KbSlug.notes ObjectPath.aMd (some (.fromStart 4 5)) {})

abbrev wholeGet : Op := .storage (.get KbSlug.notes ObjectPath.aMd none {})

theorem getObject_rangeHeaders : getObject plainCodecs KbSlug.notes ObjectPath.aMd rangeHeaders =
    serveBytes plainCodecs KbSlug.notes ObjectPath.aMd (some (.fromStart 4 5)) {}
      (some "\"x\"".toList) := by
  have hraw : HeaderMap.getStr rangeHeaders "range" = some "bytes=4-5".toList := by decide
  rw [getObject_bytes hraw rangeHeaders_bytes, rangeHeaders_if, rangeHeaders_conditionals]

/-- The request refused on the short version, with the known one back before the second read. -/
theorem restored_run :
    Prog.Exec (Semantics.faultless fun _ _ => True).Step
      ((Semantics.faultless fun _ _ => True).Env true) shortened
      (getObject plainCodecs KbSlug.notes ObjectPath.aMd rangeHeaders)
      [⟨shortened, slicedGet, .error (.rangeNotSatisfiable 1), shortened⟩,
        ⟨restored, wholeGet, .ok (knownVersion.wholeRead ObjectPath.aMd), restored⟩] restored
      (.ret (.error (.core (.storage (.rangeNotSatisfiable 1))))) := by
  have hshort : shortened.get knownKey = some shortVersion := by decide
  have hknown : restored.get knownKey = some knownVersion := by decide
  have hfirst : StorageOp.readVersion ObjectPath.aMd shortVersion (some (.fromStart 4 5)) =
      .error (.rangeNotSatisfiable 1) := by decide
  have hmatch : readMatches plainCodecs "\"x\"".toList (knownVersion.wholeRead ObjectPath.aMd) = true := by
    decide
  have henv : (Semantics.faultless fun _ _ => True).Env true shortened restored :=
    .inr ⟨.stored knownKey knownVersion, trivial, rfl⟩
  rw [getObject_rangeHeaders]
  refine .step (.get hshort hfirst trivial) (.env henv (.step (.get hknown rfl trivial) ?_))
  simp only [Prog.ret_bind, Option.filter]
  rw [if_pos hmatch]
  exact .done _ _

/-- A refused range although no version the object ever had both matches the validator and is too
short. -/
theorem getObject_switched :
    ∃ tr w' answer,
      Prog.Exec (Semantics.faultless fun _ _ => True).Step
        ((Semantics.faultless fun _ _ => True).Env true) shortened
        (getObject plainCodecs KbSlug.notes ObjectPath.aMd rangeHeaders) tr w' (.ret answer) ∧
      ifRangeHeader rangeHeaders = some "\"x\"".toList ∧
      requested rangeHeaders = some (.bytes (.fromStart 4 5)) ∧ answerStatus answer = 416 ∧
      ∀ v, (knownKey, v) ∈ w'.store.history →
        ¬ (versionMatches plainCodecs "\"x\"".toList v = true ∧
          (Selection.bytes (.fromStart 4 5)).slice v = none) := by
  refine ⟨_, restored, _, restored_run, rangeHeaders_if, by decide, rfl, ?_⟩
  intro v hv
  have hhistory : restored.store.history =
      [(knownKey, knownVersion), (knownKey, shortVersion), (knownKey, knownVersion)] := rfl
  rw [hhistory] at hv
  simp only [List.mem_cons, Prod.mk.injEq, true_and, List.not_mem_nil, or_false] at hv
  rcases hv with rfl | rfl | rfl
  · decide
  · decide
  · decide

/-- Undisturbed, the range is served from the version the client knows. -/
theorem getObject_ifRange_known :
    ∃ tr w' response,
      Prog.Exec (Semantics.faultless fun _ _ => True).Step
        ((Semantics.faultless fun _ _ => True).Env true) knownNote
        (getObject plainCodecs KbSlug.notes ObjectPath.aMd rangeHeaders) tr w' (.ret (.ok response)) ∧
      response.status = 206 ∧ response.body = [5, 6] ∧
      IfRangeKept plainCodecs knownKey rangeHeaders "\"x\"".toList tr (.ok response) := by
  have hknown : knownNote.get knownKey = some knownVersion := by decide
  have hfirst : StorageOp.readVersion ObjectPath.aMd knownVersion (some (.fromStart 4 5)) =
      .ok ⟨[5, 6], knownVersion.objectMeta ObjectPath.aMd 2, some "bytes 4-5/6"⟩ := by decide
  have hmatch : readMatches plainCodecs "\"x\"".toList
      ⟨[5, 6], knownVersion.objectMeta ObjectPath.aMd 2, some "bytes 4-5/6"⟩ = true := by
    decide
  have hrun : Prog.Exec (Semantics.faultless fun _ _ => True).Step
      ((Semantics.faultless fun _ _ => True).Env true) knownNote
      (getObject plainCodecs KbSlug.notes ObjectPath.aMd rangeHeaders)
      [⟨knownNote, slicedGet,
        .ok ⟨[5, 6], knownVersion.objectMeta ObjectPath.aMd 2, some "bytes 4-5/6"⟩, knownNote⟩] knownNote
      (.ret (.ok (fullOrPartialResponse plainCodecs
        ⟨[5, 6], knownVersion.objectMeta ObjectPath.aMd 2, some "bytes 4-5/6"⟩))) := by
    rw [getObject_rangeHeaders]
    refine .step (.get hknown hfirst trivial) ?_
    simp only [Prog.ret_bind, Option.filter, Option.isSome_some, if_true]
    rw [if_pos hmatch]
    exact .done _ _
  refine ⟨_, _, _, hrun, by decide, by decide,
    getObject_ifRange rangeHeaders_if hrun ?_⟩
  rintro ⟨e₁, e₂, v₁, v₂, htwo, -⟩
  cases htwo

end Api
