-- SUMMARY: The `read` tool: what it makes of the response's headers, and that this describes the slice it was given.
import NotedThat.Lib.LossyUtf8
import NotedThat.Mcp.Move
import NotedThat.Mcp.RangeSpans

/-!
# Reading an object

The tool asks for a span in one request. What it tells about the text it returns comes from the same
response: how long the slice is from the body, where it lies from the headers. Bytes that are no text are
replaced.
-/

namespace Mcp

/-- The tool's arguments, parsed. -/
structure ReadArgs where
  kb : Text
  path : Text
  span : ReadSpan

/-- What a read returned, and which version it belongs to. -/
structure ReadMeta where
  etag : Option Text
  contentType : Option Text
  bytesReturned : Nat
  totalBytes : Option Nat
  byteStart : Option Nat
  byteEnd : Option Nat
  totalLines : Option Nat
  lineStart : Option Nat
  lineEnd : Option Nat
deriving DecidableEq

structure ReadResult where
  text : Text
  readMeta : ReadMeta
deriving DecidableEq

/-! ## Headers -/

/-- `a-b/N`. -/
def parseRangeSpec (spec : Text) : Option (Nat × Nat × Nat) := do
  let (range, total) ← Text.splitOnce '/' (Text.trim spec)
  let (start, stop) ← Text.splitOnce '-' range
  return (← Text.parseU64 start, ← Text.parseU64 stop, ← Text.parseU64 total)

/-- `*/N`. -/
def parseUnsatisfiedTotal (spec : Text) : Option Nat :=
  (Text.stripPrefix "*/".toList (Text.trim spec)).bind Text.parseU64

namespace ReadMeta

/-- Where the slice ends is the body's to say. -/
def slice (readMeta : ReadMeta) (start total : Nat) : ReadMeta :=
  { readMeta with
    byteStart := some start
    byteEnd := some (Api.saturatingAdd start readMeta.bytesReturned)
    totalBytes := some total }

/-- The bytes of a slice of lines; an insert point names its offset instead. -/
def lineSlice (readMeta : ReadMeta) (headers : HeaderMap) : ReadMeta :=
  match headers.getStr "x-content-range-bytes" with
  | none => readMeta
  | some spec =>
    if (Text.trim spec).head? = some '*' then
      match parseUnsatisfiedTotal spec with
      | none => readMeta
      | some total =>
        match (headers.getStr "x-insert-offset").bind fun v => Text.parseU64 (Text.trim v) with
        | none => { readMeta with totalBytes := some total }
        | some start => { readMeta with totalBytes := some total }.slice start total
    else
      match parseRangeSpec spec with
      | none => readMeta
      | some (start, _, total) => readMeta.slice start total

/-- Read the metadata off a successful response's headers. -/
def fromResponse (status : Nat) (headers : HeaderMap) (bytesReturned : Nat) : ReadMeta :=
  let readMeta : ReadMeta :=
    ⟨headers.getStr "etag", headers.getStr "content-type", bytesReturned, none, none, none, none, none, none⟩
  if status ≠ 206 then
    { readMeta with totalBytes := some bytesReturned, byteStart := some 0, byteEnd := some bytesReturned }
  else
    match (headers.getStr "content-range").bind (Text.splitOnce ' ') with
    | none => readMeta
    | some (unit, spec) =>
      if unit = "bytes".toList then
        match parseRangeSpec spec with
        | none => readMeta
        | some (start, _, total) => readMeta.slice start total
      else if unit = "lines".toList then
        let readMeta :=
          match parseRangeSpec spec with
          | none => readMeta
          | some (start, stop, total) =>
            { readMeta with lineStart := some start, lineEnd := some stop, totalLines := some total }
        readMeta.lineSlice headers
      else readMeta

end ReadMeta

/-! ## The tool -/

/-- The headers of a read. -/
def readHeaders (span : ReadSpan) : HeaderMap :=
  authorized (span.rangeHeader.map fun range => ("range", Utf8.encode range)).toList

/-- Read an object, or a part of it. -/
def read (endpoint : Endpoint) (client : NotedThatClient) (net : Delivery) (args : ReadArgs) :
    Program (Except ErrorData ReadResult) :=
  match parseKb args.kb with
  | .error e => return .error e.toErrorData
  | .ok kb =>
    match parseObjectPath args.path "path" with
    | .error e => return .error e.toErrorData
    | .ok path => do
      match ← send endpoint net (client.crate.objectUrl kb path) (readHeaders args.span) fun k headers =>
          Api.getObject endpoint.codecs k.1 k.2 headers with
      | .error e => return .error e.toErrorData
      | .ok response =>
        match readBodyBounded client response with
        | .error e => return .error e.toErrorData
        | .ok bytes =>
          return .ok ⟨Utf8.fromUtf8Lossy bytes,
            ReadMeta.fromResponse response.status response.headers bytes.length⟩

/-! ## Headers that are read back -/

section Decoding

variable {v : Version} {headers : HeaderMap} {chosen : Api.Selection} {start stop : Nat}

theorem parseRangeSpec_report {spec : Text} {first last complete : Nat}
    (h : RangeReport spec first last complete) (hbounds : first < 2 ^ 64 ∧ last < 2 ^ 64 ∧ complete < 2 ^ 64) :
    parseRangeSpec spec = some (first, last, complete) := by
  obtain ⟨a, b, c, ha, hb, hc, rfl⟩ := h
  have hhyphen : Text.isWhitespace '-' = false := by decide
  have hslash : Text.isWhitespace '/' = false := by decide
  have htrim : Text.trim (a ++ '-' :: (b ++ '/' :: c)) = (a ++ '-' :: b) ++ '/' :: c := by
    rw [Text.trim_eq_of_forall]
    · rw [List.append_assoc, List.cons_append]
    · simp only [List.forall_mem_append, List.forall_mem_cons]
      exact ⟨ha.not_isWhitespace, hhyphen, hb.not_isWhitespace, hslash, hc.not_isWhitespace⟩
  have hnot : '/' ∉ a ++ '-' :: b := by simp [ha.slash_not_mem, hb.slash_not_mem]
  have hfirst : Decimal a first := ⟨ha, hbounds.1⟩
  have hlast : Decimal b last := ⟨hb, hbounds.2.1⟩
  have hcomplete : Decimal c complete := ⟨hc, hbounds.2.2⟩
  simp only [parseRangeSpec, htrim, Text.splitOnce_append hnot, Text.splitOnce_append ha.hyphen_not_mem,
    hfirst.parseU64, hlast.parseU64, hcomplete.parseU64, bind, Option.bind, pure]

theorem parseUnsatisfiedTotal_toDigits {n : Nat} (h : n < 2 ^ 64) :
    (Text.trim ("*/".toList ++ Nat.toDigits 10 n)).head? = some '*' ∧
      parseUnsatisfiedTotal ("*/".toList ++ Nat.toDigits 10 n) = some n := by
  have htrim : Text.trim ("*/".toList ++ Nat.toDigits 10 n) = "*/".toList ++ Nat.toDigits 10 n := by
    refine Text.trim_eq_of_forall ?_
    rw [show "*/".toList = ['*', '/'] from rfl]
    simp only [List.forall_mem_append, List.forall_mem_cons]
    exact ⟨⟨by decide, by decide, nofun⟩, (Numeral.toDigits n).not_isWhitespace⟩
  rw [parseUnsatisfiedTotal, htrim, Text.stripPrefix_eq_some.mpr rfl]
  exact ⟨rfl, (Decimal.toDigits h).parseU64⟩

theorem trim_parseU64 {n : Nat} (h : n < 2 ^ 64) : Text.parseU64 (Text.trim (Nat.toDigits 10 n)) = some n := by
  rw [Text.trim_eq_of_forall (Numeral.toDigits n).not_isWhitespace]
  exact (Decimal.toDigits h).parseU64

/-- The metadata of a slice. -/
structure SliceMeta (v : Version) (headers : HeaderMap) (start stop : Nat) (readMeta : ReadMeta) : Prop where
  etag : readMeta.etag = headers.getStr "etag"
  bytesReturned : readMeta.bytesReturned = stop - start
  totalBytes : readMeta.totalBytes = some v.size
  byteStart : readMeta.byteStart = some start
  byteEnd : readMeta.byteEnd = some stop

/-- The metadata of its lines. -/
def LineMeta (lines : Option (Nat × Nat × Nat)) (readMeta : ReadMeta) : Prop :=
  readMeta.lineStart = lines.map (·.1) ∧ readMeta.lineEnd = lines.map (·.2.1) ∧
    readMeta.totalLines = lines.map (·.2.2)

/-- The lines a selection has, with how many there are in all. -/
def linesOf (v : Version) : Api.Selection → Option (Nat × Nat × Nat)
  | .bytes _ => none
  | .lines range =>
    let totalLines := (objectLines v.bytes).length
    some ((range.resolve totalLines).1, (range.resolve totalLines).2, totalLines)

/-- What the headers of a slice report is read back. -/
theorem fromResponse_sliced (h : Api.Reports v headers chosen start stop) (hle : start ≤ stop ∧ stop ≤ v.size)
    (hsize : v.size < 2 ^ 64)
    (hlines : ∀ lines ∈ linesOf v chosen, lines.1 < 2 ^ 64 ∧ lines.2.1 < 2 ^ 64 ∧ lines.2.2 < 2 ^ 64) :
    SliceMeta v headers start stop (ReadMeta.fromResponse 206 headers (stop - start)) ∧
      LineMeta (linesOf v chosen) (ReadMeta.fromResponse 206 headers (stop - start)) := by
  have hend : Api.saturatingAdd start (stop - start) = stop := by
    unfold Api.saturatingAdd Api.u64Max
    omega
  have hunit : "lines".toList ≠ "bytes".toList := by decide
  cases h with
  | bytes hlt hheader hreport =>
    obtain ⟨spec, rfl, hspec⟩ := hreport.report
    have hparsed := parseRangeSpec_report hspec ⟨by omega, by omega, hsize⟩
    simp only [ReadMeta.fromResponse, hheader, Option.bind_some,
      Text.splitOnce_append (by decide : ' ' ∉ "bytes".toList), ne_eq, not_true_eq_false, if_false, if_true, hparsed,
      ReadMeta.slice, hend]
    exact ⟨⟨rfl, rfl, rfl, rfl, rfl⟩, rfl, rfl, rfl⟩
  | @lines range _ _ _ bytesSpec hlt hheader hreport hbytes hbytesSpec =>
    obtain ⟨spec, rfl, hspec⟩ := hreport.report
    have hparsed := parseRangeSpec_report hspec (hlines _ rfl)
    have hslice := parseRangeSpec_report hbytesSpec ⟨by omega, by omega, hsize⟩
    -- a report of bytes begins with a digit
    have hdigit : (Text.trim bytesSpec).head? ≠ some '*' := by
      intro hhead
      obtain ⟨a, b, c, ha, hb, hc, rfl⟩ := hbytesSpec
      have hmem := Text.mem_of_mem_trim (List.mem_of_mem_head? hhead)
      simp [ha.not_mem (rfl : '*'.isDigit = false), hb.not_mem (rfl : '*'.isDigit = false),
        hc.not_mem (rfl : '*'.isDigit = false)] at hmem
    simp only [ReadMeta.fromResponse, hheader, Option.bind_some,
      Text.splitOnce_append (by decide : ' ' ∉ "lines".toList), ne_eq, not_true_eq_false, if_false, if_true, hparsed,
      hunit, ReadMeta.lineSlice, hbytes, hdigit, hslice, ReadMeta.slice, hend]
    exact ⟨⟨rfl, rfl, rfl, rfl, rfl⟩, rfl, rfl, rfl⟩
  | insert hheader hreport hbytes hoffset =>
    obtain ⟨spec, rfl, hspec⟩ := hreport.report
    have hparsed := parseRangeSpec_report hspec (hlines _ rfl)
    obtain ⟨hstar, htotal⟩ := parseUnsatisfiedTotal_toDigits hsize
    have hstart := trim_parseU64 (by omega : start < 2 ^ 64)
    simp only [ReadMeta.fromResponse, hheader, Option.bind_some,
      Text.splitOnce_append (by decide : ' ' ∉ "lines".toList), ne_eq, not_true_eq_false, if_false, if_true, hparsed,
      hunit, ReadMeta.lineSlice, hbytes, hstar, htotal, hoffset, hstart, ReadMeta.slice, hend]
    exact ⟨⟨rfl, rfl, rfl, rfl, rfl⟩, rfl, rfl, rfl⟩

end Decoding

/-! ## What a read returns -/

open Prog (wp)
open Semantics (Event)

/-- The lines a span has of a version, with how many there are in all. -/
def ReadSpan.linesOf (v : Version) : ReadSpan → Option (Nat × Nat × Nat)
  | .lines start stop _ =>
    let totalLines := (objectLines v.bytes).length
    some (start.toNat, clampEnd totalLines stop, totalLines)
  | _ => none

/-- The result of a read is exact: it tells of the text which bytes and which lines of the version these are.
Only bytes that are text are returned as they are. -/
structure ReadExact (span : ReadSpan) (v : Version) (start stop : Nat) (result : ReadResult) : Prop where
  inside : start ≤ stop ∧ stop ≤ v.size
  text : result.text = Utf8.fromUtf8Lossy (Api.cut v start stop)
  byteStart : result.readMeta.byteStart = some start
  byteEnd : result.readMeta.byteEnd = some stop
  bytesReturned : result.readMeta.bytesReturned = stop - start
  totalBytes : result.readMeta.totalBytes = some v.size
  etag : result.readMeta.etag = HeaderMap.toStr (Utf8.encode v.etag.val)
  lines : LineMeta (span.linesOf v) result.readMeta
  sliceLines : ∀ first last total, span.linesOf v = some (first, last, total) →
    first ≤ last + 1 ∧ last ≤ total ∧ total = (objectLines v.bytes).length ∧
      Api.cut v start stop = (((objectLines v.bytes).drop (first - 1)).take (last + 1 - first)).flatten

section Reads

variable {S : Semantics} {w : World} {endpoint : Endpoint} {client : NotedThatClient} {net : Delivery}
variable {kb : KbSlug} {path : ObjectPath} {k : Key} {span : ReadSpan}

theorem readBodyBounded_ok {response : Api.ObjectResponse} {bytes : Bytes}
    (h : readBodyBounded client response = .ok bytes) : bytes = response.body := by
  unfold readBodyBounded at h
  dsimp only at h
  split at h
  · cases h
  · split at h
    · cases h
    · cases h
      rfl

theorem getStr_readHeaders {header : Text} (h : span.rangeHeader = some header)
    (hvisible : ∀ c ∈ header, HeaderMap.IsVisible c) :
    HeaderMap.getStr (readHeaders span) "range" = some header := by
  rw [readHeaders, h]
  simp [authorized, HeaderMap.getStr, HeaderMap.get, HeaderMap.getAll, HeaderMap.toStr_encode hvisible]

theorem get_readHeaders {name : String} (hname : name ≠ "x-notedthat-source") (hrange : name ≠ "range") :
    HeaderMap.get (readHeaders span) name = none := by
  cases h : span.rangeHeader <;>
    simp [readHeaders, h, authorized, HeaderMap.get, HeaderMap.getAll, hname.symm, hrange.symm]

theorem readExact_whole {v : Version} {path : ObjectPath}
    (hstatus : (Api.fullOrPartialResponse endpoint.codecs (v.wholeRead path)).status ≠ 500) :
    ReadExact .whole v 0 v.size
      ⟨Utf8.fromUtf8Lossy v.bytes, ReadMeta.fromResponse
        (Api.fullOrPartialResponse endpoint.codecs (v.wholeRead path)).status
        (Api.fullOrPartialResponse endpoint.codecs (v.wholeRead path)).headers v.bytes.length⟩ := by
  obtain ⟨-, hetag, -⟩ := Api.wholeResponse hstatus
  have hok : (Api.fullOrPartialResponse endpoint.codecs (v.wholeRead path)).status = 200 :=
    (Api.fullOrPartialResponse_ok hstatus).2
  have hcut : Api.cut v 0 v.size = v.bytes := by
    rw [Api.cut, List.drop_zero, Nat.sub_zero, Version.size, List.take_length]
  rw [hok]
  refine ⟨⟨Nat.zero_le _, le_rfl⟩, by rw [hcut], rfl, rfl, rfl, rfl, hetag, ⟨rfl, rfl, rfl⟩, fun _ _ _ h => by cases h⟩

theorem readExact_sliced {v : Version} {chosen : Api.Selection} {start stop : Nat} {response : Api.ObjectResponse}
    (hchosen : span.selection = some chosen) (hslice : chosen.slice v = some (start, stop))
    (hsliced : Api.Sliced v chosen start stop response) (hsize : v.size < 2 ^ 64) :
    ReadExact span v start stop
      ⟨Utf8.fromUtf8Lossy response.body,
        ReadMeta.fromResponse response.status response.headers response.body.length⟩ := by
  have hle := Api.Selection.slice_le hslice
  have hspan := hslice
  rw [ReadSpan.slice_selection hchosen] at hspan
  have hlines : linesOf v chosen = span.linesOf v := by
    cases span with
    | whole => cases hchosen
    | lines first last ordered =>
      obtain ⟨range, rfl, hresolve⟩ := ReadSpan.resolve_selection hchosen hspan
      rw [linesOf, hresolve]
      rfl
    | bytes first last ordered =>
      cases last <;>
      · cases hchosen
        rfl
  have hlineFacts : ∀ first last total, span.linesOf v = some (first, last, total) →
      first ≤ last + 1 ∧ last ≤ total ∧ total = (objectLines v.bytes).length ∧ first < 2 ^ 64 ∧
        Api.cut v start stop = (((objectLines v.bytes).drop (first - 1)).take (last + 1 - first)).flatten := by
    intro first last total hsome
    cases span with
    | whole => cases hsome
    | bytes _ _ _ => cases hsome
    | lines firstLine lastLine ordered =>
      cases hsome
      exact ⟨ReadSpan.le_clampEnd hspan, clampEnd_le _ _, rfl, firstLine.toNat_lt, ReadSpan.slice_lines hspan⟩
  have htotal : (objectLines v.bytes).length < 2 ^ 64 :=
    Nat.lt_of_le_of_lt (Lines.length_split_le v.bytes) hsize
  have hbounds : ∀ lines ∈ linesOf v chosen, lines.1 < 2 ^ 64 ∧ lines.2.1 < 2 ^ 64 ∧ lines.2.2 < 2 ^ 64 := by
    rintro ⟨first, last, total⟩ hmem
    rw [hlines] at hmem
    obtain ⟨-, hlast, rfl, hfirst, -⟩ := hlineFacts first last total hmem
    exact ⟨hfirst, Nat.lt_of_le_of_lt hlast htotal, htotal⟩
  have hlength : response.body.length = stop - start := by rw [hsliced.body, Api.length_cut hle.2]
  obtain ⟨hslice, hmeta⟩ := fromResponse_sliced hsliced.reports hle hsize hbounds
  rw [hsliced.status, hlength]
  exact ⟨hle, by rw [hsliced.body], hslice.byteStart, hslice.byteEnd, hslice.bytesReturned, hslice.totalBytes,
    hslice.etag.trans hsliced.etag, hlines ▸ hmeta, fun first last total hsome =>
      let ⟨hfirst, hlast, htotal, _, hcut⟩ := hlineFacts first last total hsome
      ⟨hfirst, hlast, htotal, hcut⟩⟩

/-- What the API answers a read of a span: the span of the version it met, or that this version has none. -/
theorem wp_getObject_span {R : Rely World} {G : List Event → Event → Prop} {h : List Event}
    {Q : Except Api.ApiError Api.ObjectResponse → List Event → World → Prop} (hG : ∀ e : Event, e.post = e.pre → G h e)
    (hQ : ∀ answer e w',
      (∀ response, answer = .ok response → response.status ≠ 500 → ∃ v, e.pre.get (kb, path) = some v ∧
        (v.size < 2 ^ 64 → ∃ start stop, span.slice v.bytes = some (start, stop) ∧
          ReadExact span v start stop ⟨Utf8.fromUtf8Lossy response.body,
            ReadMeta.fromResponse response.status response.headers response.body.length⟩)) →
      (Api.answerStatus answer = 416 → ∃ v, e.pre.get (kb, path) = some v ∧ span.slice v.bytes = none) →
      R.rel w e.pre → e.post = e.pre → R.rel e.post w' → Q answer (h ++ [e]) w') :
    wp S.Step R G (Api.getObject endpoint.codecs kb path (readHeaders span)) Q h w := by
  have hif : HeaderMap.get (readHeaders span) "if-range" = none := get_readHeaders (by decide) (by decide)
  cases hheader : span.rangeHeader with
  | none =>
    obtain rfl : span = .whole := by
      cases span with
      | whole => rfl
      | lines _ stop _ => cases stop <;> cases hheader
      | bytes _ stop _ => cases stop <;> cases hheader
    have hrange : HeaderMap.get (readHeaders .whole) "range" = none := by decide
    refine Api.wp_getObject_whole hrange hif hG fun answer e w' hanswer hpre hpost hafter =>
      hQ answer e w' (fun response hok hstatus => ?_) (fun hstatus => absurd hstatus hanswer.2) hpre hpost hafter
    obtain ⟨v, hv, rfl⟩ := hanswer.1 response hok
    obtain ⟨hbody, -⟩ := Api.fullOrPartialResponse_ok hstatus
    refine ⟨v, hv, fun _ => ⟨0, v.size, rfl, ?_⟩⟩
    rw [hbody]
    exact readExact_whole hstatus
  | some header =>
    obtain ⟨chosen, hchosen, hselection, hvisible⟩ := ReadSpan.selection_rangeHeader hheader
    refine Api.wp_getObject_range (getStr_readHeaders hheader hvisible) hselection hif hG
      fun answer e w' hanswer hpre hpost hafter => hQ answer e w' (fun response hok hstatus => ?_) (fun hstatus => ?_)
        hpre hpost hafter
    · rcases hanswer with ⟨error, herror, -⟩ | ⟨v, hv, hrange⟩
      · cases herror.symm.trans hok
      · obtain ⟨start, stop, hslice, hsliced⟩ := hrange.served response hok hstatus
        exact ⟨v, hv, fun hsize => ⟨start, stop, (ReadSpan.slice_selection hchosen v) ▸ hslice,
          readExact_sliced hchosen hslice hsliced hsize⟩⟩
    · rcases hanswer with ⟨error, rfl, hother⟩ | ⟨v, hv, hrange⟩
      · exact absurd hstatus hother
      · exact ⟨v, hv, (ReadSpan.slice_selection hchosen v) ▸ hrange.refused hstatus⟩

theorem read_run {env : World → World → Prop} {args : ReadArgs} {tr : List Event} {w' : World} {result : ReadResult}
    (hkb : parseKb args.kb = .ok kb) (hpath : parseObjectPath args.path "path" = .ok path)
    (hurl : addressedKey (client.crate.objectUrl kb path) = some k)
    (hrun : Prog.Exec S.Step env w (read endpoint client net args) tr w' (.ret (.ok result))) :
    ∃ v, Api.Met k tr v ∧ (v.size < 2 ^ 64 → ∃ start stop, args.span.slice v.bytes = some (start, stop) ∧
      ReadExact args.span v start stop result) := by
  have hwp : wp S.Step (Rely.any World) (fun _ _ => True) (read endpoint client net args)
      (fun answer tr _ => ∀ result, answer = .ok result → ∃ v, Api.Met k tr v ∧
        (v.size < 2 ^ 64 → ∃ start stop, args.span.slice v.bytes = some (start, stop) ∧
          ReadExact args.span v start stop result)) [] w := by
    unfold read
    simp only [hkb, hpath]
    apply wp.bind
    refine wp_send hurl (fun e w' _ w'' _ result hok => ?_)
      (wp_getObject_span (fun _ _ => trivial) fun answer e w' hserved _ _ _ _ w'' _ => ⟨?_, ?_⟩)
    · cases hok
    · intro e w₃ _ result hok
      cases hok
    · intro response hok hstatus
      obtain ⟨v, hv, hexact⟩ := hserved response hok hstatus
      dsimp only
      split
      · intro w₃ _ result hok
        cases hok
      · next bytes hbody =>
        obtain rfl := readBodyBounded_ok hbody
        intro w₃ _ result hok
        cases hok
        exact ⟨v, ⟨_, by simp, hv⟩, hexact⟩
  exact hwp.exec_ret hrun (fun _ _ _ => trivial) result rfl

/-- A range that the API refuses as unsatisfiable is one that a version it met does not have. -/
theorem read_refused {env : World → World → Prop} {tr : List Event} {w' : World}
    {answer : Except Api.ApiError Api.ObjectResponse}
    (hrun : Prog.Exec S.Step env w (Api.getObject endpoint.codecs kb path (readHeaders span)) tr w' (.ret answer))
    (hstatus : Api.answerStatus answer = 416) :
    ∃ v, Api.Met (kb, path) tr v ∧ span.slice v.bytes = none := by
  have hwp : wp S.Step (Rely.any World) (fun _ _ => True)
      (Api.getObject endpoint.codecs kb path (readHeaders span))
      (fun answer tr _ => Api.answerStatus answer = 416 →
        ∃ v, Api.Met (kb, path) tr v ∧ span.slice v.bytes = none) [] w :=
    wp_getObject_span (fun _ _ => trivial) fun answer e w' _ hrefused _ _ _ hstatus => by
      obtain ⟨v, hv, hnone⟩ := hrefused hstatus
      exact ⟨v, ⟨e, by simp, hv⟩, hnone⟩
  exact hwp.exec_ret hrun (fun _ _ _ => trivial) hstatus

end Reads

/-- The header of an edit is read as the splice of its span. -/
def EditHeaderExact (span : EditSpan) : Prop :=
  HeaderMap.toStr (Utf8.encode span.contentRange) = some span.contentRange ∧
    ∀ body, ∃ mode, Api.parsePatchContentRange span.contentRange body = .ok mode ∧
      ∀ bytes max,
        (∀ start stop, span.toRead.slice bytes = some (start, stop) →
          Write.applyPatch mode bytes max =
            if bytes.length - (stop - start) + body.length > max then
              .error (.patchTooLarge (bytes.length - (stop - start) + body.length) max)
            else .ok (bytes.take start ++ body ++ bytes.drop stop)) ∧
        (span.toRead.slice bytes = none → ∃ e, Write.applyPatch mode bytes max = .error e)

/-- The header of a read is read as its span; only a read of the whole object has none. -/
def ReadHeaderExact (span : ReadSpan) : Prop :=
  (span.rangeHeader = none ↔ span = .whole) ∧
    ∀ header, span.rangeHeader = some header →
      ∃ chosen, Api.requested (readHeaders span) = some chosen ∧ ∀ v, chosen.slice v = span.slice v.bytes

theorem editHeader_exact (span : EditSpan) : EditHeaderExact span := by
  refine ⟨HeaderMap.toStr_encode span.contentRange_visible, fun body =>
    ⟨_, span.parsePatchContentRange_contentRange body, fun bytes max => ?_⟩⟩
  obtain ⟨hspan, hbody⟩ := span.span_patchMode body bytes
  rw [← hspan]
  refine ⟨fun start stop hslice => ?_, fun hnone => ?_⟩
  · rw [Write.applyPatch_span hslice, hbody]
    rfl
  · obtain ⟨e, -, herror, -⟩ := Write.applyPatch_none hnone max
    exact ⟨e, herror⟩

theorem readHeader_exact (span : ReadSpan) : ReadHeaderExact span := by
  refine ⟨?_, fun header hheader => ?_⟩
  · cases span with
    | whole => exact iff_of_true rfl rfl
    | lines _ stop _ => cases stop <;> exact iff_of_false nofun nofun
    | bytes _ stop _ => cases stop <;> exact iff_of_false nofun nofun
  · obtain ⟨chosen, hchosen, hselection, hvisible⟩ := ReadSpan.selection_rangeHeader hheader
    refine ⟨chosen, ?_, ReadSpan.slice_selection hchosen⟩
    rw [Api.requested, getStr_readHeaders hheader hvisible]
    exact hselection

/-- The ranges of both tools are read by the API as the spans their arguments mean, and a read of the object
that its URL names tells exactly which slice of it the text was decoded from; the text has the bytes of the
slice if and only if these are UTF-8. -/
theorem ranges_exact {S : Semantics} {w : World} {endpoint : Endpoint} {client : NotedThatClient} {net : Delivery}
    (args : RangeArgs) :
    (∀ span, EditSpan.parse args = .ok span → args = span.toArgs ∧ EditHeaderExact span) ∧
      ∀ span, ReadSpan.parse args = .ok span → args = span.toArgs ∧ ReadHeaderExact span ∧
        (∀ env kb path tr w' answer, Prog.Exec S.Step env w
            (Api.getObject endpoint.codecs kb path (readHeaders span)) tr w' (.ret answer) →
          Api.answerStatus answer = 416 → ∃ v, Api.Met (kb, path) tr v ∧ span.slice v.bytes = none) ∧
        ∀ env rawKb rawPath kb path k tr w' result, parseKb rawKb = .ok kb →
          parseObjectPath rawPath "path" = .ok path → addressedKey (client.crate.objectUrl kb path) = some k →
          Prog.Exec S.Step env w (read endpoint client net ⟨rawKb, rawPath, span⟩) tr w' (.ret (.ok result)) →
          ∃ v, Api.Met k tr v ∧ (v.size < 2 ^ 64 → ∃ start stop, span.slice v.bytes = some (start, stop) ∧
            ReadExact span v start stop result ∧
            (Utf8.encode result.text = Api.cut v start stop ↔ ∃ t, Api.cut v start stop = Utf8.encode t)) := by
  refine ⟨fun span hspan => ⟨EditSpan.parse_eq_ok.mp hspan, editHeader_exact span⟩, fun span hspan =>
    ⟨ReadSpan.parse_eq_ok.mp hspan, readHeader_exact span, ?_, ?_⟩⟩
  · intro env kb path tr w' answer hrun hstatus
    exact read_refused hrun hstatus
  · intro env rawKb rawPath kb path k tr w' result hkb hpath hurl hrun
    obtain ⟨v, hv, hread⟩ := read_run hkb hpath hurl hrun
    refine ⟨v, hv, fun hsize => ?_⟩
    obtain ⟨start, stop, hslice, hexact⟩ := hread hsize
    refine ⟨start, stop, hslice, hexact, ?_⟩
    rw [hexact.text]
    exact Utf8.encode_fromUtf8Lossy

/-! ## Half a character -/

/-- An object that holds one character of two bytes. -/
def accentVersion : Version := ⟨[0xC3, 0xA9], none, noteTag, 0⟩

def accentWorld : World := World.empty.apply (.stored (KbSlug.notes, .aMd) accentVersion)

/-- Its first byte. -/
def firstByte : RangeArgs := ⟨none, none, some 0, some 1⟩

def firstByteSpan : ReadSpan := .bytes 0 (some 1) (by simp)

/-- What is read of it. -/
def firstByteRead : ObjectRead :=
  ⟨[0xC3], accentVersion.objectMeta .aMd 1, some "bytes 0-0/2"⟩

def firstByteResult : ReadResult :=
  ⟨[Utf8.replacementCharacter],
    ⟨some noteTag.val, some "application/octet-stream".toList, 1, some 2, some 0, some 1, none, none, none⟩⟩

theorem firstByte_lossy : Utf8.fromUtf8Lossy [0xC3] = [Utf8.replacementCharacter] := by
  have hnone : Utf8.decode? [0xC3] = none := by decide
  have hvalidUpTo : Utf8.fromUtf8 [0xC3] = .invalid 0 true := by
    rw [Utf8.fromUtf8, hnone]
    rfl
  rw [Utf8.fromUtf8Lossy]
  split
  · next t ht =>
    rw [hvalidUpTo] at ht
    cases ht
  · next valid truncated hinvalid =>
    rw [hvalidUpTo] at hinvalid
    cases hinvalid
    split
    · rfl
    · next len hlen => cases hlen

/-- The tool reads the first byte of the character. -/
theorem firstByte_run {env : World → World → Prop} :
    Prog.Exec CopyConditions.identifyingSemantics.Step env accentWorld
      (read moveEndpoint moveClient .answered ⟨"notes".toList, "a.md".toList, firstByteSpan⟩)
      [⟨accentWorld, .storage (.get KbSlug.notes .aMd (some (.fromStart 0 0)) {}), .ok firstByteRead, accentWorld⟩]
      accentWorld (.ret (.ok firstByteResult)) := by
  have hkb : parseKb "notes".toList = .ok KbSlug.notes := rfl
  have hpath : parseObjectPath "a.md".toList "path" = .ok .aMd := rfl
  have hurl : addressedKey (moveClient.crate.objectUrl KbSlug.notes .aMd) = some (KbSlug.notes, .aMd) :=
    addressedKey_objectUrl (by decide) (by decide)
  have hget : CopyConditions.identifyingSemantics.Step accentWorld
      (.storage (.get KbSlug.notes .aMd (some (.fromStart 0 0)) {})) (.ok firstByteRead) accentWorld :=
    .get (Objects.get_put_self _ _ _) (by decide) trivial
  have hhandler : Api.getObject moveEndpoint.codecs KbSlug.notes .aMd (readHeaders firstByteSpan) =
      Api.serveBytes moveEndpoint.codecs KbSlug.notes .aMd (some (.fromStart 0 0)) {} none := by
    rw [@Api.getObject_bytes _ _ _ _ "bytes=0-0".toList (.fromStart 0 0) (by decide) (by decide)]
    rfl
  unfold read
  simp only [hkb, hpath]
  rw [send_answered (by decide) hurl, hhandler]
  apply Prog.Exec.step hget
  have hok : mapResponse moveEndpoint (.ok (Api.fullOrPartialResponse moveEndpoint.codecs firstByteRead)) =
      .ok (Api.fullOrPartialResponse moveEndpoint.codecs firstByteRead) := by decide
  have hbody : readBodyBounded moveClient (Api.fullOrPartialResponse moveEndpoint.codecs firstByteRead) =
      .ok [0xC3] := by decide
  simp only [Prog.ret_bind, Prog.pure_eq, Option.filter, hok, hbody, firstByte_lossy]
  exact .done _ _

/-- The text of a read need not be the bytes it was read from. -/
theorem firstByte_is_no_text :
    ReadSpan.parse firstByte = .ok firstByteSpan ∧
      ∃ tr w' result v, Prog.Exec CopyConditions.identifyingSemantics.Step (fun _ _ => False) accentWorld
        (read moveEndpoint moveClient .answered ⟨"notes".toList, "a.md".toList, firstByteSpan⟩) tr w'
        (.ret (.ok result)) ∧
      (∀ e ∈ tr, e.pre.get (KbSlug.notes, .aMd) = some v) ∧ result.readMeta.byteStart = some 0 ∧
        result.readMeta.byteEnd = some 1 ∧ Utf8.encode result.text ≠ Api.cut v 0 1 := by
  refine ⟨rfl, _, _, _, accentVersion, firstByte_run, ?_, rfl, rfl, by decide⟩
  intro e he
  cases List.mem_singleton.mp he
  rfl

/-- The read tells of the byte it has. -/
theorem ranges_exact_firstByte :
    ∃ tr v, Api.Met (KbSlug.notes, .aMd) tr v ∧ (v.size < 2 ^ 64 → ∃ start stop,
      firstByteSpan.slice v.bytes = some (start, stop) ∧ ReadExact firstByteSpan v start stop firstByteResult) := by
  have hexact := @ranges_exact CopyConditions.identifyingSemantics accentWorld moveEndpoint moveClient .answered
    firstByte
  have hurl : addressedKey (moveClient.crate.objectUrl KbSlug.notes .aMd) = some (KbSlug.notes, .aMd) :=
    addressedKey_objectUrl (by decide) (by decide)
  obtain ⟨-, -, -, hread⟩ := hexact.2 firstByteSpan rfl
  obtain ⟨v, hv, hslice⟩ := hread (fun _ _ => False) _ _ KbSlug.notes .aMd _ _ _ _ rfl rfl hurl firstByte_run
  refine ⟨_, v, hv, fun hsize => ?_⟩
  obtain ⟨start, stop, hspan, hread, -⟩ := hslice hsize
  exact ⟨start, stop, hspan, hread⟩

end Mcp
