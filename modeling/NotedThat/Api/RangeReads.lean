-- SUMMARY: A read of a range without a validator: it is served from the version that was read, and its headers report the slice.
import NotedThat.Api.GetObject
import NotedThat.Api.LineSpans
import NotedThat.Api.RangeGrammar

/-!
# Reads of a range

Without a validator a range is read once. A slice of bytes is reported in `Content-Range`. A slice of lines
is reported there by its lines, and by its bytes in a header of its own; when it is empty its offset takes
the place of an inclusive end.
-/

/-! ## Visible reports -/

theorem Numeral.visible {s : Text} {n : Nat} (h : Numeral s n) : ∀ c ∈ s, HeaderMap.IsVisible c := by
  intro c hc
  have hdigit := h.digits c hc
  rw [Char.isDigit, Bool.and_eq_true, decide_eq_true_eq, decide_eq_true_eq] at hdigit
  have hlow : 48 ≤ c.toNat := hdigit.1
  have hhigh : c.toNat ≤ 57 := hdigit.2
  exact .inl ⟨by omega, by omega⟩

/-- A slice: its first and last position, and how many positions there are in all. -/
def RangeReport (text : Text) (first last complete : Nat) : Prop :=
  ∃ a b c, Numeral a first ∧ Numeral b last ∧ Numeral c complete ∧ text = a ++ '-' :: (b ++ '/' :: c)

theorem RangeReport.visible {text : Text} {first last complete : Nat} (h : RangeReport text first last complete) :
    ∀ c ∈ text, HeaderMap.IsVisible c := by
  obtain ⟨a, b, c, ha, hb, hc, rfl⟩ := h
  have hhyphen : HeaderMap.IsVisible '-' := .inl (by decide)
  have hslash : HeaderMap.IsVisible '/' := .inl (by decide)
  simp only [List.forall_mem_append, List.forall_mem_cons]
  exact ⟨ha.visible, hhyphen, hb.visible, hslash, hc.visible⟩

theorem ContentRange.report {unit text : Text} {first last complete : Nat}
    (h : ContentRange unit text first last complete) :
    ∃ spec, text = unit ++ ' ' :: spec ∧ RangeReport spec first last complete := by
  obtain ⟨a, b, c, ha, hb, hc, rfl⟩ := h
  exact ⟨_, rfl, a, b, c, ha, hb, hc, rfl⟩

theorem ContentRange.visible {unit text : Text} {first last complete : Nat}
    (h : ContentRange unit text first last complete) (hunit : ∀ c ∈ unit, HeaderMap.IsVisible c) :
    ∀ c ∈ text, HeaderMap.IsVisible c := by
  obtain ⟨spec, rfl, hspec⟩ := h.report
  have hblank : HeaderMap.IsVisible ' ' := .inl (by decide)
  simp only [List.forall_mem_append, List.forall_mem_cons]
  exact ⟨hunit, hblank, hspec.visible⟩

theorem bytes_visible : ∀ c ∈ "bytes".toList, HeaderMap.IsVisible c := by
  intro c hc
  simp only [show "bytes".toList = ['b', 'y', 't', 'e', 's'] from rfl, List.mem_cons, List.not_mem_nil,
    or_false] at hc
  rcases hc with rfl | rfl | rfl | rfl | rfl <;> exact .inl (by decide)

theorem lines_visible : ∀ c ∈ "lines".toList, HeaderMap.IsVisible c := by
  intro c hc
  simp only [show "lines".toList = ['l', 'i', 'n', 'e', 's'] from rfl, List.mem_cons, List.not_mem_nil,
    or_false] at hc
  rcases hc with rfl | rfl | rfl | rfl | rfl <;> exact .inl (by decide)

theorem ByteSpec.visible {spec : Text} {range : ByteRange} (h : ByteSpec spec range) :
    ∀ c ∈ spec, HeaderMap.IsVisible c := by
  have hhyphen : HeaderMap.IsVisible '-' := .inl (by decide)
  cases h with
  | fromStart ha hb hle => exact List.forall_mem_append.mpr ⟨ha.visible, List.forall_mem_cons.mpr ⟨hhyphen, hb.visible⟩⟩
  | fromStartOpen ha => exact List.forall_mem_append.mpr ⟨ha.visible, List.forall_mem_singleton.mpr hhyphen⟩
  | suffix hb => exact List.forall_mem_cons.mpr ⟨hhyphen, hb.visible⟩

theorem LineSpec.visible {spec : Text} {range : LineRange} (h : LineSpec spec range) :
    ∀ c ∈ spec, HeaderMap.IsVisible c := by
  have hhyphen : HeaderMap.IsVisible '-' := .inl (by decide)
  cases h with
  | fromStart ha hb => exact List.forall_mem_append.mpr ⟨ha.visible, List.forall_mem_cons.mpr ⟨hhyphen, hb.visible⟩⟩
  | insert ha hb => exact List.forall_mem_append.mpr ⟨ha.visible, List.forall_mem_cons.mpr ⟨hhyphen, hb.visible⟩⟩
  | fromStartOpen ha => exact List.forall_mem_append.mpr ⟨ha.visible, List.forall_mem_singleton.mpr hhyphen⟩
  | suffix hb => exact List.forall_mem_cons.mpr ⟨hhyphen, hb.visible⟩

/-- A unit and a range of it make a visible header. -/
theorem rangeHeader_visible {unit spec : Text} (hunit : ∀ c ∈ unit, HeaderMap.IsVisible c)
    (hspec : ∀ c ∈ spec, HeaderMap.IsVisible c) : ∀ c ∈ unit ++ '=' :: spec, HeaderMap.IsVisible c := by
  have hequals : HeaderMap.IsVisible '=' := .inl (by decide)
  exact List.forall_mem_append.mpr ⟨hunit, List.forall_mem_cons.mpr ⟨hequals, hspec⟩⟩

namespace HeaderMap

theorem getAll_append (headers more : HeaderMap) (name : String) :
    getAll (headers ++ more) name = getAll headers name ++ getAll more name := by
  simp only [getAll, List.filter_append, List.map_append]

end HeaderMap

namespace Api

/-! ## What a header asks for -/

theorem selection_bytes {spec : Text} {range : ByteRange} (h : ByteSpec spec range) :
    selection ("bytes".toList ++ '=' :: spec) = some (.bytes range) := by
  have hparsed : Range.parseRangeHeader ("bytes".toList ++ '=' :: spec) = .ok ⟨"bytes".toList, some range⟩ := by
    refine Range.parseRangeHeader_eq_ok.mpr ⟨_, spec, ⟨rfl, by decide, h.ne_nil⟩, rfl, ?_⟩
    rw [if_pos rfl]
    exact ⟨range, rfl, by rwa [h.trim_eq]⟩
  rw [selection, hparsed]
  rfl

theorem selection_lines {spec : Text} {range : LineRange} (h : LineSpec spec range) :
    selection ("lines".toList ++ '=' :: spec) = some (.lines range) := by
  have hunit : IsRangeHeader ("lines".toList ++ '=' :: spec) "lines".toList spec := ⟨rfl, by decide, h.ne_nil⟩
  have hparsed : Range.parseRangeHeader ("lines".toList ++ '=' :: spec) = .ok ⟨"lines".toList, none⟩ := by
    refine Range.parseRangeHeader_eq_ok.mpr ⟨_, spec, hunit, rfl, ?_⟩
    rw [if_neg (by decide)]
  have hrange : Range.parseLineRangeHeader ("lines".toList ++ '=' :: spec) = .ok range :=
    Range.parseLineRangeHeader_eq_ok.mpr ⟨_, spec, hunit, by rwa [h.trim_eq]⟩
  simp only [selection, hparsed, if_true, hrange]

theorem parse_of_selection_bytes {rawStr : Text} {range : ByteRange} (h : selection rawStr = some (.bytes range)) :
    ∃ parsed, Range.parseRangeHeader rawStr = .ok parsed ∧ parsed.unit ≠ "lines".toList ∧
      parsed.range = some range := by
  unfold selection at h
  split at h
  · cases h
  · next parsed hparsed =>
    split at h
    · split at h
      · cases h
      · cases h
    · next hunit =>
      obtain ⟨range', hrange, heq⟩ := Option.map_eq_some_iff.mp h
      cases heq
      exact ⟨parsed, hparsed, hunit, hrange⟩

theorem parse_of_selection_lines {rawStr : Text} {range : LineRange} (h : selection rawStr = some (.lines range)) :
    (∃ parsed, Range.parseRangeHeader rawStr = .ok parsed ∧ parsed.unit = "lines".toList) ∧
      Range.parseLineRangeHeader rawStr = .ok range := by
  unfold selection at h
  split at h
  · cases h
  · next parsed hparsed =>
    split at h
    · next hunit =>
      split at h
      · cases h
      · next hlines =>
        cases h
        exact ⟨⟨parsed, hparsed, hunit⟩, hlines⟩
    · obtain ⟨_, _, heq⟩ := Option.map_eq_some_iff.mp h
      cases heq

section Requests

variable {codecs : Codecs} {kb : KbSlug} {path : ObjectPath} {headers : HeaderMap} {rawStr : Text}

theorem getObject_selection_bytes {range : ByteRange} (hraw : headers.getStr "range" = some rawStr)
    (hchosen : selection rawStr = some (.bytes range)) :
    getObject codecs kb path headers = serveBytes codecs kb path (some range)
      (ConditionalHeaders.fromHeaderMap headers) (ifRangeHeader headers) := by
  obtain ⟨raw, hget, hstr⟩ := Option.bind_eq_some_iff.mp hraw
  obtain ⟨parsed, hparsed, hunit, hrange⟩ := parse_of_selection_bytes hchosen
  simp only [getObject, hget, hstr, hparsed, hunit, if_false, hrange]

theorem getObject_selection_lines {range : LineRange} (hraw : headers.getStr "range" = some rawStr)
    (hchosen : selection rawStr = some (.lines range)) :
    getObject codecs kb path headers = serveLineRangeRead codecs kb path rawStr
      (ConditionalHeaders.fromHeaderMap headers) (ifRangeHeader headers) := by
  obtain ⟨raw, hget, hstr⟩ := Option.bind_eq_some_iff.mp hraw
  obtain ⟨parsed, hparsed, hunit⟩ := (parse_of_selection_lines hchosen).1
  simp only [getObject, hget, hstr, hparsed, hunit, if_true]

end Requests

/-! ## What a response reports -/

theorem Selection.slice_le {chosen : Selection} {v : Version} {start stop : Nat}
    (h : chosen.slice v = some (start, stop)) : start ≤ stop ∧ stop ≤ v.size := by
  cases chosen with
  | bytes range =>
    have hbounds := ByteRange.toExclusiveRange_bounds h
    exact ⟨hbounds.1.le, hbounds.2⟩
  | lines range => exact LineIndex.byteRange_le h

theorem length_cut {v : Version} {start stop : Nat} (hstop : stop ≤ v.size) :
    (cut v start stop).length = stop - start := by
  unfold Version.size at hstop
  rw [cut, List.length_take, List.length_drop]
  omega

/-- The headers of a slice from `start` to `stop`. -/
inductive Reports (v : Version) (headers : HeaderMap) : Selection → Nat → Nat → Prop where
  | bytes {range : ByteRange} {start stop : Nat} {report : Text} :
      start < stop → headers.getStr "content-range" = some report →
      ContentRange "bytes".toList report start (stop - 1) v.size → Reports v headers (.bytes range) start stop
  | lines {range : LineRange} {start stop : Nat} {report spec : Text} :
      start < stop → headers.getStr "content-range" = some report →
      ContentRange "lines".toList report (range.resolve (objectLines v.bytes).length).1
        (range.resolve (objectLines v.bytes).length).2 (objectLines v.bytes).length →
      headers.getStr "x-content-range-bytes" = some spec → RangeReport spec start (stop - 1) v.size →
      Reports v headers (.lines range) start stop
  | insert {range : LineRange} {start : Nat} {report : Text} :
      headers.getStr "content-range" = some report →
      ContentRange "lines".toList report (range.resolve (objectLines v.bytes).length).1
        (range.resolve (objectLines v.bytes).length).2 (objectLines v.bytes).length →
      headers.getStr "x-content-range-bytes" = some ("*/".toList ++ Nat.toDigits 10 v.size) →
      headers.getStr "x-insert-offset" = some (Nat.toDigits 10 start) →
      Reports v headers (.lines range) start start

/-- The response of a slice. -/
structure Sliced (v : Version) (chosen : Selection) (start stop : Nat) (response : ObjectResponse) : Prop where
  status : response.status = 206
  body : response.body = cut v start stop
  etag : response.headers.getStr "etag" = HeaderMap.toStr (Utf8.encode v.etag.val)
  reports : Reports v response.headers chosen start stop

section Headers

variable {codecs : Codecs} {path : ObjectPath} {v : Version}

theorem getAll_validators {name : String} (hetag : name ≠ "etag") (hmodified : name ≠ "last-modified")
    (etag : Option Text) (lastModified : Option Int) :
    HeaderMap.getAll (validators codecs etag lastModified) name = [] := by
  rw [validators, HeaderMap.getAll_append]
  cases etag <;> cases lastModified.bind (httpDate codecs) <;>
    simp [HeaderMap.getAll, hetag.symm, hmodified.symm]

theorem getAll_validators_etag (etag : Text) (lastModified : Option Int) :
    HeaderMap.getAll (validators codecs (some etag) lastModified) "etag" = [Utf8.encode etag] := by
  rw [validators, HeaderMap.getAll_append]
  cases lastModified.bind (httpDate codecs) <;> simp [HeaderMap.getAll]

theorem fullOrPartialResponse_sliced {range : ByteRange} {read : ObjectRead}
    (hread : StorageOp.readVersion path v (some range) = .ok read)
    (hstatus : (fullOrPartialResponse codecs read).status ≠ 500) :
    ∃ start stop, range.toExclusiveRange v.size = some (start, stop) ∧
      Sliced v (.bytes range) start stop (fullOrPartialResponse codecs read) := by
  obtain ⟨start, stop, hslice, hbytes, -⟩ := readVersion_some hread
  obtain ⟨hetag, hmodified, -⟩ := readVersion_validators hread
  obtain ⟨report, hresolved, hreport⟩ := ByteRange.resolveRange_eq_ok hslice
  have hcontentRange : read.contentRange = some report := by
    unfold StorageOp.readVersion at hread
    rw [hresolved] at hread
    cases hread
    rfl
  obtain ⟨hbody, hpartial⟩ := fullOrPartialResponse_ok hstatus
  rw [hcontentRange] at hpartial
  refine ⟨start, stop, hslice, hpartial, hbody.trans hbytes, ?_, ?_⟩
  · unfold fullOrPartialResponse at hstatus ⊢
    rw [ObjectResponse.build_eq hstatus]
    simp only [HeaderMap.getStr, HeaderMap.get, HeaderMap.getAll_append, hetag, getAll_validators_etag]
    rfl
  · refine .bytes (ByteRange.toExclusiveRange_bounds hslice).1 ?_ hreport
    unfold fullOrPartialResponse at hstatus ⊢
    rw [ObjectResponse.build_eq hstatus]
    simp only [HeaderMap.getStr, HeaderMap.get, HeaderMap.getAll_append, hcontentRange,
      getAll_validators (show "content-range" ≠ "etag" by decide) (show "content-range" ≠ "last-modified" by decide)]
    exact HeaderMap.toStr_encode (hreport.visible bytes_visible)

/-- The headers of a line response, name by name. -/
theorem lineResponse_getStr {range : LineRange} {start stop : Nat} {name : String}
    (hname : name ≠ "content-type" ∧ name ≠ "content-length" ∧ name ≠ "etag" ∧ name ≠ "last-modified")
    (hstatus : (lineResponse codecs (v.wholeRead path) range start stop).status ≠ 500) :
    (lineResponse codecs (v.wholeRead path) range start stop).headers.getStr name =
      HeaderMap.getStr (("content-range", Utf8.encode ((LineIndex.fromBytes v.bytes).contentRangeString range)) ::
        byteHeaders (LineIndex.fromBytes v.bytes) start stop) name := by
  obtain ⟨htype, hlength, hetag, hmodified⟩ := hname
  unfold lineResponse at hstatus ⊢
  dsimp only at hstatus ⊢
  rw [ObjectResponse.build_eq hstatus]
  have hfront : ∀ contentType length : Bytes,
      HeaderMap.getAll [("content-type", contentType), ("content-length", length)] name = [] := by
    intro contentType length
    simp [HeaderMap.getAll, htype.symm, hlength.symm]
  simp only [HeaderMap.getStr, HeaderMap.get, HeaderMap.getAll_append, getAll_validators hetag hmodified, hfront,
    List.append_nil, List.nil_append]
  exact congrArg (fun values => values.head?.bind HeaderMap.toStr)
    (HeaderMap.getAll_append [("content-range", _)] _ name).symm

theorem lineResponse_sliced {range : LineRange} {start stop : Nat}
    (hrange : (LineIndex.fromBytes v.bytes).byteRange range = some (start, stop))
    (hstatus : (lineResponse codecs (v.wholeRead path) range start stop).status ≠ 500) :
    Sliced v (.lines range) start stop (lineResponse codecs (v.wholeRead path) range start stop) := by
  have hbuild := hstatus
  unfold lineResponse at hbuild
  have hreport := LineIndex.contentRangeString_eq (LineIndex.fromBytes v.bytes) range
  rw [LineIndex.fromBytes_totalLines] at hreport
  have hcontentRange : (lineResponse codecs (v.wholeRead path) range start stop).headers.getStr "content-range" =
      some ((LineIndex.fromBytes v.bytes).contentRangeString range) := by
    rw [lineResponse_getStr (by decide) hstatus]
    exact HeaderMap.toStr_encode (hreport.visible lines_visible)
  have hbytes : (LineIndex.fromBytes v.bytes).totalBytes = v.size := rfl
  refine ⟨?_, ?_, ?_, ?_⟩
  · rw [lineResponse, ObjectResponse.build_eq hbuild]
  · rw [lineResponse, ObjectResponse.build_eq hbuild]
    rfl
  · rw [lineResponse, ObjectResponse.build_eq hbuild]
    simp only [HeaderMap.getStr, HeaderMap.get, HeaderMap.getAll_append, Version.wholeRead, Version.objectMeta,
      getAll_validators_etag]
    rfl
  · obtain ⟨hle, -⟩ := LineIndex.byteRange_le hrange
    rcases hle.eq_or_lt with rfl | hlt
    · refine .insert hcontentRange hreport ?_ ?_
      · rw [lineResponse_getStr (by decide) hstatus, byteHeaders, if_pos le_rfl, hbytes]
        refine HeaderMap.toStr_encode ?_
        have hstar : HeaderMap.IsVisible '*' := .inl (by decide)
        have hslash : HeaderMap.IsVisible '/' := .inl (by decide)
        rw [show "*/".toList = ['*', '/'] from rfl]
        simp only [List.forall_mem_append, List.forall_mem_cons]
        exact ⟨⟨hstar, hslash, fun _ hmem => by cases hmem⟩, (Numeral.toDigits v.size).visible⟩
      · rw [lineResponse_getStr (by decide) hstatus, byteHeaders, if_pos le_rfl]
        exact HeaderMap.toStr_encode (Numeral.toDigits start).visible
    · have hspec : RangeReport (Nat.toDigits 10 start ++ '-' :: Nat.toDigits 10 (stop - 1) ++
          '/' :: Nat.toDigits 10 v.size) start (stop - 1) v.size :=
        ⟨_, _, _, .toDigits _, .toDigits _, .toDigits _, by simp only [List.append_assoc, List.cons_append]⟩
      refine .lines hlt hcontentRange hreport ?_ hspec
      rw [lineResponse_getStr (by decide) hstatus, byteHeaders, if_neg (Nat.not_le.mpr hlt), hbytes]
      exact HeaderMap.toStr_encode hspec.visible

end Headers

/-! ## The read -/

/-- What a read of a range answers: the slice of the version it met, or that this version has none. -/
structure RangeAnswer (v : Version) (chosen : Selection) (answer : Except ApiError ObjectResponse) : Prop where
  served : ∀ response, answer = .ok response → response.status ≠ 500 →
    ∃ start stop, chosen.slice v = some (start, stop) ∧ Sliced v chosen start stop response
  refused : answerStatus answer = 416 → chosen.slice v = none

open Prog (wp)
open Semantics (Event)

section Reads

variable {S : Semantics} {codecs : Codecs} {kb : KbSlug} {path : ObjectPath} {headers : HeaderMap}
variable {R : Rely World} {G : List Event → Event → Prop} {h : List Event} {w : World}

/-- A read of a range reads once, and its answer is about the version it met, or it is another error. -/
theorem wp_getObject_range {rawStr : Text} {chosen : Selection}
    {Q : Except ApiError ObjectResponse → List Event → World → Prop}
    (hraw : headers.getStr "range" = some rawStr) (hchosen : selection rawStr = some chosen)
    (hif : headers.get "if-range" = none) (hG : ∀ e : Event, e.post = e.pre → G h e)
    (hQ : ∀ answer e w', ((∃ error : ApiError, answer = .error error ∧ error.status ≠ 416) ∨
        ∃ v, e.pre.get (kb, path) = some v ∧ RangeAnswer v chosen answer) →
      R.rel w e.pre → e.post = e.pre → R.rel e.post w' → Q answer (h ++ [e]) w') :
    wp S.Step R G (getObject codecs kb path headers) Q h w := by
  have hnoIf : ifRangeHeader headers = none := by simp [ifRangeHeader, hif]
  cases chosen with
  | bytes range =>
    rw [getObject_selection_bytes hraw hchosen, hnoIf]
    unfold serveBytes
    refine Semantics.wp_get (fun w' e hR hstep => ⟨hG _ rfl, fun w'' hR' => hQ _ _ _ ?_ hR rfl hR'⟩)
      fun w' v read hR hv _ hread => ⟨hG _ rfl, fun w'' hR' => hQ _ _ _ (.inr ⟨v, hv, ?_, ?_⟩) hR rfl hR'⟩
    · by_cases hstatus : (readError path e).status = 416
      · obtain ⟨length, rfl⟩ := readError_status hstatus
        obtain ⟨v, r, hv, hrange, hnone⟩ := hstep.get_unsatisfiable
        cases hrange
        exact .inr ⟨v, hv, fun _ hok => (by cases hok), fun _ => hnone⟩
      · exact .inl ⟨_, rfl, hstatus⟩
    · intro response hok hstatus
      cases hok
      exact fullOrPartialResponse_sliced hread hstatus
    · intro hstatus
      change (fullOrPartialResponse codecs read).status = 416 at hstatus
      obtain ⟨start, stop, -, hsliced⟩ := fullOrPartialResponse_sliced hread (by omega : (fullOrPartialResponse codecs read).status ≠ 500)
      rw [hsliced.status] at hstatus
      cases hstatus
  | lines range =>
    rw [getObject_selection_lines hraw hchosen, hnoIf]
    unfold serveLineRangeRead
    simp only [(parse_of_selection_lines hchosen).2]
    refine Semantics.wp_get (fun w' e hR hstep => ⟨hG _ rfl, fun w'' hR' => hQ _ _ _ (.inl ⟨_, rfl, ?_⟩) hR rfl hR'⟩)
      fun w' v read hR hv _ hread => ⟨hG _ rfl, fun w'' hR' => hQ _ _ _ (.inr ⟨v, hv, ?_⟩) hR rfl hR'⟩
    · intro hstatus
      obtain ⟨length, rfl⟩ := readError_status hstatus
      obtain ⟨v, r, -, hrange, -⟩ := hstep.get_unsatisfiable
      cases hrange
    · obtain rfl := readVersion_none hread
      simp only [lineAnswer, Option.any_none, Bool.false_eq_true, if_false]
      cases hrange : (LineIndex.fromBytes (v.wholeRead path).bytes).byteRange range with
      | none => exact ⟨fun _ hok => (by cases hok), fun _ => hrange⟩
      | some span =>
        obtain ⟨start, stop⟩ := span
        refine ⟨fun response hok hstatus => ?_, fun hstatus => ?_⟩
        · cases hok
          exact ⟨start, stop, hrange, lineResponse_sliced hrange hstatus⟩
        · change (lineResponse codecs (v.wholeRead path) range start stop).status = 416 at hstatus
          have hsliced := lineResponse_sliced hrange
            (by omega : (lineResponse codecs (v.wholeRead path) range start stop).status ≠ 500)
          rw [hsliced.status] at hstatus
          cases hstatus

end Reads

end Api
