-- SUMMARY: What the ranges of the read and edit tools name, and that the headers they are sent as name the same to the API.
import NotedThat.Api.PatchBytes
import NotedThat.Api.RangeReads
import NotedThat.Mcp.Range

/-!
# Spans

A span is what its arguments mean, and it names a slice of an object: from the beginning of its first byte
or line to behind its last, as far as there are any. Its header is read by the API as the same slice.
-/

namespace Mcp

/-! ## Arguments -/

theorem checkLineStart_eq {start : UInt64} (h : start ≠ 0) : checkLineStart start = .ok ⟨h⟩ := dif_neg h

theorem checkLines_eq {start stop : UInt64} (h : LinesOrdered start stop) : checkLines start stop = .ok ⟨h⟩ := by
  have hbound := start.toNat_lt
  have horder := h.2
  have hnot : ¬ start.toNat > Api.saturatingAdd stop.toNat 1 := by
    unfold Api.saturatingAdd Api.u64Max
    omega
  unfold checkLines
  rw [checkLineStart_eq h.1]
  exact dif_neg hnot

/-- The arguments a span is given as. -/
def EditSpan.toArgs : EditSpan → RangeArgs
  | .lines start stop _ => ⟨some start, some stop, none, none⟩
  | .bytes start stop _ => ⟨none, none, some start, some stop⟩

def ReadSpan.toArgs : ReadSpan → RangeArgs
  | .whole => ⟨none, none, none, none⟩
  | .lines start stop _ => ⟨some start, stop, none, none⟩
  | .bytes start stop _ => ⟨none, none, some start, stop⟩

theorem EditSpan.parse_eq_ok {args : RangeArgs} {span : EditSpan} :
    EditSpan.parse args = .ok span ↔ args = span.toArgs := by
  constructor
  · intro h
    obtain ⟨_ | start, _ | stop, _ | start', _ | stop'⟩ := args
    -- all but the two complete pairs are refused
    all_goals try cases h
    · by_cases hordered : start' < stop'
      · have hspan := (dif_pos hordered).symm.trans h
        cases hspan
        rfl
      · have hspan := (dif_neg hordered).symm.trans h
        cases hspan
    · obtain ⟨⟨hordered⟩, -, hspan⟩ := Except.bind_eq_ok.mp h
      cases hspan
      rfl
  · rintro rfl
    cases span with
    | lines start stop ordered => exact Except.bind_eq_ok.mpr ⟨_, checkLines_eq ordered, rfl⟩
    | bytes start stop ordered => simp only [parse, toArgs, RangeArgs.pairs, dif_pos ordered]

theorem ReadSpan.parse_eq_ok {args : RangeArgs} {span : ReadSpan} :
    ReadSpan.parse args = .ok span ↔ args = span.toArgs := by
  constructor
  · obtain ⟨lineStart, lineEnd, byteStart, byteEnd⟩ := args
    intro h
    unfold ReadSpan.parse at h
    split at h
    · next heq =>
      cases heq
      cases h
      rfl
    · next heq =>
      cases heq
      obtain ⟨⟨hordered⟩, -, hspan⟩ := Except.bind_eq_ok.mp h
      cases hspan
      rfl
    · next heq =>
      cases heq
      obtain ⟨⟨hstart⟩, -, hspan⟩ := Except.bind_eq_ok.mp h
      cases hspan
      rfl
    · cases h
    · next heq =>
      cases heq
      split at h
      · cases h
        rfl
      · cases h
    · next heq =>
      cases heq
      cases h
      rfl
    all_goals cases h
  · rintro rfl
    cases span with
    | whole => rfl
    | lines start stop ordered =>
      cases stop with
      | none => exact Except.bind_eq_ok.mpr ⟨_, checkLineStart_eq ordered.1, rfl⟩
      | some stop => exact Except.bind_eq_ok.mpr ⟨_, checkLines_eq (ordered.2 stop rfl), rfl⟩
    | bytes start stop ordered =>
      cases stop with
      | none => rfl
      | some stop => simp only [parse, toArgs, RangeArgs.pairs, dif_pos (ordered stop rfl)]

/-! ## Slices -/

/-- Where a span ends in an object with `total` of what it counts. -/
def clampEnd (total : Nat) (stop : Option UInt64) : Nat := (stop.map fun stop => min stop.toNat total).getD total

/-- The bytes of an object that a span names, if it has them. -/
def ReadSpan.slice (bytes : Bytes) : ReadSpan → Option (Nat × Nat)
  | .whole => some (0, bytes.length)
  | .bytes start stop _ =>
    if start.toNat < bytes.length then some (start.toNat, clampEnd bytes.length stop) else none
  | .lines start stop _ =>
    let totalLines := (objectLines bytes).length
    -- behind the last line there is a point to insert at
    if start.toNat ≤ totalLines ∨ (start.toNat = totalLines + 1 ∧ stop.any (·.toNat = totalLines)) then
      some (LineIndex.endOf bytes (start.toNat - 1), LineIndex.endOf bytes (clampEnd totalLines stop))
    else none

theorem LinesOrdered.forRead {start stop : UInt64} (h : LinesOrdered start stop) :
    start ≠ 0 ∧ ∀ stop' ∈ some stop, LinesOrdered start stop' := ⟨h.1, by simpa using h⟩

theorem bytesOrdered_forRead {start stop : UInt64} (h : start < stop) : ∀ stop' ∈ some stop, start < stop' := by
  simpa using h

/-- An edit replaces what a read of the same range fetches. -/
def EditSpan.toRead : EditSpan → ReadSpan
  | .lines start stop ordered => .lines start (some stop) (LinesOrdered.forRead ordered)
  | .bytes start stop ordered => .bytes start (some stop) (bytesOrdered_forRead ordered)

/-! ## Headers -/

/-- The lines from `start` to `stop`, as the API spells them. -/
def lineRange (start stop : UInt64) : LineRange :=
  if stop.toNat + 1 = start.toNat then .insert start.toNat else .fromStart start.toNat stop.toNat

theorem lineRange_spec {start stop : UInt64} (h : LinesOrdered start stop) :
    LineSpec (Nat.toDigits 10 start.toNat ++ '-' :: Nat.toDigits 10 stop.toNat) (lineRange start stop) := by
  have hpos : 1 ≤ start.toNat := Nat.one_le_iff_ne_zero.mpr fun hzero => h.1 (UInt64.toNat_inj.mp hzero)
  have horder := h.2
  unfold lineRange
  split
  · next hinsert =>
    have hstop : stop.toNat = start.toNat - 1 := by omega
    rw [hstop]
    exact .insert (.toDigits start.toNat_lt) (.toDigits (hstop ▸ stop.toNat_lt)) hpos
  · exact .fromStart (.toDigits start.toNat_lt) (.toDigits stop.toNat_lt) hpos (by omega)

/-- What the API makes of the header of a read. -/
def ReadSpan.selection : ReadSpan → Option Api.Selection
  | .whole => none
  | .lines start none _ => some (.lines (.fromStartOpen start.toNat))
  | .lines start (some stop) _ => some (.lines (lineRange start stop))
  | .bytes start none _ => some (.bytes (.fromStartOpen start.toNat))
  | .bytes start (some stop) _ => some (.bytes (.fromStart start.toNat (stop.toNat - 1)))

namespace ReadSpan

/-- The header of a read is read by the API. -/
theorem selection_rangeHeader {span : ReadSpan} {header : Text} (h : span.rangeHeader = some header) :
    ∃ chosen, span.selection = some chosen ∧ Api.selection header = some chosen ∧
      ∀ c ∈ header, HeaderMap.IsVisible c := by
  have hlines : "lines=".toList = "lines".toList ++ ['='] := rfl
  have hbytes : "bytes=".toList = "bytes".toList ++ ['='] := rfl
  cases span with
  | whole => cases h
  | lines start stop ordered =>
    have hpos : 1 ≤ start.toNat := Nat.one_le_iff_ne_zero.mpr fun hzero => ordered.1 (UInt64.toNat_inj.mp hzero)
    cases stop with
    | none =>
      cases h
      rw [hlines, List.append_assoc, List.append_assoc, List.singleton_append]
      have hspec : LineSpec (Nat.toDigits 10 start.toNat ++ ['-']) (.fromStartOpen start.toNat) :=
        .fromStartOpen (.toDigits start.toNat_lt) hpos
      exact ⟨_, rfl, Api.selection_lines hspec, rangeHeader_visible lines_visible hspec.visible⟩
    | some stop =>
      cases h
      rw [hlines, List.append_assoc, List.append_assoc, List.singleton_append]
      have hspec := lineRange_spec (ordered.2 stop rfl)
      exact ⟨_, rfl, Api.selection_lines hspec, rangeHeader_visible lines_visible hspec.visible⟩
  | bytes start stop ordered =>
    cases stop with
    | none =>
      cases h
      rw [hbytes, List.append_assoc, List.append_assoc, List.singleton_append]
      have hspec : ByteSpec (Nat.toDigits 10 start.toNat ++ ['-']) (.fromStartOpen start.toNat) :=
        .fromStartOpen (.toDigits start.toNat_lt)
      exact ⟨_, rfl, Api.selection_bytes hspec, rangeHeader_visible bytes_visible hspec.visible⟩
    | some stop =>
      have horder : start.toNat < stop.toNat := ordered stop rfl
      have hbound := stop.toNat_lt
      cases h
      rw [hbytes, List.append_assoc, List.append_assoc, List.singleton_append]
      have hspec : ByteSpec (Nat.toDigits 10 start.toNat ++ '-' :: Nat.toDigits 10 (stop.toNat - 1))
          (.fromStart start.toNat (stop.toNat - 1)) :=
        .fromStart (.toDigits start.toNat_lt) (.toDigits (by omega)) (by omega)
      exact ⟨_, rfl, Api.selection_bytes hspec, rangeHeader_visible bytes_visible hspec.visible⟩

end ReadSpan

/-! ## The slices of headers -/

theorem byteRange_lineRange {start stop : UInt64} (h : LinesOrdered start stop) (bytes : Bytes) :
    (LineIndex.fromBytes bytes).byteRange (lineRange start stop) =
      (ReadSpan.lines start (some stop) ⟨h.1, by simpa using h⟩).slice bytes := by
  have hpos : 1 ≤ start.toNat := Nat.one_le_iff_ne_zero.mpr fun hzero => h.1 (UInt64.toNat_inj.mp hzero)
  have horder := h.2
  simp only [ReadSpan.slice, clampEnd, Option.map_some, Option.getD_some, Option.any_some, decide_eq_true_eq]
  unfold lineRange
  split
  · next hinsert =>
    have hstop : stop.toNat = start.toNat - 1 := by omega
    rw [LineIndex.byteRange_insert, hstop]
    split
    · next hoff => rw [if_neg (by omega)]
    · next hin => rw [if_pos (by omega), Nat.min_eq_left (by omega)]
  · next hlines =>
    rw [LineIndex.byteRange_fromStart]
    split
    · next hoff => rw [if_neg (by omega)]
    · next hin => rw [if_pos (by omega)]

theorem toExclusiveRange_bytes {start stop : UInt64} (h : start < stop) (bytes : Bytes) :
    (ByteRange.fromStart start.toNat (stop.toNat - 1)).toExclusiveRange bytes.length =
      (ReadSpan.bytes start (some stop) (by simpa using h)).slice bytes := by
  have horder : start.toNat < stop.toNat := h
  rw [ByteRange.toExclusiveRange, ReadSpan.slice]
  split
  · next hoff => rw [if_neg (by omega)]
  · next hin =>
    have hend : min (stop.toNat - 1) (bytes.length - 1) + 1 = min stop.toNat bytes.length := by omega
    rw [if_pos (by omega), hend]
    rfl

/-- The header of a read names the slice that its span names. -/
theorem ReadSpan.slice_selection {span : ReadSpan} {chosen : Api.Selection} (h : span.selection = some chosen)
    (v : Version) : chosen.slice v = span.slice v.bytes := by
  cases span with
  | whole => cases h
  | lines start stop ordered =>
    cases stop with
    | none =>
      cases h
      have hpos : 1 ≤ start.toNat := Nat.one_le_iff_ne_zero.mpr fun hzero => ordered.1 (UInt64.toNat_inj.mp hzero)
      simp only [Api.Selection.slice, slice, clampEnd, Option.map_none, Option.getD_none, Option.any_none,
        Bool.false_eq_true, and_false, or_false]
      rw [LineIndex.byteRange_fromStartOpen, LineIndex.endOf_all le_rfl]
      split
      · next hoff => rw [if_neg (by omega)]
      · next hin => rw [if_pos (by omega)]
    | some stop =>
      cases h
      exact byteRange_lineRange (ordered.2 stop rfl) v.bytes
  | bytes start stop ordered =>
    cases stop with
    | none =>
      cases h
      change (ByteRange.fromStartOpen start.toNat).toExclusiveRange v.bytes.length = _
      rw [ByteRange.toExclusiveRange, slice]
      split
      · next hoff => rw [if_neg (by omega)]
      · next hin =>
        rw [if_pos (by omega)]
        rfl
    | some stop =>
      cases h
      exact toExclusiveRange_bytes (ordered stop rfl) v.bytes

/-- The first and last line of a slice are the ones that were asked for, as far as there are any. -/
theorem ReadSpan.resolve_selection {start : UInt64} {stop : Option UInt64} {ordered} {chosen : Api.Selection}
    (h : (ReadSpan.lines start stop ordered).selection = some chosen) {v : Version} {first last : Nat}
    (hslice : (ReadSpan.lines start stop ordered).slice v.bytes = some (first, last)) :
    ∃ range, chosen = .lines range ∧ range.resolve (objectLines v.bytes).length =
      (start.toNat, clampEnd (objectLines v.bytes).length stop) := by
  cases stop with
  | none =>
    cases h
    exact ⟨_, rfl, rfl⟩
  | some stop =>
    cases h
    refine ⟨_, rfl, ?_⟩
    simp only [clampEnd, Option.map_some, Option.getD_some]
    unfold lineRange
    split
    · next hinsert =>
      simp only [slice, Option.any_some, decide_eq_true_eq, Option.ite_none_right_eq_some] at hslice
      have hstop : min stop.toNat (objectLines v.bytes).length = start.toNat - 1 := by omega
      rw [LineRange.resolve, hstop]
    · rfl

theorem clampEnd_le (total : Nat) (stop : Option UInt64) : clampEnd total stop ≤ total := by
  cases stop with
  | none => exact le_rfl
  | some stop => exact Nat.min_le_right _ _

/-- The first line of a slice is one behind the last at most. -/
theorem ReadSpan.le_clampEnd {start : UInt64} {stop : Option UInt64} {ordered} {bytes : Bytes} {first last : Nat}
    (h : (ReadSpan.lines start stop ordered).slice bytes = some (first, last)) :
    start.toNat ≤ clampEnd (objectLines bytes).length stop + 1 := by
  simp only [slice, Option.ite_none_right_eq_some] at h
  have hthere := h.1
  cases stop with
  | none =>
    simp only [clampEnd, Option.map_none, Option.getD_none, Option.any_none, Bool.false_eq_true, and_false,
      or_false] at hthere ⊢
    omega
  | some stop =>
    have horder := (ordered.2 stop rfl).2
    simp only [clampEnd, Option.map_some, Option.getD_some, Option.any_some, decide_eq_true_eq] at hthere ⊢
    omega

/-- A slice of lines begins with the first line and ends with the last. -/
theorem ReadSpan.slice_lines {start : UInt64} {stop : Option UInt64} {ordered} {bytes : Bytes} {first last : Nat}
    (h : (ReadSpan.lines start stop ordered).slice bytes = some (first, last)) :
    (bytes.drop first).take (last - first) =
      (((objectLines bytes).drop (start.toNat - 1)).take
        (clampEnd (objectLines bytes).length stop + 1 - start.toNat)).flatten := by
  have hpos : 1 ≤ start.toNat := Nat.one_le_iff_ne_zero.mpr fun hzero => ordered.1 (UInt64.toNat_inj.mp hzero)
  have hle := ReadSpan.le_clampEnd h
  simp only [slice, Option.ite_none_right_eq_some, Option.some.injEq, Prod.mk.injEq] at h
  obtain ⟨-, rfl, rfl⟩ := h
  have hcount : clampEnd (objectLines bytes).length stop + 1 - start.toNat =
      clampEnd (objectLines bytes).length stop - (start.toNat - 1) := by omega
  rw [LineIndex.take_drop_endOf (by omega), hcount]

namespace EditSpan

/-- The splice that the API makes of an edit. -/
def patchMode (body : Bytes) : EditSpan → Write.PatchMode
  | .lines start stop _ => .lines (lineRange start stop) body
  | .bytes start stop _ => .bytes (.fromStart start.toNat (stop.toNat - 1)) body

/-- A unit, two numbers, and a star for the length. -/
def contentRangeOf (unit : Text) (first last : Nat) : Text :=
  unit ++ ' ' :: ((Nat.toDigits 10 first ++ '-' :: Nat.toDigits 10 last) ++ '/' :: ['*'])

section Header

variable {start stop : UInt64} {unit : Text} {first last : Nat}

theorem contentRange_lines (ordered) : contentRange (.lines start stop ordered) =
    contentRangeOf "lines".toList start.toNat stop.toNat := by
  have hblank : "lines ".toList = "lines".toList ++ [' '] := rfl
  have hstar : "/*".toList = '/' :: ['*'] := rfl
  unfold contentRange contentRangeOf
  dsimp only
  rw [hblank, hstar]
  simp only [List.append_assoc, List.cons_append, List.nil_append]

theorem contentRange_bytes (ordered) : contentRange (.bytes start stop ordered) =
    contentRangeOf "bytes".toList start.toNat (stop.toNat - 1) := by
  have hblank : "bytes ".toList = "bytes".toList ++ [' '] := rfl
  have hstar : "/*".toList = '/' :: ['*'] := rfl
  unfold contentRange contentRangeOf
  dsimp only
  rw [hblank, hstar]
  simp only [List.append_assoc, List.cons_append, List.nil_append]

theorem splitOnce_contentRangeOf (hunit : ' ' ∉ unit) :
    Text.splitOnce ' ' (contentRangeOf unit first last) =
      some (unit, (Nat.toDigits 10 first ++ '-' :: Nat.toDigits 10 last) ++ '/' :: ['*']) :=
  Text.splitOnce_append hunit _

theorem splitOnce_numbers :
    Text.splitOnce '/' ((Nat.toDigits 10 first ++ '-' :: Nat.toDigits 10 last) ++ '/' :: ['*']) =
      some (Nat.toDigits 10 first ++ '-' :: Nat.toDigits 10 last, ['*']) := by
  have hslash : '/' ∉ Nat.toDigits 10 first ++ '-' :: Nat.toDigits 10 last := by
    simp [(Numeral.toDigits _).slash_not_mem]
  exact Text.splitOnce_append hslash _

theorem contentRangeOf_visible (hunit : ∀ c ∈ unit, HeaderMap.IsVisible c) :
    ∀ c ∈ contentRangeOf unit first last, HeaderMap.IsVisible c := by
  have hhyphen : HeaderMap.IsVisible '-' := .inl (by decide)
  have hblank : HeaderMap.IsVisible ' ' := .inl (by decide)
  have hslash : HeaderMap.IsVisible '/' := .inl (by decide)
  have hstar : HeaderMap.IsVisible '*' := .inl (by decide)
  simp only [contentRangeOf, List.forall_mem_append, List.forall_mem_cons]
  exact ⟨hunit, hblank, ⟨(Numeral.toDigits _).visible, hhyphen, (Numeral.toDigits _).visible⟩, hslash, hstar,
    nofun⟩

end Header

theorem parsePatchContentRange_contentRange (span : EditSpan) (body : Bytes) :
    Api.parsePatchContentRange span.contentRange body = .ok (span.patchMode body) := by
  cases span with
  | lines start stop ordered =>
    have hspec := lineRange_spec ordered
    have hlines : Range.parseLineRangeHeader
        ("lines=".toList ++ (Nat.toDigits 10 start.toNat ++ '-' :: Nat.toDigits 10 stop.toNat)) =
          .ok (lineRange start stop) := by
      have hequals : "lines=".toList = "lines".toList ++ ['='] := rfl
      rw [hequals, List.append_assoc, List.singleton_append]
      exact Range.parseLineRangeHeader_eq_ok.mpr ⟨_, _, ⟨rfl, by decide, hspec.ne_nil⟩, by rwa [hspec.trim_eq]⟩
    have hunit : "lines".toList ≠ "bytes".toList := by decide
    simp only [Api.parsePatchContentRange, contentRange_lines, splitOnce_numbers,
      splitOnce_contentRangeOf (by decide : ' ' ∉ "lines".toList), hunit, if_false, if_true, hlines]
    rfl
  | bytes start stop ordered =>
    have horder : start.toNat < stop.toNat := ordered
    have hbound := stop.toNat_lt
    have hfirst : Decimal (Nat.toDigits 10 start.toNat) start.toNat := .toDigits start.toNat_lt
    have hlast : Decimal (Nat.toDigits 10 (stop.toNat - 1)) (stop.toNat - 1) := .toDigits (by omega)
    have hnot : ¬ stop.toNat - 1 < start.toNat := by omega
    simp only [Api.parsePatchContentRange, contentRange_bytes, splitOnce_numbers,
      splitOnce_contentRangeOf (by decide : ' ' ∉ "bytes".toList), if_true,
      Text.splitOnce_append hfirst.hyphen_not_mem, hfirst.parseU64, hlast.parseU64, hnot, if_false]
    rfl

theorem contentRange_visible (span : EditSpan) : ∀ c ∈ span.contentRange, HeaderMap.IsVisible c := by
  cases span with
  | lines start stop ordered =>
    rw [contentRange_lines]
    exact contentRangeOf_visible lines_visible
  | bytes start stop ordered =>
    rw [contentRange_bytes]
    exact contentRangeOf_visible bytes_visible

/-- The header of an edit names the slice that its span names. -/
theorem span_patchMode (span : EditSpan) (body bytes : Bytes) :
    (span.patchMode body).span bytes = span.toRead.slice bytes ∧ (span.patchMode body).body = body := by
  cases span with
  | lines start stop ordered => exact ⟨byteRange_lineRange ordered bytes, rfl⟩
  | bytes start stop ordered => exact ⟨toExclusiveRange_bytes ordered bytes, rfl⟩

end EditSpan

end Mcp
