-- SUMMARY: The lines of an object as spans of its bytes, and the ranges of them that are read, reported and patched.
import NotedThat.Api.Ranges
import NotedThat.Core.ByteRanges

/-!
# Spans of lines

The index of an object cuts it into lines. A range of lines is resolved to its first and last line, whatever
its form; what is read is what lies between the beginning of the one and the end of the other, and a last
line below the first is the point between the two.
-/

/-! ## The lines -/

/-- A line ends with `\n` or `\r\n` and holds no other line end; the last one may have none. -/
inductive ObjectLine (isLast : Prop) : Bytes → Prop where
  | newline {content : Bytes} : 0x0A ∉ content → content.getLast? ≠ some 0x0D →
      ObjectLine isLast (content ++ [0x0A])
  | carriageReturn {content : Bytes} : 0x0A ∉ content → ObjectLine isLast (content ++ [0x0D, 0x0A])
  | unterminated {content : Bytes} : isLast → content ≠ [] → 0x0A ∉ content → ObjectLine isLast content

/-- The lines of an index, each from its first byte to behind its last. -/
def LineIndex.lineSpans (index : LineIndex) : List (Nat × Nat) :=
  index.lineStarts.zip (index.lineStarts.tail ++ [index.totalBytes])

/-- The lines follow each other from the first byte to the last, and each is a line. -/
structure LineIndex.Partitions (index : LineIndex) (bytes : Bytes) : Prop where
  counted : index.lineSpans.length = index.totalLines
  begins : ∀ span, index.lineSpans[0]? = some span → span.1 = 0
  contiguous : ∀ n span next, index.lineSpans[n]? = some span → index.lineSpans[n + 1]? = some next →
    span.2 = next.1
  ends : ∀ n span, index.lineSpans[n]? = some span → n + 1 = index.totalLines → span.2 = bytes.length
  nonempty : ∀ span ∈ index.lineSpans, span.1 < span.2
  covers : ∀ position < bytes.length, ∃ span ∈ index.lineSpans, span.1 ≤ position ∧ position < span.2
  terminated : ∀ n span, index.lineSpans[n]? = some span →
    ObjectLine (n + 1 = index.totalLines) ((bytes.drop span.1).take (span.2 - span.1))

namespace LineIndex

variable {bytes : Bytes}

theorem objectLine {n : Nat} {line : Bytes} (h : (objectLines bytes)[n]? = some line) :
    ObjectLine (n + 1 = (objectLines bytes).length) line := by
  have hplain : ∀ content : Bytes, (∀ b ∈ content, decide (b = (0x0A : UInt8)) = false) → 0x0A ∉ content := by
    intro content hcontent hmem
    exact absurd (hcontent _ hmem) (by decide)
  cases Lines.line_of_split h with
  | @ended content a hcontent hend =>
    obtain rfl : a = 0x0A := of_decide_eq_true hend
    have hnot := hplain content hcontent
    rcases List.eq_nil_or_concat content with rfl | ⟨front, b, rfl⟩
    · exact @ObjectLine.newline _ [] hnot nofun
    · by_cases hreturn : b = 0x0D
      · subst hreturn
        rw [List.concat_eq_append, List.append_assoc]
        exact .carriageReturn fun hmem => hnot (by simp [hmem])
      · exact .newline hnot (by simpa using hreturn)
  | unended hlast hne hcontent => exact .unterminated hlast hne (hplain line hcontent)

/-- A line ends where the next begins, and the last with the object. -/
theorem lineStop {n : Nat} (h : n < (objectLines bytes).length) :
    ((fromBytes bytes).lineStarts.tail ++ [bytes.length])[n]? = some (endOf bytes (n + 1)) := by
  have htail : (fromBytes bytes).lineStarts.tail.length = (objectLines bytes).length - 1 := by
    rw [List.length_tail, ← fromBytes_totalLines]
    rfl
  rcases Nat.lt_or_ge (n + 1) (objectLines bytes).length with hnext | hlast
  · rw [List.getElem?_append_left (by omega), List.getElem?_tail, lineStart hnext]
  · rw [List.getElem?_append_right (by omega), show n - (fromBytes bytes).lineStarts.tail.length = 0 by omega,
      endOf_all hlast]
    rfl

theorem getElem?_lineSpans {n : Nat} {span : Nat × Nat} :
    (fromBytes bytes).lineSpans[n]? = some span ↔
      n < (objectLines bytes).length ∧ span = (endOf bytes n, endOf bytes (n + 1)) := by
  rw [lineSpans, List.getElem?_zip_eq_some]
  constructor
  · rintro ⟨hstart, hstop⟩
    have hn : n < (objectLines bytes).length := by
      rw [← fromBytes_totalLines]
      exact (List.getElem?_eq_some_iff.mp hstart).1
    rw [lineStart hn] at hstart
    have hend := hstop.symm.trans (lineStop hn)
    exact ⟨hn, Prod.ext (Option.some.inj hstart.symm) (Option.some.inj hend)⟩
  · rintro ⟨hn, rfl⟩
    exact ⟨lineStart hn, lineStop hn⟩

theorem length_lineSpans : (fromBytes bytes).lineSpans.length = (objectLines bytes).length := by
  refine Nat.le_antisymm (Nat.le_of_not_lt fun hlt => ?_) (Nat.le_of_not_lt fun hlt => ?_)
  · exact absurd (getElem?_lineSpans.mp (List.getElem?_eq_getElem hlt)).1 (Nat.lt_irrefl _)
  · have hspan := getElem?_lineSpans.mpr ⟨hlt, rfl⟩
    rw [List.getElem?_eq_none (Nat.le_refl _)] at hspan
    cases hspan

/-- A span holds its line. -/
theorem span_line {n : Nat} {line : Bytes} (h : (objectLines bytes)[n]? = some line) :
    (bytes.drop (endOf bytes n)).take (endOf bytes (n + 1) - endOf bytes n) = line := by
  have hline : ((objectLines bytes).flatten.drop (endOf bytes n)).take (endOf bytes (n + 1) - endOf bytes n) = line :=
    Lines.take_drop_line h
  rwa [flatten_objectLines] at hline

theorem span_nonempty {n : Nat} (h : n < (objectLines bytes).length) : endOf bytes n < endOf bytes (n + 1) :=
  Lines.offset_lt_succ (List.getElem?_eq_getElem h) (Lines.line_of_split (List.getElem?_eq_getElem h)).ne_nil

/-- A position between the ends of two lines is in the span of a line between them. -/
theorem exists_span {m n position : Nat} (hm : endOf bytes m ≤ position) (hn : position < endOf bytes n) :
    ∃ line, m ≤ line ∧ line < n ∧ endOf bytes line ≤ position ∧ position < endOf bytes (line + 1) :=
  Lines.exists_line hm hn

theorem partitions : (fromBytes bytes).Partitions bytes where
  counted := by rw [length_lineSpans, fromBytes_totalLines]
  begins span h := by
    obtain ⟨-, rfl⟩ := getElem?_lineSpans.mp h
    rfl
  contiguous n span next h hnext := by
    obtain ⟨-, rfl⟩ := getElem?_lineSpans.mp h
    obtain ⟨-, rfl⟩ := getElem?_lineSpans.mp hnext
    rfl
  ends n span h hlast := by
    obtain ⟨-, rfl⟩ := getElem?_lineSpans.mp h
    rw [fromBytes_totalLines] at hlast
    exact endOf_all (Nat.le_of_eq hlast.symm)
  nonempty span h := by
    obtain ⟨n, hn⟩ := List.mem_iff_getElem?.mp h
    obtain ⟨hlt, rfl⟩ := getElem?_lineSpans.mp hn
    exact span_nonempty hlt
  covers position hposition := by
    rw [← endOf_all (le_refl (objectLines bytes).length)] at hposition
    obtain ⟨line, -, hline, hspan⟩ := @exists_span bytes 0 _ position (Nat.zero_le position) hposition
    exact ⟨_, List.mem_of_getElem? (getElem?_lineSpans.mpr ⟨hline, rfl⟩), hspan⟩
  terminated n span h := by
    obtain ⟨hn, rfl⟩ := getElem?_lineSpans.mp h
    dsimp only
    rw [fromBytes_totalLines, span_line (List.getElem?_eq_getElem hn)]
    exact objectLine (List.getElem?_eq_getElem hn)

end LineIndex

/-! ## Ranges of lines -/

namespace LineRange

/-- The lines a range names in an object of `totalLines` lines. -/
def Names (totalLines : Nat) : LineRange → Nat → Prop
  | .fromStart first last, line => first ≤ line ∧ line ≤ last
  | .fromStartOpen first, line => first ≤ line
  | .suffix length, line => totalLines < line + length
  | .insert _, _ => False

/-- The first line of a range exists, or the point it names is there. -/
def Satisfiable (totalLines : Nat) : LineRange → Prop
  | .fromStart first last => 1 ≤ first ∧ first ≤ totalLines ∧ first ≤ last + 1
  | .fromStartOpen first => 1 ≤ first ∧ first ≤ totalLines
  | .suffix length => 1 ≤ length ∧ 1 ≤ totalLines
  | .insert before => 1 ≤ before ∧ before ≤ totalLines + 1

/-- The first and last line of a satisfiable range. -/
def resolve (totalLines : Nat) : LineRange → Nat × Nat
  | .fromStart first last => (first, min last totalLines)
  | .fromStartOpen first => (first, totalLines)
  | .suffix length => (totalLines - min length totalLines + 1, totalLines)
  | .insert before => (before, before - 1)

variable {range : LineRange} {totalLines : Nat}

theorem resolve_bounds (h : range.Satisfiable totalLines) :
    1 ≤ (range.resolve totalLines).1 ∧ (range.resolve totalLines).1 ≤ (range.resolve totalLines).2 + 1 ∧
      (range.resolve totalLines).2 ≤ totalLines := by
  cases range with
  | fromStart first last =>
    rw [Satisfiable] at h
    dsimp only [resolve]
    omega
  | fromStartOpen first =>
    rw [Satisfiable] at h
    dsimp only [resolve]
    omega
  | suffix length =>
    rw [Satisfiable] at h
    dsimp only [resolve]
    omega
  | insert before =>
    rw [Satisfiable] at h
    dsimp only [resolve]
    omega

theorem mem_resolve (h : range.Satisfiable totalLines) (line : Nat) :
    (range.resolve totalLines).1 ≤ line ∧ line ≤ (range.resolve totalLines).2 ↔
      1 ≤ line ∧ line ≤ totalLines ∧ range.Names totalLines line := by
  cases range with
  | fromStart first last =>
    rw [Satisfiable] at h
    dsimp only [resolve, Names]
    omega
  | fromStartOpen first =>
    rw [Satisfiable] at h
    dsimp only [resolve, Names]
    omega
  | suffix length =>
    rw [Satisfiable] at h
    dsimp only [resolve, Names]
    omega
  | insert before =>
    rw [Satisfiable] at h
    dsimp only [resolve, Names]
    simp only [and_false, iff_false]
    omega

end LineRange

namespace LineIndex

variable {bytes : Bytes}

/-- What is read of a range: from the beginning of its first line to the end of its last. -/
theorem byteRange_eq_some {range : LineRange} {start stop : Nat} :
    (fromBytes bytes).byteRange range = some (start, stop) ↔
      range.Satisfiable (objectLines bytes).length ∧
        start = endOf bytes ((range.resolve (objectLines bytes).length).1 - 1) ∧
        stop = endOf bytes (range.resolve (objectLines bytes).length).2 := by
  cases range with
  | fromStart first last =>
    rw [byteRange_fromStart, Option.ite_none_left_eq_some, Option.some.injEq, Prod.mk.injEq,
      eq_comm (b := start), eq_comm (b := stop)]
    refine and_congr ?_ Iff.rfl
    rw [LineRange.Satisfiable]
    omega
  | fromStartOpen first =>
    rw [byteRange_fromStartOpen, Option.ite_none_left_eq_some, Option.some.injEq, Prod.mk.injEq,
      eq_comm (b := start), eq_comm (b := stop), ← endOf_all (le_refl (objectLines bytes).length)]
    refine and_congr ?_ Iff.rfl
    rw [LineRange.Satisfiable]
    omega
  | suffix length =>
    rw [byteRange_suffix, Option.ite_none_left_eq_some, Option.some.injEq, Prod.mk.injEq,
      eq_comm (b := start), eq_comm (b := stop), ← endOf_all (le_refl (objectLines bytes).length)]
    refine and_congr ?_ Iff.rfl
    rw [LineRange.Satisfiable]
    omega
  | insert before =>
    rw [byteRange_insert, Option.ite_none_left_eq_some, Option.some.injEq, Prod.mk.injEq,
      eq_comm (b := start), eq_comm (b := stop)]
    refine and_congr ?_ Iff.rfl
    rw [LineRange.Satisfiable]
    omega

theorem byteRange_le {range : LineRange} {start stop : Nat}
    (h : (fromBytes bytes).byteRange range = some (start, stop)) : start ≤ stop ∧ stop ≤ bytes.length := by
  obtain ⟨hsatisfiable, rfl, rfl⟩ := byteRange_eq_some.mp h
  have hbounds := LineRange.resolve_bounds hsatisfiable
  exact ⟨endOf_mono (by omega), endOf_le _⟩

theorem isSome_byteRange {range : LineRange} :
    ((fromBytes bytes).byteRange range).isSome ↔ range.Satisfiable (objectLines bytes).length := by
  constructor
  · intro h
    obtain ⟨⟨start, stop⟩, hrange⟩ := Option.isSome_iff_exists.mp h
    exact (byteRange_eq_some.mp hrange).1
  · intro h
    rw [byteRange_eq_some.mpr ⟨h, rfl, rfl⟩]
    rfl

/-- A position is read if and only if a line that is named has it. -/
theorem mem_byteRange {range : LineRange} {start stop : Nat}
    (h : (fromBytes bytes).byteRange range = some (start, stop)) (position : Nat) :
    start ≤ position ∧ position < stop ↔
      ∃ line span, 1 ≤ line ∧ range.Names (objectLines bytes).length line ∧
        (fromBytes bytes).lineSpans[line - 1]? = some span ∧ span.1 ≤ position ∧ position < span.2 := by
  obtain ⟨hsatisfiable, rfl, rfl⟩ := byteRange_eq_some.mp h
  have hbounds := LineRange.resolve_bounds hsatisfiable
  have hnames := LineRange.mem_resolve hsatisfiable
  constructor
  · rintro ⟨hstart, hstop⟩
    obtain ⟨line, hfirst, hlast, hspan⟩ := exists_span hstart hstop
    obtain ⟨-, -, hnamed⟩ := (hnames (line + 1)).mp ⟨by omega, hlast⟩
    exact ⟨line + 1, _, Nat.le_add_left 1 line, hnamed, getElem?_lineSpans.mpr ⟨by omega, rfl⟩, hspan⟩
  · rintro ⟨line, span, hpos, hnamed, hspan, hstart, hstop⟩
    obtain ⟨hline, rfl⟩ := getElem?_lineSpans.mp hspan
    obtain ⟨hfirst, hlast⟩ := (hnames line).mpr ⟨hpos, by omega, hnamed⟩
    rw [Nat.sub_add_cancel hpos] at hstop
    exact ⟨(endOf_mono (by omega)).trans hstart, hstop.trans_le (endOf_mono hlast)⟩

/-! ## The report -/

theorem linesReport_eq (first last complete : Text) :
    "lines ".toList ++ first ++ '-' :: last ++ '/' :: complete =
      "lines".toList ++ ' ' :: (first ++ '-' :: (last ++ '/' :: complete)) := by
  have hunit : "lines ".toList = "lines".toList ++ [' '] := rfl
  rw [hunit]
  simp only [List.append_assoc, List.cons_append, List.nil_append]

/-- What is reported of a range are its first and last line. -/
theorem contentRangeString_eq (index : LineIndex) (range : LineRange) :
    ContentRange "lines".toList (index.contentRangeString range) (range.resolve index.totalLines).1
      (range.resolve index.totalLines).2 index.totalLines := by
  refine ⟨Nat.toDigits 10 (range.resolve index.totalLines).1, Nat.toDigits 10 (range.resolve index.totalLines).2,
    Nat.toDigits 10 index.totalLines, .toDigits _, .toDigits _, .toDigits _, ?_⟩
  cases range with
  | fromStart first last => exact linesReport_eq _ _ _
  | fromStartOpen first => exact linesReport_eq _ _ _
  | suffix length => exact linesReport_eq _ _ _
  | insert before => exact linesReport_eq _ _ _

/-! ## Patches -/

/-- Bytes spliced over themselves. -/
theorem spliceBytes_self {start stop : Nat} (h : start ≤ stop) :
    Write.spliceBytes bytes start stop ((bytes.drop start).take (stop - start)) = bytes := by
  have hrest : bytes.drop stop = (bytes.drop start).drop (stop - start) := by
    rw [List.drop_drop, Nat.add_sub_cancel' h]
  rw [Write.spliceBytes, hrest, List.append_assoc, List.take_append_drop, List.take_append_drop]

theorem applyPatch_self {range : LineRange} {start stop : Nat}
    (h : (fromBytes bytes).byteRange range = some (start, stop)) (max : Nat) :
    Write.applyPatch (.lines range ((bytes.drop start).take (stop - start))) bytes max =
      if bytes.length ≤ max then .ok bytes else .error (.patchTooLarge bytes.length max) := by
  obtain ⟨hstart, hstop⟩ := byteRange_le h
  have hlength : bytes.length - (stop - start) + ((bytes.drop start).take (stop - start)).length =
      bytes.length := by
    rw [List.length_take, List.length_drop]
    omega
  simp only [Write.applyPatch, Write.splicePlan, h, bind, Except.bind, hlength, spliceBytes_self hstart]
  split
  · next hlarge => rw [if_neg (Nat.not_le.mpr hlarge)]
  · next hfits => rw [if_pos (Nat.le_of_not_lt hfits)]

/-- The index of an object partitions it into lines; a range of lines is read if and only if it is
satisfiable, as the lines it names and no others, is reported as these, and leaves the object as it is when
it is patched with what was read. -/
theorem lines_partitioned (bytes : Bytes) :
    (fromBytes bytes).Partitions bytes ∧
      ∀ range,
        (((fromBytes bytes).byteRange range).isSome ↔ range.Satisfiable (fromBytes bytes).totalLines) ∧
        ∀ start stop, (fromBytes bytes).byteRange range = some (start, stop) →
          start ≤ stop ∧ stop ≤ bytes.length ∧
          (∀ position, start ≤ position ∧ position < stop ↔
            ∃ line span, 1 ≤ line ∧ range.Names (fromBytes bytes).totalLines line ∧
              (fromBytes bytes).lineSpans[line - 1]? = some span ∧ span.1 ≤ position ∧ position < span.2) ∧
          (∃ first last,
            (∀ a b complete, ContentRange "lines".toList ((fromBytes bytes).contentRangeString range) a b complete ↔
              a = first ∧ b = last ∧ complete = (fromBytes bytes).totalLines) ∧
            (∀ line, first ≤ line ∧ line ≤ last ↔
              1 ≤ line ∧ line ≤ (fromBytes bytes).totalLines ∧ range.Names (fromBytes bytes).totalLines line) ∧
            start = endOf bytes (first - 1) ∧ stop = endOf bytes last) ∧
          ∀ max, Write.applyPatch (.lines range ((bytes.drop start).take (stop - start))) bytes max =
            if bytes.length ≤ max then .ok bytes else .error (.patchTooLarge bytes.length max) := by
  refine ⟨partitions, fun range => ⟨by rw [isSome_byteRange, fromBytes_totalLines], fun start stop h => ?_⟩⟩
  obtain ⟨hsatisfiable, hstart, hstop⟩ := byteRange_eq_some.mp h
  obtain ⟨hle, hinside⟩ := byteRange_le h
  have hreport := contentRangeString_eq (fromBytes bytes) range
  rw [fromBytes_totalLines] at hreport ⊢
  refine ⟨hle, hinside, mem_byteRange h, ⟨_, _, fun a b complete => ?_, LineRange.mem_resolve hsatisfiable, hstart,
    hstop⟩, applyPatch_self h⟩
  constructor
  · intro hread
    exact hread.unique hreport
  · rintro ⟨rfl, rfl, rfl⟩
    exact hreport

end LineIndex
