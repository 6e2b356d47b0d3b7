-- SUMMARY: The heading scanner, whatever its reads give, finds what a reader of whole lines finds, in bounded memory.
import NotedThat.Indexer.HeadingScanner
import NotedThat.Lib.Lines

/-!
# Scanning by lines

The scanner's state in the middle of a line is what was read of it, cut to the size of its buffers.
So at the end of the line it has what it would have captured of the whole line, and where its reads
were cut does not matter. A marker is in the line exactly if the window has ended with it.
-/

namespace Chunker

/-! ## Whole lines -/

/-- What is captured of a line. -/
def capture (start : Nat) (line : Bytes) : CapturedParagraph :=
  ⟨start, line.take lineCaptureBytes, lineCaptureBytes < line.length⟩

/-- The marker is in the line, in whatever case. -/
def occursIn (line : Bytes) (marker : HtmlMarker) : Bool :=
  (Utf8.encode marker.text).map asciiLower <:+: line.map asciiLower

def isLineFeed (byte : UInt8) : Bool := byte = lineFeed

section

variable (parser : Markdown) (labelCharCap : Nat)

/-- A whole line, which starts at a byte of the document. -/
def scanLine (start : Nat) (line : Bytes) (b : Blocks) : Option Heading × Blocks :=
  b.finishLine parser labelCharCap (capture start line) (occursIn line)

def scanLines : Nat → List Bytes → Blocks → List Heading
  | _, [], _ => []
  | start, line :: lines, b =>
    (scanLine parser labelCharCap start line b).1.toList ++
      scanLines (start + line.length) lines (scanLine parser labelCharCap start line b).2

/-- The headings of a document, line by line. -/
def headingsOf (source : Bytes) : List Heading :=
  scanLines parser labelCharCap 0 (Lines.split isLineFeed source) {}

end

/-! ## Markers -/

theorem length_marker_le (marker : HtmlMarker) : (Utf8.encode marker.text).length ≤ lineTailBytes := by
  cases marker <;> decide

theorem endsWithMarker_iff {seen : Bytes} {marker : HtmlMarker} :
    endsWithMarker (seen.rtake lineTailBytes) marker.text = true ↔
      (Utf8.encode marker.text).map asciiLower <:+ seen.map asciiLower := by
  generalize hpattern : Utf8.encode marker.text = pattern
  have hle : pattern.length ≤ lineTailBytes := hpattern ▸ length_marker_le marker
  have hmapped : (pattern.map asciiLower).length ≤ lineTailBytes := by rwa [List.length_map]
  rw [← Window.suffix_rtake_iff hmapped, Window.rtake_map]
  generalize seen.rtake lineTailBytes = window
  have hzip : (window.reverse.zip pattern.reverse).all (fun pair => asciiLower pair.1 = asciiLower pair.2) =
      ((window.map asciiLower).reverse.zip (pattern.map asciiLower).reverse).all
        fun pair => pair.1 = pair.2 := by
    rw [← List.map_reverse, ← List.map_reverse, List.zip_map, List.all_map]
    rfl
  rw [endsWithMarker, hpattern, Bool.and_eq_true, decide_eq_true_eq, hzip]
  constructor
  · rintro ⟨hlength, hall⟩
    exact (Window.zip_reverse_all_iff (by simpa using hlength)).mp hall
  · intro hend
    have hlength := hend.length_le
    exact ⟨by simpa using hlength, (Window.zip_reverse_all_iff hlength).mpr hend⟩

theorem occursIn_nil (marker : HtmlMarker) : occursIn [] marker = false := by
  cases marker <;> decide

theorem occursIn_concat (seen : Bytes) (byte : UInt8) (marker : HtmlMarker) :
    occursIn (seen ++ [byte]) marker =
      (occursIn seen marker || endsWithMarker ((seen ++ [byte]).rtake lineTailBytes) marker.text) := by
  rw [Bool.eq_iff_iff, Bool.or_eq_true, endsWithMarker_iff, occursIn, occursIn, decide_eq_true_eq,
    decide_eq_true_eq, List.map_append, List.map_singleton, List.infix_concat_iff, or_comm]

/-! ## The middle of a line -/

/-- The scanner has read a part of a line. -/
structure HeadingScanner.Holding (s : HeadingScanner) (part : Bytes) : Prop where
  position : s.position = s.lineStart + part.length
  line : s.line = part.take lineCaptureBytes
  overflowed : s.lineOverflowed = decide (lineCaptureBytes < part.length)
  lineTail : s.lineTail = part.rtake lineTailBytes
  seen : s.htmlMarkerSeen = occursIn part
  going : s.eof = false

namespace HeadingScanner

theorem new_holding : new.Holding [] where
  position := rfl
  line := rfl
  overflowed := rfl
  lineTail := rfl
  seen := funext fun marker => (occursIn_nil marker).symm
  going := rfl

theorem Holding.takeByte {s : HeadingScanner} {part : Bytes} (h : s.Holding part) (byte : UInt8) :
    (s.takeByte byte).Holding (part ++ [byte]) where
  position := by
    show s.position + 1 = s.lineStart + (part ++ [byte]).length
    rw [h.position, List.length_append, List.length_singleton, Nat.add_assoc]
  line := by
    rw [HeadingScanner.takeByte, h.line, List.length_take]
    by_cases hroom : part.length < lineCaptureBytes
    · rw [if_pos (by omega), List.take_of_length_le (by omega),
        List.take_of_length_le (by rw [List.length_append, List.length_singleton]; omega)]
    · rw [if_neg (by omega), List.take_append_of_le_length (by omega)]
  overflowed := by
    rw [HeadingScanner.takeByte, h.line, h.overflowed, List.length_take, Bool.eq_iff_iff]
    simp only [Bool.or_eq_true, decide_eq_true_eq, List.length_append, List.length_singleton]
    omega
  lineTail := by
    rw [HeadingScanner.takeByte, h.lineTail, Window.push_rtake (by decide)]
  seen := by
    funext marker
    rw [HeadingScanner.takeByte, h.lineTail, Window.push_rtake (by decide), h.seen, occursIn_concat]
  going := h.going

variable {parser : Markdown} {labelCharCap : Nat}

variable (parser labelCharCap) in
/-- At the end of a line the scanner does what a reader of the whole line does. -/
theorem Holding.finishLine {s : HeadingScanner} {line : Bytes} (h : s.Holding line) :
    (s.finishLine parser labelCharCap).1 = (scanLine parser labelCharCap s.lineStart line s.blocks).1 ∧
      (s.finishLine parser labelCharCap).2.blocks =
        (scanLine parser labelCharCap s.lineStart line s.blocks).2 ∧
      (s.finishLine parser labelCharCap).2.position = s.position ∧
      { (s.finishLine parser labelCharCap).2 with lineStart := s.position }.Holding [] := by
  have hcapture : (⟨s.lineStart, s.line, s.lineOverflowed⟩ : CapturedParagraph) = capture s.lineStart line := by
    rw [capture, h.line, h.overflowed]
  rw [HeadingScanner.finishLine, hcapture, h.seen]
  refine ⟨rfl, rfl, rfl, ?_⟩
  exact { position := rfl, line := rfl, overflowed := rfl, lineTail := rfl, going := h.going
          seen := funext fun marker => (occursIn_nil marker).symm }

/-! ## Whatever the reads give -/

/-- The headings that the scanner has yet to find in the document. -/
structure Ahead (parser : Markdown) (labelCharCap : Nat) (source : Bytes) (s : HeadingScanner)
    (headings : List Heading) : Prop where
  part : ∃ part, s.Holding part ∧ (∀ byte ∈ part, isLineFeed byte = false) ∧
    source.drop s.lineStart = part ++ source.drop s.position
  inside : s.position ≤ source.length
  headings : scanLines parser labelCharCap s.lineStart (Lines.split isLineFeed (source.drop s.lineStart))
    s.blocks = headings

variable (parser labelCharCap) in
theorem new_ahead (source : Bytes) :
    new.Ahead parser labelCharCap source (headingsOf parser labelCharCap source) where
  part := ⟨[], new_holding, (fun _ hmem => nomatch hmem), rfl⟩
  inside := Nat.zero_le _
  headings := rfl

/-- What bytes of the document make of the scanner: they are all passed, or end with a heading. -/
inductive Consumed (parser : Markdown) (labelCharCap : Nat) (source : Bytes) (s : HeadingScanner) (n : Nat) :
    List Heading → Option Heading × HeadingScanner → Prop where
  | passed {headings : List Heading} {s' : HeadingScanner} : s'.Ahead parser labelCharCap source headings →
      s'.position = s.position + n → Consumed parser labelCharCap source s n headings (none, s')
  | found {heading : Heading} {later : List Heading} {s' : HeadingScanner} :
      s'.Ahead parser labelCharCap source later → s.position < s'.position →
      Consumed parser labelCharCap source s n (heading :: later) (some heading, s')

theorem drop_of_drop_cons {source rest : Bytes} {byte : UInt8} {n : Nat} (h : source.drop n = byte :: rest) :
    source.drop (n + 1) = rest ∧ n < source.length := by
  constructor
  · rw [← List.tail_drop, h]
    rfl
  · by_contra hle
    rw [List.drop_eq_nil_of_le (by omega)] at h
    cases h

/-- A byte in the middle of a line. -/
theorem Ahead.takeByte {source rest : Bytes} {s : HeadingScanner} {headings : List Heading} {byte : UInt8}
    (h : s.Ahead parser labelCharCap source headings) (hnext : source.drop s.position = byte :: rest)
    (hbyte : isLineFeed byte = false) : (s.takeByte byte).Ahead parser labelCharCap source headings := by
  obtain ⟨part, hholding, hunended, hdrop⟩ := h.part
  obtain ⟨hrest, hlt⟩ := drop_of_drop_cons hnext
  refine ⟨⟨part ++ [byte], hholding.takeByte byte, ?_, ?_⟩, hlt, h.headings⟩
  · intro b hmem
    rcases List.mem_append.mp hmem with hmem | hmem
    · exact hunended b hmem
    · exact List.mem_singleton.mp hmem ▸ hbyte
  · show source.drop s.lineStart = part ++ [byte] ++ source.drop (s.position + 1)
    rw [hdrop, hnext, hrest, List.append_assoc, List.singleton_append]

/-- The last byte of a line: what the line adds to the headings, and the scanner at the next line. -/
theorem Ahead.endLine {source rest : Bytes} {s : HeadingScanner} {headings : List Heading} {byte : UInt8}
    (h : s.Ahead parser labelCharCap source headings) (hnext : source.drop s.position = byte :: rest)
    (hbyte : isLineFeed byte = true) :
    let finished := (s.takeByte byte).finishLine parser labelCharCap
    ∃ later, headings = finished.1.toList ++ later ∧ finished.2.position = s.position + 1 ∧
      { finished.2 with lineStart := finished.2.position }.Ahead parser labelCharCap source later := by
  intro finished
  obtain ⟨part, hholding, hunended, hdrop⟩ := h.part
  obtain ⟨hrest, hlt⟩ := drop_of_drop_cons hnext
  obtain ⟨hfound, hblocks, hposition, hempty⟩ :=
    (hholding.takeByte byte).finishLine parser labelCharCap
  have hline : Lines.Line isLineFeed False (part ++ [byte]) := .ended hunended hbyte
  have hsplit : Lines.split isLineFeed (source.drop s.lineStart) =
      (part ++ [byte]) :: Lines.split isLineFeed rest := by
    rw [hdrop, hnext, ← Lines.split_line_append hline, List.append_assoc, List.singleton_append]
  have hstart : s.lineStart + (part ++ [byte]).length = s.position + 1 := by
    rw [List.length_append, List.length_singleton, ← Nat.add_assoc, ← hholding.position]
  have hat : finished.2.position = s.position + 1 := hposition
  refine ⟨_, ?_, hat, ⟨[], ?_, (fun _ hmem => nomatch hmem), rfl⟩, ?_, rfl⟩
  · show headings = finished.1.toList ++ scanLines parser labelCharCap finished.2.position
      (Lines.split isLineFeed (source.drop finished.2.position)) finished.2.blocks
    rw [← h.headings, hsplit, scanLines, hstart, hat, hrest]
    exact congrArg₂ (fun found blocks => found.toList ++ scanLines parser labelCharCap (s.position + 1)
      (Lines.split isLineFeed rest) blocks) hfound.symm hblocks.symm
  · rw [hat]
    exact hempty
  · show finished.2.position ≤ source.length
    rw [hat]
    exact hlt

theorem Ahead.consume {source buffer : Bytes} {s : HeadingScanner} {headings : List Heading}
    (h : s.Ahead parser labelCharCap source headings) (hbuffer : buffer <+: source.drop s.position) :
    Consumed parser labelCharCap source s buffer.length headings
      (HeadingScanner.consume parser labelCharCap buffer s) := by
  induction buffer generalizing s headings with
  | nil => exact .passed h rfl
  | cons byte buffer ih =>
    obtain ⟨rest, hrest⟩ := hbuffer
    have hnext : source.drop s.position = byte :: (buffer ++ rest) := hrest.symm
    have htail := (drop_of_drop_cons hnext).1
    -- what follows the byte goes on from the position behind it
    have hgoes : ∀ {s' : HeadingScanner} {later : List Heading},
        s'.Ahead parser labelCharCap source later → s'.position = s.position + 1 →
        Consumed parser labelCharCap source s (buffer.length + 1) later
          (HeadingScanner.consume parser labelCharCap buffer s') := by
      intro s' later hahead hposition
      have hconsumed := ih hahead (by rw [hposition, htail]; exact List.prefix_append _ _)
      generalize HeadingScanner.consume parser labelCharCap buffer s' = result at hconsumed
      cases hconsumed with
      | passed hahead' hposition' => exact .passed hahead' (by omega)
      | found hahead' hlt => exact .found hahead' (by omega)
    unfold HeadingScanner.consume
    by_cases hbyte : byte = lineFeed
    · obtain ⟨later, hheadings, hposition, hahead⟩ := h.endLine hnext (decide_eq_true hbyte)
      simp only [if_pos hbyte]
      split
      · next heading hfound =>
        rw [hheadings, hfound]
        exact .found hahead (hposition ▸ Nat.lt_succ_self _)
      · next hfound =>
        rw [hheadings, hfound]
        exact hgoes hahead hposition
    · simp only [if_neg hbyte]
      exact hgoes (h.takeByte hnext (decide_eq_false hbyte)) rfl

/-- What a call finds of the headings ahead: the first, or that there is none. -/
inductive Found (parser : Markdown) (labelCharCap : Nat) (source : Bytes) :
    List Heading → Option Heading × HeadingScanner × List Nat → Prop where
  | done {s : HeadingScanner} {sizes : List Nat} : s.position = source.length →
      Found parser labelCharCap source [] (none, s, sizes)
  | heading {heading : Heading} {later : List Heading} {s : HeadingScanner} {sizes : List Nat} :
      s.Ahead parser labelCharCap source later → (∀ size ∈ sizes, 0 < size) →
      source.length - s.position < sizes.length →
      Found parser labelCharCap source (heading :: later) (some heading, s, sizes)
  | last {heading : Heading} {s : HeadingScanner} {sizes : List Nat} : s.position = source.length →
      s.eof = true → Found parser labelCharCap source [heading] (some heading, s, sizes)

/-- The end of the document, which may be in the middle of a line. -/
theorem Ahead.endOfFile {source : Bytes} {s : HeadingScanner} {headings : List Heading} (sizes : List Nat)
    (h : s.Ahead parser labelCharCap source headings) (hend : s.position = source.length) :
    let s := { s with eof := true }
    ∃ result, Found parser labelCharCap source headings result ∧
      (if s.position > s.lineStart then
        some ((s.finishLine parser labelCharCap).1, (s.finishLine parser labelCharCap).2, sizes)
      else some (none, s, sizes)) = some result := by
  intro s'
  obtain ⟨part, hholding, hunended, hdrop⟩ := h.part
  rw [List.drop_eq_nil_of_le (Nat.le_of_eq hend.symm), List.append_nil] at hdrop
  have hheadings := h.headings
  rw [hdrop] at hheadings
  by_cases hpart : part = []
  · subst hpart
    refine ⟨(none, s', sizes), ?_, if_neg ?_⟩
    · rw [← hheadings]
      exact .done hend
    · have hposition := hholding.position
      show ¬s.position > s.lineStart
      rw [List.length_nil] at hposition
      omega
  · have hpos := List.length_pos_iff.mpr hpart
    have hposition := hholding.position
    have hfinish := hholding.finishLine parser labelCharCap
    rw [Lines.split_unended hpart hunended, scanLines, scanLines, List.append_nil, ← hfinish.1] at hheadings
    refine ⟨_, ?_, if_pos (show s.position > s.lineStart by omega)⟩
    show Found parser labelCharCap source headings ((s.finishLine parser labelCharCap).1, _, sizes)
    cases hfound : (s.finishLine parser labelCharCap).1 with
    | none =>
      rw [hfound] at hheadings
      rw [← hheadings]
      exact .done hend
    | some heading =>
      rw [hfound] at hheadings
      rw [← hheadings]
      exact .last hend rfl

theorem Ahead.readOn {source : Bytes} {sizes : List Nat} {s : HeadingScanner} {headings : List Heading}
    (h : s.Ahead parser labelCharCap source headings) (hpositive : ∀ size ∈ sizes, 0 < size)
    (henough : source.length - s.position < sizes.length) :
    ∃ result, HeadingScanner.readOn parser labelCharCap source sizes s = some result ∧
      Found parser labelCharCap source headings result := by
  induction sizes generalizing s with
  | nil => exact absurd henough (Nat.not_lt_zero _)
  | cons size sizes ih =>
    obtain ⟨hsize, hsizes⟩ := List.forall_mem_cons.mp hpositive
    have hinside := h.inside
    unfold HeadingScanner.readOn
    split
    · next hempty =>
      -- a read gives nothing at the end only
      have hbuffer : 0 < readBufferBytes := by decide
      have hend : source.length ≤ s.position := by
        rcases List.take_eq_nil_iff.mp hempty with hzero | hnil
        · omega
        · exact List.drop_eq_nil_iff.mp hnil
      obtain ⟨result, hfound, hresult⟩ := h.endOfFile sizes (Nat.le_antisymm hinside hend)
      exact ⟨result, hresult, hfound⟩
    · next byte buffer hread =>
      have hconsumed := h.consume (hread ▸ List.take_prefix _ _)
      generalize HeadingScanner.consume parser labelCharCap (byte :: buffer) s = result at hconsumed
      rw [List.length_cons] at henough hconsumed
      cases hconsumed with
      | @passed _ s' hahead hposition =>
        have hinside' := hahead.inside
        exact ih hahead hsizes (by omega)
      | @found heading later s' hahead hlt =>
        have hinside' := hahead.inside
        exact ⟨_, rfl, .heading hahead hsizes (by omega)⟩

theorem Ahead.nextHeading {source : Bytes} {sizes : List Nat} {s : HeadingScanner} {headings : List Heading}
    (h : s.Ahead parser labelCharCap source headings) (hpositive : ∀ size ∈ sizes, 0 < size)
    (henough : source.length - s.position < sizes.length) :
    ∃ result, HeadingScanner.nextHeading parser labelCharCap source sizes s = some result ∧
      Found parser labelCharCap source headings result := by
  obtain ⟨part, hholding, -, -⟩ := h.part
  obtain ⟨result, hresult, hfound⟩ := h.readOn hpositive henough
  exact ⟨result, by rw [HeadingScanner.nextHeading, if_neg (by simp [hholding.going]), hresult], hfound⟩

/-- Asked once more than there are headings ahead, the scanner gives them all. -/
theorem Ahead.scanAll {source : Bytes} {sizes : List Nat} {s : HeadingScanner} {headings : List Heading}
    (h : s.Ahead parser labelCharCap source headings) (hpositive : ∀ size ∈ sizes, 0 < size)
    (henough : source.length - s.position < sizes.length) :
    ∃ s', (∀ fuel, headings.length < fuel →
        HeadingScanner.scanAll parser labelCharCap source fuel sizes s = some (headings, s')) ∧
      s'.position = source.length := by
  induction headings generalizing s sizes with
  | nil =>
    obtain ⟨result, hnext, hfound⟩ := h.nextHeading hpositive henough
    cases hfound with
    | @done s' sizes' hend =>
      refine ⟨s', fun fuel hfuel => ?_, hend⟩
      obtain ⟨fuel, rfl⟩ := Nat.exists_eq_succ_of_ne_zero (Nat.ne_of_gt hfuel)
      rw [HeadingScanner.scanAll, hnext]
  | cons heading later ih =>
    obtain ⟨result, hnext, hfound⟩ := h.nextHeading hpositive henough
    cases hfound with
    | heading hahead hsizes hleft =>
      obtain ⟨s', hscan, hend⟩ := ih hahead hsizes hleft
      refine ⟨s', fun fuel hfuel => ?_, hend⟩
      obtain ⟨fuel, rfl⟩ := Nat.exists_eq_succ_of_ne_zero (Nat.ne_of_gt (Nat.zero_lt_of_lt hfuel))
      rw [HeadingScanner.scanAll, hnext]
      dsimp only
      rw [hscan fuel (Nat.lt_of_succ_lt_succ hfuel)]
      rfl
    | @last _ s' sizes' hend heof =>
      refine ⟨s', fun fuel hfuel => ?_, hend⟩
      -- it is asked a second time
      obtain ⟨fuel, rfl⟩ := Nat.exists_eq_add_of_le' (show 2 ≤ fuel from hfuel)
      have hagain : HeadingScanner.nextHeading parser labelCharCap source sizes' s' = some (none, s', sizes') := by
        rw [HeadingScanner.nextHeading, if_pos heof]
      simp only [HeadingScanner.scanAll, hnext, hagain, Option.map_some]

/-! ## Bounded memory -/

/-- A state that the scanner is in at some time: bytes of the document in buffers of whatever size. -/
inductive Reached (parser : Markdown) (labelCharCap : Nat) (source : Bytes) : HeadingScanner → Prop where
  | new : Reached parser labelCharCap source new
  | consumed {s : HeadingScanner} {buffer : Bytes} : Reached parser labelCharCap source s →
      buffer <+: source.drop s.position →
      Reached parser labelCharCap source (HeadingScanner.consume parser labelCharCap buffer s).2
  -- a read gave nothing, and what is left of the document is its last line
  | ended {s : HeadingScanner} : Reached parser labelCharCap source s → source.drop s.position = [] →
      Reached parser labelCharCap source { s with eof := true }
  | last {s : HeadingScanner} : Reached parser labelCharCap source s → s.eof = true → s.position > s.lineStart →
      Reached parser labelCharCap source (s.finishLine parser labelCharCap).2

/-- What the scanner holds of the document. -/
structure Small (s : HeadingScanner) : Prop where
  line : s.line.length ≤ lineCaptureBytes
  lineTail : s.lineTail.length ≤ lineTailBytes
  paragraph : ∀ paragraph ∈ s.blocks.paragraph, paragraph.bytes.length ≤ lineCaptureBytes

theorem Small.takeByte {s : HeadingScanner} (h : s.Small) (byte : UInt8) : (s.takeByte byte).Small where
  line := by
    have hline := h.line
    simp only [HeadingScanner.takeByte]
    split
    · rw [List.length_append, List.length_singleton]
      omega
    · exact hline
  lineTail := by
    have htail := h.lineTail
    simp only [HeadingScanner.takeByte, Window.push, List.length_append, List.length_singleton]
    split
    · next hfull =>
      rw [List.length_tail, hfull]
      decide
    · omega
  paragraph := h.paragraph

/-- The paragraph behind a line is none, the line, or the paragraph before with a part of the line. -/
theorem length_nextParagraph {paragraph : Option CapturedParagraph} {content : Text}
    {current : CapturedParagraph} (hcurrent : current.bytes.length ≤ lineCaptureBytes)
    (hparagraph : ∀ p ∈ paragraph, p.bytes.length ≤ lineCaptureBytes) :
    ∀ p ∈ nextParagraph paragraph content current, p.bytes.length ≤ lineCaptureBytes := by
  intro p hmem
  unfold nextParagraph at hmem
  split at hmem
  · cases hmem
  · cases paragraph with
    | none =>
      obtain rfl := Option.mem_some_iff.mp hmem
      exact hcurrent
    | some before =>
      obtain rfl := Option.mem_some_iff.mp hmem
      have hbefore := hparagraph before rfl
      simp only [Option.map_some, Option.getD_some, CapturedParagraph.extend, List.length_append,
        List.length_take]
      omega

theorem length_finishText {content : Text} {current : CapturedParagraph} {b : Blocks}
    (hcurrent : current.bytes.length ≤ lineCaptureBytes)
    (hparagraph : ∀ p ∈ b.paragraph, p.bytes.length ≤ lineCaptureBytes) :
    ∀ p ∈ (b.finishText parser labelCharCap content current).2.paragraph,
      p.bytes.length ≤ lineCaptureBytes := by
  intro p hmem
  unfold Blocks.finishText at hmem
  split at hmem
  · cases hmem
  · split at hmem
    · split at hmem
      · cases hmem
      · exact length_nextParagraph hcurrent (by rintro _ ⟨⟩) p hmem
    · exact length_nextParagraph hcurrent hparagraph p hmem

theorem length_finishLine {current : CapturedParagraph} {seen : HtmlMarker → Bool} {b : Blocks}
    (hcurrent : current.bytes.length ≤ lineCaptureBytes)
    (hparagraph : ∀ p ∈ b.paragraph, p.bytes.length ≤ lineCaptureBytes) :
    ∀ p ∈ (b.finishLine parser labelCharCap current seen).2.paragraph,
      p.bytes.length ≤ lineCaptureBytes := by
  intro p hmem
  unfold Blocks.finishLine at hmem
  dsimp only at hmem
  split at hmem
  · cases hmem
  · split at hmem
    · cases hmem
    · split at hmem
      · cases hmem
      · split at hmem
        · split at hmem <;> cases hmem
        · exact length_finishText (b := { b with html := none, fence := none }) hcurrent hparagraph p hmem

variable (parser labelCharCap) in
theorem Small.finishLine {s : HeadingScanner} (h : s.Small) :
    (s.finishLine parser labelCharCap).2.Small where
  line := Nat.zero_le _
  lineTail := Nat.zero_le _
  paragraph := length_finishLine h.line h.paragraph

theorem Small.consume {s : HeadingScanner} (h : s.Small) (buffer : Bytes) :
    (HeadingScanner.consume parser labelCharCap buffer s).2.Small := by
  induction buffer generalizing s with
  | nil => exact h
  | cons byte buffer ih =>
    have hfinished := (h.takeByte byte).finishLine parser labelCharCap
    have hnext : ∀ start, { ((s.takeByte byte).finishLine parser labelCharCap).2 with
        lineStart := start }.Small :=
      fun _ => ⟨hfinished.line, hfinished.lineTail, hfinished.paragraph⟩
    unfold HeadingScanner.consume
    by_cases hbyte : byte = lineFeed
    · simp only [if_pos hbyte]
      split
      · exact hnext _
      · exact ih (hnext _)
    · simp only [if_neg hbyte]
      exact ih (h.takeByte byte)

theorem Reached.small {source : Bytes} {s : HeadingScanner} (h : Reached parser labelCharCap source s) :
    s.Small := by
  induction h with
  | new => exact ⟨Nat.zero_le _, Nat.zero_le _, fun _ hnone => (by cases hnone)⟩
  | consumed _ _ ih => exact ih.consume _
  | ended _ _ ih => exact ⟨ih.line, ih.lineTail, ih.paragraph⟩
  | last _ _ _ ih => exact ih.finishLine _ _

/-! ## All headings -/

theorem length_scanLines_le (start : Nat) (lines : List Bytes) (b : Blocks) :
    (scanLines parser labelCharCap start lines b).length ≤ lines.length := by
  induction lines generalizing start b with
  | nil => exact Nat.le_refl 0
  | cons line lines ih =>
    rw [scanLines, List.length_append, List.length_cons, Nat.add_comm]
    have hone : (scanLine parser labelCharCap start line b).1.toList.length ≤ 1 := by
      cases (scanLine parser labelCharCap start line b).1 <;> simp
    exact Nat.add_le_add (ih _ _) hone

variable (parser labelCharCap) in
theorem length_headingsOf_le (source : Bytes) :
    (headingsOf parser labelCharCap source).length ≤ source.length :=
  (length_scanLines_le _ _ _).trans (Lines.length_split_le source)

/-- Wherever the reads are cut, the scanner finds what a reader of whole lines finds, to the end of the
document, and at no time does it hold more of it than a line, a paragraph and a window. -/
theorem scanner_reads_lines (parser : Markdown) (labelCharCap : Nat) (source : Bytes) :
    (∀ sizes : List Nat, (∀ size ∈ sizes, 0 < size) → source.length < sizes.length →
      ∀ fuel, source.length < fuel →
        ∃ s, scanAll parser labelCharCap source fuel sizes new =
            some (headingsOf parser labelCharCap source, s) ∧ s.position = source.length) ∧
      ∀ s, Reached parser labelCharCap source s →
        s.line.length ≤ 16384 ∧ s.lineTail.length ≤ 64 ∧
          ∀ paragraph ∈ s.blocks.paragraph, paragraph.bytes.length ≤ 16384 := by
  refine ⟨fun sizes hpositive henough fuel hfuel => ?_, fun s hreached => ?_⟩
  · obtain ⟨s, hscan, hend⟩ := (new_ahead parser labelCharCap source).scanAll hpositive
      (Nat.lt_of_le_of_lt (Nat.sub_le _ _) henough)
    exact ⟨s, hscan fuel (Nat.lt_of_le_of_lt (length_headingsOf_le parser labelCharCap source) hfuel), hend⟩
  · exact ⟨hreached.small.line, hreached.small.lineTail, hreached.small.paragraph⟩

end HeadingScanner

end Chunker
