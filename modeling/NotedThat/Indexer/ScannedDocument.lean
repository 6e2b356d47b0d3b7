-- SUMMARY: The headings the scanner finds lie in order between characters of the document, so the chunker can rely on them.
import NotedThat.Indexer.ScannedLines
import NotedThat.Indexer.ChunkBounds
import NotedThat.Indexer.Lossless
import NotedThat.Lib.Utf8Lines

/-!
# Scanned documents

What is captured of a paragraph is the front of what the document has from the paragraph's start, so
an offset into it is an offset into the document. A heading lies behind every heading found before:
it is in the line that ends, or in the paragraph that the line underlines.
-/

namespace Chunker

/-! ## Captured text -/

theorem capturedUtf8_append {text part : Text} {bytes : Bytes}
    (h : bytes = Utf8.encode part ∨ ∃ c cut, bytes = Utf8.encode part ++ cut ∧ Utf8.IsPart cut c) :
    capturedUtf8 (Utf8.encode text ++ bytes) = text ++ part := by
  rcases h with rfl | ⟨c, cut, rfl, hcut⟩
  · rw [← Utf8.encode_append, capturedUtf8, Utf8.fromUtf8_encode]
  · rw [← List.append_assoc, ← Utf8.encode_append]
    by_cases hne : cut = []
    · rw [hne, List.append_nil, capturedUtf8, Utf8.fromUtf8_encode]
    · rw [capturedUtf8, Utf8.fromUtf8_encode_append hcut hne]
      simp only [if_pos, List.take_left, Utf8.decode?_encode, Option.getD_some]

/-- Of the front of a text the characters that fit are captured, behind whatever text. -/
theorem capturedUtf8_take (line : Text) (n : Nat) : ∃ front rest, line = front ++ rest ∧
    (∀ text, capturedUtf8 (Utf8.encode text ++ (Utf8.encode line).take n) = text ++ front) ∧
      (Utf8.encode front).length ≤ n ∧ ((Utf8.encode line).length ≤ n → rest = []) := by
  obtain ⟨front, rest, part, rfl, htake, hpart⟩ := Utf8.take_encode line n
  have hlength := congrArg List.length htake
  rw [List.length_take, List.length_append] at hlength
  refine ⟨front, rest, rfl, fun text => ?_, by omega, fun hle => ?_⟩
  · rw [htake]
    refine capturedUtf8_append ?_
    rcases hpart with rfl | ⟨c, rest', -, hcut⟩
    · exact .inl (List.append_nil _)
    · exact .inr ⟨c, part, rfl, hcut⟩
  · rw [List.take_of_length_le hle, Utf8.encode_append] at htake
    have hrest := List.append_cancel_left htake
    rcases hpart with rfl | ⟨c, rest', rfl, hbegins, hne⟩
    · by_contra hcut
      exact absurd (congrArg List.length hrest) (Nat.ne_of_gt (Utf8.encode_length_pos hcut))
    · rw [Utf8.encode_cons] at hrest
      have hwhole : String.utf8EncodeChar c <+: part := ⟨_, hrest⟩
      exact absurd (hbegins.eq_of_length_le hwhole.length_le) hne

/-! ## The parser -/

/-- A line end is nowhere but at the end. -/
def IsMarkdownLine (line : Text) : Prop :=
  ∀ front c rest, line = front ++ c :: rest →
    (c = '\n' → rest = []) ∧ (c = '\r' → rest = [] ∨ rest = ['\n'])

theorem IsMarkdownLine.of_begins {front line : Text} (h : IsMarkdownLine line) (hfront : front <+: line) :
    IsMarkdownLine front := by
  obtain ⟨more, rfl⟩ := hfront
  rintro before c rest rfl
  obtain ⟨hfeed, hreturn⟩ := h before c (rest ++ more) (by simp)
  refine ⟨fun hc => (List.append_eq_nil_iff.mp (hfeed hc)).1, fun hc => ?_⟩
  rcases hreturn hc with hnil | hone
  · exact .inl (List.append_eq_nil_iff.mp hnil).1
  · cases rest with
    | nil => exact .inl rfl
    | cons d rest =>
      obtain ⟨rfl, hnil⟩ := List.cons.inj hone
      rw [(List.append_eq_nil_iff.mp hnil).1]
      exact .inr rfl

/-- What the scanner needs of the parser: a heading starts with a character of the text, and with none that
ends a line; and with a line that underlines, it starts in the text above. -/
structure Markdown.Sound (parser : Markdown) : Prop where
  inside : ∀ {text : Text} {level : HeadingLevel} {start : Nat},
    (Event.startHeading level, start) ∈ parser text →
      ∃ before c after, text = before ++ c :: after ∧ c ≠ '\n' ∧ start = (Utf8.encode before).length
  underlined : ∀ {lines underline : Text} {level : HeadingLevel} {start : Nat},
    lines.getLast? = some '\n' → IsMarkdownLine underline →
      isSetextUnderline (containerContent underline) = true →
        (Event.startHeading level, start) ∈ parser (lines ++ underline) →
          start < (Utf8.encode lines).length

theorem HeadingLevel.depth_bounds (level : HeadingLevel) : 1 ≤ level.depth ∧ level.depth ≤ 3 := by
  cases level <;> decide

theorem length_addToLabel {labelCharCap : Nat} {text : Text} {active : Nat × Nat × Text}
    (h : active.2.2.length ≤ labelCharCap) :
    (addToLabel labelCharCap text active).2.2.length ≤ labelCharCap := by
  rw [addToLabel, List.length_append, List.length_take]
  omega

/-- Where the heading was reported, or that it was open before; and its label has room. -/
theorem firstHeading_reported {labelCharCap : Nat} {active : Option (Nat × Nat × Text)}
    {events : List (Event × Nat)} {found : Nat × Nat × Text}
    (h : firstHeading labelCharCap active events = some found)
    (hactive : ∀ a ∈ active, a.2.2.length ≤ labelCharCap) :
    found.2.2.length ≤ labelCharCap ∧
      ((∃ a ∈ active, a.1 = found.1 ∧ a.2.1 = found.2.1) ∨
        ∃ level : HeadingLevel, (Event.startHeading level, found.1) ∈ events ∧ level.depth = found.2.1) := by
  induction events generalizing active with
  | nil => cases h
  | cons reported events ih =>
    obtain ⟨event, start⟩ := reported
    -- text is added to the heading that is open, which keeps its start and depth
    have hadded : ∀ text, firstHeading labelCharCap (active.map (addToLabel labelCharCap text)) events =
        some found → found.2.2.length ≤ labelCharCap ∧
          ((∃ a ∈ active, a.1 = found.1 ∧ a.2.1 = found.2.1) ∨
            ∃ level : HeadingLevel, (Event.startHeading level, found.1) ∈ (event, start) :: events ∧
              level.depth = found.2.1) := by
      intro text hfound
      obtain ⟨hlabel, hreported⟩ := ih hfound (by
        intro a hmem
        obtain ⟨b, hb, rfl⟩ := Option.mem_map.mp hmem
        exact length_addToLabel (hactive b hb))
      refine ⟨hlabel, hreported.imp ?_ ?_⟩
      · rintro ⟨a, hmem, hsame⟩
        obtain ⟨b, hb, rfl⟩ := Option.mem_map.mp hmem
        exact ⟨b, hb, hsame⟩
      · rintro ⟨level, hmem, hdepth⟩
        exact ⟨level, List.mem_cons_of_mem _ hmem, hdepth⟩
    cases event with
    | startHeading level =>
      obtain ⟨hlabel, hreported⟩ := ih h (by rintro a ⟨⟩; exact Nat.zero_le _)
      refine ⟨hlabel, .inr ?_⟩
      rcases hreported with ⟨a, ⟨⟩, hstart, hdepth⟩ | ⟨level', hmem, hdepth⟩
      · exact ⟨level, hstart ▸ List.mem_cons_self, hdepth⟩
      · exact ⟨level', List.mem_cons_of_mem _ hmem, hdepth⟩
    | endHeading =>
      have hfound : active = some found := h
      exact ⟨hactive found hfound, .inl ⟨found, hfound, rfl, rfl⟩⟩
    | text text => exact hadded text h
    | code text => exact hadded text h
    | other =>
      obtain ⟨hlabel, hreported⟩ := ih h hactive
      refine ⟨hlabel, hreported.imp_right ?_⟩
      rintro ⟨level, hmem, hdepth⟩
      exact ⟨level, List.mem_cons_of_mem _ hmem, hdepth⟩

theorem parseHeading_reported {parser : Markdown} {labelCharCap : Nat} {text : Text}
    {found : Nat × Nat × Text} (h : parseHeading parser labelCharCap text = some found) :
    found.2.2.length ≤ labelCharCap ∧ ∃ level : HeadingLevel,
      (Event.startHeading level, found.1) ∈ parser text ∧ level.depth = found.2.1 := by
  obtain ⟨hlabel, hnone | hreported⟩ := firstHeading_reported h (by rintro a ⟨⟩)
  · obtain ⟨a, ⟨⟩, -⟩ := hnone
  · exact ⟨hlabel, hreported⟩

/-! ## Where a heading is -/

/-- The heading starts between these two places of the document, between characters. -/
structure Heading.Between (doc : Text) (labelCharCap low high : Nat) (heading : Heading) : Prop where
  low : low ≤ heading.start
  high : heading.start < high
  boundary : IsBoundary doc heading.start
  line : StartsLine doc heading
  depth : 1 ≤ heading.depth ∧ heading.depth ≤ 3
  label : heading.label.length ≤ labelCharCap

/-- Of two places in a text, the one with as many bytes in front has the same text in front. -/
theorem eq_of_encode_length {doc before before' : Text} (h : before <+: doc) (h' : before' <+: doc)
    (hlength : (Utf8.encode before).length = (Utf8.encode before').length) : before = before' := by
  have hextra : ∀ {front more : Text}, (Utf8.encode front).length = (Utf8.encode (front ++ more)).length →
      more = [] := by
    intro front more heq
    by_contra hne
    have hpos := Utf8.encode_length_pos hne
    rw [Utf8.encode_append, List.length_append] at heq
    omega
  rcases List.prefix_or_prefix_of_prefix h h' with ⟨more, rfl⟩ | ⟨more, rfl⟩
  · rw [hextra hlength, List.append_nil]
  · rw [hextra hlength.symm, List.append_nil]

/-- A heading that starts with a character of a piece of the document. -/
theorem starts_within {doc piece : Text} {heading : Heading} (before front back : Text) {c : Char}
    (hpiece : before ++ piece <+: doc) (hfront : piece = front ++ c :: back) (hc : c ≠ '\n')
    (hstart : heading.start = (Utf8.encode before).length + (Utf8.encode front).length) :
    IsBoundary doc heading.start ∧ StartsLine doc heading ∧
      heading.start < (Utf8.encode (before ++ piece)).length := by
  obtain ⟨after, rfl⟩ := hpiece
  subst hfront
  have hbefore : heading.start = (Utf8.encode (before ++ front)).length := by
    rw [hstart, Utf8.encode_append, List.length_append]
  refine ⟨⟨before ++ front, c :: back ++ after, by simp, hbefore⟩, fun other rest hdoc heq => ?_, ?_⟩
  · have hsame : before ++ front = other :=
      eq_of_encode_length ⟨c :: back ++ after, by simp⟩ ⟨_, hdoc.symm⟩ (hbefore.symm.trans heq)
    rw [← hsame] at hdoc
    have hcut : before ++ front ++ c :: (back ++ after) = before ++ front ++ '\n' :: rest := by simpa using hdoc
    exact hc (List.cons.inj (List.append_cancel_left hcut)).1
  · have hpos := Utf8.encode_length_pos (List.cons_ne_nil c back)
    rw [hstart, Utf8.encode_append, Utf8.encode_append, List.length_append, List.length_append]
    omega

theorem depthFromCount_bounds (count : Nat) : 1 ≤ depthFromCount count ∧ depthFromCount count ≤ 3 := by
  unfold depthFromCount
  split
  · decide
  · split <;> decide

theorem parseGiantAtx_sound {content : Text} {labelCharCap : Nat} {found : Nat × Text}
    (h : parseGiantAtx content labelCharCap = some found) :
    (∃ rest, content = '#' :: rest) ∧ (1 ≤ found.1 ∧ found.1 ≤ 3) ∧ found.2.length ≤ labelCharCap := by
  unfold parseGiantAtx at h
  dsimp only at h
  split at h
  · next hcount =>
    obtain rfl := Option.some.inj h
    refine ⟨?_, depthFromCount_bounds _, ?_⟩
    · cases content with
      | nil => exact absurd hcount.1 (by decide)
      | cons c rest =>
        by_cases hc : c = '#'
        · exact ⟨rest, by rw [hc]⟩
        · rw [List.takeWhile_cons_of_neg (by simpa using hc)] at hcount
          exact absurd hcount.1 (by decide)
    · rw [List.length_take]
      exact Nat.min_le_left _ _
  · cases h

section

variable {parser : Markdown} {labelCharCap : Nat} {doc : Text}

/-- A heading that a line is by itself. -/
theorem lineHeading_between {before line : Text} {heading : Heading} (hparser : parser.Sound)
    (hline : before ++ line <+: doc)
    (h : lineHeading parser labelCharCap (capture (Utf8.encode before).length (Utf8.encode line)) =
      some heading) :
    heading.Between doc labelCharCap (Utf8.encode before).length (Utf8.encode (before ++ line)).length := by
  obtain ⟨front, rest, rfl, hcaptured, -, hwhole⟩ := capturedUtf8_take line lineCaptureBytes
  have hfront : capturedUtf8 (capture (Utf8.encode before).length (Utf8.encode (front ++ rest))).bytes = front :=
    hcaptured []
  unfold lineHeading at h
  dsimp only at h
  rw [hfront] at h
  split at h
  · obtain ⟨found, hfound, rfl⟩ := Option.map_eq_some_iff.mp h
    obtain ⟨hlabel, level, hreported, hdepth⟩ := parseHeading_reported hfound
    obtain ⟨start, c, after, rfl, hc, hstart⟩ := hparser.inside hreported
    obtain ⟨hboundary, hstarts, hlt⟩ := @starts_within _ _
      ⟨(Utf8.encode before).length + found.1, found.2.1, found.2.2⟩ before start (after ++ rest) _ hline
      (List.append_assoc start (c :: after) rest) hc (by rw [hstart])
    exact ⟨Nat.le_add_right _ _, hlt, hboundary, hstarts, hdepth ▸ level.depth_bounds, hlabel⟩
  · obtain ⟨found, hfound, rfl⟩ := Option.map_eq_some_iff.mp h
    obtain ⟨⟨content, hcontent⟩, hdepth, hlabel⟩ := parseGiantAtx_sound hfound
    obtain ⟨markers, hmarkers⟩ := containerContent_suffix front
    have hoffset : (Utf8.encode front).length - (Utf8.encode (containerContent front)).length =
        (Utf8.encode markers).length := by
      have hlength := congrArg (fun text => (Utf8.encode text).length) hmarkers
      simp only [Utf8.encode_append, List.length_append] at hlength
      omega
    rw [hcontent] at hmarkers
    obtain ⟨hboundary, hstarts, hlt⟩ := @starts_within _ _
      ⟨(Utf8.encode before).length + ((Utf8.encode front).length -
        (Utf8.encode (containerContent front)).length), found.1, found.2⟩ before markers (content ++ rest) _ hline
      (by rw [← hmarkers, List.append_assoc, List.cons_append]) (by decide) (by rw [hoffset])
    exact ⟨Nat.le_add_right _ _, hlt, hboundary, hstarts, hdepth, hlabel⟩

/-- The captured paragraph is the front of what the document has from its start. -/
structure CapturedParagraph.At (paragraph : CapturedParagraph) (before body : Text) : Prop where
  start : paragraph.start = (Utf8.encode before).length
  bytes : paragraph.bytes = (Utf8.encode body).take lineCaptureBytes

/-- What a paragraph is parsed as: the characters captured, and a line end behind them. -/
theorem CapturedParagraph.At.span {paragraph : CapturedParagraph} {before body : Text}
    (h : paragraph.At before body) : ∃ front rest lines, body = front ++ rest ∧
      paragraphSpan paragraph = Utf8.encode lines ∧ lines.getLast? = some '\n' ∧
        (lines = front ∨ lines = front ++ ['\n']) := by
  obtain ⟨front, rest, rfl, hcaptured, -, -⟩ := capturedUtf8_take body lineCaptureBytes
  have hfront : capturedUtf8 paragraph.bytes = front := h.bytes ▸ hcaptured []
  unfold paragraphSpan
  dsimp only
  rw [hfront]
  split
  · next hlast =>
    refine ⟨front, rest, front, rfl, rfl, ?_, .inl rfl⟩
    -- the last byte is the line feed, so the last character is
    rcases List.eq_nil_or_concat' front with rfl | ⟨init, c, rfl⟩
    · cases hlast
    · rw [Utf8.encode_append, Utf8.encode_cons, Utf8.encode_nil, List.append_nil,
        List.getLast?_append_of_ne_nil _ String.utf8EncodeChar_ne_nil] at hlast
      have hfeed := Utf8.eq_of_mem_encodeChar (List.mem_of_getLast? hlast) (by decide)
      rw [List.getLast?_concat, Char.toNat_inj.mp (hfeed.trans (by decide : lineFeed.toNat = '\n'.toNat))]
  · exact ⟨front, rest, front ++ ['\n'], rfl, by rw [Utf8.encode_append]; rfl, by simp, .inr rfl⟩

/-- A heading that a line underlines. -/
theorem underlinedHeading_between {before body line : Text} {paragraph : CapturedParagraph} {heading : Heading}
    (hparser : parser.Sound) (hat : paragraph.At before body) (hbody : before ++ body ++ line <+: doc)
    (hline : IsMarkdownLine line)
    (hunderline : isSetextUnderline (containerContent (capturedUtf8 ((Utf8.encode line).take lineCaptureBytes))) =
      true)
    (h : underlinedHeading parser labelCharCap paragraph ((Utf8.encode line).take lineCaptureBytes) =
      some heading) :
    heading.Between doc labelCharCap (Utf8.encode before).length
      (Utf8.encode (before ++ body ++ line)).length := by
  obtain ⟨front, rest, lines, rfl, hspan, hlast, hlines⟩ := hat.span
  obtain ⟨under, cut, rfl, hcaptured, -, -⟩ := capturedUtf8_take line lineCaptureBytes
  have hunder : capturedUtf8 ((Utf8.encode (under ++ cut)).take lineCaptureBytes) = under := hcaptured []
  rw [hunder] at hunderline
  unfold underlinedHeading at h
  rw [hspan, hcaptured] at h
  obtain ⟨⟨offset, depth, label⟩, hfound, rfl⟩ := Option.map_eq_some_iff.mp h
  obtain ⟨hlabel, level, hreported, hdepth⟩ := parseHeading_reported hfound
  have hlt := hparser.underlined hlast (hline.of_begins (List.prefix_append _ _)) hunderline hreported
  obtain ⟨above, c, below, heq, hc, hstart⟩ := hparser.inside hreported
  -- the heading starts with a character of the paragraph, not with the line feed put behind what was captured
  obtain ⟨behind, hfront⟩ : ∃ behind, front = above ++ c :: behind := by
    have hbegins : above <+: lines := by
      rcases List.prefix_or_prefix_of_prefix ⟨c :: below, heq.symm⟩ (List.prefix_append lines under) with h | h
      · exact h
      · have hle := Utf8.encode_length_mono h
        omega
    obtain ⟨tail, rfl⟩ := hbegins
    rw [List.append_assoc] at heq
    have htail := List.append_cancel_left heq
    cases tail with
    | nil =>
      rw [List.append_nil] at hlt
      omega
    | cons d tail =>
      obtain rfl := (List.cons.inj htail).1
      rcases hlines with hlines | hlines
      · exact ⟨tail, hlines.symm⟩
      · rcases List.eq_nil_or_concat' tail with rfl | ⟨init, last, rfl⟩
        · exact absurd (List.cons.inj (List.append_inj_right' hlines rfl)).1 hc
        · refine ⟨init, ?_⟩
          rw [← List.cons_append, ← List.append_assoc] at hlines
          exact (List.append_inj_left' hlines rfl).symm
  subst hfront
  obtain ⟨hboundary, hstarts, hwithin⟩ := @starts_within _ _ ⟨paragraph.start + offset, depth, label⟩
    before above (behind ++ rest ++ (under ++ cut)) _ (by simpa using hbody) rfl hc (by rw [hat.start, ← hstart])
  have hbounds := level.depth_bounds
  rw [hdepth] at hbounds
  refine ⟨hat.start ▸ Nat.le_add_right _ _, ?_, hboundary, hstarts, hbounds, hlabel⟩
  refine Nat.lt_of_lt_of_eq hwithin ?_
  simp

theorem CapturedParagraph.At.extend {paragraph : CapturedParagraph} {before body : Text}
    (h : paragraph.At before body) (start : Nat) (line : Text) :
    (paragraph.extend (capture start (Utf8.encode line))).At before (body ++ line) where
  start := h.start
  bytes := by
    simp only [CapturedParagraph.extend, capture, h.bytes, Utf8.encode_append, List.length_take,
      List.take_append, List.take_take]
    congr 1
    exact List.take_eq_take_iff.mpr (by omega)

/-- The paragraph that is open is the end of the text before, and no heading was found in it. -/
def Blocks.At (before : Text) (low : Nat) (b : Blocks) : Prop :=
  ∀ paragraph ∈ b.paragraph, ∃ front body, before = front ++ body ∧ paragraph.At front body ∧
    low ≤ (Utf8.encode front).length

theorem nextParagraph_at {before line content : Text} {low : Nat} {b : Blocks} (h : b.At before low)
    (hlow : low ≤ (Utf8.encode before).length) :
    ∀ paragraph ∈ nextParagraph b.paragraph content (capture (Utf8.encode before).length (Utf8.encode line)),
      ∃ front body, before ++ line = front ++ body ∧ paragraph.At front body ∧
        low ≤ (Utf8.encode front).length := by
  intro paragraph hmem
  unfold nextParagraph at hmem
  split at hmem
  · cases hmem
  · cases hopen : b.paragraph with
    | none =>
      rw [hopen] at hmem
      obtain rfl := Option.mem_some_iff.mp hmem
      exact ⟨before, line, rfl, ⟨rfl, rfl⟩, hlow⟩
    | some previous =>
      rw [hopen] at hmem
      obtain rfl := Option.mem_some_iff.mp hmem
      obtain ⟨front, body, rfl, hat, hfront⟩ := h previous hopen
      exact ⟨front, body ++ line, List.append_assoc _ _ _, hat.extend _ line, hfront⟩

/-- What a line makes of the blocks: a heading and no paragraph, or a paragraph that goes on. -/
inductive Scans (doc : Text) (labelCharCap : Nat) (before line : Text) (low : Nat) :
    Option Heading × Blocks → Prop where
  | heading {heading : Heading} {b : Blocks} :
      heading.Between doc labelCharCap low (Utf8.encode (before ++ line)).length → b.paragraph = none →
      Scans doc labelCharCap before line low (some heading, b)
  | none {b : Blocks} : b.At (before ++ line) low → Scans doc labelCharCap before line low (none, b)

theorem Heading.Between.mono {low low' high : Nat} {heading : Heading}
    (h : heading.Between doc labelCharCap low high) (hle : low' ≤ low) :
    heading.Between doc labelCharCap low' high :=
  { h with low := hle.trans h.low }

/-- A line outside of code and HTML. -/
theorem finishText_scans {before line : Text} {low : Nat} {b : Blocks} (hparser : parser.Sound)
    (h : b.At before low) (hlow : low ≤ (Utf8.encode before).length) (hline : before ++ line <+: doc)
    (hmark : IsMarkdownLine line) :
    Scans doc labelCharCap before line low
      (b.finishText parser labelCharCap
        (containerContent (capturedUtf8 ((Utf8.encode line).take lineCaptureBytes)))
        (capture (Utf8.encode before).length (Utf8.encode line))) := by
  unfold Blocks.finishText
  split
  · next heading hheading =>
    exact .heading ((lineHeading_between hparser hline hheading).mono hlow) rfl
  · split
    · next hunderline =>
      split
      · next heading hheading =>
        obtain ⟨paragraph, hopen, hheading⟩ := Option.bind_eq_some_iff.mp hheading
        obtain ⟨front, body, rfl, hat, hfront⟩ := h paragraph hopen
        exact .heading ((underlinedHeading_between hparser hat hline hmark hunderline hheading).mono hfront) rfl
      · exact .none (nextParagraph_at (b := { b with paragraph := none }) (by rintro _ ⟨⟩) hlow)
    · exact .none (nextParagraph_at h hlow)

variable (labelCharCap) in
theorem scanLine_scans {before line : Text} {low : Nat} {b : Blocks} (hparser : parser.Sound)
    (h : b.At before low) (hlow : low ≤ (Utf8.encode before).length) (hline : before ++ line <+: doc)
    (hmark : IsMarkdownLine line) :
    Scans doc labelCharCap before line low
      (scanLine parser labelCharCap (Utf8.encode before).length (Utf8.encode line) b) := by
  have hnone : ∀ {b : Blocks}, b.paragraph = none → b.At (before ++ line) low := by
    intro b hopen paragraph hmem
    rw [hopen] at hmem
    cases hmem
  unfold scanLine Blocks.finishLine
  dsimp only
  split
  · exact .none (hnone rfl)
  · split
    · exact .none (hnone rfl)
    · split
      · exact .none (hnone rfl)
      · split
        · split
          · exact .none (hnone rfl)
          · exact .none (hnone rfl)
        · exact finishText_scans (b := { b with html := none, fence := none }) hparser h hlow hline hmark

variable (labelCharCap) in
/-- Behind the lines read, the headings of the others lie in order. -/
theorem scanLines_between (before : Text) {lines : List Text} (low : Nat) {b : Blocks}
    (hparser : parser.Sound) (h : b.At before low) (hlow : low ≤ (Utf8.encode before).length)
    (hlines : before ++ lines.flatten <+: doc) (hmark : ∀ line ∈ lines, IsMarkdownLine line) :
    let headings := scanLines parser labelCharCap (Utf8.encode before).length (lines.map Utf8.encode) b
    (headings.Pairwise fun first second => first.start < second.start) ∧
      ∀ heading ∈ headings, heading.Between doc labelCharCap low (Utf8.encode doc).length := by
  induction lines generalizing before low b with
  | nil => exact ⟨.nil, fun _ hmem => absurd hmem List.not_mem_nil⟩
  | cons line lines ih =>
    intro headings
    obtain ⟨hline, hrest⟩ := List.forall_mem_cons.mp hmark
    rw [List.flatten_cons, ← List.append_assoc] at hlines
    have hbegins : before ++ line <+: doc := (List.prefix_append _ _).trans hlines
    have hle := Utf8.encode_length_mono hbegins
    have hlow' : low ≤ (Utf8.encode (before ++ line)).length :=
      hlow.trans (Utf8.encode_length_mono (List.prefix_append _ _))
    have hscans := scanLine_scans labelCharCap hparser h hlow hbegins hline
    have hstart : (Utf8.encode before).length + (Utf8.encode line).length =
        (Utf8.encode (before ++ line)).length := by
      rw [Utf8.encode_append, List.length_append]
    have hheadings : headings = (scanLine parser labelCharCap (Utf8.encode before).length
        (Utf8.encode line) b).1.toList ++ scanLines parser labelCharCap (Utf8.encode (before ++ line)).length
          (lines.map Utf8.encode)
          (scanLine parser labelCharCap (Utf8.encode before).length (Utf8.encode line) b).2 := by
      rw [← hstart]
      rfl
    rw [hheadings]
    generalize scanLine parser labelCharCap (Utf8.encode before).length (Utf8.encode line) b = result at hscans
    cases hscans with
    | @heading heading b' hbetween hopen =>
      -- what is found later is behind this line
      obtain ⟨hincreasing, hlater⟩ := ih (before ++ line) (Utf8.encode (before ++ line)).length (b := b')
        (by rw [Blocks.At, hopen]; rintro _ ⟨⟩) (Nat.le_refl _) hlines hrest
      refine ⟨List.pairwise_cons.mpr ⟨fun second hmem => ?_, hincreasing⟩, List.forall_mem_cons.mpr ⟨?_, ?_⟩⟩
      · exact Nat.lt_of_lt_of_le hbetween.high (hlater second hmem).low
      · exact { hbetween with high := Nat.lt_of_lt_of_le hbetween.high hle }
      · exact fun second hmem => (hlater second hmem).mono hlow'
    | none hat => exact ih _ _ hat hlow' hlines hrest

/-- `\r` stands in front of `\n` only. -/
def WholeLineEnds (doc : Text) : Prop :=
  ∀ before after, doc = before ++ '\r' :: after → after.head? = some '\n'

theorem isMarkdownLine_of_split (hends : WholeLineEnds doc) :
    ∀ line ∈ Lines.split (fun c => c = '\n') doc, IsMarkdownLine line := by
  intro line hmem
  obtain ⟨front, rest, hsplit⟩ := List.append_of_mem hmem
  have hdoc : doc = front.flatten ++ (line ++ rest.flatten) :=
    calc
      doc = (Lines.split (fun c => c = '\n') doc).flatten := (Lines.flatten_split doc).symm
      _ = front.flatten ++ (line ++ rest.flatten) := by rw [hsplit, List.flatten_append, List.flatten_cons]
  have hfeed : ∀ before after, line = before ++ '\n' :: after → after = [] := by
    intro before after hline
    cases (Lines.lines_of_split hsplit).2 with
    | @ended content a hcontent ha =>
      by_contra hne
      have hin : '\n' ∈ content := by
        have hcut : content = (content ++ [a]).dropLast := List.dropLast_concat.symm
        rw [hcut, hline, List.dropLast_append_cons]
        refine List.mem_append_right _ ?_
        rw [List.dropLast_cons_of_ne_nil hne]
        exact List.mem_cons_self
      exact absurd (hcontent _ hin) (by decide)
    | unended _ _ hcontent =>
      exact absurd (hcontent '\n' (hline ▸ List.mem_append_right _ List.mem_cons_self)) (by decide)
  intro before c after hline
  refine ⟨fun hc => hfeed before after (hc ▸ hline), ?_⟩
  rintro rfl
  cases after with
  | nil => exact .inl rfl
  | cons d after =>
    have hnext := hends (front.flatten ++ before) (d :: after ++ rest.flatten) (by rw [hdoc, hline]; simp)
    obtain rfl := Option.some.inj hnext
    rw [hfeed (before ++ ['\r']) after (by rw [hline]; simp)]
    exact .inr rfl

variable (labelCharCap) in
/-- What the scanner finds is what the chunker relies on. -/
theorem headingsOf_scanned (hparser : parser.Sound) (hends : WholeLineEnds doc) :
    Scanned doc (headingsOf parser labelCharCap (Utf8.encode doc)) ∧
      ∀ heading ∈ headingsOf parser labelCharCap (Utf8.encode doc), StartsLine doc heading ∧
        (1 ≤ heading.depth ∧ heading.depth ≤ 3) ∧ heading.label.length ≤ labelCharCap := by
  have hlines : Lines.split isLineFeed (Utf8.encode doc) =
      (Lines.split (fun c => c = '\n') doc).map Utf8.encode := Utf8.split_encode (c := '\n') (by decide) doc
  obtain ⟨hincreasing, hbetween⟩ := scanLines_between labelCharCap [] 0 (b := {}) hparser
    (by rintro _ ⟨⟩) (Nat.zero_le _) (by rw [List.nil_append, Lines.flatten_split]) (isMarkdownLine_of_split hends)
  rw [← hlines] at hincreasing hbetween
  exact ⟨⟨hincreasing, fun heading hmem => (hbetween heading hmem).boundary⟩,
    fun heading hmem => ⟨(hbetween heading hmem).line, (hbetween heading hmem).depth, (hbetween heading hmem).label⟩⟩

end

/-! ## Chunks of a scanned document -/

/-- As many characters of a label are kept. -/
def headingLabelCharCap : Nat := 3000

/-- The chunker with its scanner: wherever the reads are cut, the headings found are in order between characters
of the document, none at the second half of a line end; the chunks lose nothing, are within their bounds and keep
line ends whole. -/
theorem scanned_document_is_chunked (parser : Markdown) (hparser : parser.Sound) (doc : Text)
    (hends : WholeLineEnds doc) (maxChars minChars base : Nat) (hmax : 1 ≤ maxChars)
    (hsmall : maxChars * 4 < usizeLimit) (hfits : base + (Utf8.encode doc).length < usizeLimit)
    (sizes : List Nat) (hsizes : ∀ size ∈ sizes, 0 < size) (henough : (Utf8.encode doc).length < sizes.length) :
    ∃ headings s config iter fuel chunks,
      (∀ more, HeadingScanner.scanAll parser headingLabelCharCap (Utf8.encode doc) (fuel + more) sizes .new =
          some (headings, s)) ∧
        s.position = (Utf8.encode doc).length ∧
        Scanned doc headings ∧
        (∀ heading ∈ headings, StartsLine doc heading ∧ (1 ≤ heading.depth ∧ heading.depth ≤ 3) ∧
          heading.label.length ≤ headingLabelCharCap) ∧
        streamChunks headings maxChars base = .ok (config, iter) ∧
        (∀ more, iter.collect (config.withMinChars minChars) (Utf8.encode doc) (fuel + more) =
          some (.ok chunks)) ∧
        Lossless doc base minChars chunks ∧
        (∀ chunk ∈ chunks, chunk.text.length ≤ maxChars) ∧
        (0 < minChars → minChars ≤ maxChars / 4 → Bounded maxChars minChars chunks) ∧
        (2 ≤ maxChars → ∀ chunk ∈ chunks, KeepsLines doc base chunk) := by
  obtain ⟨hscanned, hheadings⟩ :=
    headingsOf_scanned headingLabelCharCap hparser hends
  generalize hfound : headingsOf parser headingLabelCharCap (Utf8.encode doc) = headings at hscanned hheadings
  obtain ⟨config, hstream, hconfig⟩ := streamChunks_ok headings base hmax hsmall
  obtain ⟨raw, error, -, hraw, hrun⟩ := stream_runs hscanned base minChars hmax hsmall
  cases error with
  | some error => exact absurd hfits (Nat.not_lt.mpr hraw.overflows.2)
  | none =>
    have hcount := HeadingScanner.length_headingsOf_le parser headingLabelCharCap (Utf8.encode doc)
    obtain ⟨s, hscan, hend⟩ := (HeadingScanner.new_ahead parser headingLabelCharCap (Utf8.encode doc)).scanAll
      hsizes (Nat.lt_of_le_of_lt (Nat.sub_le _ _) henough)
    rw [hfound] at hscan
    obtain ⟨rest, rfl, hcovers⟩ := hraw.covers .none
    obtain ⟨hgiven, hlong⟩ := hraw.all_given
    rw [chunksOf_given] at hgiven hlong
    refine ⟨headings, s, config, .start headings, doc.length + 3 + (Utf8.encode doc).length, _,
      fun more => hscan _ (by rw [hfound] at hcount; omega), hend, hscanned, hheadings, hstream, fun more => ?_,
      hcovers.lossless fun hzero => ?_, fun chunk hmem => ?_, fun hpositive hquarter => ?_, fun htwo chunk hmem => ?_⟩
    · rw [hconfig, (hrun _ (by omega)).2, ChunkIter.gather_given]
    · rw [hzero]
      exact Nat.zero_min _
    · obtain ⟨-, emitted, hchunk⟩ := hgiven chunk hmem
      exact hchunk.atMost
    · have hchars : (Config.of maxChars base minChars).minChars = minChars := Nat.min_eq_left hquarter
      refine ⟨fun chunk hmem => ?_, fun chunk hmem => ?_, fun chunk hmem => hchars ▸ hlong chunk hmem⟩
      · obtain ⟨-, emitted, hchunk⟩ := hgiven chunk hmem
        exact hchunk.atMost
      · simpa [Blank] using not_dropped (hgiven chunk hmem).1 (hchars.symm ▸ hpositive)
    · obtain ⟨-, emitted, hchunk⟩ := hgiven chunk hmem
      exact hchunk.keepsLines (fun heading hin => (hheadings heading hin).1) htwo

/-- What a line of one or two hashes is: where the heading is, at the start, its level and its label. -/
def hashHeading (level : HeadingLevel) (label : Text) : List (Event × Nat) :=
  [(.startHeading level, 0), (.text (label.takeWhile fun c => c ≠ '\r' ∧ c ≠ '\n'), 2), (.endHeading, 0)]

/-- A parser of headings that a text begins with. -/
def hashParser : Markdown
  | '#' :: ' ' :: label => hashHeading .h1 label
  | '#' :: '#' :: ' ' :: label => hashHeading .h2 label
  | _ => []

theorem hashParser_start {text : Text} {level : HeadingLevel} {start : Nat}
    (h : (Event.startHeading level, start) ∈ hashParser text) : start = 0 ∧ ∃ rest, text = '#' :: rest := by
  unfold hashParser at h
  split at h
  · next label =>
    have hfirst : level = HeadingLevel.h1 ∧ start = 0 := by simpa [hashHeading] using h
    exact ⟨hfirst.2, _, rfl⟩
  · next label =>
    have hfirst : level = HeadingLevel.h2 ∧ start = 0 := by simpa [hashHeading] using h
    exact ⟨hfirst.2, _, rfl⟩
  · cases h

theorem hashParser_sound : hashParser.Sound where
  inside := by
    intro text level start hmem
    obtain ⟨rfl, rest, rfl⟩ := hashParser_start hmem
    exact ⟨[], '#', rest, rfl, by decide, rfl⟩
  underlined := by
    intro lines underline level start hlast _ _ hmem
    rw [(hashParser_start hmem).1]
    refine Utf8.encode_length_pos ?_
    rintro rfl
    cases hlast

/-- The scanner finds the headings of the two sections. -/
theorem headingsOf_notes : headingsOf hashParser headingLabelCharCap (Utf8.encode notesText) = notesHeadings := by
  decide +kernel

/-- The two sections, read byte for byte. -/
theorem scanned_document_is_chunked_notes :
    ∃ s config iter fuel,
      (∀ more, HeadingScanner.scanAll hashParser headingLabelCharCap (Utf8.encode notesText) (fuel + more)
          (List.replicate 20 1) .new = some (notesHeadings, s)) ∧
        s.position = 19 ∧
        streamChunks notesHeadings 8 7 = .ok (config, iter) ∧
        (∀ more, iter.collect (config.withMinChars 2) (Utf8.encode notesText) (fuel + more) =
          some (.ok notesChunks)) ∧
        Lossless notesText 7 2 notesChunks ∧ Bounded 8 2 notesChunks ∧
        ∀ chunk ∈ notesChunks, KeepsLines notesText 7 chunk := by
  have hends : WholeLineEnds notesText := by
    intro before after hdoc
    have hdrop : after = notesText.drop (before.length + 1) := by
      rw [hdoc, ← List.drop_drop, List.drop_left, List.drop_one, List.tail_cons]
    have hat : notesText[before.length]? = some '\r' := by
      rw [hdoc, List.getElem?_append_right (Nat.le_refl _), Nat.sub_self]
      rfl
    have hall : ∀ n < 20, notesText[n]? = some '\r' → (notesText.drop (n + 1)).head? = some '\n' := by decide
    rw [hdrop]
    refine hall _ ?_ hat
    have hlength := congrArg List.length hdoc
    rw [List.length_append, List.length_cons, show notesText.length = 19 from rfl] at hlength
    omega
  obtain ⟨headings, s, config, iter, fuel, chunks, hscan, hend, -, -, hstream, hcollect, hlossless, -, hbounded,
      hlines⟩ := scanned_document_is_chunked hashParser hashParser_sound notesText hends 8 2 7 (by decide)
    (by decide) (by decide) (List.replicate 20 1) (by decide) (by decide)
  obtain ⟨s', hscan', -⟩ := (HeadingScanner.new_ahead hashParser headingLabelCharCap
    (Utf8.encode notesText)).scanAll (show ∀ size ∈ List.replicate 20 1, 0 < size by decide) (by decide)
  rw [headingsOf_notes] at hscan'
  obtain ⟨rfl, rfl⟩ := Prod.mk.inj (Option.some.inj ((hscan 3).symm.trans (hscan' (fuel + 3) (Nat.le_add_left 3 fuel))))
  obtain ⟨config', hstream', hgiven⟩ := notes_items
  obtain ⟨rfl, rfl⟩ := Prod.mk.inj (Except.ok.inj (hstream.symm.trans hstream'))
  obtain rfl := Except.ok.inj (ChunkIter.collect_unique hgiven hcollect)
  exact ⟨s, config, _, fuel, hscan, hend, hstream, hcollect, hlossless, hbounded (by decide) (by decide),
    hlines (by decide)⟩

end Chunker
