-- SUMMARY: Blocks of code and of HTML hide what is in them: the headings of a document are those before and those behind.
import NotedThat.Indexer.ScannedDocument

/-!
# Opaque blocks

A block of code goes on to the line that closes its fence, a block of HTML to the line with its end
marker, which may be further behind in a line than the scanner captures. Whatever the block holds,
the scanner finds in the document what it finds before the block, and behind it what it would find
in the rest alone.
-/

namespace Chunker

/-! ## What is captured of a line -/

/-- The text of a line, as far as it is captured. -/
def lineText (line : Bytes) : Text := capturedUtf8 (line.take lineCaptureBytes)

def lineContent (line : Bytes) : Text := containerContent (lineText line)

def lineDepth (line : Bytes) : Nat := quoteDepth (lineText line)

/-- A line that is captured whole. -/
theorem lineText_encode {line : Text} (h : (Utf8.encode line).length ≤ lineCaptureBytes) :
    lineText (Utf8.encode line) = line := by
  obtain ⟨front, rest, rfl, hcaptured, -, hwhole⟩ := capturedUtf8_take line lineCaptureBytes
  have hfront : lineText (Utf8.encode (front ++ rest)) = front := hcaptured []
  rw [hfront, hwhole h, List.append_nil]

/-- The lines of a block of code or of HTML in front of others, from the one that opens it to the one that closes
it; where the block is in a quote, it may also end with the quote, or with the document. -/
inductive OpaqueBlock (rest : List Bytes) : List Bytes → Prop where
  | code {opener closer : Bytes} {inside : List Bytes} {fence : Fence} :
      opensFence (lineContent opener) (lineDepth opener) (listFenceIndent (lineText opener)) = some fence →
      (∀ line ∈ inside, fence.quoteDepth ≤ lineDepth line ∧ closesFence (lineContent line) fence = false ∧
        fenceContinues fence (lineText line) = true) →
      fence.quoteDepth ≤ lineDepth closer →
      closesFence (lineContent closer) fence = true ∨ fenceContinues fence (lineText closer) = false →
      OpaqueBlock rest (opener :: (inside ++ [closer]))
  | codeInQuote {opener : Bytes} {inside : List Bytes} {fence : Fence} :
      opensFence (lineContent opener) (lineDepth opener) (listFenceIndent (lineText opener)) = some fence →
      (∀ line ∈ inside, fence.quoteDepth ≤ lineDepth line ∧ closesFence (lineContent line) fence = false ∧
        fenceContinues fence (lineText line) = true) →
      (∀ line ∈ rest.head?, lineDepth line < fence.quoteDepth) →
      OpaqueBlock rest (opener :: inside)
  | htmlLine {opener : Bytes} {stop : HtmlEnd} :
      opensFence (lineContent opener) (lineDepth opener) (listFenceIndent (lineText opener)) = none →
      opensHtml (lineContent opener) = some stop →
      htmlContinues stop (lineContent opener) (occursIn opener) = false → OpaqueBlock rest [opener]
  | html {opener closer : Bytes} {inside : List Bytes} {stop : HtmlEnd} :
      opensFence (lineContent opener) (lineDepth opener) (listFenceIndent (lineText opener)) = none →
      opensHtml (lineContent opener) = some stop →
      (∀ line ∈ opener :: inside, lineDepth opener ≤ lineDepth line ∧
        htmlContinues stop (lineContent line) (occursIn line) = true) →
      lineDepth opener ≤ lineDepth closer →
      htmlContinues stop (lineContent closer) (occursIn closer) = false →
      OpaqueBlock rest (opener :: (inside ++ [closer]))
  | htmlInQuote {opener : Bytes} {inside : List Bytes} {stop : HtmlEnd} :
      opensFence (lineContent opener) (lineDepth opener) (listFenceIndent (lineText opener)) = none →
      opensHtml (lineContent opener) = some stop →
      (∀ line ∈ opener :: inside, lineDepth opener ≤ lineDepth line ∧
        htmlContinues stop (lineContent line) (occursIn line) = true) →
      (∀ line ∈ rest.head?, lineDepth line < lineDepth opener) →
      OpaqueBlock rest (opener :: inside)

/-- No block is open. -/
structure Blocks.Closed (b : Blocks) : Prop where
  fence : b.fence = none
  html : b.html = none

section

variable (parser : Markdown) (labelCharCap : Nat)

/-- What is open behind some lines. -/
def blocksAfter : Nat → List Bytes → Blocks → Blocks
  | _, [], b => b
  | start, line :: lines, b =>
    blocksAfter (start + line.length) lines (scanLine parser labelCharCap start line b).2

end

section

variable {parser : Markdown} {labelCharCap : Nat}

theorem scanLines_append (start : Nat) (front rest : List Bytes) (b : Blocks) :
    scanLines parser labelCharCap start (front ++ rest) b =
      scanLines parser labelCharCap start front b ++
        scanLines parser labelCharCap (start + front.flatten.length) rest
          (blocksAfter parser labelCharCap start front b) := by
  induction front generalizing start b with
  | nil => rfl
  | cons line front ih =>
    rw [List.cons_append, scanLines, scanLines, ih, blocksAfter, List.flatten_cons, List.length_append,
      List.append_assoc, Nat.add_assoc]

theorem blocksAfter_append (start : Nat) (front rest : List Bytes) (b : Blocks) :
    blocksAfter parser labelCharCap start (front ++ rest) b =
      blocksAfter parser labelCharCap (start + front.flatten.length) rest
        (blocksAfter parser labelCharCap start front b) := by
  induction front generalizing start b with
  | nil => rfl
  | cons line front ih =>
    rw [List.cons_append, blocksAfter, ih, blocksAfter, List.flatten_cons, List.length_append,
      Nat.add_assoc]

/-! ## Lines inside a block -/

theorem scanLine_opensFence {start : Nat} {line : Bytes} {b : Blocks} {fence : Fence} (h : b.Closed)
    (hopens : opensFence (lineContent line) (lineDepth line) (listFenceIndent (lineText line)) = some fence) :
    scanLine parser labelCharCap start line b =
      (none, { b with paragraph := none, fence := some fence, html := none }) := by
  have hopens' : opensFence (containerContent (capturedUtf8 (capture start line).bytes))
      (quoteDepth (capturedUtf8 (capture start line).bytes))
      (listFenceIndent (capturedUtf8 (capture start line).bytes)) = some fence := hopens
  unfold scanLine Blocks.finishLine
  simp only [h.html, h.fence, Option.filter_none, hopens']

theorem scanLine_inFence {start : Nat} {line : Bytes} {b : Blocks} {fence : Fence} (hhtml : b.html = none)
    (hfence : b.fence = some fence) (hdepth : fence.quoteDepth ≤ lineDepth line) :
    scanLine parser labelCharCap start line b =
      (none, { b with
        paragraph := none
        html := none
        fence := if !closesFence (lineContent line) fence && fenceContinues fence (lineText line) then some fence
          else none }) := by
  have hin : (some fence).filter (fun fence => quoteDepth (capturedUtf8 (capture start line).bytes) ≥
      fence.quoteDepth) = some fence := Option.filter_some_pos (decide_eq_true hdepth)
  unfold scanLine Blocks.finishLine
  simp only [hhtml, hfence, Option.filter_none, hin]
  rfl

theorem scanLine_opensHtml {start : Nat} {line : Bytes} {b : Blocks} {stop : HtmlEnd} (h : b.Closed)
    (hfence : opensFence (lineContent line) (lineDepth line) (listFenceIndent (lineText line)) = none)
    (hopens : opensHtml (lineContent line) = some stop) :
    scanLine parser labelCharCap start line b =
      (none, if htmlContinues stop (lineContent line) (occursIn line) then
        { b with paragraph := none, fence := none, html := some stop, htmlQuoteDepth := lineDepth line }
      else { b with paragraph := none, fence := none, html := none }) := by
  have hfence' : opensFence (containerContent (capturedUtf8 (capture start line).bytes))
      (quoteDepth (capturedUtf8 (capture start line).bytes))
      (listFenceIndent (capturedUtf8 (capture start line).bytes)) = none := hfence
  have hopens' : opensHtml (containerContent (capturedUtf8 (capture start line).bytes)) = some stop := hopens
  unfold scanLine Blocks.finishLine
  simp only [h.html, h.fence, Option.filter_none, hfence', hopens']
  change (if htmlContinues stop (lineContent line) (occursIn line) = true then _ else _) = _
  split <;> rfl

theorem scanLine_inHtml {start : Nat} {line : Bytes} {b : Blocks} {stop : HtmlEnd}
    (hhtml : b.html = some stop) (hdepth : b.htmlQuoteDepth ≤ lineDepth line) :
    scanLine parser labelCharCap start line b =
      (none, { b with
        paragraph := none
        html := if htmlContinues stop (lineContent line) (occursIn line) then some stop else none }) := by
  have hin : (some stop).filter (fun _ => decide (quoteDepth (capturedUtf8 (capture start line).bytes) ≥
      b.htmlQuoteDepth)) = some stop := Option.filter_some_pos (decide_eq_true hdepth)
  unfold scanLine Blocks.finishLine
  simp only [hhtml, hin]
  rfl

variable (parser labelCharCap) in
/-- Lines that leave a block open find nothing. -/
theorem scanLines_inFence (start : Nat) {inside : List Bytes} {b : Blocks} {fence : Fence}
    (hparagraph : b.paragraph = none) (hhtml : b.html = none) (hfence : b.fence = some fence)
    (hinside : ∀ line ∈ inside, fence.quoteDepth ≤ lineDepth line ∧
      closesFence (lineContent line) fence = false ∧ fenceContinues fence (lineText line) = true) :
    scanLines parser labelCharCap start inside b = [] ∧
      (blocksAfter parser labelCharCap start inside b).paragraph = none ∧
        (blocksAfter parser labelCharCap start inside b).html = none ∧
          (blocksAfter parser labelCharCap start inside b).fence = some fence := by
  induction inside generalizing start b with
  | nil => exact ⟨rfl, hparagraph, hhtml, hfence⟩
  | cons line inside ih =>
    obtain ⟨⟨hdepth, hopen, hgoes⟩, hrest⟩ := List.forall_mem_cons.mp hinside
    rw [scanLines, blocksAfter, scanLine_inFence hhtml hfence hdepth, hopen, hgoes]
    exact ih _ rfl rfl rfl hrest

variable (parser labelCharCap) in
theorem scanLines_inHtml (start : Nat) {depth : Nat} {inside : List Bytes} {b : Blocks} {stop : HtmlEnd}
    (hparagraph : b.paragraph = none) (hfence : b.fence = none) (hhtml : b.html = some stop)
    (hquote : b.htmlQuoteDepth = depth)
    (hinside : ∀ line ∈ inside, depth ≤ lineDepth line ∧
      htmlContinues stop (lineContent line) (occursIn line) = true) :
    scanLines parser labelCharCap start inside b = [] ∧
      (blocksAfter parser labelCharCap start inside b).paragraph = none ∧
        (blocksAfter parser labelCharCap start inside b).fence = none ∧
          (blocksAfter parser labelCharCap start inside b).html = some stop ∧
            (blocksAfter parser labelCharCap start inside b).htmlQuoteDepth = depth := by
  induction inside generalizing start b with
  | nil => exact ⟨rfl, hparagraph, hfence, hhtml, hquote⟩
  | cons line inside ih =>
    obtain ⟨⟨hdepth, hgoes⟩, hrest⟩ := List.forall_mem_cons.mp hinside
    rw [scanLines, blocksAfter, scanLine_inHtml hhtml (hquote ▸ hdepth), hgoes]
    exact ih _ rfl hfence rfl hquote hrest

variable (parser labelCharCap) in
/-- A line outside of the quote is scanned as if the block in it were closed. -/
theorem scanLines_outsideQuote (start : Nat) {rest : List Bytes} {b : Blocks}
    (hfence : ∀ line ∈ rest.head?, ∀ fence ∈ b.fence, lineDepth line < fence.quoteDepth)
    (hhtml : ∀ line ∈ rest.head?, b.html ≠ none → lineDepth line < b.htmlQuoteDepth) :
    scanLines parser labelCharCap start rest b =
      scanLines parser labelCharCap start rest { b with fence := none, html := none } := by
  cases rest with
  | nil => rfl
  | cons line rest =>
    have hnone : (b.html.filter fun _ => quoteDepth (capturedUtf8 (capture start line).bytes) ≥ b.htmlQuoteDepth) =
        none := by
      refine Option.filter_eq_none_iff.mpr fun stop hstop => ?_
      have hless := hhtml line rfl (by rw [hstop]; nofun)
      exact fun hle => absurd (of_decide_eq_true hle) (Nat.not_le.mpr hless)
    have hno : (b.fence.filter fun fence => quoteDepth (capturedUtf8 (capture start line).bytes) ≥
        fence.quoteDepth) = none := by
      refine Option.filter_eq_none_iff.mpr fun fence hopen => ?_
      exact fun hle => absurd (of_decide_eq_true hle) (Nat.not_le.mpr (hfence line rfl fence hopen))
    have hline : scanLine parser labelCharCap start line b =
        scanLine parser labelCharCap start line { b with fence := none, html := none } := by
      unfold scanLine Blocks.finishLine
      simp only [hnone, hno, Option.filter_none]
    rw [scanLines, scanLines, hline]

variable (parser labelCharCap) in
/-- A block adds no heading, and behind it the scan goes on as if nothing were open, no paragraph either. -/
theorem OpaqueBlock.scan {rest block : List Bytes} (h : OpaqueBlock rest block) {b : Blocks} (hclosed : b.Closed)
    (start : Nat) : scanLines parser labelCharCap start block b = [] ∧
      ∃ b' : Blocks, b'.Closed ∧ b'.paragraph = none ∧ ∀ behind,
        scanLines parser labelCharCap behind rest (blocksAfter parser labelCharCap start block b) =
          scanLines parser labelCharCap behind rest b' := by
  cases h with
  | @code opener closer inside fence hopens hinside hdepth hcloses =>
    have hends : (!closesFence (lineContent closer) fence && fenceContinues fence (lineText closer)) = false := by
      rcases hcloses with hcloses | hcloses <;> simp [hcloses]
    rw [scanLines, blocksAfter, scanLine_opensFence hclosed hopens, scanLines_append, blocksAfter_append]
    obtain ⟨hnone, hparagraph, hhtml, hfence⟩ := scanLines_inFence parser labelCharCap (start + opener.length)
      (b := { b with paragraph := none, fence := some fence, html := none }) rfl rfl rfl hinside
    rw [hnone, scanLines, blocksAfter, scanLine_inFence hhtml hfence hdepth, hends]
    exact ⟨rfl, _, ⟨rfl, rfl⟩, rfl, fun _ => rfl⟩
  | @codeInQuote opener inside fence hopens hinside hquote =>
    rw [scanLines, blocksAfter, scanLine_opensFence hclosed hopens]
    obtain ⟨hnone, hparagraph, hhtml, hfence⟩ := scanLines_inFence parser labelCharCap (start + opener.length)
      (b := { b with paragraph := none, fence := some fence, html := none }) rfl rfl rfl hinside
    dsimp only
    generalize blocksAfter parser labelCharCap (start + opener.length) inside _ = after at hparagraph hhtml hfence
    refine ⟨hnone, { after with fence := none, html := none }, ⟨rfl, rfl⟩, hparagraph,
      fun behind => scanLines_outsideQuote parser labelCharCap behind ?_ ?_⟩
    · intro line hline other hopen
      obtain rfl := Option.some.inj (hfence.symm.trans hopen)
      exact hquote line hline
    · exact fun _ _ hsome => absurd hhtml hsome
  | @htmlLine opener stop hfence hopens hends =>
    rw [scanLines, blocksAfter, scanLine_opensHtml hclosed hfence hopens, hends]
    exact ⟨rfl, _, ⟨rfl, rfl⟩, rfl, fun _ => rfl⟩
  | @html opener closer inside stop hfence hopens hinside hdepth hends =>
    obtain ⟨⟨-, hgoes⟩, hrest⟩ := List.forall_mem_cons.mp hinside
    rw [scanLines, blocksAfter, scanLine_opensHtml hclosed hfence hopens, hgoes, if_pos rfl,
      scanLines_append, blocksAfter_append]
    obtain ⟨hnone, hparagraph, hopen, hhtml, hquote⟩ := scanLines_inHtml parser labelCharCap
      (start + opener.length)
      (b := { b with
        paragraph := none, fence := none, html := some stop, htmlQuoteDepth := lineDepth opener })
      rfl rfl rfl rfl hrest
    rw [hnone, scanLines, blocksAfter, scanLine_inHtml hhtml (hquote ▸ hdepth), hends, if_neg Bool.false_ne_true]
    refine ⟨rfl, _, ?_, ?_, fun _ => rfl⟩
    · exact ⟨hopen, rfl⟩
    · rfl
  | @htmlInQuote opener inside stop hfence hopens hinside houtside =>
    obtain ⟨⟨-, hgoes⟩, hrest⟩ := List.forall_mem_cons.mp hinside
    rw [scanLines, blocksAfter, scanLine_opensHtml hclosed hfence hopens, hgoes, if_pos rfl]
    obtain ⟨hnone, hparagraph, hopen, hhtml, hquote⟩ := scanLines_inHtml parser labelCharCap
      (start + opener.length)
      (b := { b with
        paragraph := none, fence := none, html := some stop, htmlQuoteDepth := lineDepth opener })
      rfl rfl rfl rfl hrest
    dsimp only
    generalize blocksAfter parser labelCharCap (start + opener.length) inside _ = after at hparagraph hopen hhtml hquote
    refine ⟨hnone, { after with fence := none, html := none }, ⟨rfl, rfl⟩, hparagraph,
      fun behind => scanLines_outsideQuote parser labelCharCap behind ?_ ?_⟩
    · intro line _ fence hsome
      rw [hopen] at hsome
      cases hsome
    · exact fun line hline _ => hquote ▸ houtside line hline

/-! ## A document further behind -/

/-- The heading in a document with so many bytes in front. -/
def Heading.shift (n : Nat) (heading : Heading) : Heading := { heading with start := heading.start + n }

def CapturedParagraph.shift (n : Nat) (paragraph : CapturedParagraph) : CapturedParagraph :=
  { paragraph with start := paragraph.start + n }

/-- The same is open, so many bytes further behind. -/
structure Blocks.Shifted (n : Nat) (b b' : Blocks) : Prop where
  paragraph : b'.paragraph = b.paragraph.map (·.shift n)
  fence : b'.fence = b.fence
  html : b'.html = b.html
  htmlQuoteDepth : b.html ≠ none → b'.htmlQuoteDepth = b.htmlQuoteDepth

theorem capture_shift (n start : Nat) (line : Bytes) :
    capture (start + n) line = (capture start line).shift n := rfl

theorem lineHeading_shift (n : Nat) (current : CapturedParagraph) :
    lineHeading parser labelCharCap (current.shift n) =
      (lineHeading parser labelCharCap current).map (·.shift n) := by
  have hstart : ∀ offset, (current.shift n).start + offset = current.start + offset + n :=
    fun offset => Nat.add_right_comm _ _ _
  have hoverflowed : (current.shift n).overflowed = current.overflowed := rfl
  unfold lineHeading
  cases hwhole : current.overflowed with
  | false =>
    simp only [hoverflowed, hwhole, hstart, reduceIte, Option.map_map]
    rfl
  | true =>
    simp only [hoverflowed, hwhole, hstart, Bool.true_eq_false, reduceIte, Option.map_map]
    rfl

theorem underlinedHeading_shift (n : Nat) (paragraph : CapturedParagraph) (current : Bytes) :
    underlinedHeading parser labelCharCap (paragraph.shift n) current =
      (underlinedHeading parser labelCharCap paragraph current).map (·.shift n) := by
  unfold underlinedHeading
  rw [Option.map_map]
  congr 1
  funext found
  simp only [Function.comp_apply, Heading.shift, CapturedParagraph.shift, Nat.add_right_comm]

theorem nextParagraph_shift (n : Nat) (paragraph : Option CapturedParagraph) (content : Text)
    (current : CapturedParagraph) :
    nextParagraph (paragraph.map (·.shift n)) content (current.shift n) =
      (nextParagraph paragraph content current).map (·.shift n) := by
  unfold nextParagraph
  split
  · rfl
  · cases paragraph <;> rfl

theorem finishText_shift {b b' : Blocks} (n : Nat) (h : b.Shifted n b') (content : Text)
    (current : CapturedParagraph) :
    (b'.finishText parser labelCharCap content (current.shift n)).1 =
        (b.finishText parser labelCharCap content current).1.map (·.shift n) ∧
      (b.finishText parser labelCharCap content current).2.Shifted n
        (b'.finishText parser labelCharCap content (current.shift n)).2 := by
  unfold Blocks.finishText
  rw [lineHeading_shift, h.paragraph]
  cases lineHeading parser labelCharCap current with
  | some heading => exact ⟨rfl, ⟨rfl, h.fence, h.html, h.htmlQuoteDepth⟩⟩
  | none =>
    simp only [Option.map_none]
    split
    · have hunderlined : ((b.paragraph.map (·.shift n)).bind fun paragraph =>
          underlinedHeading parser labelCharCap paragraph (current.shift n).bytes) =
            (b.paragraph.bind fun paragraph =>
              underlinedHeading parser labelCharCap paragraph current.bytes).map (·.shift n) := by
        cases b.paragraph with
        | none => rfl
        | some paragraph => exact underlinedHeading_shift n paragraph current.bytes
      rw [hunderlined]
      cases b.paragraph.bind fun paragraph =>
          underlinedHeading parser labelCharCap paragraph current.bytes with
      | some heading => exact ⟨rfl, ⟨rfl, h.fence, h.html, h.htmlQuoteDepth⟩⟩
      | none => exact ⟨rfl, ⟨nextParagraph_shift n none content current, h.fence, h.html, h.htmlQuoteDepth⟩⟩
    · exact ⟨rfl, ⟨nextParagraph_shift n b.paragraph content current, h.fence, h.html, h.htmlQuoteDepth⟩⟩

variable (parser labelCharCap) in
theorem scanLine_shift {b b' : Blocks} (n start : Nat) (line : Bytes) (h : b.Shifted n b') :
    (scanLine parser labelCharCap (start + n) line b').1 =
        (scanLine parser labelCharCap start line b).1.map (·.shift n) ∧
      (scanLine parser labelCharCap start line b).2.Shifted n
        (scanLine parser labelCharCap (start + n) line b').2 := by
  have hbytes : (capture (start + n) line).bytes = (capture start line).bytes := rfl
  have hquote : (b'.html.filter fun _ => decide (lineDepth line ≥ b'.htmlQuoteDepth)) =
      b.html.filter fun _ => decide (lineDepth line ≥ b.htmlQuoteDepth) := by
    rw [h.html]
    cases hopen : b.html with
    | none => rfl
    | some stop => rw [h.htmlQuoteDepth (by simp [hopen])]
  unfold scanLine Blocks.finishLine
  dsimp only
  rw [hbytes, show quoteDepth (capturedUtf8 (capture start line).bytes) = lineDepth line from rfl, hquote,
    h.fence]
  split
  · next stop hopen =>
    have hdepth := h.htmlQuoteDepth fun hnone => by rw [hnone] at hopen; cases hopen
    exact ⟨rfl, ⟨rfl, rfl, rfl, fun _ => hdepth⟩⟩
  · split
    · exact ⟨rfl, ⟨rfl, rfl, rfl, fun hnone => absurd rfl hnone⟩⟩
    · split
      · exact ⟨rfl, ⟨rfl, rfl, rfl, fun hnone => absurd rfl hnone⟩⟩
      · split
        · split
          · exact ⟨rfl, ⟨rfl, rfl, rfl, fun _ => rfl⟩⟩
          · exact ⟨rfl, ⟨rfl, rfl, rfl, fun hnone => absurd rfl hnone⟩⟩
        · rw [capture_shift]
          have hshifted : { b with html := none, fence := none }.Shifted n { b' with html := none, fence := none } :=
            ⟨h.paragraph, rfl, rfl, fun hnone => absurd rfl hnone⟩
          exact finishText_shift n hshifted _ _

theorem scanLines_shift {b b' : Blocks} (n start : Nat) (lines : List Bytes) (h : b.Shifted n b') :
    scanLines parser labelCharCap (start + n) lines b' =
      (scanLines parser labelCharCap start lines b).map (·.shift n) := by
  induction lines generalizing start b b' with
  | nil => rfl
  | cons line lines ih =>
    obtain ⟨hheading, hblocks⟩ := scanLine_shift parser labelCharCap n start line h
    rw [scanLines, scanLines, List.map_append, hheading, Nat.add_right_comm, ih _ hblocks]
    cases (scanLine parser labelCharCap start line b).1 <;> rfl

end

/-- Where a document has a block of code or HTML, and no other is open before it, its headings are those
before the block and those of the rest by itself. -/
theorem blocks_are_opaque (parser : Markdown) (labelCharCap : Nat) (front block : List Bytes) (rest : Bytes)
    (hended : ∀ line ∈ front ++ block, Lines.Line isLineFeed False line)
    (hclosed : (blocksAfter parser labelCharCap 0 front {}).Closed)
    (hblock : OpaqueBlock (Lines.split isLineFeed rest) block) :
    headingsOf parser labelCharCap ((front ++ block).flatten ++ rest) =
      headingsOf parser labelCharCap front.flatten ++
        (headingsOf parser labelCharCap rest).map (·.shift (front ++ block).flatten.length) := by
  obtain ⟨hnone, b', hafter, hparagraph, hbehind⟩ := hblock.scan parser labelCharCap hclosed
    (0 + front.flatten.length)
  have hfront : Lines.split isLineFeed front.flatten = front := by
    have hsplit := Lines.split_flatten_append
      (fun line hmem => hended line (List.mem_append_left _ hmem)) ([] : Bytes)
    rwa [List.append_nil, show Lines.split isLineFeed ([] : Bytes) = [] from rfl, List.append_nil] at hsplit
  have hshifted : Blocks.Shifted (front ++ block).flatten.length {} b' :=
    ⟨hparagraph, hafter.fence, hafter.html, fun hsome => absurd rfl hsome⟩
  unfold headingsOf
  rw [Lines.split_flatten_append hended, hfront, scanLines_append, scanLines_append, hnone, List.append_nil,
    blocksAfter_append, hbehind, scanLines_shift _ 0 _ hshifted]

/-- A fence of tildes. -/
def tildes : Text := ['~', '~', '~', '\n']

theorem containerContent_of_plain {line : Text} (hquote : unquoted line = none)
    (hmarker : markerEnd (markdownIndent line) = none) : containerContent line = markdownIndent line := by
  rw [containerContent]
  split
  · next hsome => rw [hquote] at hsome; cases hsome
  · split
    · next hsome => rw [hmarker] at hsome; cases hsome
    · rfl

theorem quoteDepth_of_plain {line : Text} (hquote : unquoted line = none) : quoteDepth line = 0 := by
  rw [quoteDepth]
  split
  · next hsome => rw [hquote] at hsome; cases hsome
  · rfl

theorem listFenceIndent_of_plain {line : Text} (hquote : unquoted line = none)
    (hmarker : markerEnd (markdownIndent line) = none) : listFenceIndent line = none := by
  rw [listFenceIndent]
  split
  · next hsome => rw [hquote] at hsome; cases hsome
  · simp only [hmarker, Option.map_none]

/-- A line of code that looks like a heading. -/
theorem blocks_are_opaque_code :
    headingsOf hashParser 8
        (([] ++ [Utf8.encode tildes, Utf8.encode ['#', ' ', 'a', '\n'], Utf8.encode tildes]).flatten ++
          Utf8.encode ['#', ' ', 'b', '\n']) =
      headingsOf hashParser 8 ([] : List Bytes).flatten ++
        (headingsOf hashParser 8 (Utf8.encode ['#', ' ', 'b', '\n'])).map
          (·.shift ([] ++ [Utf8.encode tildes, Utf8.encode ['#', ' ', 'a', '\n'],
            Utf8.encode tildes]).flatten.length) := by
  have htext : lineText (Utf8.encode tildes) = tildes := lineText_encode (by decide)
  have hcode : lineText (Utf8.encode ['#', ' ', 'a', '\n']) = ['#', ' ', 'a', '\n'] :=
    lineText_encode (by decide)
  have hcontent : lineContent (Utf8.encode tildes) = tildes := by
    rw [lineContent, htext]
    exact containerContent_of_plain (by decide) (by decide)
  have hline : ∀ content : Bytes, content.all (fun b => !isLineFeed b) = true →
      Lines.Line isLineFeed False (content ++ [lineFeed]) := by
    intro content hfree
    refine .ended (fun b hmem => ?_) (by decide)
    simpa using List.all_eq_true.mp hfree b hmem
  have htildes : Lines.Line isLineFeed False (Utf8.encode tildes) := hline [0x7E, 0x7E, 0x7E] (by decide)
  have hinside : Lines.Line isLineFeed False (Utf8.encode ['#', ' ', 'a', '\n']) :=
    hline [0x23, 0x20, 0x61] (by decide)
  refine blocks_are_opaque hashParser 8 [] _ _ ?_ ⟨rfl, rfl⟩
    (@OpaqueBlock.code _ _ _ [Utf8.encode ['#', ' ', 'a', '\n']] ⟨'~', 3, 0, none⟩ ?_ ?_ (Nat.zero_le _) ?_)
  · rw [List.nil_append]
    refine List.forall_mem_cons.mpr ⟨htildes, List.forall_mem_cons.mpr ⟨hinside, fun line hmem => ?_⟩⟩
    obtain rfl := List.mem_singleton.mp hmem
    exact htildes
  · rw [hcontent, lineDepth, htext, quoteDepth_of_plain (by decide),
      listFenceIndent_of_plain (by decide) (by decide)]
    decide
  · intro line hmem
    obtain rfl := List.mem_singleton.mp hmem
    refine ⟨Nat.zero_le _, ?_, rfl⟩
    rw [lineContent, hcode, containerContent_of_plain (by decide) (by decide)]
    decide
  · rw [hcontent]
    exact .inl (by decide)

end Chunker
