-- SUMMARY: What holds of every chunk the streaming chunker gives: its size, its line ends, and that only the last is short.
import NotedThat.Indexer.RawChunks

/-!
# Bounds

A chunk that was merged is as good as one that was cut: it is bounded, both its ends are ends of
chunks that were cut, and it is no shorter than the first of them. One that another chunk follows
does not end the document, so it is not short.
-/

namespace Chunker

/-- No line end is parted behind `before`, unless a heading starts there. -/
def KeepsLineEnd (doc : Text) (headings : List Heading) (before : Text) : Prop :=
  (∃ heading ∈ headings, heading.start = (Utf8.encode before).length) ∨
    ∀ after, doc = before ++ after → ¬PartsLineEnd before after

/-- A chunk behind `emitted`, of one or several that were cut. -/
structure MergedChunk (config : Config) (doc : Text) (headings : List Heading) (emitted : Text)
    (chunk : Chunk) : Prop extends Slice config.sourceBaseOffset emitted chunk where
  begins : emitted ++ chunk.text <+: doc
  atMost : chunk.text.length ≤ config.maxChars
  atLeast : emitted ++ chunk.text = doc ∨ config.minChars ≤ chunk.text.length
  lineStart : 2 ≤ config.maxChars → KeepsLineEnd doc headings emitted
  lineEnd : 2 ≤ config.maxChars → KeepsLineEnd doc headings (emitted ++ chunk.text)
  path : 0 < config.minChars ∧ Blank chunk.text ∨ chunk.headingPath = pathOf headings emitted chunk.text

section

variable {config : Config} {doc emitted before : Text} {headings : List Heading} {chunks : List Chunk}
  {error : Option String}

theorem RawChunks.begins (h : RawChunks config doc headings before chunks error) : before <+: doc := by
  induction h with
  | ended => exact List.prefix_rfl
  | overflow _ hprefix => exact hprefix
  | chunk _ _ ih => exact (List.prefix_append _ _).trans ih

/-- A chunk that was cut. -/
theorem RawChunk.merged {chunk : Chunk} (h : RawChunk config doc headings before chunk)
    (hbegins : before ++ chunk.text <+: doc)
    (hstart : 2 ≤ config.maxChars → KeepsLineEnd doc headings before) :
    MergedChunk config doc headings before chunk where
  toSlice := h.toSlice
  begins := hbegins
  atMost := h.atMost
  atLeast := h.atLeast
  lineStart := hstart
  lineEnd htwo := by
    refine (h.lineEnd htwo).imp_right fun hparts after hdoc hboth => hparts after hdoc ⟨?_, hboth.2⟩
    rw [← hboth.1, List.getLast?_append_of_ne_nil _ h.nonempty]
  path := h.path

/-- With a chunk behind it, it does not end the document. -/
theorem MergedChunk.long {held next : Chunk} (h : MergedChunk config doc headings emitted held)
    (hnext : MergedChunk config doc headings (emitted ++ held.text) next) :
    config.minChars ≤ held.text.length := by
  refine h.atLeast.resolve_left fun hdoc => ?_
  have hle := hnext.begins.length_le
  have hpos := List.length_pos_iff.mpr hnext.nonempty
  rw [hdoc, List.length_append] at hle
  omega

theorem MergedChunk.merge {held next : Chunk} (h : MergedChunk config doc headings emitted held)
    (hnext : MergedChunk config doc headings (emitted ++ held.text) next)
    (hmerge : mergeable config held next = true) :
    MergedChunk config doc headings emitted (merge held next) := by
  obtain ⟨hmin, -, hfits⟩ := of_decide_eq_true hmerge
  have htext : emitted ++ (Chunker.merge held next).text = emitted ++ held.text ++ next.text :=
    (List.append_assoc _ _ _).symm
  refine ⟨h.toSlice.merge hnext.toSlice, htext ▸ hnext.begins, ?_, ?_, h.lineStart, htext ▸ hnext.lineEnd, ?_⟩
  · rw [show (Chunker.merge held next).text = held.text ++ next.text from rfl, List.length_append]
    exact hfits
  · have hlong := h.long hnext
    rw [show (Chunker.merge held next).text = held.text ++ next.text from rfl, List.length_append]
    exact .inr (by omega)
  · rw [show (Chunker.merge held next).text = held.text ++ next.text from rfl]
    by_cases hheld : Blank held.text
    · rw [show (Chunker.merge held next).headingPath = next.headingPath from if_pos (trim_isEmpty.mpr hheld)]
      rcases hnext.path with ⟨-, hblank⟩ | hpath
      · exact .inl ⟨hmin, hheld.append hblank⟩
      · by_cases hblank : Blank next.text
        · exact .inl ⟨hmin, hheld.append hblank⟩
        · rw [pathOf, leading_blank_append hheld hblank, ← List.append_assoc]
          exact .inr hpath
    · rw [show (Chunker.merge held next).headingPath = held.headingPath from
        if_neg fun hempty => hheld (trim_isEmpty.mp hempty)]
      have hpath := h.path.resolve_left fun hblank => hheld hblank.2
      rw [pathOf] at hpath ⊢
      rw [leading_append hheld]
      exact .inr hpath

/-- The chunk held back, if any, is what was cut behind `emitted`. -/
inductive HoldsMerged (config : Config) (doc : Text) (headings : List Heading) :
    Text → Option Chunk → Prop
  | none {before : Text} : (2 ≤ config.maxChars → KeepsLineEnd doc headings before) →
      HoldsMerged config doc headings before none
  | some {emitted : Text} {chunk : Chunk} : MergedChunk config doc headings emitted chunk →
      HoldsMerged config doc headings (emitted ++ chunk.text) (some chunk)

theorem HoldsMerged.lineEnd {held : Option Chunk} (h : HoldsMerged config doc headings before held) :
    2 ≤ config.maxChars → KeepsLineEnd doc headings before := by
  cases h with
  | none hstart => exact hstart
  | some hchunk => exact hchunk.lineEnd

/-- A chunk that is given: not only white space, if any is dropped. -/
def GivenChunk (config : Config) (doc : Text) (headings : List Heading) (chunk : Chunk) : Prop :=
  dropped config chunk = false ∧ ∃ emitted, MergedChunk config doc headings emitted chunk

/-- What is merged of the chunks that are cut. -/
structure MergedAll (config : Config) (doc : Text) (headings : List Heading)
    (merged : List Chunk × Option Chunk) : Prop where
  given : ∀ chunk ∈ merged.1, GivenChunk config doc headings chunk
  long : ∀ chunk ∈ merged.1, config.minChars ≤ chunk.text.length
  held : ∀ chunk ∈ merged.2, ∃ emitted, MergedChunk config doc headings emitted chunk

theorem HoldsMerged.all {held : Option Chunk} (h : HoldsMerged config doc headings before held) :
    MergedAll config doc headings ([], held) := by
  refine ⟨nofun, nofun, fun chunk hmem => ?_⟩
  cases h with
  | none => exact absurd hmem nofun
  | some hchunk =>
    next emitted held =>
    obtain rfl := Option.mem_some_iff.mp hmem
    exact ⟨emitted, hchunk⟩

theorem RawChunks.mergedAll (h : RawChunks config doc headings before chunks error) {held : Option Chunk}
    (hheld : HoldsMerged config doc headings before held) :
    MergedAll config doc headings (merges config held chunks) := by
  induction h generalizing held with
  | ended =>
    rw [merges]
    exact hheld.all
  | overflow =>
    rw [merges]
    exact hheld.all
  | chunk hraw hrest ih =>
    next before next chunks error =>
    have hnext := hraw.merged hrest.begins hheld.lineEnd
    cases hheld with
    | none => exact ih (.some hnext)
    | some hchunk =>
      next emitted held =>
      rw [merges]
      split_ifs with hmerge hdropped
      · refine ih ?_
        rw [List.append_assoc]
        exact .some (hchunk.merge hnext hmerge)
      · exact ih (.some hnext)
      · obtain ⟨hgiven, hlong, hlast⟩ := ih (.some hnext)
        refine ⟨fun chunk hmem => ?_, fun chunk hmem => ?_, hlast⟩
        · rcases List.mem_cons.mp hmem with rfl | hmem
          · exact ⟨Bool.eq_false_iff.mpr hdropped, emitted, hchunk⟩
          · exact hgiven chunk hmem
        · rcases List.mem_cons.mp hmem with rfl | hmem
          · exact hchunk.long hnext
          · exact hlong chunk hmem

theorem keepsLineEnd_nil : KeepsLineEnd doc headings [] := .inr fun _ _ hparts => absurd hparts.1 nofun

/-- The chunks that are cut are as good as those that are given. -/
theorem RawChunks.all_merged (h : RawChunks config doc headings before chunks error)
    (hstart : 2 ≤ config.maxChars → KeepsLineEnd doc headings before) :
    ∀ chunk ∈ chunks, ∃ emitted, MergedChunk config doc headings emitted chunk := by
  induction h with
  | ended => exact nofun
  | overflow => exact nofun
  | chunk hraw hrest ih =>
    next before next chunks error =>
    have hnext := hraw.merged hrest.begins hstart
    intro chunk hmem
    rcases List.mem_cons.mp hmem with rfl | hmem
    · exact ⟨before, hnext⟩
    · exact ih hnext.lineEnd chunk hmem

/-- All that is given. -/
theorem RawChunks.all_given (h : RawChunks config doc headings [] chunks error) :
    (∀ chunk ∈ chunksOf (given config none chunks error), GivenChunk config doc headings chunk) ∧
      ∀ chunk ∈ (chunksOf (given config none chunks error)).dropLast,
        config.minChars ≤ chunk.text.length := by
  obtain ⟨hgiven, hlong, hheld⟩ := h.mergedAll (.none fun _ => keepsLineEnd_nil)
  rw [chunksOf_given]
  refine ⟨fun chunk hmem => ?_, fun chunk hmem => ?_⟩
  · rcases List.mem_append.mp hmem with hmem | hmem
    · exact hgiven chunk hmem
    · obtain ⟨hmem, hkept⟩ := List.mem_filter.mp hmem
      exact ⟨by simpa using hkept, hheld chunk (Option.mem_toList.mp hmem)⟩
  · -- at most one chunk is left over
    have hone : (leftOver config (merges config none chunks).2).length ≤ 1 := by
      refine (List.length_filter_le _ _).trans ?_
      cases (merges config none chunks).2 <;> simp
    refine hlong chunk ?_
    rcases hleft : leftOver config (merges config none chunks).2 with _ | ⟨last, more⟩
    · rw [hleft, List.append_nil] at hmem
      exact (List.dropLast_sublist _).subset hmem
    · rw [hleft, List.length_cons] at hone
      obtain rfl := List.eq_nil_of_length_eq_zero (show more.length = 0 by omega)
      rwa [hleft, List.dropLast_concat] at hmem

end

/-! ## The size of chunks -/

/-- No chunk is too long, no chunk is only white space, and only the last may be too short. -/
structure Bounded (maxChars minChars : Nat) (chunks : List Chunk) : Prop where
  atMost : ∀ chunk ∈ chunks, chunk.text.length ≤ maxChars
  visible : ∀ chunk ∈ chunks, ∃ c ∈ chunk.text, Text.isWhitespace c = false
  atLeast : ∀ chunk ∈ chunks.dropLast, minChars ≤ chunk.text.length

theorem not_dropped {config : Config} {chunk : Chunk} (h : dropped config chunk = false)
    (hmin : 0 < config.minChars) : ¬Blank chunk.text := by
  intro hblank
  rw [dropped, decide_eq_false_iff_not] at h
  exact h ⟨hmin, trim_isEmpty.mpr hblank⟩

/-- The iterator ends, and every chunk it gives is within the bounds, before an error or behind one. -/
theorem chunks_are_bounded (doc : Text) (headings : List Heading) (hscanned : Scanned doc headings)
    (maxChars minChars base : Nat) (hmin : 0 < minChars) (hquarter : minChars ≤ maxChars / 4) :
    (usizeLimit ≤ maxChars * 4 →
      streamChunks headings maxChars base = .error "chunk character bound is too large") ∧
    (maxChars * 4 < usizeLimit → ∃ config iter fuel items,
      streamChunks headings maxChars base = .ok (config, iter) ∧
      (∀ more, iter.items (config.withMinChars minChars) (Utf8.encode doc) (fuel + more) = some items) ∧
      Bounded maxChars minChars (chunksOf items)) := by
  constructor
  · intro hlarge
    rw [streamChunks, if_neg (by omega), if_neg (by omega)]
  · intro hsmall
    have hpositive : 1 ≤ maxChars := by omega
    obtain ⟨config, hstream, hconfig⟩ := streamChunks_ok headings base hpositive hsmall
    obtain ⟨raw, error, -, hraw, hrun⟩ := stream_runs hscanned base minChars hpositive hsmall
    have hchars : (Config.of maxChars base minChars).minChars = minChars := Nat.min_eq_left hquarter
    obtain ⟨hgiven, hlong⟩ := hraw.all_given
    refine ⟨config, .start headings, doc.length + 3, given (.of maxChars base minChars) none raw error,
      hstream, fun more => hconfig minChars ▸ (hrun _ (Nat.le_add_right _ more)).1, ?_, ?_, ?_⟩
    · intro chunk hmem
      obtain ⟨-, emitted, hchunk⟩ := hgiven chunk hmem
      exact hchunk.atMost
    · intro chunk hmem
      have hvisible := not_dropped (hgiven chunk hmem).1 (hchars.symm ▸ hmin)
      simpa [Blank] using hvisible
    · intro chunk hmem
      exact hchars ▸ hlong chunk hmem

theorem chunks_are_bounded_notes : ∃ config iter fuel,
    streamChunks notesHeadings 8 7 = .ok (config, iter) ∧
      (∀ more, iter.items (config.withMinChars 2) (Utf8.encode notesText) (fuel + more) =
        some (notesChunks.map .ok)) ∧
      Bounded 8 2 notesChunks := by
  obtain ⟨config, iter, fuel, items, hstream, hitems, hbounded⟩ :=
    (chunks_are_bounded notesText notesHeadings scanned_notes 8 2 7 (by decide) (by decide)).2 (by decide)
  obtain ⟨config', hstream', hgiven⟩ := notes_items
  obtain ⟨rfl, rfl⟩ := Prod.mk.inj (Except.ok.inj (hstream.symm.trans hstream'))
  obtain rfl := ChunkIter.items_unique hgiven (hitems 0)
  exact ⟨config, _, fuel, hstream, hitems, hbounded⟩

/-! ## Line ends -/

/-- The chunk is a part of the document between two characters, and parts no line end. -/
def KeepsLines (doc : Text) (base : Nat) (chunk : Chunk) : Prop :=
  ∃ before after, doc = before ++ chunk.text ++ after ∧ chunk.text ≠ [] ∧
    chunk.byteStart = base + (Utf8.encode before).length ∧
    chunk.byteEnd = base + (Utf8.encode (before ++ chunk.text)).length ∧
    ¬PartsLineEnd before (chunk.text ++ after) ∧ ¬PartsLineEnd (before ++ chunk.text) after

/-- A heading does not start with the second half of a line end. -/
def StartsLine (doc : Text) (heading : Heading) : Prop :=
  ∀ before after, doc = before ++ '\n' :: after → heading.start ≠ (Utf8.encode before).length

theorem KeepsLineEnd.not_parts {doc before after : Text} {headings : List Heading}
    (h : KeepsLineEnd doc headings before) (hheadings : ∀ heading ∈ headings, StartsLine doc heading)
    (hdoc : doc = before ++ after) : ¬PartsLineEnd before after := by
  intro hparts
  rcases h with ⟨heading, hmem, hstart⟩ | h
  · obtain ⟨rest, rfl⟩ := List.head?_eq_some_iff.mp hparts.2
    exact hheadings heading hmem before rest hdoc hstart
  · exact h after hdoc hparts

theorem MergedChunk.keepsLines {config : Config} {doc emitted : Text} {headings : List Heading}
    {chunk : Chunk} (h : MergedChunk config doc headings emitted chunk)
    (hheadings : ∀ heading ∈ headings, StartsLine doc heading) (htwo : 2 ≤ config.maxChars) :
    KeepsLines doc config.sourceBaseOffset chunk := by
  obtain ⟨after, hdoc⟩ := h.begins
  refine ⟨emitted, after, hdoc.symm, h.nonempty, h.byteStart, h.byteEnd, ?_, ?_⟩
  · refine (h.lineStart htwo).not_parts hheadings ?_
    rw [← hdoc, List.append_assoc]
  · exact (h.lineEnd htwo).not_parts hheadings hdoc.symm

/-- Wherever the document is cut, and wherever a chunk begins or ends, a line end is kept whole. -/
theorem chunks_keep_line_ends (doc : Text) (headings : List Heading) (hscanned : Scanned doc headings)
    (hheadings : ∀ heading ∈ headings, StartsLine doc heading) (maxChars minChars base : Nat)
    (htwo : 2 ≤ maxChars) :
    (usizeLimit ≤ maxChars * 4 →
      streamChunks headings maxChars base = .error "chunk character bound is too large") ∧
    (maxChars * 4 < usizeLimit → ∃ config iter fuel items,
      streamChunks headings maxChars base = .ok (config, iter) ∧
      (∃ raw error,
        ChunkIter.Cuts (config.withMinChars minChars) (Utf8.encode doc) iter raw error ∧
          ∀ chunk ∈ raw, KeepsLines doc base chunk) ∧
      (∀ more, iter.items (config.withMinChars minChars) (Utf8.encode doc) (fuel + more) = some items) ∧
      ∀ chunk ∈ chunksOf items, KeepsLines doc base chunk) := by
  constructor
  · intro hlarge
    rw [streamChunks, if_neg (by omega), if_neg (by omega)]
  · intro hsmall
    have hpositive : 1 ≤ maxChars := by omega
    obtain ⟨config, hstream, hconfig⟩ := streamChunks_ok headings base hpositive hsmall
    obtain ⟨raw, error, hcuts, hraw, hrun⟩ := stream_runs hscanned base minChars hpositive hsmall
    refine ⟨config, .start headings, doc.length + 3, given (.of maxChars base minChars) none raw error,
      hstream, ⟨raw, error, hconfig minChars ▸ hcuts, fun chunk hmem => ?_⟩,
      fun more => hconfig minChars ▸ (hrun _ (Nat.le_add_right _ more)).1, fun chunk hmem => ?_⟩
    · obtain ⟨emitted, hchunk⟩ := hraw.all_merged (fun _ => keepsLineEnd_nil) chunk hmem
      exact hchunk.keepsLines hheadings htwo
    · obtain ⟨-, emitted, hchunk⟩ := hraw.all_given.1 chunk hmem
      exact hchunk.keepsLines hheadings htwo

/-- The chunks of four characters: `# A` ends in front of a line end, and `ab` behind one. -/
def notesLines : List Chunk :=
  [⟨"# A".toList, 0, 3, [['A']]⟩, ⟨"\r\nab".toList, 3, 7, [['A']]⟩, ⟨"\r\n".toList, 7, 9, [['A']]⟩,
    ⟨"## ".toList, 9, 12, [['A'], ['B']]⟩, ⟨"B\r\n".toList, 12, 15, [['A'], ['B']]⟩,
    ⟨"cd\r\n".toList, 15, 19, [['A'], ['B']]⟩]

theorem startsLine_notes : ∀ heading ∈ notesHeadings, StartsLine notesText heading := by
  intro heading hmem before after hdoc hstart
  have hfront : Utf8.encode notesText = Utf8.encode before ++ 0x0A :: Utf8.encode after := by
    rw [hdoc, Utf8.encode_append, Utf8.encode_cons]
    rfl
  have hbyte : (Utf8.encode notesText)[heading.start]? = some 0x0A := by
    rw [hfront, hstart, List.getElem?_append_right (Nat.le_refl _), Nat.sub_self]
    rfl
  rcases List.mem_cons.mp hmem with rfl | hmem
  · exact absurd hbyte (by decide)
  · obtain rfl := List.mem_singleton.mp hmem
    exact absurd hbyte (by decide)

theorem chunks_keep_line_ends_notes : ∃ config iter fuel,
    streamChunks notesHeadings 4 0 = .ok (config, iter) ∧
      (∃ raw error,
        ChunkIter.Cuts (config.withMinChars 0) (Utf8.encode notesText) iter raw error ∧
          ∀ chunk ∈ raw, KeepsLines notesText 0 chunk) ∧
      (∀ more, iter.items (config.withMinChars 0) (Utf8.encode notesText) (fuel + more) =
        some (notesLines.map .ok)) ∧
      ∀ chunk ∈ notesLines, KeepsLines notesText 0 chunk := by
  obtain ⟨config, iter, fuel, items, hstream, hraw, hitems, hlines⟩ :=
    (chunks_keep_line_ends notesText notesHeadings scanned_notes startsLine_notes 4 0 0 (by decide)).2 (by decide)
  have hgiven : ∃ config', streamChunks notesHeadings 4 0 = .ok (config', .start notesHeadings) ∧
      (ChunkIter.start notesHeadings).items (config'.withMinChars 0) (Utf8.encode notesText) 22 =
        some (notesLines.map .ok) := ⟨_, rfl, by decide +kernel⟩
  obtain ⟨config', hstream', hgiven⟩ := hgiven
  obtain ⟨rfl, rfl⟩ := Prod.mk.inj (Except.ok.inj (hstream.symm.trans hstream'))
  obtain rfl := ChunkIter.items_unique hgiven (hitems 0)
  exact ⟨config, _, fuel, hstream, hraw, hitems, hlines⟩

end Chunker
