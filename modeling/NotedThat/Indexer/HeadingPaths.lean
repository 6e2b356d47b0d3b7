-- SUMMARY: The heading paths of the streaming chunker: whose section they are of, and when they are the chain of what encloses it.
import NotedThat.Indexer.ChunkBounds
import NotedThat.Lib.Outline

/-!
# Heading paths

A chunk has the path of the section that its first visible character is in. That path is cut at the
depth of each heading, so it is the chain of the enclosing headings only where no depth is skipped.
-/

namespace Chunker

/-- The labels of the last heading and of those that enclose it. -/
def enclosingPath (entered : List Heading) : List Text :=
  (Outline.chain Heading.depth entered).map Heading.label

theorem sectionPath_eq (entered : List Heading) :
    sectionPath entered = (Outline.truncated Heading.depth entered).map Heading.label := by
  induction entered using List.reverseRecOn with
  | nil => rfl
  | append_singleton entered heading ih =>
    rw [sectionPath_concat, Outline.truncated_concat, List.map_append, ih, List.map_take]
    rfl

/-! ## Sections -/

/-- The path of each section is the chain of the headings that enclose it. -/
structure SectionsEnclosed (headings : List Heading) : Prop where
  path : ∀ entered, entered <+: headings → sectionPath entered = enclosingPath entered
  increasing : ∀ entered, entered <+: headings → ∃ above : List Heading,
    sectionPath entered = above.map Heading.label ∧ above.Sublist entered ∧
      above.Pairwise fun outer inner => outer.depth < inner.depth
  siblings : ∀ earlier first between second, earlier ++ first :: between ++ [second] <+: headings →
    first.depth = second.depth → (∀ heading ∈ between, second.depth ≤ heading.depth) →
      (sectionPath (earlier ++ first :: between ++ [second])).dropLast =
        (sectionPath (earlier ++ [first])).dropLast

theorem sectionsEnclosed_iff {headings : List Heading} (hdepths : ∀ heading ∈ headings, 1 ≤ heading.depth) :
    SectionsEnclosed headings ↔ Outline.Filled Heading.depth headings := by
  constructor
  · intro h
    refine Outline.filled_of_length hdepths fun front hfront => ?_
    have hpath := h.path front hfront
    rw [sectionPath_eq] at hpath
    simpa [enclosingPath] using congrArg List.length hpath
  · intro hfilled
    have hpath : ∀ entered, entered <+: headings → sectionPath entered = enclosingPath entered :=
      fun entered hentered => by
        rw [sectionPath_eq, Outline.truncated_eq_chain hdepths hfilled hentered, enclosingPath]
    refine ⟨hpath, fun entered hentered => ⟨_, hpath entered hentered, Outline.chain_sublist _,
      Outline.pairwise_chain _⟩, fun earlier first between second hsecond hdepth hbetween => ?_⟩
    have hfirst : earlier ++ [first] <+: headings := by
      refine List.IsPrefix.trans ?_ hsecond
      rw [List.append_assoc]
      exact (List.prefix_append_right_inj earlier).mpr ⟨between ++ [second], rfl⟩
    rw [hpath _ hsecond, hpath _ hfirst, enclosingPath, enclosingPath, Outline.chain_concat,
      Outline.chain_concat, Outline.enclosing_sibling hdepth hbetween, List.map_append, List.map_append]
    simp only [List.map_cons, List.map_nil, List.dropLast_concat]

/-! ## Chunks -/

/-- Where the first visible character of a chunk is in the reader; its first where none is. -/
def firstVisible (base : Nat) (chunk : Chunk) : Nat :=
  chunk.byteStart - base + (Utf8.encode (leading chunk.text)).length

theorem Slice.firstVisible_eq {base : Nat} {before : Text} {chunk : Chunk} (h : Slice base before chunk) :
    firstVisible base chunk = (Utf8.encode (before ++ leading chunk.text)).length := by
  rw [firstVisible, h.byteStart, Utf8.encode_append, List.length_append, Nat.add_sub_cancel_left]

/-- A chunk that is given has the path of its section. -/
theorem GivenChunk.path {config : Config} {doc : Text} {headings : List Heading} {chunk : Chunk}
    (h : GivenChunk config doc headings chunk) : chunk.headingPath =
      sectionPath (headingsUpTo headings (firstVisible config.sourceBaseOffset chunk)) := by
  obtain ⟨hkept, emitted, hchunk⟩ := h
  have hpath := hchunk.path.resolve_left fun hblank => not_dropped hkept hblank.1 hblank.2
  rw [hpath, hchunk.firstVisible_eq, pathOf]

/-- The heading path of each chunk is the chain of the headings that enclose it. -/
def ChunksEnclosed (headings : List Heading) (base : Nat) (items : List (Except String Chunk)) : Prop :=
  ∀ chunk ∈ chunksOf items,
    chunk.headingPath = enclosingPath (headingsUpTo headings (firstVisible base chunk))

theorem headingsUpTo_start {doc : Text} {headings entered : List Heading} {heading : Heading}
    (hscanned : Scanned doc headings) (h : entered ++ [heading] <+: headings) :
    headingsUpTo headings heading.start = entered ++ [heading] := by
  obtain ⟨later, rfl⟩ := h
  obtain ⟨hfront, -, hlater⟩ := List.pairwise_append.mp hscanned.increasing
  refine headingsUpTo_append (fun passed hmem => ?_) fun next hnext =>
    hlater heading (by simp) next (List.mem_of_mem_head? hnext)
  rcases List.mem_append.mp hmem with hmem | hmem
  · exact Nat.le_of_lt ((List.pairwise_append.mp hfront).2.2 passed hmem heading (by simp))
  · rw [List.mem_singleton.mp hmem]

section

variable {config : Config} {doc before : Text} {headings : List Heading} {chunks : List Chunk}

/-- With chunks of one character, one begins everywhere. -/
theorem RawChunks.exists_at {reached : Text} (h : RawChunks config doc headings reached chunks none)
    (hone : config.maxChars = 1) (hreached : reached <+: before) (hbefore : before <+: doc)
    (hne : before ≠ doc) : ∃ chunk ∈ chunks, RawChunk config doc headings before chunk := by
  generalize herror : none = error at h
  induction h with
  | overflow => exact absurd herror nofun
  | ended => exact absurd (hbefore.eq_of_length_le hreached.length_le) hne
  | chunk hraw hrest ih =>
    next reached chunk chunks error =>
    by_cases hhere : reached = before
    · subst hhere
      exact ⟨chunk, List.mem_cons_self, hraw⟩
    · have hlt : reached.length < before.length :=
        Nat.lt_of_le_of_ne hreached.length_le fun heq => hhere (hreached.eq_of_length heq)
      have hshort := hraw.atMost
      have hnext : reached ++ chunk.text <+: before :=
        List.prefix_of_prefix_length_le hrest.begins hbefore (by rw [List.length_append]; omega)
      obtain ⟨later, hmem, hlater⟩ := ih hnext herror
      exact ⟨later, List.mem_cons_of_mem _ hmem, hlater⟩

/-- With no minimum, all that is cut is given. -/
theorem chunksOf_plain (hmin : config.minChars = 0) (held : Option Chunk) (error : Option String) :
    chunksOf (given config held chunks error) = held.toList ++ chunks := by
  have hdropped : ∀ chunk, dropped config chunk = false := fun chunk => by simp [dropped, hmin]
  have hmerge : ∀ held next, mergeable config held next = false := fun held next => by
    simp [mergeable, hmin]
  rw [chunksOf_given]
  induction chunks generalizing held with
  | nil => cases held <;> simp [merges, leftOver, hdropped]
  | cons next chunks ih =>
    cases held with
    | none => exact ih (some next)
    | some held =>
      rw [merges, hmerge, hdropped]
      exact congrArg (held :: ·) (ih (some next))

theorem leading_singleton (c : Char) : leading [c] = [] := by
  unfold leading
  split
  · rfl
  · next hvisible =>
    refine List.takeWhile_cons_of_neg fun hwhite => hvisible fun d hd => ?_
    rwa [List.mem_singleton.mp hd]

end

/-- Where chunks of one character have the chains for paths, so do the sections. -/
theorem filled_of_chunksEnclosed {doc : Text} {headings : List Heading} (hscanned : Scanned doc headings)
    (hdepths : ∀ heading ∈ headings, 1 ≤ heading.depth)
    (hinside : ∀ heading ∈ headings, heading.start < (Utf8.encode doc).length) {config : Config}
    {chunks : List Chunk} (hraw : RawChunks config doc headings [] chunks none) (hone : config.maxChars = 1)
    (hmin : config.minChars = 0)
    (h : ChunksEnclosed headings config.sourceBaseOffset (given config none chunks none)) :
    Outline.Filled Heading.depth headings := by
  refine Outline.filled_of_length hdepths fun front hfront => ?_
  rcases List.eq_nil_or_concat' front with rfl | ⟨entered, heading, rfl⟩
  · rfl
  · have hmem : heading ∈ headings := hfront.subset (by simp)
    obtain ⟨before, after, rfl, hstart⟩ := hscanned.boundary heading hmem
    have hlt := hinside heading hmem
    obtain ⟨chunk, hchunk, hslice⟩ := hraw.exists_at hone List.nil_prefix (List.prefix_append before after)
      fun heq => absurd hlt (by rw [hstart, ← heq]; exact Nat.lt_irrefl _)
    obtain ⟨c, htext⟩ : ∃ c, chunk.text = [c] := by
      have hpos := List.length_pos_iff.mpr hslice.nonempty
      have hmost := hslice.atMost
      exact List.length_eq_one_iff.mp (by omega)
    have hvisible : firstVisible config.sourceBaseOffset chunk = heading.start := by
      rw [hslice.firstVisible_eq, htext, leading_singleton, List.append_nil, hstart]
    have hpath := h chunk (by rwa [chunksOf_plain hmin, Option.toList_none, List.nil_append])
    rw [hslice.path.resolve_left fun hblank => absurd hblank.1 (by rw [hmin]; decide), pathOf,
      ← hslice.firstVisible_eq, hvisible, headingsUpTo_start hscanned hfront, sectionPath_eq] at hpath
    simpa [enclosingPath] using congrArg List.length hpath

/-- The path of every section, and the path of every chunk in every run, is the chain of the enclosing
headings exactly where each heading that is not deeper than the one before it is enclosed by one of
every depth above it. -/
theorem heading_paths_enclose_iff (doc : Text) (headings : List Heading) (hscanned : Scanned doc headings)
    (hdepths : ∀ heading ∈ headings, 1 ≤ heading.depth)
    (hinside : ∀ heading ∈ headings, heading.start < (Utf8.encode doc).length) (base : Nat)
    (hbase : base + (Utf8.encode doc).length < usizeLimit) :
    (SectionsEnclosed headings ↔ Outline.Filled Heading.depth headings) ∧
    ((∀ maxChars minChars, 1 ≤ maxChars → maxChars * 4 < usizeLimit → ∃ config iter fuel items,
        streamChunks headings maxChars base = .ok (config, iter) ∧
        (∀ more, iter.items (config.withMinChars minChars) (Utf8.encode doc) (fuel + more) = some items) ∧
        ChunksEnclosed headings base items) ↔
      Outline.Filled Heading.depth headings) := by
  refine ⟨sectionsEnclosed_iff hdepths, fun h => ?_, fun hfilled maxChars minChars hmax hsmall => ?_⟩
  · -- chunks of one character, one of which each heading starts with
    obtain ⟨config, iter, fuel, items, hstream, hitems, henclosed⟩ := h 1 0 (Nat.le_refl 1) (by decide)
    obtain ⟨config', hstream', hconfig⟩ := streamChunks_ok headings base (Nat.le_refl 1) (by decide)
    obtain ⟨rfl, rfl⟩ := Prod.mk.inj (Except.ok.inj (hstream.symm.trans hstream'))
    obtain ⟨raw, error, -, hraw, hrun⟩ := stream_runs hscanned base 0 (Nat.le_refl 1) (by decide)
    rw [hconfig] at hitems
    have hgiven := (hitems _).symm.trans (hrun _ (Nat.le_add_left _ fuel)).1
    cases error with
    | some error => exact absurd hbase (Nat.not_lt.mpr hraw.overflows.2)
    | none =>
      rw [Option.some.inj hgiven] at henclosed
      exact filled_of_chunksEnclosed hscanned hdepths hinside hraw rfl rfl henclosed
  · obtain ⟨config, hstream, hconfig⟩ := streamChunks_ok headings base hmax hsmall
    obtain ⟨raw, error, -, hraw, hrun⟩ := stream_runs hscanned base minChars hmax hsmall
    refine ⟨config, .start headings, doc.length + 3, given (.of maxChars base minChars) none raw error,
      hstream, fun more => hconfig minChars ▸ (hrun _ (Nat.le_add_right _ more)).1, fun chunk hmem => ?_⟩
    have hpath := (hraw.all_given.1 chunk hmem).path
    rw [hpath]
    exact ((sectionsEnclosed_iff hdepths).mpr hfilled).path _ (List.takeWhile_prefix _)

/-- Where `B` is below `A`, the sections and the chunks have both in their paths. -/
theorem heading_paths_enclose_iff_notes : SectionsEnclosed notesHeadings ∧
    ∃ config iter fuel, streamChunks notesHeadings 8 7 = .ok (config, iter) ∧
      (∀ more, iter.items (config.withMinChars 2) (Utf8.encode notesText) (fuel + more) =
        some (notesChunks.map .ok)) ∧
      ∀ chunk ∈ notesChunks,
        chunk.headingPath = enclosingPath (headingsUpTo notesHeadings (firstVisible 7 chunk)) := by
  have hfilled : Outline.Filled Heading.depth notesHeadings := by
    -- the second heading is deeper
    intro earlier last item later hitems hdepth
    have hlength := congrArg List.length hitems
    simp only [notesHeadings, List.length_cons, List.length_nil, List.length_append] at hlength
    obtain rfl := List.length_eq_zero_iff.mp (show earlier.length = 0 by omega)
    simp only [notesHeadings, List.nil_append, List.cons.injEq] at hitems
    obtain ⟨rfl, rfl, -⟩ := hitems
    exact absurd hdepth (by decide)
  obtain ⟨hsections, hchunks⟩ :=
    heading_paths_enclose_iff notesText notesHeadings scanned_notes (by decide) (by decide) 7 (by decide)
  obtain ⟨config, iter, fuel, items, hstream, hitems, henclosed⟩ := hchunks.mpr hfilled 8 2 (by decide) (by decide)
  obtain ⟨config', hstream', hgiven⟩ := notes_items
  obtain ⟨rfl, rfl⟩ := Prod.mk.inj (Except.ok.inj (hstream.symm.trans hstream'))
  obtain rfl := ChunkIter.items_unique hgiven (hitems 0)
  exact ⟨hsections.mpr hfilled, config, _, fuel, hstream, hitems, henclosed⟩

/-- Two headings of depth two, with nothing above them. -/
def siblings : List Heading := [⟨0, 2, ['A']⟩, ⟨5, 2, ['B']⟩]

def siblingsText : Text := "## A\n## B\n".toList

/-- The second of two siblings has the first in its path. -/
theorem siblings_are_nested : Scanned siblingsText siblings ∧
    (∃ config iter, streamChunks siblings 20 0 = .ok (config, iter) ∧
      iter.items (config.withMinChars 0) (Utf8.encode siblingsText) 13 =
        some [.ok ⟨"## A\n".toList, 0, 5, [['A']]⟩, .ok ⟨"## B\n".toList, 5, 10, [['A'], ['B']]⟩]) ∧
    enclosingPath siblings = [['B']] ∧ ¬SectionsEnclosed siblings := by
  refine ⟨⟨by simp [siblings], fun heading hmem => ?_⟩, ⟨_, _, rfl, by decide +kernel⟩, by decide, fun h => ?_⟩
  · rcases List.mem_cons.mp hmem with rfl | hmem
    · exact ⟨[], siblingsText, rfl, rfl⟩
    · obtain rfl := List.mem_singleton.mp hmem
      exact ⟨"## A\n".toList, "## B\n".toList, by decide, by decide⟩
  · exact absurd (h.path siblings List.prefix_rfl) (by decide)

end Chunker
