-- SUMMARY: The streaming chunker loses nothing: its chunks are slices of the document, in order, with white space between.
import NotedThat.Indexer.RawChunks

/-!
# The chunker is lossless

Each chunk that is cut begins where the one before it ended, and the last ends with the document.
Merging two of them keeps that, and only white space is dropped.
-/

namespace Chunker

/-! ## Gaps -/

/-- What may be left out between two chunks. -/
def Gap (config : Config) (gap : Text) : Prop :=
  gap = [] ∨ 0 < config.minChars ∧ Blank gap

theorem Gap.append {config : Config} {a b : Text} (ha : Gap config a) (hb : Gap config b) :
    Gap config (a ++ b) := by
  rcases ha with rfl | ⟨hmin, ha⟩
  · rwa [List.nil_append]
  · rcases hb with rfl | ⟨-, hb⟩
    · rw [List.append_nil]
      exact .inr ⟨hmin, ha⟩
    · exact .inr ⟨hmin, ha.append hb⟩

theorem gap_of_dropped {config : Config} {chunk : Chunk} (h : dropped config chunk = true) :
    Gap config chunk.text := by
  obtain ⟨hmin, htrim⟩ := of_decide_eq_true h
  exact .inr ⟨hmin, trim_isEmpty.mp htrim⟩

/-- The chunk held back, if any, is what was cut behind `emitted`. -/
inductive Holds (base : Nat) (emitted : Text) : Text → Option Chunk → Prop
  | none : Holds base emitted emitted none
  | some {chunk : Chunk} : Slice base emitted chunk → Holds base emitted (emitted ++ chunk.text) (some chunk)

theorem Holds.begins {base : Nat} {emitted before : Text} {held : Option Chunk}
    (h : Holds base emitted before held) : emitted <+: before := by
  cases h with
  | none => exact List.prefix_rfl
  | some => exact List.prefix_append _ _

/-! ## Covering -/

/-- The chunks cover the text behind `emitted`, up to gaps. -/
inductive Covers (config : Config) : Text → Text → List Chunk → Prop
  | done {emitted rest : Text} : Gap config rest → Covers config emitted rest []
  | chunk {emitted gap rest : Text} {chunk : Chunk} {chunks : List Chunk} : Gap config gap →
      Slice config.sourceBaseOffset (emitted ++ gap) chunk →
      Covers config (emitted ++ gap ++ chunk.text) rest chunks →
      Covers config emitted (gap ++ chunk.text ++ rest) (chunk :: chunks)

/-- A gap in front. -/
theorem Covers.of_gap {config : Config} {emitted gap rest : Text} {chunks : List Chunk}
    (hgap : Gap config gap) (h : Covers config (emitted ++ gap) rest chunks) :
    Covers config emitted (gap ++ rest) chunks := by
  cases h with
  | done hrest => exact .done (hgap.append hrest)
  | chunk hgap' hslice hcovers =>
    rw [List.append_assoc emitted] at hslice hcovers
    rw [← List.append_assoc gap, ← List.append_assoc gap]
    exact .chunk (hgap.append hgap') hslice hcovers

/-- A chunk right behind what was emitted. -/
theorem Covers.next {config : Config} {emitted rest : Text} {chunk : Chunk} {chunks : List Chunk}
    (h : Covers config (emitted ++ chunk.text) rest chunks)
    (hslice : Slice config.sourceBaseOffset emitted chunk) :
    Covers config emitted (chunk.text ++ rest) (chunk :: chunks) := by
  refine @Covers.chunk _ _ [] _ _ _ (.inl rfl) ?_ ?_
  · rwa [List.append_nil]
  · rwa [List.append_nil]

/-- The chunks that are given cover what is behind `emitted`. -/
theorem RawChunks.covers {config : Config} {doc before : Text} {headings : List Heading}
    {chunks : List Chunk} (h : RawChunks config doc headings before chunks none) {emitted : Text}
    {held : Option Chunk} (hheld : Holds config.sourceBaseOffset emitted before held) :
    ∃ rest, doc = emitted ++ rest ∧ Covers config emitted rest
      ((merges config held chunks).1 ++ leftOver config (merges config held chunks).2) := by
  generalize herror : none = error at h
  induction h generalizing emitted held with
  | overflow => exact absurd herror nofun
  | ended =>
    cases hheld with
    | none => exact ⟨[], (List.append_nil _).symm, .done (.inl rfl)⟩
    | some hslice =>
      next held =>
      refine ⟨held.text, rfl, ?_⟩
      rw [merges, List.nil_append]
      dsimp only
      cases hdropped : dropped config held with
      | true =>
        rw [show leftOver config (some held) = [] by simp [leftOver, hdropped]]
        exact .done (gap_of_dropped hdropped)
      | false =>
        rw [show leftOver config (some held) = [held] by simp [leftOver, hdropped]]
        have hdone : Covers config (emitted ++ held.text) [] [] := .done (.inl rfl)
        have hnext := hdone.next hslice
        rwa [List.append_nil] at hnext
  | chunk hchunk hraw ih =>
    next before chunk chunks error =>
    cases hheld with
    | none => exact ih (.some hchunk.toSlice) herror
    | some hslice =>
      next held =>
      rw [merges]
      split_ifs with hmerge hdropped
      · refine ih ?_ herror
        rw [List.append_assoc]
        exact .some (hslice.merge hchunk.toSlice)
      · obtain ⟨rest, hdoc, hcovers⟩ := ih (.some hchunk.toSlice) herror
        exact ⟨held.text ++ rest, by rw [hdoc, List.append_assoc], hcovers.of_gap (gap_of_dropped hdropped)⟩
      · obtain ⟨rest, hdoc, hcovers⟩ := ih (.some hchunk.toSlice) herror
        exact ⟨held.text ++ rest, by rw [hdoc, List.append_assoc], hcovers.next hslice⟩

/-! ## What the chunks cover -/

/-- The byte is one of a character of the text. -/
theorem exists_char_at {text : Text} {i : Nat} (h : i < (Utf8.encode text).length) :
    ∃ before c after, text = before ++ c :: after ∧ (Utf8.encode before).length ≤ i ∧
      i < (Utf8.encode (before ++ [c])).length := by
  induction text generalizing i with
  | nil => exact absurd h (Nat.not_lt_zero i)
  | cons c text ih =>
    rw [Utf8.encode_cons, List.length_append] at h
    by_cases hfirst : i < (String.utf8EncodeChar c).length
    · refine ⟨[], c, text, rfl, Nat.zero_le i, ?_⟩
      rwa [List.nil_append, Utf8.encode_cons, Utf8.encode_nil, List.append_nil]
    · obtain ⟨before, d, after, rfl, hle, hlt⟩ := ih (i := i - (String.utf8EncodeChar c).length) (by omega)
      refine ⟨c :: before, d, after, rfl, ?_, ?_⟩
      · rw [Utf8.encode_cons, List.length_append]
        omega
      · rw [List.cons_append, Utf8.encode_cons, List.length_append]
        omega

theorem Covers.slice {config : Config} {emitted rest : Text} {chunks : List Chunk}
    (h : Covers config emitted rest chunks) {chunk : Chunk} (hmem : chunk ∈ chunks) :
    ∃ before after, emitted ++ rest = emitted ++ before ++ chunk.text ++ after ∧
      Slice config.sourceBaseOffset (emitted ++ before) chunk := by
  induction h with
  | done => exact absurd hmem List.not_mem_nil
  | chunk hgap hslice hcovers ih =>
    next emitted gap rest first chunks =>
    rcases List.mem_cons.mp hmem with rfl | hmem
    · exact ⟨gap, rest, by simp only [List.append_assoc], hslice⟩
    · obtain ⟨before, after, heq, hslice'⟩ := ih hmem
      refine ⟨gap ++ first.text ++ before, after, ?_, ?_⟩
      · simpa only [List.append_assoc] using heq
      · simpa only [List.append_assoc] using hslice'

theorem Covers.ordered {config : Config} {emitted rest : Text} {chunks : List Chunk}
    (h : Covers config emitted rest chunks) :
    chunks.Pairwise fun first second => first.byteEnd ≤ second.byteStart := by
  induction h with
  | done => exact .nil
  | chunk hgap hslice hcovers ih =>
    refine List.pairwise_cons.mpr ⟨fun later hmem => ?_, ih⟩
    obtain ⟨before, after, -, hlater⟩ := hcovers.slice hmem
    rw [hslice.byteEnd, hlater.byteStart]
    exact Nat.add_le_add_left (Utf8.encode_length_mono (List.prefix_append _ before)) _

theorem Covers.concat {config : Config} (hmin : config.minChars = 0) {emitted rest : Text}
    {chunks : List Chunk} (h : Covers config emitted rest chunks) :
    chunks.flatMap Chunk.text = rest := by
  have hnil : ∀ {gap}, Gap config gap → gap = [] := fun hgap =>
    hgap.elim id fun ⟨hpos, _⟩ => absurd hpos (by rw [hmin]; decide)
  induction h with
  | done hgap => rw [hnil hgap, List.flatMap_nil]
  | chunk hgap _ _ ih => rw [List.flatMap_cons, ih, hnil hgap, List.nil_append]

/-- A byte in no chunk is in a gap. -/
theorem Covers.whitespace {config : Config} {emitted rest : Text} {chunks : List Chunk}
    (h : Covers config emitted rest chunks) {i : Nat} (hlow : (Utf8.encode emitted).length ≤ i)
    (hhigh : i < (Utf8.encode (emitted ++ rest)).length)
    (hnone : ∀ chunk ∈ chunks, ¬(chunk.byteStart ≤ config.sourceBaseOffset + i ∧
      config.sourceBaseOffset + i < chunk.byteEnd)) :
    ∃ before c after, emitted ++ rest = before ++ c :: after ∧ (Utf8.encode before).length ≤ i ∧
      i < (Utf8.encode (before ++ [c])).length ∧ Text.isWhitespace c = true := by
  have hgap : ∀ {emitted gap} (rest : Text), Gap config gap → (Utf8.encode emitted).length ≤ i →
      i < (Utf8.encode (emitted ++ gap)).length →
      ∃ before c after, emitted ++ (gap ++ rest) = before ++ c :: after ∧
        (Utf8.encode before).length ≤ i ∧ i < (Utf8.encode (before ++ [c])).length ∧
        Text.isWhitespace c = true := by
    intro emitted gap rest hgap hlow hhigh
    rw [Utf8.encode_append, List.length_append] at hhigh
    have hwithin : i - (Utf8.encode emitted).length < (Utf8.encode gap).length := by omega
    obtain ⟨before, c, after, rfl, hle, hlt⟩ := exists_char_at hwithin
    obtain ⟨-, hwhite⟩ := hgap.resolve_left (by simp)
    refine ⟨emitted ++ before, c, after ++ rest, by simp, ?_, ?_, hwhite c (by simp)⟩
    · rw [Utf8.encode_append, List.length_append]
      omega
    · rw [List.append_assoc, Utf8.encode_append, List.length_append]
      omega
  induction h with
  | done hrest =>
    obtain ⟨before, c, after, heq, hle⟩ := hgap [] hrest hlow hhigh
    rw [List.append_nil] at heq
    exact ⟨before, c, after, heq, hle⟩
  | chunk hfirst hslice hcovers ih =>
    next emitted gap rest chunk chunks =>
    by_cases hin : i < (Utf8.encode (emitted ++ gap)).length
    · rw [List.append_assoc]
      exact hgap _ hfirst hlow hin
    · have hout := hnone chunk List.mem_cons_self
      rw [hslice.byteStart, hslice.byteEnd] at hout
      have hrest := ih (by omega) (by simpa only [List.append_assoc] using hhigh)
        fun later hmem => hnone later (List.mem_cons_of_mem _ hmem)
      simpa only [List.append_assoc] using hrest

/-- The chunks lose nothing of the document but white space, and that only if short chunks are
merged. -/
structure Lossless (doc : Text) (base minChars : Nat) (chunks : List Chunk) : Prop where
  bounds : ∀ chunk ∈ chunks, base ≤ chunk.byteStart ∧ chunk.byteStart < chunk.byteEnd ∧
    chunk.byteEnd ≤ base + (Utf8.encode doc).length
  slices : ∀ chunk ∈ chunks, ((Utf8.encode doc).drop (chunk.byteStart - base)).take
    (chunk.byteEnd - chunk.byteStart) = Utf8.encode chunk.text
  ordered : chunks.Pairwise fun first second => first.byteEnd ≤ second.byteStart
  concat : minChars = 0 → chunks.flatMap Chunk.text = doc
  whitespace : ∀ i < (Utf8.encode doc).length,
    (∀ chunk ∈ chunks, ¬(chunk.byteStart ≤ base + i ∧ base + i < chunk.byteEnd)) →
      ∃ before c after, doc = before ++ c :: after ∧ (Utf8.encode before).length ≤ i ∧
        i < (Utf8.encode (before ++ [c])).length ∧ Text.isWhitespace c = true

theorem Covers.lossless {config : Config} {doc : Text} {chunks : List Chunk} {minChars : Nat}
    (h : Covers config [] doc chunks) (hmin : minChars = 0 → config.minChars = 0) :
    Lossless doc config.sourceBaseOffset minChars chunks where
  bounds chunk hmem := by
    obtain ⟨before, after, hdoc, hslice⟩ := h.slice hmem
    have hpos := Utf8.encode_length_pos hslice.nonempty
    rw [hslice.byteStart, hslice.byteEnd]
    simp only [List.nil_append] at hdoc ⊢
    rw [hdoc]
    simp only [Utf8.encode_append, List.length_append]
    omega
  slices chunk hmem := by
    obtain ⟨before, after, hdoc, hslice⟩ := h.slice hmem
    rw [hslice.byteStart, hslice.byteEnd]
    simp only [List.nil_append] at hdoc ⊢
    rw [hdoc]
    simp only [Utf8.encode_append, List.length_append, Nat.add_sub_cancel_left, Nat.add_sub_add_left,
      List.append_assoc, List.drop_left, List.take_left]
  ordered := h.ordered
  concat hzero := h.concat (hmin hzero)
  whitespace i hi hnone := h.whitespace (Nat.zero_le i) hi hnone

/-- The chunker ends, and loses nothing; where an offset does not fit a `usize`, it fails instead. -/
theorem chunks_are_lossless (doc : Text) (headings : List Heading) (hscanned : Scanned doc headings)
    (maxChars minChars base : Nat) (hmax : 1 ≤ maxChars) (hbase : base < usizeLimit) :
    (usizeLimit ≤ maxChars * 4 →
      streamChunks headings maxChars base = .error "chunk character bound is too large") ∧
    (maxChars * 4 < usizeLimit → ∃ config iter fuel,
      streamChunks headings maxChars base = .ok (config, iter) ∧
      (usizeLimit ≤ base + (Utf8.encode doc).length → ∀ more,
        iter.collect (config.withMinChars minChars) (Utf8.encode doc) (fuel + more) =
          some (.error overflowed)) ∧
      (base + (Utf8.encode doc).length < usizeLimit → ∃ chunks, Lossless doc base minChars chunks ∧
        ∀ more, iter.collect (config.withMinChars minChars) (Utf8.encode doc) (fuel + more) =
          some (.ok chunks))) := by
  constructor
  · intro hlarge
    rw [streamChunks, if_neg (by omega), if_neg (by omega)]
  · intro hsmall
    obtain ⟨config, hstream, hconfig⟩ := streamChunks_ok headings base hmax hsmall
    obtain ⟨raw, error, -, hraw, hrun⟩ := stream_runs hscanned base minChars hmax hsmall
    have hcollect : ∀ more, (ChunkIter.start headings).collect (config.withMinChars minChars)
        (Utf8.encode doc) (doc.length + 3 + more) =
          some (ChunkIter.gather (given (.of maxChars base minChars) none raw error)) := by
      intro more
      rw [hconfig]
      exact (hrun _ (Nat.le_add_right _ more)).2
    simp only [ChunkIter.gather_given] at hcollect
    refine ⟨config, .start headings, doc.length + 3, hstream, fun hover more => ?_, fun hfits => ?_⟩
    · cases error with
      | none => exact absurd (hraw.fits hbase) (Nat.not_lt.mpr hover)
      | some error =>
        rw [hcollect more, hraw.overflows.1]
    · cases error with
      | some error => exact absurd hfits (Nat.not_lt.mpr hraw.overflows.2)
      | none =>
        obtain ⟨rest, rfl, hcovers⟩ := hraw.covers .none
        refine ⟨_, hcovers.lossless fun hzero => ?_, hcollect⟩
        rw [hzero]
        exact Nat.zero_min _

theorem chunks_are_lossless_notes : ∃ config iter fuel,
    streamChunks notesHeadings 8 7 = .ok (config, iter) ∧ Lossless notesText 7 2 notesChunks ∧
      ∀ more, iter.collect (config.withMinChars 2) (Utf8.encode notesText) (fuel + more) =
        some (.ok notesChunks) := by
  obtain ⟨config, iter, fuel, hstream, -, hfits⟩ :=
    (chunks_are_lossless notesText notesHeadings scanned_notes 8 2 7 (by decide) (by decide)).2 (by decide)
  obtain ⟨chunks, hlossless, hcollect⟩ := hfits (by decide)
  obtain ⟨config', hstream', hgiven⟩ := notes_items
  obtain ⟨rfl, rfl⟩ := Prod.mk.inj (Except.ok.inj (hstream.symm.trans hstream'))
  obtain rfl := Except.ok.inj (ChunkIter.collect_unique hgiven hcollect)
  exact ⟨config, _, fuel, hstream, hlossless, hcollect⟩

/-- At the highest offset a document of one letter is not chunked at all. -/
theorem highest_offset_is_refused : ∃ config iter,
    streamChunks [] 1 (usizeLimit - 1) = .ok (config, iter) ∧
      ∀ fuel chunks, iter.collect (config.withMinChars 0) (Utf8.encode ['a']) fuel ≠ some (.ok chunks) := by
  refine ⟨_, _, rfl, fun fuel chunks hcollect => ?_⟩
  have hscanned : Scanned ['a'] [] := ⟨.nil, fun _ hmem => nomatch hmem⟩
  obtain ⟨raw, error, -, hraw, hrun⟩ :=
    @stream_runs _ _ hscanned 1 (usizeLimit - 1) 0 (by decide) (by decide)
  by_cases hfuel : 4 ≤ fuel
  · have hgather := (hrun fuel hfuel).2.symm.trans hcollect
    rw [ChunkIter.gather_given] at hgather
    cases error with
    | some error => exact absurd hgather nofun
    | none => exact absurd (hraw.fits (by decide)) (by decide)
  · -- with less fuel it does not get to the chunk, or fails at it
    have hfew : ∀ fuel < 4,
        (ChunkIter.start []).collect (.of 1 (usizeLimit - 1) 0) (Utf8.encode ['a']) fuel = none ∨
          (ChunkIter.start []).collect (.of 1 (usizeLimit - 1) 0) (Utf8.encode ['a']) fuel =
            some (.error overflowed) := by decide +kernel
    rcases hfew fuel (Nat.lt_of_not_le hfuel) with hnone | herror
    · exact absurd (hnone.symm.trans hcollect) nofun
    · exact absurd (herror.symm.trans hcollect) nofun

end Chunker
