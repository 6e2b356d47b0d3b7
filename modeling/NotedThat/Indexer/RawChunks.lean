-- SUMMARY: The chunks the streaming chunker cuts before it merges any: where they are, how long, and under which headings.
import NotedThat.Indexer.Sections
import NotedThat.Indexer.Merging
import Mathlib.Data.List.TakeWhile

/-!
# Chunks before merging

Every offset the chunker keeps lies between two characters of the document, and a cut keeps that. A
short section is extended until it is long enough or the headings end, so only the last chunk is
short; and what was added is not longer than a chunk, so the next chunk begins behind all the
headings that were passed and has the last one's path.
-/

namespace Chunker

/-- An offset between two characters of the document. -/
def IsBoundary (doc : Text) (n : Nat) : Prop :=
  ∃ before after, doc = before ++ after ∧ n = (Utf8.encode before).length

/-- What the chunker needs of the headings: their starts increase, and lie between characters. -/
structure Scanned (doc : Text) (headings : List Heading) : Prop where
  increasing : headings.Pairwise fun first second => first.start < second.start
  boundary : ∀ heading ∈ headings, IsBoundary doc heading.start

/-- Of two offsets between characters, the text from the first to the second. -/
theorem IsBoundary.from {doc before : Text} {n : Nat} (h : IsBoundary doc n) (hbefore : before <+: doc)
    (hle : (Utf8.encode before).length ≤ n) :
    ∃ ahead, before ++ ahead <+: doc ∧ n = (Utf8.encode (before ++ ahead)).length := by
  obtain ⟨upTo, after, hdoc, rfl⟩ := h
  have hupTo : upTo <+: doc := ⟨after, hdoc.symm⟩
  rcases List.prefix_or_prefix_of_prefix hbefore hupTo with ⟨ahead, rfl⟩ | ⟨extra, rfl⟩
  · exact ⟨ahead, hupTo, rfl⟩
  · refine ⟨[], by rwa [List.append_nil], ?_⟩
    rw [Utf8.encode_append, List.length_append] at hle
    rw [List.append_nil, Utf8.encode_append, List.length_append]
    omega

/-- What stops in front does not go on. -/
theorem takeWhile_append_of_neg {α : Type} {p : α → Bool} {front : List α} (h : ¬∀ a ∈ front, p a = true)
    (rest : List α) : (front ++ rest).takeWhile p = front.takeWhile p := by
  rw [List.takeWhile_append, if_neg]
  intro hlength
  have hself := (List.takeWhile_prefix p (l := front)).eq_of_length hlength
  exact h (List.takeWhile_eq_self_iff.mp hself)

/-! ## Blank text -/

/-- Only white space. -/
def Blank (text : Text) : Prop := ∀ c ∈ text, Text.isWhitespace c = true

instance (text : Text) : Decidable (Blank text) := inferInstanceAs (Decidable (∀ c ∈ text, _))

theorem blank_nil : Blank [] := fun _ hc => nomatch hc

theorem Blank.append {a b : Text} (ha : Blank a) (hb : Blank b) : Blank (a ++ b) :=
  fun c hc => (List.mem_append.mp hc).elim (ha c) (hb c)

theorem trim_isEmpty {text : Text} : (Text.trim text).isEmpty = true ↔ Blank text := by
  rw [List.isEmpty_iff]
  refine ⟨fun h c hc => ?_, fun h => ?_⟩
  · by_contra hvisible
    have hmem := Text.mem_trim hc (Bool.eq_false_iff.mpr hvisible)
    rw [h] at hmem
    exact absurd hmem List.not_mem_nil
  · rw [Text.trim, Text.trimStartMatches, List.dropWhile_eq_nil_iff.mpr h]
    rfl

/-- What stands before the first visible character; nothing where there is none. -/
def leading (text : Text) : Text :=
  if Blank text then [] else text.takeWhile Text.isWhitespace

/-- What follows the first visible character does not matter. -/
theorem leading_append {text : Text} (h : ¬Blank text) (more : Text) :
    leading (text ++ more) = leading text := by
  have hmore : ¬Blank (text ++ more) := fun hall => h fun c hc => hall c (List.mem_append_left more hc)
  rw [leading, if_neg hmore, leading, if_neg h]
  exact takeWhile_append_of_neg h more

theorem leading_blank_append {blank text : Text} (hblank : Blank blank) (h : ¬Blank text) :
    leading (blank ++ text) = blank ++ leading text := by
  have hmore : ¬Blank (blank ++ text) := fun hall => h fun c hc => hall c (List.mem_append_right blank hc)
  rw [leading, if_neg hmore, leading, if_neg h, List.takeWhile_append_of_pos hblank]

/-- A visible character follows. -/
theorem leading_lt {text : Text} (h : text ≠ []) (before : Text) :
    (Utf8.encode (before ++ leading text)).length < (Utf8.encode (before ++ text)).length := by
  have hrest : ∃ rest, text = leading text ++ rest ∧ rest ≠ [] := by
    unfold leading
    split
    · exact ⟨text, rfl, h⟩
    · next hblank =>
      refine ⟨text.dropWhile Text.isWhitespace, (List.takeWhile_append_dropWhile).symm, fun hnil => ?_⟩
      exact hblank (List.dropWhile_eq_nil_iff.mp hnil)
  obtain ⟨rest, heq, hne⟩ := hrest
  have hpos := Utf8.encode_length_pos hne
  conv_rhs => rw [heq, ← List.append_assoc, Utf8.encode_append, List.length_append]
  omega

/-! ## Heading paths -/

/-- The heading path behind these headings. -/
def sectionPath (entered : List Heading) : List Text :=
  entered.foldl (fun path heading => path.take (heading.depth - 1) ++ [heading.label]) []

theorem sectionPath_concat (entered : List Heading) (heading : Heading) :
    sectionPath (entered ++ [heading]) =
      (sectionPath entered).take (heading.depth - 1) ++ [heading.label] := by
  rw [sectionPath, List.foldl_append]
  rfl

/-- The headings at or before an offset. -/
def headingsUpTo (headings : List Heading) (n : Nat) : List Heading :=
  headings.takeWhile fun heading => heading.start ≤ n

theorem headingsUpTo_append {entered later : List Heading} {n : Nat}
    (hentered : ∀ heading ∈ entered, heading.start ≤ n) (hlater : ∀ heading ∈ later.head?, n < heading.start) :
    headingsUpTo (entered ++ later) n = entered := by
  rw [headingsUpTo, List.takeWhile_append_of_pos fun heading hmem => decide_eq_true (hentered heading hmem)]
  cases later with
  | nil => rw [List.takeWhile_nil, List.append_nil]
  | cons heading later =>
    rw [List.takeWhile_cons_of_neg (by simpa using hlater heading rfl), List.append_nil]

/-- The heading path of the section that the first visible character is in. -/
def pathOf (headings : List Heading) (before text : Text) : List Text :=
  sectionPath (headingsUpTo headings (Utf8.encode (before ++ leading text)).length)

/-- With every boundary passed, the path is the last one's. -/
theorem takeHeadingPath_last {s : Section} {path : List Text}
    (hlast : s.boundaries.getLast?.map Boundary.headingPath = some path)
    (hpassed : ∀ boundary ∈ s.boundaries, boundary.start ≤ s.cursor) : s.takeHeadingPath.1 = path := by
  obtain ⟨boundary, hboundary, rfl⟩ := Option.map_eq_some_iff.mp hlast
  have hall : (s.boundaries.drop 1).takeWhile (fun boundary => decide (boundary.start ≤ s.cursor)) =
      s.boundaries.drop 1 :=
    List.takeWhile_eq_self_iff.mpr fun b hb => decide_eq_true (hpassed b (List.mem_of_mem_drop hb))
  rw [Section.takeHeadingPath]
  dsimp only
  rw [hall, List.length_drop, List.head?_drop, ← List.getLast?_eq_getElem?, hboundary]
  rfl

/-- A boundary that is not passed does not count. -/
theorem takeHeadingPath_append {s : Section} {boundary : Boundary} (hne : s.boundaries ≠ [])
    (hahead : s.cursor < boundary.start) (stop : Nat) :
    { s with stop := stop, boundaries := s.boundaries ++ [boundary] }.takeHeadingPath.1 =
      s.takeHeadingPath.1 := by
  obtain ⟨first, boundaries, hboundaries⟩ := List.exists_cons_of_ne_nil hne
  have hnot : decide (boundary.start ≤ s.cursor) = false := decide_eq_false (Nat.not_le.mpr hahead)
  rw [Section.takeHeadingPath, Section.takeHeadingPath]
  dsimp only
  rw [hboundaries, List.cons_append, List.drop_one, List.tail_cons, List.drop_one, List.tail_cons]
  have htake : (boundaries ++ [boundary]).takeWhile (fun boundary => decide (boundary.start ≤ s.cursor)) =
      boundaries.takeWhile fun boundary => decide (boundary.start ≤ s.cursor) := by
    by_cases hall : ∀ b ∈ boundaries, decide (b.start ≤ s.cursor) = true
    · rw [List.takeWhile_append_of_pos hall, List.takeWhile_cons_of_neg (by rw [hnot]; decide),
        List.append_nil, List.takeWhile_eq_self_iff.mpr hall]
    · exact takeWhile_append_of_neg hall _
  have hle := (List.takeWhile_prefix (fun boundary : Boundary => decide (boundary.start ≤ s.cursor))
    (l := boundaries)).length_le
  have hleft : (first :: boundaries).drop (boundaries.takeWhile fun boundary =>
      decide (boundary.start ≤ s.cursor)).length ≠ [] :=
    fun hnil => absurd (List.drop_eq_nil_iff.mp hnil) (by rw [List.length_cons]; omega)
  rw [htake, ← List.cons_append, List.drop_append_of_le_length (by rw [List.length_cons]; omega),
    List.head?_append, Option.or_of_isSome (by rwa [List.isSome_head?])]

/-! ## Between sections -/

/-- Where the current section ends, when this is the next heading. -/
def sectionEnd (doc : Text) (nextHeading : Option Heading) : Nat :=
  (nextHeading.map Heading.start).getD (Utf8.encode doc).length

/-- These headings have been entered, and the current section ends behind `upTo`. -/
structure ChunkIter.EndsAt (doc : Text) (headings entered : List Heading) (upTo : Text)
    (iter : ChunkIter) : Prop where
  started : iter.started = true
  unfinished : iter.finished = false
  headings : headings = entered ++ (iter.nextHeading.toList ++ iter.upcoming)
  headingPath : iter.headingPath = sectionPath entered
  exhausted : iter.nextHeading = none → iter.upcoming = []
  begins : upTo <+: doc
  stop : sectionEnd doc iter.nextHeading = (Utf8.encode upTo).length

namespace ChunkIter

/-- No heading is left behind the last section. -/
theorem EndsAt.eq_doc {doc upTo : Text} {headings entered : List Heading} {iter : ChunkIter}
    (h : iter.EndsAt doc headings entered upTo) (hnone : iter.nextHeading = none) : upTo = doc := by
  obtain ⟨rest, rfl⟩ := h.begins
  have hstop := h.stop
  rw [hnone, sectionEnd] at hstop
  simp only [Option.map_none, Option.getD_none, Utf8.encode_append, List.length_append] at hstop
  by_contra hne
  have hpos := Utf8.encode_length_pos (t := rest) fun hnil => hne (by rw [hnil, List.append_nil])
  omega

/-- Up to a place in the section, the headings are those that have been entered. -/
theorem EndsAt.headingsUpTo {doc upTo : Text} {headings entered : List Heading} {iter : ChunkIter}
    (h : iter.EndsAt doc headings entered upTo) {n : Nat} (hn : n < (Utf8.encode upTo).length)
    (hentered : ∀ heading ∈ entered, heading.start ≤ n) : headingsUpTo headings n = entered := by
  rw [h.headings]
  refine headingsUpTo_append hentered fun heading hmem => ?_
  have hstop := h.stop
  cases hnext : iter.nextHeading with
  | none =>
    rw [hnext, h.exhausted hnext] at hmem
    exact absurd hmem nofun
  | some next =>
    rw [hnext] at hmem hstop
    obtain rfl : next = heading := Option.some.inj hmem
    exact Nat.lt_of_lt_of_eq hn hstop.symm

/-- The next section begins behind `before` and ends at the next heading. -/
theorem scanSectionEnd_endsAt {doc before : Text} {headings : List Heading} (entered : List Heading)
    (iter : ChunkIter)
    (hscanned : Scanned doc headings) (hstarted : iter.started = true) (hunfinished : iter.finished = false)
    (hheadings : headings = entered ++ iter.upcoming) (hpath : iter.headingPath = sectionPath entered)
    (hbefore : before <+: doc)
    (hle : ∀ heading ∈ iter.upcoming, (Utf8.encode before).length ≤ heading.start) :
    ∃ ahead, (iter.scanSectionEnd (Utf8.encode doc)).1 = (Utf8.encode (before ++ ahead)).length ∧
      (iter.scanSectionEnd (Utf8.encode doc)).2.EndsAt doc headings entered (before ++ ahead) := by
  unfold scanSectionEnd
  cases hupcoming : iter.upcoming with
  | nil =>
    rw [hupcoming] at hheadings
    obtain ⟨ahead, rfl⟩ := hbefore
    exact ⟨ahead, rfl, hstarted, hunfinished, hheadings, hpath, fun _ => rfl, List.prefix_rfl, rfl⟩
  | cons heading upcoming =>
    rw [hupcoming] at hheadings hle
    have hmem : heading ∈ headings := by simp [hheadings]
    obtain ⟨ahead, hahead, hstart⟩ :=
      (hscanned.boundary heading hmem).from hbefore (hle heading List.mem_cons_self)
    exact ⟨ahead, hstart, hstarted, hunfinished, hheadings, hpath, nofun, hahead, hstart⟩

/-- Entering the next heading. -/
theorem EndsAt.enter {doc upTo : Text} {headings entered : List Heading} {iter : ChunkIter}
    {heading : Heading} (h : iter.EndsAt doc headings entered upTo) (hscanned : Scanned doc headings)
    (hnext : iter.nextHeading = some heading) :
    heading.start = (Utf8.encode upTo).length ∧
    (∀ passed ∈ entered ++ [heading], passed.start ≤ (Utf8.encode upTo).length) ∧
    ∃ ahead,
      (({ iter with nextHeading := none }.enter heading).scanSectionEnd (Utf8.encode doc)).1 =
          (Utf8.encode (upTo ++ ahead)).length ∧
        (({ iter with nextHeading := none }.enter heading).scanSectionEnd (Utf8.encode doc)).2.EndsAt doc
          headings (entered ++ [heading]) (upTo ++ ahead) := by
  have hstart : heading.start = (Utf8.encode upTo).length := by
    rw [← h.stop, hnext]
    rfl
  have hheadings : headings = entered ++ heading :: iter.upcoming := by
    have hall := h.headings
    rwa [hnext] at hall
  have hincreasing := hscanned.increasing
  rw [hheadings, List.pairwise_append] at hincreasing
  obtain ⟨-, hlater, hbefore⟩ := hincreasing
  refine ⟨hstart, fun passed hmem => ?_, scanSectionEnd_endsAt _ _ hscanned h.started h.unfinished ?_ ?_ h.begins ?_⟩
  · rcases List.mem_append.mp hmem with hmem | hmem
    · exact hstart ▸ Nat.le_of_lt (hbefore passed hmem heading List.mem_cons_self)
    · obtain rfl := List.mem_singleton.mp hmem
      exact Nat.le_of_eq hstart
  · rw [hheadings, List.append_assoc]
    rfl
  · rw [sectionPath_concat, ← h.headingPath]
    rfl
  · intro next hmem
    have hlt := List.rel_of_pairwise_cons hlater hmem
    omega

theorem EndsAt.withSection {doc upTo : Text} {headings entered : List Heading} {iter : ChunkIter}
    (h : iter.EndsAt doc headings entered upTo) (s : Option Section) :
    { iter with currentSection := s }.EndsAt doc headings entered upTo :=
  ⟨h.started, h.unfinished, h.headings, h.headingPath, h.exhausted, h.begins, h.stop⟩

end ChunkIter

/-! ## The headings of a section -/

/-- The headings of the section: `passed` is what stands before the last of them, which is entered. -/
structure Section.Under (entered : List Heading) (minChars : Nat) (before passed : Text) (s : Section) :
    Prop where
  short : passed = [] ∨ passed.length < minChars
  boundariesPassed : ∀ boundary ∈ s.boundaries, boundary.start ≤ (Utf8.encode (before ++ passed)).length
  headingsPassed : ∀ heading ∈ entered, heading.start ≤ (Utf8.encode (before ++ passed)).length
  last : s.boundaries.getLast?.map Boundary.headingPath = some (sectionPath entered)

/-- The section has the path of the section that its first visible character is in. -/
structure Section.Labelled (headings entered : List Heading) (minChars : Nat) (before ahead : Text)
    (s : Section) : Prop where
  visible : ¬Blank ahead → s.takeHeadingPath.1 = pathOf headings before ahead
  under : ∃ passed, passed <+: ahead ∧ s.Under entered minChars before passed

section

variable {doc before ahead : Text} {headings entered : List Heading} {iter : ChunkIter} {minChars : Nat}
  {s : Section}

theorem Section.Under.boundaries_ne_nil {passed : Text} (h : s.Under entered minChars before passed) :
    s.boundaries ≠ [] := by
  intro hnil
  have hlast := h.last
  rw [hnil] at hlast
  exact absurd hlast nofun

theorem Section.Under.path_eq (h : s.Under entered minChars before [])
    (hcursor : s.cursor = (Utf8.encode before).length) : s.takeHeadingPath.1 = sectionPath entered := by
  refine takeHeadingPath_last h.last fun boundary hmem => ?_
  rw [hcursor, ← List.append_nil before]
  exact h.boundariesPassed boundary hmem

/-- With no heading ahead, the path is the one of the section the cursor is in. -/
theorem Section.Under.pathOf_eq (h : s.Under entered minChars before [])
    (hends : iter.EndsAt doc headings entered (before ++ ahead))
    (hcursor : s.cursor = (Utf8.encode before).length) {text : Text} (htext : text ≠ [])
    (hle : text <+: ahead) : s.takeHeadingPath.1 = pathOf headings before text := by
  have hlow := Utf8.encode_length_mono (List.prefix_append before (leading text))
  have hhigh := Utf8.encode_length_mono ((List.prefix_append_right_inj before).mpr hle)
  have hlt := leading_lt htext before
  rw [h.path_eq hcursor, pathOf, hends.headingsUpTo (by omega)]
  intro heading hmem
  have hentered := h.headingsPassed heading hmem
  rw [List.append_nil] at hentered
  omega

theorem Section.Under.labelled (h : s.Under entered minChars before [])
    (hends : iter.EndsAt doc headings entered (before ++ ahead))
    (hcursor : s.cursor = (Utf8.encode before).length) : s.Labelled headings entered minChars before ahead where
  visible hvisible :=
    h.pathOf_eq hends hcursor (fun hnil => hvisible (hnil ▸ blank_nil)) List.prefix_rfl
  under := ⟨[], List.nil_prefix, h⟩

/-- The path of the chunk that is cut. -/
theorem Section.Labelled.path (h : s.Labelled headings entered minChars before ahead)
    (hends : iter.EndsAt doc headings entered (before ++ ahead))
    (hcursor : s.cursor = (Utf8.encode before).length) {text rest : Text} (htext : text ≠ [])
    (hahead : ahead = text ++ rest) :
    0 < minChars ∧ Blank text ∨ s.takeHeadingPath.1 = pathOf headings before text := by
  by_cases hblank : Blank text
  · rcases Nat.eq_zero_or_pos minChars with hzero | hpos
    · obtain ⟨passed, -, hunder⟩ := h.under
      obtain rfl := hunder.short.resolve_right (by omega)
      exact .inr (hunder.pathOf_eq hends hcursor htext (hahead ▸ List.prefix_append _ _))
    · exact .inl ⟨hpos, hblank⟩
  · right
    rw [h.visible fun hall => hblank fun c hc => hall c (hahead ▸ List.mem_append_left rest hc), pathOf,
      pathOf, hahead, leading_append hblank]

/-- What is cut takes the headings that were passed with it. -/
theorem Section.Labelled.behind (h : s.Labelled headings entered minChars before ahead)
    (hends : iter.EndsAt doc headings entered (before ++ ahead))
    (hcursor : s.cursor = (Utf8.encode before).length) {text rest : Text} (hahead : ahead = text ++ rest)
    (hlong : rest = [] ∨ minChars ≤ text.length) :
    (s.behind text).Labelled headings entered minChars (before ++ text) rest := by
  obtain ⟨passed, hpassed, hunder⟩ := h.under
  have hwithin : passed <+: text := by
    rw [hahead] at hpassed
    rcases hlong with rfl | hlong
    · rwa [List.append_nil] at hpassed
    · refine List.prefix_of_prefix_length_le hpassed (List.prefix_append _ _) ?_
      rcases hunder.short with rfl | hshort
      · exact Nat.zero_le _
      · omega
  have hle := Utf8.encode_length_mono ((List.prefix_append_right_inj before).mpr hwithin)
  have hunder' : (s.behind text).Under entered minChars (before ++ text) [] := by
    refine ⟨.inl rfl, fun boundary hmem => ?_, fun heading hmem => ?_, ?_⟩
    · rw [List.append_nil]
      exact (hunder.boundariesPassed boundary (List.mem_of_mem_drop hmem)).trans hle
    · rw [List.append_nil]
      exact (hunder.headingsPassed heading hmem).trans hle
    · -- the last boundary is never dropped
      have hpos := List.length_pos_iff.mpr hunder.boundaries_ne_nil
      have hpassed := (List.takeWhile_prefix (fun boundary : Boundary => decide (boundary.start ≤ s.cursor))
        (l := s.boundaries.drop 1)).length_le
      rw [List.length_drop] at hpassed
      rw [Section.behind, Section.takeHeadingPath]
      dsimp only
      rw [List.getLast?_drop, if_neg (by omega)]
      exact hunder.last
  rw [hahead, ← List.append_assoc] at hends
  refine hunder'.labelled hends ?_
  rw [Section.behind, hcursor, Utf8.encode_append, List.length_append]

theorem Section.Labelled.withLookahead (h : s.Labelled headings entered minChars before ahead)
    (lookahead : Bytes) : { s with lookahead := lookahead }.Labelled headings entered minChars before ahead :=
  ⟨h.visible, h.under.imp fun _ hunder =>
    ⟨hunder.1, hunder.2.short, hunder.2.boundariesPassed, hunder.2.headingsPassed, hunder.2.last⟩⟩

/-- A short section is extended. -/
theorem Section.Labelled.extend {heading : Heading} {more : Text} {stop : Nat}
    (h : s.Labelled headings entered minChars before ahead) (hne : ahead ≠ [])
    (hcursor : s.cursor = (Utf8.encode before).length)
    (hshort : ahead.length < minChars) (hstart : heading.start = (Utf8.encode (before ++ ahead)).length)
    (hpassed : ∀ passed ∈ entered ++ [heading], passed.start ≤ (Utf8.encode (before ++ ahead)).length)
    (hends : iter.EndsAt doc headings (entered ++ [heading]) (before ++ (ahead ++ more))) :
    (s.extend (Text.trim ahead).isEmpty heading.start stop (sectionPath (entered ++ [heading]))).Labelled
      headings (entered ++ [heading]) minChars before (ahead ++ more) := by
  obtain ⟨passed, hprefix, hunder⟩ := h.under
  have hle := Utf8.encode_length_mono ((List.prefix_append_right_inj before).mpr hprefix)
  have hlow := Utf8.encode_length_mono (List.prefix_append before ahead)
  by_cases hblank : Blank ahead
  · rw [trim_isEmpty.mpr hblank]
    refine ⟨fun hvisible => ?_, ahead, List.prefix_append _ _, .inr hshort, fun boundary hmem => ?_, hpassed, rfl⟩
    · have hmore : ¬Blank more := fun hall => hvisible (hblank.append hall)
      have hfirst := leading_lt (fun hnil : more = [] => hmore (hnil ▸ blank_nil)) (before ++ ahead)
      rw [List.append_assoc before ahead more] at hfirst
      rw [pathOf, leading_blank_append hblank hmore, ← List.append_assoc, hends.headingsUpTo hfirst]
      · exact takeHeadingPath_last rfl fun boundary hmem => by
          obtain rfl := List.mem_singleton.mp hmem
          exact Nat.le_refl _
      · exact fun heading hmem =>
          (hpassed heading hmem).trans (Utf8.encode_length_mono (List.prefix_append _ _))
    · obtain rfl := List.mem_singleton.mp hmem
      exact hcursor ▸ hlow
  · rw [Bool.eq_false_iff.mpr fun hempty => hblank (trim_isEmpty.mp hempty)]
    refine ⟨fun _ => ?_, ahead, List.prefix_append _ _, .inr hshort, fun boundary hmem => ?_, hpassed, ?_⟩
    · have hahead : s.cursor < heading.start := by
        have hpos := Utf8.encode_length_pos hne
        rw [hcursor, hstart, Utf8.encode_append, List.length_append]
        omega
      rw [pathOf, leading_append hblank]
      exact (takeHeadingPath_append hunder.boundaries_ne_nil hahead stop).trans (h.visible hblank)
    · rcases List.mem_append.mp hmem with hmem | hmem
      · exact (hunder.boundariesPassed boundary hmem).trans hle
      · obtain rfl := List.mem_singleton.mp hmem
        exact Nat.le_of_eq hstart
    · rw [Section.extend, if_neg Bool.noConfusion, List.getLast?_concat]
      rfl

end

/-! ## The next chunk -/

namespace ChunkIter

/-- The iterator is behind `before` in a section with `ahead` left to chunk. -/
structure Within (doc : Text) (headings : List Heading) (minChars : Nat) (before ahead : Text)
    (entered : List Heading) (s : Section) (iter : ChunkIter) : Prop where
  endsAt : iter.EndsAt doc headings entered (before ++ ahead)
  current : iter.currentSection = some s
  spans : s.Spans before ahead
  labelled : s.Labelled headings entered minChars before ahead

theorem within_new {doc before ahead : Text} {headings entered : List Heading} {iter : ChunkIter}
    (minChars : Nat) {start stop : Nat} (h : iter.EndsAt doc headings entered (before ++ ahead))
    (hstart : start = (Utf8.encode before).length) (hstop : stop = (Utf8.encode (before ++ ahead)).length)
    (hpassed : ∀ heading ∈ entered, heading.start ≤ (Utf8.encode before).length) :
    { iter with currentSection := some (.new start stop iter.headingPath) }.Within doc headings minChars
      before ahead entered (.new start stop iter.headingPath) := by
  refine ⟨h.withSection _, rfl, ⟨hstart, hstop, List.nil_prefix⟩, ?_⟩
  have hunder : (Section.new start stop iter.headingPath).Under entered minChars before [] := by
    rw [h.headingPath]
    refine ⟨.inl rfl, fun boundary hmem => ?_, ?_, rfl⟩
    · obtain rfl := List.mem_singleton.mp hmem
      rw [List.append_nil]
      exact Nat.le_of_eq hstart
    · rwa [List.append_nil]
  exact hunder.labelled h hstart

/-- What `prepareSection` finds behind `before`: a section with something in it, or the end. -/
def Prepared (doc : Text) (headings : List Heading) (minChars : Nat) (before : Text)
    (prepared : Bool × ChunkIter) : Prop :=
  prepared.1 = true ∧ (∃ ahead entered s, ahead ≠ [] ∧
      prepared.2.Within doc headings minChars before ahead entered s) ∨
    prepared.1 = false ∧ before = doc ∧ prepared.2.finished = true

section

variable {doc before : Text} {headings : List Heading} {iter : ChunkIter}

theorem EndsAt.prepareSection {entered : List Heading} (minChars : Nat)
    (h : iter.EndsAt doc headings entered before) (hscanned : Scanned doc headings) :
    Prepared doc headings minChars before (iter.prepareSection (Utf8.encode doc)) := by
  -- the sections that are skipped are empty, so the iterator stays behind `before`
  induction hleft : iter.sectionsLeft using Nat.strong_induction_on generalizing iter entered with
  | _ n ih =>
    rw [ChunkIter.prepareSection, dif_pos h.started]
    split
    · next hnext => exact .inr ⟨rfl, h.eq_doc hnext, rfl⟩
    · next heading hnext =>
      obtain ⟨hstart, hpassed, ahead, hstop, hends⟩ := h.enter hscanned hnext
      dsimp only
      split
      · next hlt =>
        refine .inl ⟨rfl, ahead, _, _, ?_, within_new minChars hends hstart hstop hpassed⟩
        rintro rfl
        rw [hstop, hstart, List.append_nil] at hlt
        exact absurd hlt (Nat.lt_irrefl _)
      · next hge =>
        have hnil : ahead = [] := by
          by_contra hne
          have hpos := Utf8.encode_length_pos hne
          rw [hstop, hstart, Utf8.encode_append, List.length_append] at hge
          omega
        rw [hnil, List.append_nil] at hends
        exact ih _ (hleft ▸ sectionsLeft_enter_scan _ hnext) hends rfl

/-- The iterator has not read anything. -/
structure Fresh (headings : List Heading) (iter : ChunkIter) : Prop where
  currentSection : iter.currentSection = none
  started : iter.started = false
  unfinished : iter.finished = false
  upcoming : iter.upcoming = headings
  headingPath : iter.headingPath = []

theorem Fresh.prepareSection (minChars : Nat) (h : iter.Fresh headings) (hscanned : Scanned doc headings) :
    Prepared doc headings minChars [] (iter.prepareSection (Utf8.encode doc)) := by
  obtain ⟨ahead, hstop, hends⟩ := scanSectionEnd_endsAt [] { iter with started := true }
    hscanned rfl h.unfinished h.upcoming.symm h.headingPath (List.nil_prefix (l := doc))
    fun _ _ => Nat.zero_le _
  rw [ChunkIter.prepareSection, dif_neg (by rw [h.started]; decide)]
  dsimp only
  split
  · next hlt =>
    refine .inl ⟨rfl, ahead, _, _, ?_, within_new minChars hends rfl hstop fun _ hmem => by cases hmem⟩
    rintro rfl
    rw [hstop] at hlt
    exact absurd hlt (Nat.lt_irrefl _)
  · next hge =>
    have hnil : ahead = [] := by
      by_contra hne
      rw [hstop, List.nil_append] at hge
      exact hge (Utf8.encode_length_pos hne)
    rw [hnil] at hends
    exact hends.prepareSection minChars hscanned

theorem Within.absorbed {minChars : Nat} {ahead : Text} {entered : List Heading} {s : Section}
    {heading : Heading} (h : iter.Within doc headings minChars before ahead entered s)
    (hscanned : Scanned doc headings) (hne : ahead ≠ []) (hnext : iter.nextHeading = some heading)
    (hshort : ahead.length < minChars) : ∃ next s',
      (iter.absorbed (Utf8.encode doc) heading s (Text.trim ahead).isEmpty).Within doc headings minChars
        before (ahead ++ next) (entered ++ [heading]) s' := by
  obtain ⟨hstart, hpassed, next, hstop, hends⟩ := h.endsAt.enter hscanned hnext
  rw [List.append_assoc] at hstop hends
  refine ⟨next, _, hends.withSection _, rfl, h.spans.extend hstop _ _ _, ?_⟩
  rw [hends.headingPath]
  exact h.labelled.extend hne h.spans.cursor hshort hstart hpassed hends

theorem Within.withLookahead {minChars : Nat} {ahead : Text} {entered : List Heading} {s : Section}
    (h : iter.Within doc headings minChars before ahead entered s) {lookahead : Bytes}
    (hspans : { s with lookahead := lookahead }.Spans before ahead) :
    { iter with currentSection := some { s with lookahead := lookahead } }.Within doc headings minChars
      before ahead entered { s with lookahead := lookahead } :=
  ⟨h.endsAt.withSection _, rfl, hspans, h.labelled.withLookahead lookahead⟩

/-- A section that absorbs others still begins where it began, and is short only if none is left. -/
theorem Within.absorbShortSpan {config : Config} {ahead : Text} {entered : List Heading} {s : Section}
    (h : iter.Within doc headings config.minChars before ahead entered s) (hsound : config.Sound)
    (hscanned : Scanned doc headings) (hne : ahead ≠ []) : ∃ more entered' s' iter',
      iter.absorbShortSpan config (Utf8.encode doc) = .ok iter' ∧
      iter'.Within doc headings config.minChars before (ahead ++ more) entered' s' ∧
      (before ++ (ahead ++ more) = doc ∨ config.minChars ≤ (ahead ++ more).length) := by
  induction hleft : iter.sectionsLeft using Nat.strong_induction_on generalizing iter ahead entered s with
  | _ n ih =>
    rcases Option.eq_none_or_eq_some iter.nextHeading with hnext | ⟨heading, hnext⟩
    · refine ⟨[], entered, s, iter, absorbShortSpan_none hnext, ?_⟩
      rw [List.append_nil]
      exact ⟨h, .inl (h.endsAt.eq_doc hnext)⟩
    · obtain ⟨after, hdoc⟩ := h.endsAt.begins
      have hquarter := hsound.quarter
      have hfits := hsound.fits
      obtain ⟨lookahead, hshort, hspans⟩ :=
        shortSpan_spans h.spans after config.minChars (by omega)
      rw [hdoc] at hshort
      rw [absorbShortSpan_some hnext, h.current]
      dsimp only
      rw [hshort]
      have hwithin := h.withLookahead hspans
      by_cases hlength : ahead.length < config.minChars
      · rw [if_pos hlength]
        obtain ⟨next, s'', habsorbed⟩ := hwithin.absorbed hscanned hne hnext hlength
        obtain ⟨more, entered', s', iter', hiter', hwithin', hlong⟩ :=
          ih _ (hleft ▸ sectionsLeft_absorbed (Utf8.encode doc) _ _ hnext) habsorbed
            (List.append_ne_nil_of_left_ne_nil hne next) rfl
        rw [List.append_assoc] at hwithin' hlong
        exact ⟨next ++ more, entered', s', iter', hiter', hwithin', hlong⟩
      · rw [if_neg hlength]
        refine ⟨[], entered, { s with lookahead := lookahead }, _, rfl, ?_⟩
        rw [List.append_nil]
        exact ⟨hwithin, .inr (Nat.le_of_not_lt hlength)⟩

end

/-- Everything up to the end of `before` has been cut into chunks. -/
inductive At (doc : Text) (headings : List Heading) (minChars : Nat) : Text → ChunkIter → Prop
  | fresh {iter} : iter.Fresh headings → At doc headings minChars [] iter
  | within {before ahead entered s iter} : iter.Within doc headings minChars before ahead entered s →
      At doc headings minChars before iter
  | ended {iter} : iter.finished = true → At doc headings minChars doc iter

theorem start_at (doc : Text) (headings : List Heading) (minChars : Nat) :
    (ChunkIter.start headings).At doc headings minChars [] :=
  .fresh ⟨rfl, rfl, rfl, rfl, rfl⟩

theorem At.begins {doc before : Text} {headings : List Heading} {minChars : Nat} {iter : ChunkIter}
    (h : iter.At doc headings minChars before) : before <+: doc := by
  cases h with
  | fresh => exact List.nil_prefix
  | within hwithin => exact (List.prefix_append _ _).trans hwithin.endsAt.begins
  | ended => exact List.prefix_rfl

end ChunkIter

/-- The chunk lies behind `before`. -/
structure Slice (base : Nat) (before : Text) (chunk : Chunk) : Prop where
  byteStart : chunk.byteStart = base + (Utf8.encode before).length
  byteEnd : chunk.byteEnd = base + (Utf8.encode (before ++ chunk.text)).length
  nonempty : chunk.text ≠ []

theorem Slice.merge {base : Nat} {emitted : Text} {held next : Chunk} (h : Slice base emitted held)
    (hnext : Slice base (emitted ++ held.text) next) : Slice base emitted (merge held next) := by
  refine ⟨h.byteStart, ?_, List.append_ne_nil_of_left_ne_nil h.nonempty _⟩
  rw [show (Chunker.merge held next).byteEnd = next.byteEnd from rfl, hnext.byteEnd,
    List.append_assoc]
  rfl

/-- A chunk that was cut behind `before`. -/
structure RawChunk (config : Config) (doc : Text) (headings : List Heading) (before : Text) (chunk : Chunk) :
    Prop extends Slice config.sourceBaseOffset before chunk where
  fits : chunk.byteEnd < usizeLimit
  atMost : chunk.text.length ≤ config.maxChars
  atLeast : before ++ chunk.text = doc ∨ config.minChars ≤ chunk.text.length
  lineEnd : 2 ≤ config.maxChars →
    (∃ heading ∈ headings, heading.start = (Utf8.encode (before ++ chunk.text)).length) ∨
      ∀ after, doc = before ++ chunk.text ++ after → ¬PartsLineEnd chunk.text after
  path : 0 < config.minChars ∧ Blank chunk.text ∨ chunk.headingPath = pathOf headings before chunk.text

/-- What `nextChunk` finds behind `before`: the end, a chunk, or one that overflows. -/
inductive Cut (config : Config) (doc : Text) (headings : List Heading) (before : Text) :
    Except String (Option Chunk × ChunkIter) → Prop
  | ended {iter : ChunkIter} : before = doc → Cut config doc headings before (.ok (none, iter))
  | chunk {chunk : Chunk} {iter : ChunkIter} : RawChunk config doc headings before chunk →
      iter.At doc headings config.minChars (before ++ chunk.text) →
      Cut config doc headings before (.ok (some chunk, iter))
  | overflow : usizeLimit ≤ config.sourceBaseOffset + (Utf8.encode doc).length →
      Cut config doc headings before (.error overflowed)

namespace ChunkIter

section

variable {doc before : Text} {headings : List Heading} {iter : ChunkIter} {config : Config}

/-- Where a piece ends with its section, a heading starts or the document ends. -/
theorem EndsAt.lineEnd {entered : List Heading} {text rest : Text}
    (h : iter.EndsAt doc headings entered (before ++ (text ++ rest)))
    (hpiece : Piece config.maxChars config.minChars text rest) (htwo : 2 ≤ config.maxChars) :
    (∃ heading ∈ headings, heading.start = (Utf8.encode (before ++ text)).length) ∨
      ∀ after, doc = before ++ text ++ after → ¬PartsLineEnd text after := by
  rcases rest with _ | ⟨c, rest⟩
  · rw [List.append_nil] at h
    cases hnext : iter.nextHeading with
    | none =>
      refine .inr fun after hdoc hparts => ?_
      rw [h.eq_doc hnext] at hdoc
      obtain rfl := List.self_eq_append_right.mp hdoc
      exact absurd hparts.2 nofun
    | some heading =>
      refine .inl ⟨heading, by simp [h.headings, hnext], ?_⟩
      rw [← h.stop, hnext]
      rfl
  · refine .inr fun after hdoc hparts => hpiece.lineEnd htwo ⟨hparts.1, ?_⟩
    obtain ⟨more, hmore⟩ := h.begins
    rw [hdoc, ← List.append_assoc before, List.append_assoc (before ++ text)] at hmore
    rw [← List.append_cancel_left hmore] at hparts
    exact hparts.2

theorem Within.cutSection {ahead : Text} {entered : List Heading} {s : Section}
    (h : iter.Within doc headings config.minChars before ahead entered s) (hsound : config.Sound)
    (hscanned : Scanned doc headings) (hne : ahead ≠ []) :
    Cut config doc headings before (iter.cutSection config (Utf8.encode doc)) := by
  obtain ⟨more, entered', s', iter', habsorb, hwithin, hlong⟩ := h.absorbShortSpan hsound hscanned hne
  obtain ⟨after, hdoc⟩ := hwithin.endsAt.begins
  obtain ⟨lookahead, hfill, hspans, hwindow⟩ := fill_spans hwithin.spans after config.maxReadBytes
  rw [hdoc] at hfill
  have hfilled := hwithin.withLookahead hspans
  obtain ⟨text, rest, hahead, hpiece, hbehind, hcut⟩ :=
    cut_spans hspans hsound (List.append_ne_nil_of_left_ne_nil hne more) hwindow
  have hends := hfilled.endsAt
  have hendsText := hwithin.endsAt
  rw [hahead] at hendsText
  rw [ChunkIter.cutSection, habsorb]
  dsimp only [bind, Except.bind]
  rw [hwithin.current]
  dsimp only
  rw [hfill]
  dsimp only
  rw [hcut]
  split_ifs with hfits
  · refine .chunk ⟨⟨rfl, rfl, hpiece.nonempty⟩, hfits, hpiece.atMost, ?_, hendsText.lineEnd hpiece,
      hfilled.labelled.path hends hspans.cursor hpiece.nonempty hahead⟩ (.within ⟨?_, rfl, hbehind,
        hfilled.labelled.behind hends hspans.cursor hahead hpiece.atLeast⟩)
    · rcases hpiece.atLeast with rfl | hmany
      · rw [List.append_nil] at hahead
        rwa [hahead] at hlong
      · exact .inr hmany
    · have hboth := hwithin.endsAt.withSection (some (Section.behind { s' with lookahead := lookahead } text))
      rwa [hahead, ← List.append_assoc] at hboth
  · have hle := Utf8.encode_length_mono hendsText.begins
    rw [← List.append_assoc, Utf8.encode_append, List.length_append] at hle
    exact .overflow (by omega)

theorem At.nextChunk (h : iter.At doc headings config.minChars before) (hsound : config.Sound)
    (hscanned : Scanned doc headings) :
    Cut config doc headings before (iter.nextChunk config (Utf8.encode doc)) := by
  have hprepared : ∀ {prepared : Bool × ChunkIter},
      Prepared doc headings config.minChars before prepared →
        Cut config doc headings before
          (if prepared.1 = false then .ok (none, prepared.2)
          else prepared.2.cutSection config (Utf8.encode doc)) := by
    rintro ⟨found, iter'⟩ (⟨rfl, ahead, entered, s, hne, hwithin⟩ | ⟨rfl, rfl, -⟩)
    · rw [if_neg Bool.noConfusion]
      exact hwithin.cutSection hsound hscanned hne
    · rw [if_pos rfl]
      exact .ended rfl
  cases h with
  | fresh hfresh =>
    rw [ChunkIter.nextChunk, if_neg (by rw [hfresh.unfinished]; decide), sectionDone,
      hfresh.currentSection]
    exact hprepared (hfresh.prepareSection _ hscanned)
  | within hwithin =>
    next ahead entered s =>
    rw [ChunkIter.nextChunk, if_neg (by rw [hwithin.endsAt.unfinished]; decide), sectionDone,
      hwithin.current]
    by_cases hdone : ahead = []
    · have hends := hwithin.endsAt
      rw [hdone, List.append_nil] at hends
      have hstop : s.cursor = s.stop := by
        rw [hwithin.spans.cursor, hwithin.spans.stop, hdone, List.append_nil]
      rw [Option.all_some, decide_eq_true hstop]
      exact hprepared (hends.prepareSection _ hscanned)
    · have hstop : s.cursor ≠ s.stop := by
        have hpos := Utf8.encode_length_pos hdone
        rw [hwithin.spans.cursor, hwithin.spans.stop, Utf8.encode_append, List.length_append]
        omega
      rw [Option.all_some, decide_eq_false hstop]
      exact hwithin.cutSection hsound hscanned hdone
  | ended hfinished =>
    rw [ChunkIter.nextChunk, if_pos hfinished]
    exact .ended rfl

end

end ChunkIter

/-! ## All chunks -/

/-- The chunks that are cut behind `before`, to the end of the document or to the one that overflows. -/
inductive RawChunks (config : Config) (doc : Text) (headings : List Heading) :
    Text → List Chunk → Option String → Prop
  | ended : RawChunks config doc headings doc [] none
  | overflow {before : Text} : usizeLimit ≤ config.sourceBaseOffset + (Utf8.encode doc).length →
      before <+: doc → RawChunks config doc headings before [] (some overflowed)
  | chunk {before : Text} {chunk : Chunk} {chunks : List Chunk} {error : Option String} :
      RawChunk config doc headings before chunk →
      RawChunks config doc headings (before ++ chunk.text) chunks error →
      RawChunks config doc headings before (chunk :: chunks) error

theorem RawChunks.overflows {config : Config} {doc before : Text} {headings : List Heading}
    {chunks : List Chunk} {error : String} (h : RawChunks config doc headings before chunks (some error)) :
    error = overflowed ∧ usizeLimit ≤ config.sourceBaseOffset + (Utf8.encode doc).length := by
  generalize herror : some error = failure at h
  induction h with
  | ended => exact absurd herror nofun
  | overflow hlimit => exact ⟨Option.some.inj herror, hlimit⟩
  | chunk _ _ ih => exact ih herror

/-- Where the chunks reach the end, its offset fits. -/
theorem RawChunks.fits {config : Config} {doc before : Text} {headings : List Heading}
    {chunks : List Chunk} (h : RawChunks config doc headings before chunks none)
    (hfits : config.sourceBaseOffset + (Utf8.encode before).length < usizeLimit) :
    config.sourceBaseOffset + (Utf8.encode doc).length < usizeLimit := by
  generalize herror : none = error at h
  induction h with
  | overflow => exact absurd herror nofun
  | ended => exact hfits
  | chunk hchunk _ ih => exact ih (hchunk.byteEnd ▸ hchunk.fits) herror

open ChunkIter in
theorem cuts_rawChunks {config : Config} {doc before : Text} {headings : List Heading} {iter : ChunkIter}
    (h : iter.At doc headings config.minChars before) (hsound : config.Sound)
    (hscanned : Scanned doc headings) : ∃ chunks error,
      Cuts config (Utf8.encode doc) iter chunks error ∧ RawChunks config doc headings before chunks error ∧
        chunks.length + before.length ≤ doc.length := by
  -- each chunk has at least one character
  induction hleft : doc.length - before.length using Nat.strong_induction_on generalizing iter before with
  | _ n ih =>
    have hlength := h.begins.length_le
    have hcut := h.nextChunk hsound hscanned
    generalize hresult : iter.nextChunk config (Utf8.encode doc) = result at hcut
    cases hcut with
    | ended hdoc =>
      subst hdoc
      exact ⟨[], none, .ended hresult, .ended, by simp⟩
    | overflow hlimit => exact ⟨[], _, .failed hresult, .overflow hlimit h.begins, by simpa using hlength⟩
    | chunk hchunk hat =>
      next chunk iter' =>
      have hpos := List.length_pos_iff.mpr hchunk.nonempty
      have hbound := hat.begins.length_le
      rw [List.length_append] at hbound
      obtain ⟨chunks, error, hcuts, hraw, hle⟩ :=
        ih _ (by rw [← hleft, List.length_append]; omega) hat rfl
      rw [List.length_append] at hle
      refine ⟨chunk :: chunks, error, .chunk hresult hcuts, .chunk hchunk hraw, ?_⟩
      rw [List.length_cons]
      omega

/-- The iterator ends, and what it gives is merged from the chunks that are cut. -/
theorem stream_runs {doc : Text} {headings : List Heading} (hscanned : Scanned doc headings)
    {maxChars : Nat} (base minChars : Nat) (hpositive : 1 ≤ maxChars) (hfits : maxChars * 4 < usizeLimit) :
    ∃ chunks error,
      ChunkIter.Cuts (.of maxChars base minChars) (Utf8.encode doc) (.start headings) chunks error ∧
      RawChunks (.of maxChars base minChars) doc headings [] chunks error ∧
      ∀ fuel, doc.length + 3 ≤ fuel →
        (ChunkIter.start headings).items (.of maxChars base minChars) (Utf8.encode doc) fuel =
            some (given (.of maxChars base minChars) none chunks error) ∧
          (ChunkIter.start headings).collect (.of maxChars base minChars) (Utf8.encode doc) fuel =
            some (ChunkIter.gather (given (.of maxChars base minChars) none chunks error)) := by
  obtain ⟨chunks, error, hcuts, hraw, hcount⟩ := cuts_rawChunks (ChunkIter.start_at doc headings _)
    (Config.of_sound base minChars hpositive hfits) hscanned
  refine ⟨chunks, error, hcuts, hraw, fun fuel hfuel => ?_⟩
  have herror : error.toList.length ≤ 1 := by cases error <;> simp
  have henough : chunks.length + error.toList.length + (ChunkIter.start headings).held.toList.length + 2 ≤ fuel := by
    simp only [List.length_nil, ChunkIter.start, Option.toList_none] at hcount ⊢
    omega
  exact ⟨hcuts.items henough, hcuts.collect henough⟩

/-! ## Two sections -/

def notesText : Text := "# A\r\nab\r\n## B\r\ncd\r\n".toList

/-- The heading `B` below `A`. -/
def notesHeadings : List Heading := [⟨0, 1, ['A']⟩, ⟨9, 2, ['B']⟩]

theorem scanned_notes : Scanned notesText notesHeadings := by
  refine ⟨by simp [notesHeadings], fun heading hmem => ?_⟩
  rcases List.mem_cons.mp hmem with rfl | hmem
  · exact ⟨[], notesText, rfl, rfl⟩
  · obtain rfl := List.mem_singleton.mp hmem
    exact ⟨"# A\r\nab\r\n".toList, "## B\r\ncd\r\n".toList, by decide, by decide⟩

/-- Its chunks of two to eight characters; the first section is too long for one, and its rest too short. -/
def notesChunks : List Chunk :=
  [⟨"# A\r\nab".toList, 7, 14, [['A']]⟩, ⟨"\r\n## B\r\n".toList, 14, 22, [['A'], ['B']]⟩,
    ⟨"cd\r\n".toList, 22, 26, [['A'], ['B']]⟩]

theorem notes_items : ∃ config, streamChunks notesHeadings 8 7 = .ok (config, .start notesHeadings) ∧
    (ChunkIter.start notesHeadings).items (config.withMinChars 2) (Utf8.encode notesText) 22 =
      some (notesChunks.map .ok) :=
  ⟨_, rfl, by decide +kernel⟩

end Chunker
