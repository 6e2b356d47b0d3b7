-- SUMMARY: The streaming chunker on any bytes: it ends, it reads all that is UTF-8, and what it gives behind an error.
import NotedThat.Indexer.Sections
import NotedThat.Indexer.Merging

/-!
# Any bytes

Whatever the bytes are, the chunks that are cut are UTF-8, and each begins where the one before it
ended; so where they reach the end, all of it was UTF-8. Else cutting fails once. What is held back
then is given by the call behind the error.
-/

namespace Chunker

/-- What the chunker needs of the headings of any bytes. -/
structure Ordered (source : Bytes) (headings : List Heading) : Prop where
  increasing : headings.Pairwise fun first second => first.start < second.start
  inside : ∀ heading ∈ headings, heading.start ≤ source.length

/-! ## The window -/

/-- The lookahead is what is behind the cursor. -/
structure Section.Shows (source : Bytes) (s : Section) : Prop where
  inside : s.stop ≤ source.length
  buffered : s.cursor + s.lookahead.length ≤ s.stop
  lookahead : s.lookahead <+: source.drop s.cursor

section

variable {source : Bytes} {s : Section}

theorem fill_shows (h : s.Shows source) (maxBytes : Nat) : ∃ lookahead,
    fill source s maxBytes = .ok { s with lookahead := lookahead } ∧
      { s with lookahead := lookahead }.Shows source ∧
      (0 < maxBytes → s.cursor < s.stop → lookahead ≠ []) := by
  have hbuffered := h.buffered
  have hinside := h.inside
  unfold fill
  dsimp only
  split
  · next hrequest =>
    rw [readExact, if_pos (by omega)]
    have hmore : ((source.drop (s.cursor + s.lookahead.length)).take
        (min (s.stop - (s.cursor + s.lookahead.length)) (maxBytes - s.lookahead.length))).length =
        min (s.stop - (s.cursor + s.lookahead.length)) (maxBytes - s.lookahead.length) := by
      rw [List.length_take, List.length_drop]
      omega
    refine ⟨_, rfl, ⟨hinside, ?_, ?_⟩, fun _ _ hnil => ?_⟩
    · dsimp only
      rw [List.length_append, hmore]
      omega
    · obtain ⟨rest, hrest⟩ := h.lookahead
      dsimp only
      rw [← hrest, ← List.drop_drop, ← hrest, List.drop_left]
      exact (List.prefix_append_right_inj _).mpr (List.take_prefix _ _)
    · have hlength := congrArg List.length hnil
      rw [List.length_append, hmore, List.length_nil] at hlength
      omega
  · next hrequest =>
    refine ⟨s.lookahead, rfl, h, fun hmax hcursor hnil => hrequest ?_⟩
    rw [hnil, List.length_nil]
    omega

theorem shortSpan_shows (h : s.Shows source) (minChars : Nat) : ∃ blank lookahead,
    shortSpan source s minChars = .ok (blank, { s with lookahead := lookahead }) ∧
      { s with lookahead := lookahead }.Shows source := by
  unfold shortSpan
  split
  · exact ⟨none, s.lookahead, rfl, h⟩
  · obtain ⟨lookahead, hfill, hshows, -⟩ := fill_shows h (s.stop - s.cursor)
    rw [hfill]
    dsimp only [bind, Except.bind]
    split
    · split
      · exact ⟨_, lookahead, rfl, hshows⟩
      · exact ⟨none, lookahead, rfl, hshows⟩
    · exact ⟨none, lookahead, rfl, hshows⟩

/-- The front that is UTF-8 is not empty. -/
theorem validFront_shows {front : Text} (h : s.validFront = .ok front) (hne : s.lookahead ≠ []) :
    front ≠ [] ∧ Utf8.encode front <+: s.lookahead := by
  unfold Section.validFront at h
  split at h
  · next text hvalid =>
    obtain rfl := Except.ok.inj h
    have hdecode : Utf8.decode? s.lookahead = some text := by
      unfold Utf8.fromUtf8 at hvalid
      split at hvalid
      · next hsome =>
        obtain rfl := Utf8.Checked.valid.inj hvalid
        exact hsome
      · exact absurd hvalid nofun
    have hlookahead := Utf8.decode?_eq_some.mp hdecode
    refine ⟨?_, hlookahead ▸ List.prefix_rfl⟩
    rintro rfl
    exact hne hlookahead
  · next upTo truncated hinvalid =>
    split at h
    · exact absurd h nofun
    · next hsome =>
      cases hdecode : Utf8.decode? (s.lookahead.take upTo) with
      | none => rw [hdecode] at h; exact absurd h nofun
      | some text =>
        rw [hdecode] at h
        obtain rfl := Except.ok.inj h
        have htake := Utf8.decode?_eq_some.mp hdecode
        refine ⟨?_, htake ▸ List.take_prefix _ _⟩
        rintro rfl
        have hlength := congrArg List.length htake
        have hpos := List.length_pos_iff.mpr hne
        rw [List.length_take, Utf8.encode_nil, List.length_nil] at hlength
        exact hsome (.inr (by omega))

/-- What is cut is UTF-8, not empty, and what is behind the cursor. -/
theorem cut_shows {config : Config} (h : s.Shows source) (hsound : config.Sound) (hne : s.lookahead ≠ [])
    {chunk : Chunk} {s' : Section} (hcut : s.cut config = .ok (chunk, s')) :
    chunk.text ≠ [] ∧ Utf8.encode chunk.text <+: source.drop s.cursor ∧
      s'.cursor = s.cursor + (Utf8.encode chunk.text).length ∧ s'.stop = s.stop ∧ s'.Shows source := by
  unfold Section.cut at hcut
  cases hvalid : s.validFront with
  | error error => rw [hvalid] at hcut; exact absurd hcut nofun
  | ok front =>
    rw [hvalid] at hcut
    dsimp only [bind, Except.bind] at hcut
    obtain ⟨hfrontne, hfront⟩ := validFront_shows hvalid hne
    have hquarter := hsound.quarter
    obtain ⟨text, rest, rfl, htext, hsplit⟩ := splitByte_nonempty hfrontne hsound.positive
      (show config.minChars ≤ config.maxChars by omega) (s.stop - s.cursor = (Utf8.encode front).length)
    have hbegins : Utf8.encode text <+: s.lookahead :=
      (Utf8.encode_append text rest ▸ List.prefix_append _ _).trans hfront
    rw [hsplit, ← List.prefix_iff_eq_take.mp hbegins, Utf8.decode?_encode] at hcut
    dsimp only [Option.elim, Section.takeHeadingPath] at hcut
    cases hstart : absoluteOffset config.sourceBaseOffset s.cursor with
    | error error => rw [hstart] at hcut; exact absurd hcut nofun
    | ok byteStart =>
      cases hend : absoluteOffset config.sourceBaseOffset (s.cursor + (Utf8.encode text).length) with
      | error error => rw [hstart, hend] at hcut; exact absurd hcut nofun
      | ok byteEnd =>
        rw [hstart, hend] at hcut
        obtain ⟨rfl, rfl⟩ := Prod.mk.inj (Except.ok.inj hcut)
        have hle := hbegins.length_le
        have hbuffered := h.buffered
        refine ⟨htext, hbegins.trans h.lookahead, rfl, rfl, h.inside, ?_, ?_⟩
        · dsimp only
          rw [List.length_drop]
          omega
        · obtain ⟨more, hmore⟩ := h.lookahead
          dsimp only
          rw [← List.drop_drop, ← hmore, List.drop_append_of_le_length hle]
          exact List.prefix_append _ _

end

/-! ## Between sections -/

/-- The current section ends at `stop`, and behind it come the sections of these headings. -/
structure ChunkIter.Follows (source : Bytes) (stop : Nat) (iter : ChunkIter) : Prop where
  started : iter.started = true
  unfinished : iter.finished = false
  ordered : Ordered source (iter.nextHeading.toList ++ iter.upcoming)
  exhausted : iter.nextHeading = none → iter.upcoming = []
  ends : stop = (iter.nextHeading.map Heading.start).getD source.length

namespace ChunkIter

section

variable {source : Bytes} {iter : ChunkIter}

theorem Follows.inside {n : Nat} (h : iter.Follows source n) : n ≤ source.length := by
  rw [h.ends]
  cases hnext : iter.nextHeading with
  | none => exact Nat.le_refl _
  | some heading => exact h.ordered.inside heading (by simp [hnext])

theorem Follows.withSection {n : Nat} (h : iter.Follows source n) (s : Option Section) :
    { iter with currentSection := s }.Follows source n :=
  ⟨h.started, h.unfinished, h.ordered, h.exhausted, h.ends⟩

theorem scanSectionEnd_follows (hstarted : iter.started = true) (hunfinished : iter.finished = false)
    (hordered : Ordered source iter.upcoming) :
    (iter.scanSectionEnd source).2.Follows source (iter.scanSectionEnd source).1 := by
  unfold scanSectionEnd
  cases hupcoming : iter.upcoming with
  | nil =>
    rw [hupcoming] at hordered
    exact ⟨hstarted, hunfinished, hordered, fun _ => rfl, rfl⟩
  | cons heading upcoming =>
    rw [hupcoming] at hordered
    exact ⟨hstarted, hunfinished, hordered, nofun, rfl⟩

/-- Entering the next heading, where the section before it ended. -/
theorem Follows.enter {n : Nat} {heading : Heading} (h : iter.Follows source n)
    (hnext : iter.nextHeading = some heading) : heading.start = n ∧
      (({ iter with nextHeading := none }.enter heading).scanSectionEnd source).2.Follows source
        (({ iter with nextHeading := none }.enter heading).scanSectionEnd source).1 ∧
      n ≤ (({ iter with nextHeading := none }.enter heading).scanSectionEnd source).1 := by
  have hstart : n = heading.start := by
    rw [h.ends, hnext]
    rfl
  have hordered := h.ordered
  rw [hnext] at hordered
  obtain ⟨hlater, hincreasing⟩ := List.pairwise_cons.mp hordered.increasing
  refine ⟨hstart.symm, scanSectionEnd_follows h.started h.unfinished
    ⟨hincreasing, fun later hmem => hordered.inside later (List.mem_cons_of_mem _ hmem)⟩, ?_⟩
  show n ≤ (iter.upcoming.head?.map Heading.start).getD source.length
  cases hupcoming : iter.upcoming with
  | nil => exact h.inside
  | cons next upcoming =>
    rw [hupcoming] at hlater
    exact hstart ▸ Nat.le_of_lt (hlater next List.mem_cons_self)

/-- The iterator is in a section, at its cursor. -/
structure Reads (source : Bytes) (s : Section) (iter : ChunkIter) : Prop where
  current : iter.currentSection = some s
  follows : iter.Follows source s.stop
  shows : s.Shows source

/-- What `prepareSection` finds at `n`: a section that begins there, or the end. -/
def Finds (source : Bytes) (n : Nat) (prepared : Bool × ChunkIter) : Prop :=
  prepared.1 = true ∧ (∃ s, prepared.2.Reads source s ∧ s.cursor = n ∧ n < s.stop) ∨
    prepared.1 = false ∧ n = source.length

theorem reads_new {n stop : Nat} (h : iter.Follows source stop) (hlt : n < stop) (headingPath : List Text) :
    { iter with currentSection := some (.new n stop headingPath) }.Reads source (.new n stop headingPath) :=
  ⟨rfl, h.withSection _, h.inside, Nat.le_of_lt hlt, List.nil_prefix⟩

theorem Follows.prepareSection {n : Nat} (h : iter.Follows source n) :
    Finds source n (iter.prepareSection source) := by
  induction hleft : iter.sectionsLeft using Nat.strong_induction_on generalizing iter with
  | _ m ih =>
    rcases Option.eq_none_or_eq_some iter.nextHeading with hnext | ⟨heading, hnext⟩
    · rw [prepareSection_none h.started hnext]
      refine .inr ⟨rfl, ?_⟩
      rw [h.ends, hnext]
      rfl
    · obtain ⟨rfl, hfollows, hle⟩ := h.enter hnext
      rw [prepareSection_some h.started hnext]
      dsimp only
      split
      · next hlt => exact .inl ⟨rfl, _, reads_new hfollows hlt _, rfl, hlt⟩
      · next hge =>
        have heq := Nat.le_antisymm hle (Nat.le_of_not_lt hge)
        rw [← heq] at hfollows
        exact ih _ (hleft ▸ sectionsLeft_enter_scan source hnext) hfollows rfl

theorem start_finds {iter : ChunkIter} (hstarted : iter.started = false) (hunfinished : iter.finished = false)
    (hordered : Ordered source iter.upcoming) : Finds source 0 (iter.prepareSection source) := by
  have hfollows := @scanSectionEnd_follows source { iter with started := true } rfl hunfinished hordered
  rw [prepareSection_start hstarted]
  dsimp only
  split
  · next hlt => exact .inl ⟨rfl, _, reads_new hfollows hlt _, rfl, hlt⟩
  · next hge =>
    rw [Nat.eq_zero_of_not_pos hge] at hfollows
    exact hfollows.prepareSection

theorem Reads.withLookahead {s : Section} (h : iter.Reads source s) {lookahead : Bytes}
    (hshows : { s with lookahead := lookahead }.Shows source) :
    { iter with currentSection := some { s with lookahead := lookahead } }.Reads source
      { s with lookahead := lookahead } :=
  ⟨rfl, h.follows.withSection _, hshows⟩

/-- A section that absorbs others still begins where it began. -/
theorem Reads.absorbShortSpan {s : Section} (h : iter.Reads source s) (config : Config) :
    ∃ iter' s', iter.absorbShortSpan config source = .ok iter' ∧ iter'.Reads source s' ∧
      s'.cursor = s.cursor ∧ s.stop ≤ s'.stop := by
  induction hleft : iter.sectionsLeft using Nat.strong_induction_on generalizing iter s with
  | _ m ih =>
    rcases Option.eq_none_or_eq_some iter.nextHeading with hnext | ⟨heading, hnext⟩
    · exact ⟨iter, s, absorbShortSpan_none hnext, h, rfl, Nat.le_refl _⟩
    · obtain ⟨blank, lookahead, hshort, hshows⟩ := shortSpan_shows h.shows config.minChars
      rw [absorbShortSpan_some hnext, h.current]
      dsimp only
      rw [hshort]
      cases blank with
      | none => exact ⟨_, _, rfl, h.withLookahead hshows, rfl, Nat.le_refl _⟩
      | some blank =>
        obtain ⟨-, hfollows, hle⟩ := h.follows.enter hnext
        have hreads : (iter.absorbed source heading { s with lookahead := lookahead } blank).Reads source
            (Section.extend { s with lookahead := lookahead } blank heading.start _ _) :=
          ⟨rfl, hfollows.withSection _, hfollows.inside, hshows.buffered.trans hle, hshows.lookahead⟩
        obtain ⟨iter', s', hiter', hreads', hcursor, hstop⟩ :=
          ih _ (hleft ▸ sectionsLeft_absorbed source _ blank hnext) hreads rfl
        exact ⟨iter', s', hiter', hreads', hcursor, hle.trans hstop⟩

/-- Everything up to `n` has been cut into chunks. -/
inductive ReadTo (source : Bytes) : Nat → ChunkIter → Prop
  | fresh {iter : ChunkIter} : iter.currentSection = none → iter.started = false → iter.finished = false →
      Ordered source iter.upcoming → ReadTo source 0 iter
  | reads {iter : ChunkIter} {s : Section} : iter.Reads source s → ReadTo source s.cursor iter
  | ended {iter : ChunkIter} : iter.finished = true → ReadTo source source.length iter

/-- What cutting finds at `n`: an error, the end, or a chunk that is UTF-8. -/
inductive CutsFrom (source : Bytes) (n : Nat) : Except String (Option Chunk × ChunkIter) → Prop
  | failed {error : String} : CutsFrom source n (.error error)
  | ended {iter : ChunkIter} : n = source.length → CutsFrom source n (.ok (none, iter))
  | chunk {chunk : Chunk} {iter : ChunkIter} : chunk.text ≠ [] →
      Utf8.encode chunk.text <+: source.drop n →
      iter.ReadTo source (n + (Utf8.encode chunk.text).length) → CutsFrom source n (.ok (some chunk, iter))

theorem Reads.cutSection {config : Config} {s : Section} (h : iter.Reads source s) (hsound : config.Sound)
    (hlt : s.cursor < s.stop) : CutsFrom source s.cursor (iter.cutSection config source) := by
  obtain ⟨iter', s', habsorb, hreads, hcursor, hstop⟩ := h.absorbShortSpan config
  obtain ⟨lookahead, hfill, hshows, hne⟩ := fill_shows hreads.shows config.maxReadBytes
  have hpositive := hsound.positive
  have hwindow := hsound.window
  rw [ChunkIter.cutSection, habsorb]
  dsimp only [bind, Except.bind]
  rw [hreads.current]
  dsimp only
  rw [hfill]
  dsimp only
  cases hcut : Section.cut { s' with lookahead := lookahead } config with
  | error error => exact .failed
  | ok cut =>
    obtain ⟨chunk, s''⟩ := cut
    obtain ⟨htext, hbegins, hbehind, hends, hshows'⟩ :=
      cut_shows hshows hsound (hne (by omega) (by omega)) hcut
    rw [← hcursor]
    refine .chunk htext hbegins ?_
    rw [← show s''.cursor = s'.cursor + (Utf8.encode chunk.text).length from hbehind]
    exact .reads ⟨rfl, (hends ▸ hreads.follows).withSection _, hshows'⟩

theorem ReadTo.nextChunk {config : Config} {n : Nat} (h : iter.ReadTo source n) (hsound : config.Sound) :
    CutsFrom source n (iter.nextChunk config source) := by
  have hfinds : ∀ {n : Nat} {prepared : Bool × ChunkIter}, Finds source n prepared →
      CutsFrom source n (if prepared.1 = false then .ok (none, prepared.2)
        else prepared.2.cutSection config source) := by
    rintro n ⟨found, iter'⟩ (⟨rfl, s, hreads, rfl, hlt⟩ | ⟨rfl, hend⟩)
    · rw [if_neg Bool.noConfusion]
      exact hreads.cutSection hsound hlt
    · rw [if_pos rfl]
      exact .ended hend
  cases h with
  | fresh hcurrent hstarted hunfinished hordered =>
    rw [ChunkIter.nextChunk, if_neg (by rw [hunfinished]; decide), sectionDone, hcurrent]
    exact hfinds (start_finds hstarted hunfinished hordered)
  | ended hfinished =>
    rw [ChunkIter.nextChunk, if_pos hfinished]
    exact .ended rfl
  | reads hreads =>
    next s =>
    rw [ChunkIter.nextChunk, if_neg (by rw [hreads.follows.unfinished]; decide), sectionDone, hreads.current,
      Option.all_some]
    by_cases hdone : s.cursor = s.stop
    · rw [decide_eq_true hdone, hdone]
      exact hfinds hreads.follows.prepareSection
    · have hle := hreads.shows.buffered
      rw [decide_eq_false hdone]
      exact hreads.cutSection hsound (by omega)

/-- Cutting ends, and where it reaches the end of the bytes they are UTF-8. -/
theorem ReadTo.cuts {config : Config} {n : Nat} (h : iter.ReadTo source n) (hsound : config.Sound)
    {text : Text} (htext : source.take n = Utf8.encode text) : ∃ chunks error,
      Cuts config source iter chunks error ∧ (error = none → ∃ text, source = Utf8.encode text) ∧
        chunks.length + n ≤ source.length := by
  induction hleft : source.length - n using Nat.strong_induction_on generalizing iter n text with
  | _ m ih =>
    have hle : n ≤ source.length := by
      cases h with
      | fresh => exact Nat.zero_le _
      | reads hreads => exact (Nat.le_add_right _ _).trans (hreads.shows.buffered.trans hreads.shows.inside)
      | ended => exact Nat.le_refl _
    have hcut := h.nextChunk hsound
    generalize hresult : iter.nextChunk config source = result at hcut
    cases hcut with
    | failed => exact ⟨[], _, .failed hresult, nofun, by simpa using hle⟩
    | ended hend =>
      refine ⟨[], none, .ended hresult, fun _ => ⟨text, ?_⟩, by simpa using hle⟩
      rwa [hend, List.take_length] at htext
    | chunk hne hbegins hread =>
      next chunk iter' =>
      have hpos := Utf8.encode_length_pos hne
      have hlength := hbegins.length_le
      rw [List.length_drop] at hlength
      have hmore : source.take (n + (Utf8.encode chunk.text).length) = Utf8.encode (text ++ chunk.text) := by
        rw [List.take_add, htext, ← List.prefix_iff_eq_take.mp hbegins, Utf8.encode_append]
      obtain ⟨chunks, error, hcuts, hvalid, hcount⟩ := ih _ (by omega) hread hmore rfl
      refine ⟨chunk :: chunks, error, .chunk hresult hcuts, hvalid, ?_⟩
      rw [List.length_cons]
      omega

end

/-! ## What is held back at an error -/

/-- The chunk that the loop of `nextMerged` holds back behind `next`. -/
def holding (config : Config) (held : Option Chunk) (next : Chunk) : Chunk :=
  match held with
  | none => next
  | some held => if mergeable config held next then merge held next else next

theorem merges_holding (config : Config) (held : Option Chunk) (next : Chunk) (chunks : List Chunk) :
    (merges config held (next :: chunks)).2 = (merges config (some (holding config held next)) chunks).2 := by
  cases held with
  | none => rfl
  | some held =>
    rw [merges, holding]
    split_ifs <;> rfl

/-- The states in which the loop of `nextMerged` cuts the next chunk. -/
inductive Pulls (config : Config) (source : Bytes) (start : ChunkIter) : ChunkIter → Prop
  | start : Pulls config source start start
  | next {iter iter' : ChunkIter} {chunk : Chunk} : Pulls config source start iter →
      iter.nextChunk config source = .ok (some chunk, iter') →
      Pulls config source start (iter'.withHeld (some (holding config iter.held chunk)))

section

variable {config : Config} {source : Bytes} {start iter : ChunkIter} {chunks : List Chunk}
  {error : Option String}

/-- In each of them, what is left to cut is merged to the same end. -/
theorem Pulls.cuts (h : Pulls config source start iter) (hcuts : Cuts config source start chunks error) :
    ∃ later, Cuts config source iter later error ∧
      (merges config iter.held later).2 = (merges config start.held chunks).2 := by
  induction h with
  | start => exact ⟨chunks, hcuts, rfl⟩
  | next _ hnext ih =>
    obtain ⟨later, hlater, hsame⟩ := ih
    cases hlater with
    | ended hend => exact absurd (hend.symm.trans hnext) nofun
    | failed hfailed => exact absurd (hfailed.symm.trans hnext) nofun
    | chunk hchunk hrest =>
      next later =>
      obtain ⟨hchunk, hiter⟩ := Prod.mk.inj (Except.ok.inj (hchunk.symm.trans hnext))
      obtain rfl := Option.some.inj hchunk
      subst hiter
      exact ⟨later, hrest.withHeld _, by rw [← hsame, merges_holding]; rfl⟩

/-- One of them fails. -/
theorem Cuts.exists_failing {error : String} (hcuts : Cuts config source iter chunks (some error))
    (h : Pulls config source start iter) : ∃ failing, Pulls config source start failing ∧
      failing.nextChunk config source = .error error ∧
      failing.held = (merges config iter.held chunks).2 := by
  induction chunks generalizing iter with
  | nil =>
    cases hcuts with
    | failed hfailed => exact ⟨iter, h, hfailed, rfl⟩
  | cons chunk chunks ih =>
    cases hcuts with
    | chunk hchunk hrest =>
      rw [merges_holding]
      exact ih (hrest.withHeld _) (h.next hchunk)

/-- Nothing is given behind the error exactly if nothing that would be given is held back at it. -/
theorem Cuts.given_failed_iff {error : String} (hcuts : Cuts config source start chunks (some error)) :
    (∃ (before : List Chunk) (last : String),
        given config start.held chunks (some error) = before.map .ok ++ [.error last]) ↔
      ∀ failing, Pulls config source start failing →
        (∃ error, failing.nextChunk config source = .error error) → leftOver config failing.held = [] := by
  constructor
  · rintro ⟨before, last, hgiven⟩ failing hpulls ⟨error', hfailed⟩
    obtain ⟨later, hlater, hsame⟩ := hpulls.cuts hcuts
    have hheld : failing.held = (merges config start.held chunks).2 := by
      cases hlater with
      | failed => rw [← hsame, merges]
      | chunk hchunk => cases hchunk.symm.trans hfailed
    rw [hheld]
    by_contra hleft
    -- the last item would be a chunk
    obtain ⟨front, chunk, hchunk⟩ := List.eq_nil_or_concat' _ |>.resolve_left hleft
    have hends := congrArg List.getLast? hgiven
    rw [given, hchunk, List.map_append, ← List.append_assoc, ← List.append_assoc, List.map_cons, List.map_nil,
      List.getLast?_concat, List.getLast?_concat] at hends
    cases hends
  · intro h
    obtain ⟨failing, hpulls, hfailed, hheld⟩ := hcuts.exists_failing .start
    have hleft := h failing hpulls ⟨error, hfailed⟩
    rw [hheld] at hleft
    refine ⟨(merges config start.held chunks).1, error, ?_⟩
    rw [given, hleft]
    rfl

end

end ChunkIter

/-- Bytes that are not UTF-8 give one error, and nothing behind it exactly if no chunk is held back
when cutting fails, or one of white space only that is dropped. -/
theorem invalid_input_fails_once_iff (source : Bytes) (headings : List Heading)
    (hordered : Ordered source headings) (hinvalid : ∀ text, source ≠ Utf8.encode text)
    (maxChars minChars base : Nat) :
    (maxChars = 0 → streamChunks headings maxChars base =
      .error "chunk character bound must be greater than zero") ∧
    (usizeLimit ≤ maxChars * 4 →
      streamChunks headings maxChars base = .error "chunk character bound is too large") ∧
    (1 ≤ maxChars → maxChars * 4 < usizeLimit → ∃ config iter fuel items,
      streamChunks headings maxChars base = .ok (config, iter) ∧
      (∀ more, iter.items (config.withMinChars minChars) source (fuel + more) = some items) ∧
      (∃ error, errorsOf items = [error]) ∧
      ((∃ (chunks : List Chunk) (error : String), items = chunks.map .ok ++ [.error error]) ↔
        ∀ failing, iter.Pulls (config.withMinChars minChars) source failing →
          (∃ error, failing.nextChunk (config.withMinChars minChars) source = .error error) →
            leftOver (config.withMinChars minChars) failing.held = [])) := by
  refine ⟨fun hzero => by rw [streamChunks, if_pos hzero], fun hlarge => ?_, fun hpositive hsmall => ?_⟩
  · have hlimit : 0 < usizeLimit := by decide
    rw [streamChunks, if_neg (by omega), if_neg (by omega)]
  · obtain ⟨config, hstream, hconfig⟩ := streamChunks_ok headings base hpositive hsmall
    have hstart : (ChunkIter.start headings).ReadTo source 0 := .fresh rfl rfl rfl hordered
    obtain ⟨chunks, error, hcuts, hvalid, hcount⟩ :=
      hstart.cuts (Config.of_sound base minChars hpositive hsmall) (show source.take 0 = Utf8.encode [] from rfl)
    rw [← hconfig] at hcuts
    cases error with
    | none =>
      obtain ⟨text, htext⟩ := hvalid rfl
      exact absurd htext (hinvalid text)
    | some error =>
      refine ⟨config, .start headings, source.length + 3, _, hstream, fun more => hcuts.items ?_,
        ⟨error, errorsOf_given _ _ _ _⟩, hcuts.given_failed_iff⟩
      simp only [ChunkIter.start, Option.toList_some, Option.toList_none, List.length_cons, List.length_nil]
      omega

/-- Letters, blanks and half a character. -/
def blankHalf : Bytes := Utf8.encode "aaaa      ".toList ++ [0xC3]

theorem invalid_of_decode {source : Bytes} (h : Utf8.decode? source = none) (text : Text) :
    source ≠ Utf8.encode text := by
  intro htext
  rw [Utf8.decode?_eq_some.mpr htext] at h
  cases h

/-- The letters are given before the error, and the blanks held back at it are dropped. -/
theorem invalid_input_fails_once_iff_blank : ∃ config iter fuel,
    streamChunks [] 4 0 = .ok (config, iter) ∧
      (∀ more, iter.items (config.withMinChars 1) blankHalf (fuel + more) =
        some [.ok ⟨"aaaa".toList, 0, 4, []⟩, .error "Markdown input is not UTF-8 at byte 10"]) ∧
      ∀ failing, iter.Pulls (config.withMinChars 1) blankHalf failing →
        (∃ error, failing.nextChunk (config.withMinChars 1) blankHalf = .error error) →
          leftOver (config.withMinChars 1) failing.held = [] := by
  obtain ⟨config, iter, fuel, items, hstream, hitems, -, hiff⟩ :=
    (invalid_input_fails_once_iff blankHalf [] ⟨.nil, fun _ hmem => nomatch hmem⟩ (invalid_of_decode (by decide))
      4 1 0).2.2 (by decide) (by decide)
  have hgiven : ∃ config', streamChunks [] 4 0 = .ok (config', .start []) ∧
      (ChunkIter.start []).items (config'.withMinChars 1) blankHalf 14 =
        some [.ok ⟨"aaaa".toList, 0, 4, []⟩, .error "Markdown input is not UTF-8 at byte 10"] :=
    ⟨_, rfl, by decide +kernel⟩
  obtain ⟨config', hstream', hgiven⟩ := hgiven
  obtain ⟨rfl, rfl⟩ := Prod.mk.inj (Except.ok.inj (hstream.symm.trans hstream'))
  obtain rfl := ChunkIter.items_unique hgiven (hitems 0)
  exact ⟨config, _, fuel, hstream, hitems, hiff.mp ⟨[⟨"aaaa".toList, 0, 4, []⟩], _, rfl⟩⟩

/-- A letter and half a character. -/
def halfCharacter : Bytes := [0x61, 0xC3]

/-- The letter is given behind the error. -/
theorem chunk_behind_error : (∀ text, halfCharacter ≠ Utf8.encode text) ∧
    ∃ config iter, streamChunks [] 20 0 = .ok (config, iter) ∧
      iter.items (config.withMinChars 5) halfCharacter 5 =
        some [.error "Markdown input is not UTF-8 at byte 1", .ok ⟨['a'], 0, 1, []⟩] :=
  ⟨invalid_of_decode (by decide), _, _, rfl, by decide +kernel⟩

end Chunker
