-- SUMMARY: The sections of the streaming chunker: what the window shows of one, and what is cut from it.
import NotedThat.Indexer.Splits
import NotedThat.Lib.Utf8Slices

/-!
# The window of a section

The section is behind some text and has some text left to chunk. Its window shows the front of
that, four bytes for each character a chunk may have, so at least as many characters. Its heading
path is the one of the last boundary that the cursor has passed.
-/

namespace Chunker

/-- What the chunker needs of its configuration. -/
structure Config.Sound (config : Config) : Prop where
  positive : 1 ≤ config.maxChars
  quarter : 4 * config.minChars ≤ config.maxChars
  window : config.maxReadBytes = config.maxChars * 4
  fits : config.maxChars * 4 < usizeLimit

/-- An iterator that has not read anything. -/
def ChunkIter.start (headings : List Heading) : ChunkIter := ⟨none, none, headings, [], none, false, false⟩

/-- What `streamChunks` makes of its arguments, with a minimum chunk size. -/
def Config.of (maxChars base minChars : Nat) : Config :=
  Config.withMinChars ⟨maxChars, maxChars / 4, maxChars * 4, base⟩ minChars

theorem streamChunks_ok (headings : List Heading) {maxChars : Nat} (base : Nat) (hpositive : 1 ≤ maxChars)
    (hfits : maxChars * 4 < usizeLimit) : ∃ config,
      streamChunks headings maxChars base = .ok (config, .start headings) ∧
        ∀ minChars, config.withMinChars minChars = .of maxChars base minChars :=
  ⟨_, by rw [streamChunks, if_neg (by omega), if_pos hfits]; rfl, fun _ => rfl⟩

theorem Config.of_sound {maxChars : Nat} (base minChars : Nat) (hpositive : 1 ≤ maxChars)
    (hfits : maxChars * 4 < usizeLimit) : (Config.of maxChars base minChars).Sound := by
  refine ⟨hpositive, ?_, rfl, hfits⟩
  dsimp only [Config.of, Config.withMinChars]
  omega

/-- The section is at the end of `before`, with `ahead` left to chunk. -/
structure Section.Spans (before ahead : Text) (s : Section) : Prop where
  cursor : s.cursor = (Utf8.encode before).length
  stop : s.stop = (Utf8.encode (before ++ ahead)).length
  lookahead : s.lookahead <+: Utf8.encode ahead

theorem Section.Spans.remaining {before ahead : Text} {s : Section} (h : s.Spans before ahead) :
    s.stop - s.cursor = (Utf8.encode ahead).length := by
  rw [h.stop, h.cursor, Utf8.encode_append, List.length_append]
  omega

theorem readExact_ahead (before ahead after : Text) {k n : Nat}
    (h : k + n ≤ (Utf8.encode ahead).length) :
    readExact (Utf8.encode (before ++ ahead ++ after)) ((Utf8.encode before).length + k) n =
      .ok (((Utf8.encode ahead).drop k).take n) := by
  have hfits : n ≤ ((Utf8.encode ahead).drop k).length := by
    rw [List.length_drop]
    omega
  simp only [Utf8.encode_append]
  rw [readExact, if_pos (by simp only [List.length_append]; omega), List.append_assoc,
    List.drop_length_add_append, List.drop_append_of_le_length (by omega),
    List.take_append_of_le_length hfits]

/-- Filling shows `maxBytes`, or all that is left. -/
theorem fill_spans {before ahead : Text} {s : Section} (h : s.Spans before ahead) (after : Text)
    (maxBytes : Nat) : ∃ lookahead,
    fill (Utf8.encode (before ++ ahead ++ after)) s maxBytes = .ok { s with lookahead := lookahead } ∧
      { s with lookahead := lookahead }.Spans before ahead ∧
      min (Utf8.encode ahead).length maxBytes ≤ lookahead.length := by
  have hbuffered := h.lookahead.length_le
  have hremaining := h.remaining
  unfold fill
  dsimp only
  split
  · next hrequest =>
    rw [show s.cursor + s.lookahead.length = (Utf8.encode before).length + s.lookahead.length by
      rw [h.cursor], readExact_ahead before ahead after (by rw [← h.cursor]; omega)]
    refine ⟨_, rfl, ⟨h.cursor, h.stop, ?_⟩, ?_⟩
    · obtain ⟨rest, hrest⟩ := h.lookahead
      rw [← hrest, List.drop_left]
      exact (List.prefix_append_right_inj _).mpr (List.take_prefix _ _)
    · simp only [List.length_append, List.length_take, List.length_drop, ← h.cursor]
      omega
  · exact ⟨s.lookahead, rfl, h, by omega⟩

/-- The unread part is short when it has fewer characters, whatever their encoding. -/
theorem shortSpan_spans {before ahead : Text} {s : Section} (h : s.Spans before ahead) (after : Text)
    (minChars : Nat) (hfits : minChars * 4 < usizeLimit) : ∃ lookahead,
    shortSpan (Utf8.encode (before ++ ahead ++ after)) s minChars =
        .ok (if ahead.length < minChars then some (Text.trim ahead).isEmpty else none,
          { s with lookahead := lookahead }) ∧
      { s with lookahead := lookahead }.Spans before ahead := by
  have hremaining := h.remaining
  have hbytes := Utf8.encode_length_le ahead
  unfold shortSpan
  split
  · next hlong =>
    rw [if_neg (by omega)]
    exact ⟨s.lookahead, rfl, h⟩
  · obtain ⟨lookahead, hfill, hspans, hall⟩ := fill_spans h after (s.stop - s.cursor)
    have hfront : lookahead <+: Utf8.encode ahead := hspans.lookahead
    have hlookahead : lookahead = Utf8.encode ahead := hfront.eq_of_length_le (by omega)
    rw [hfill]
    dsimp only [bind, Except.bind]
    rw [hlookahead, Utf8.fromUtf8_encode]
    dsimp only
    rw [hlookahead] at hspans
    refine ⟨_, ?_, hspans⟩
    split_ifs <;> rfl

/-- A window of four bytes for each of `n` characters shows as many, or all that is left. -/
theorem validFront_spans {before ahead : Text} {s : Section} {n : Nat} (h : s.Spans before ahead)
    (hne : ahead ≠ []) (hn : 1 ≤ n) (hwindow : min (Utf8.encode ahead).length (n * 4) ≤ s.lookahead.length) :
    ∃ front rest, ahead = front ++ rest ∧ front ≠ [] ∧ (rest = [] ∨ n ≤ front.length) ∧
      s.validFront = .ok front ∧ Utf8.encode front <+: s.lookahead := by
  have htake := List.prefix_iff_eq_take.mp h.lookahead
  obtain ⟨front, rest, part, hsplit, hfront, hpart⟩ := Utf8.take_encode ahead s.lookahead.length
  rw [← htake] at hfront
  have hlength : s.lookahead.length = (Utf8.encode front).length + part.length := by
    rw [hfront, List.length_append]
  have hmany : rest = [] ∨ n ≤ front.length := by
    rcases rest with _ | ⟨c, rest⟩
    · exact .inl rfl
    · have hle := Utf8.encodeChar_length_le c
      have hpos := Utf8.encode_length_pos (List.cons_ne_nil c [])
      rw [Utf8.encode_cons, Utf8.encode_nil, List.append_nil] at hpos
      have hlt : part.length < (String.utf8EncodeChar c).length := by
        rcases hpart with rfl | ⟨c', rest', heq, hbegins, hcut⟩
        · exact hpos
        · obtain ⟨rfl, -⟩ := List.cons.inj heq
          exact Nat.lt_of_le_of_ne hbegins.length_le fun heq => hcut (hbegins.eq_of_length heq)
      have hbytes := Utf8.encode_length_le front
      rw [hsplit, Utf8.encode_append, Utf8.encode_cons, List.length_append, List.length_append]
        at hwindow
      exact .inr (by omega)
  have hfrontne : front ≠ [] := by
    rcases hmany with rfl | hmany
    · rwa [hsplit, List.append_nil] at hne
    · exact List.ne_nil_of_length_pos (by omega)
  refine ⟨front, rest, hsplit, hfrontne, hmany, ?_, hfront ▸ List.prefix_append _ _⟩
  unfold Section.validFront
  rw [hfront]
  by_cases hpartne : part = []
  · rw [hpartne, List.append_nil, Utf8.fromUtf8_encode]
  · obtain ⟨c, rest', -, hc⟩ := hpart.resolve_left hpartne
    rw [Utf8.fromUtf8_encode_append hc hpartne]
    dsimp only
    have hsome := Utf8.encode_length_pos hfrontne
    rw [if_neg (fun hbad => hbad.elim nofun (Nat.ne_of_gt hsome)), List.take_left,
      Utf8.decode?_encode]
    rfl

/-- The section behind a chunk of this text. -/
def Section.behind (s : Section) (text : Text) : Section :=
  { s.takeHeadingPath.2 with
    cursor := s.cursor + (Utf8.encode text).length
    lookahead := s.lookahead.drop (Utf8.encode text).length }

/-- The chunk that is cut, or the overflow of its end. -/
theorem cut_spans {before ahead : Text} {s : Section} {config : Config} (h : s.Spans before ahead)
    (hsound : config.Sound) (hne : ahead ≠ [])
    (hwindow : min (Utf8.encode ahead).length config.maxReadBytes ≤ s.lookahead.length) :
    ∃ text rest, ahead = text ++ rest ∧ Piece config.maxChars config.minChars text rest ∧
      (s.behind text).Spans (before ++ text) rest ∧
      s.cut config =
        if config.sourceBaseOffset + (Utf8.encode (before ++ text)).length < usizeLimit then
          .ok (⟨text, config.sourceBaseOffset + (Utf8.encode before).length,
            config.sourceBaseOffset + (Utf8.encode (before ++ text)).length, s.takeHeadingPath.1⟩,
            s.behind text)
        else .error overflowed := by
  rw [hsound.window] at hwindow
  obtain ⟨front, more, hahead, hfrontne, hmany, hfront, hbegins⟩ :=
    validFront_spans h hne hsound.positive hwindow
  have hcomplete : decide (s.stop - s.cursor = (Utf8.encode front).length) = true ↔ more = [] := by
    rw [decide_eq_true_iff, h.remaining, hahead, Utf8.encode_append, List.length_append]
    refine ⟨fun heq => ?_, fun heq => by rw [heq, Utf8.encode_nil]; rfl⟩
    by_contra hmore
    have hpos := Utf8.encode_length_pos hmore
    omega
  obtain ⟨text, back, htext, hpiece, hsplit⟩ := splitByte_piece hfrontne hsound.positive hsound.quarter
    hcomplete fun hfalse => hmany.resolve_left fun hmore => absurd (hcomplete.mpr hmore) (by rw [hfalse]; decide)
  obtain ⟨bytes, hbytes⟩ := hbegins
  have hlook : s.lookahead = Utf8.encode text ++ (Utf8.encode back ++ bytes) := by
    rw [← hbytes, htext, Utf8.encode_append, List.append_assoc]
  refine ⟨text, back ++ more, by rw [hahead, htext, List.append_assoc], hpiece, ⟨?_, ?_, ?_⟩, ?_⟩
  · rw [Section.behind, h.cursor, Utf8.encode_append, List.length_append]
  · rw [show (s.behind text).stop = s.stop from rfl, h.stop, hahead, htext]
    simp only [List.append_assoc]
  · have hall := h.lookahead
    rw [hahead, htext, List.append_assoc, Utf8.encode_append, hlook] at hall
    rw [show (s.behind text).lookahead = s.lookahead.drop (Utf8.encode text).length from rfl, hlook,
      List.drop_left]
    exact (List.prefix_append_right_inj _).mp hall
  · unfold Section.cut
    rw [hfront]
    dsimp only [bind, Except.bind]
    rw [hsplit, show s.lookahead.take (Utf8.encode text).length = Utf8.encode text by
      rw [hlook, List.take_left], Utf8.decode?_encode]
    dsimp only [Option.elim, Section.takeHeadingPath]
    rw [h.cursor, absoluteOffset, absoluteOffset, ← List.length_append, ← Utf8.encode_append]
    have hle : (Utf8.encode before).length ≤ (Utf8.encode (before ++ text)).length := by
      rw [Utf8.encode_append, List.length_append]
      omega
    by_cases hfits : config.sourceBaseOffset + (Utf8.encode (before ++ text)).length < usizeLimit
    · rw [if_pos hfits, if_pos hfits, if_pos (by omega)]
      simp only [Section.behind, Section.takeHeadingPath, h.cursor, Utf8.encode_append,
        List.length_append]
    · rw [if_neg hfits, if_neg hfits]
      split_ifs <;> rfl

theorem Section.Spans.extend {before ahead more : Text} {s : Section} {stop : Nat}
    (h : s.Spans before ahead) (hstop : stop = (Utf8.encode (before ++ (ahead ++ more))).length)
    (blank : Bool) (start : Nat) (headingPath : List Text) :
    (s.extend blank start stop headingPath).Spans before (ahead ++ more) := by
  refine ⟨h.cursor, hstop, h.lookahead.trans ?_⟩
  rw [Utf8.encode_append]
  exact List.prefix_append _ _

end Chunker
