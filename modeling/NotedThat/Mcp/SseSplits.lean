-- SUMMARY: The frames a parser yields are those of the whole text its bytes decode to, however the bytes were split into chunks.
import NotedThat.Mcp.Sse

/-!
# Splits

A blank line is found as soon as it is there, and more text behind it does not change which is the first.
So draining a text in two parts gives the frames of the whole. The same holds one level below for the
decoding, and so for chunks of bytes.
-/

namespace Mcp

namespace Sse

-- ---------------------------------------------------------------------------
-- Text
-- ---------------------------------------------------------------------------

theorem findBlankLine_nil : findBlankLine [] = none := Needles.firstOf_nil separators_ne_nil

/-- The length of the blank line that a text begins with. -/
def blankLineAt (text : Text) : Option Nat := Needles.beginsWith separators text

theorem findBlankLine_cons (c : Char) (text : Text) :
    findBlankLine (c :: text) =
      (blankLineAt (c :: text)).elim ((findBlankLine text).map Needles.shift) fun len => some (0, len) :=
  Needles.firstOf_cons separators c text

theorem blankLineAt_append {text : Text} {len : Nat} (h : blankLineAt text = some len) (more : Text) :
    blankLineAt (text ++ more) = some len := by
  obtain ⟨separator, hmem, rest, rfl⟩ := Needles.beginsWith_mem h
  -- each separator stands for itself, whatever is behind it
  have hself : ∀ rest, ∀ entry ∈ separators, blankLineAt (entry.1 ++ rest) = some entry.2 := by
    intro rest
    simp only [separators, List.forall_mem_cons]
    exact ⟨rfl, rfl, rfl, rfl, nofun⟩
  rw [List.append_assoc]
  exact hself _ _ hmem

/-- Where a blank line comes later, none begins here either with more text behind. -/
theorem blankLineAt_of_later {c : Char} {text : Text} {found : Nat × Nat}
    (hlater : findBlankLine text = some found) (hhere : blankLineAt (c :: text) = none) (more : Text) :
    blankLineAt (c :: text ++ more) = none := by
  rw [Option.eq_none_iff_forall_ne_some]
  intro len hlen
  obtain ⟨separator, hmem, hbegins⟩ := Needles.beginsWith_mem hlen
  obtain ⟨separator', hmem', hbegins'⟩ := Needles.firstOf_eq_some separators_ne_nil hlater
  have hlengths : ∀ entry ∈ separators, 2 ≤ entry.1.length ∧ entry.1.length ≤ 4 := by decide
  have hshort : ∀ entry ∈ separators, entry.1.length = 2 → entry.1 = ['\n', '\n'] := by decide
  have hlong : ∀ entry ∈ separators, entry.1.length = 4 → entry.1 = ['\r', '\n', '\r', '\n'] := by decide
  have htwo := (hlengths _ hmem').1
  have hfour := (hlengths _ hmem).2
  have hin := hbegins'.length_le
  rw [List.length_drop] at hin
  dsimp only at htwo hfour
  -- it does not end in the text, or it would begin here already
  have hcut : (c :: text).length < separator.length := by
    by_contra hle
    have hwithin : separator <+: c :: text :=
      List.prefix_of_prefix_length_le hbegins (List.prefix_append _ _) (Nat.not_lt.mp hle)
    have hfind := List.find?_eq_none.mp (Option.map_eq_none_iff.mp hhere) (separator, len) hmem
    exact hfind (List.isPrefixOf_iff_prefix.mpr hwithin)
  rw [List.length_cons] at hcut
  -- so all of the text is the later one
  have hpos : found.1 = 0 := by omega
  rw [hpos, List.drop_zero] at hbegins'
  have hwhole : separator' = text := hbegins'.eq_of_length (by omega)
  have htext : separator' = ['\n', '\n'] := by
    have hlen' : separator'.length = 2 := by omega
    exact hshort _ hmem' hlen'
  have hsep : separator = ['\r', '\n', '\r', '\n'] := by
    have hlen' : separator.length = 4 := by omega
    exact hlong _ hmem hlen'
  rw [← hwhole, htext, hsep] at hbegins
  simp at hbegins

theorem findBlankLine_append {text : Text} {found : Nat × Nat} (h : findBlankLine text = some found)
    (more : Text) : findBlankLine (text ++ more) = some found := by
  induction text generalizing found with
  | nil =>
    rw [findBlankLine_nil] at h
    cases h
  | cons c text ih =>
    rw [findBlankLine_cons] at h
    rw [List.cons_append, findBlankLine_cons]
    cases hhere : blankLineAt (c :: text) with
    | some len =>
      have hstill := blankLineAt_append hhere more
      rw [List.cons_append] at hstill
      rw [hhere] at h
      rw [hstill]
      exact h
    | none =>
      rw [hhere] at h
      obtain ⟨later, hlater, rfl⟩ := Option.map_eq_some_iff.mp h
      have hstill := blankLineAt_of_later hlater hhere more
      rw [List.cons_append] at hstill
      rw [hstill, ih hlater]
      rfl

theorem drain_of_some {text : Text} {stop len : Nat} (h : findBlankLine text = some (stop, len)) :
    drain text = ((parseBlock (text.take stop)).toList ++ (drain (text.drop (stop + len))).1,
      (drain (text.drop (stop + len))).2) := by
  rw [drain]
  split
  · next stop' len' h' =>
    rw [h] at h'
    cases h'
    rfl
  · next h' =>
    rw [h] at h'
    cases h'

theorem drain_of_none {text : Text} (h : findBlankLine text = none) : drain text = ([], text) := by
  rw [drain]
  split
  · next h' =>
    rw [h] at h'
    cases h'
  · rfl

theorem findBlankLine_le {text : Text} {stop len : Nat} (h : findBlankLine text = some (stop, len)) :
    stop + len ≤ text.length := by
  obtain ⟨separator, hmem, hbegins⟩ := Needles.firstOf_eq_some separators_ne_nil h
  have hlen : ∀ entry ∈ separators, entry.1.length = entry.2 ∧ 0 < entry.2 := by decide
  have hsep := hlen _ hmem
  have hle := hbegins.length_le
  rw [List.length_drop] at hle
  dsimp only at hsep
  omega

/-- Draining the front, and then what it left with the rest behind it, drains the whole. -/
theorem drain_append (text more : Text) :
    drain (text ++ more) = ((drain text).1 ++ (drain ((drain text).2 ++ more)).1,
      (drain ((drain text).2 ++ more)).2) := by
  induction text using drain.induct with
  | case1 text stop len h _ _ _ ih =>
    have hle := findBlankLine_le h
    rw [drain_of_some h, drain_of_some (findBlankLine_append h more),
      List.take_append_of_le_length (Nat.le_of_add_right_le hle), List.drop_append_of_le_length hle, ih,
      List.append_assoc]
  | case2 text h =>
    rw [drain_of_none h]
    rfl

/-- What a text leaves is its end. -/
theorem drain_suffix (text : Text) : (drain text).2 <:+ text := by
  induction text using drain.induct with
  | case1 text stop len h _ _ _ ih =>
    rw [drain_of_some h]
    exact ih.trans (List.drop_suffix _ _)
  | case2 text h =>
    rw [drain_of_none h]

-- ---------------------------------------------------------------------------
-- Bytes
-- ---------------------------------------------------------------------------

namespace SseParser

section Decode

variable {p : SseParser} {bytes : Bytes} {valid : Nat} {truncated : Bool} {text : Text}

theorem decode_valid (h : Utf8.fromUtf8 bytes = .valid text) : p.decode bytes = ⟨p.text ++ text, p.part⟩ := by
  rw [decode]
  split
  · next h' =>
    rw [h] at h'
    cases h'
    rfl
  · next h' =>
    rw [h] at h'
    cases h'

theorem decode_part (h : Utf8.fromUtf8 bytes = .invalid valid truncated)
    (hdecode : Utf8.decode? (bytes.take valid) = some text)
    (hlen : Utf8.errorLen (bytes.drop valid) = none) :
    p.decode bytes = ⟨p.text ++ text, p.part ++ bytes.drop valid⟩ := by
  rw [decode]
  split
  · next h' =>
    rw [h] at h'
    cases h'
  · next h' =>
    rw [h] at h'
    cases h'
    dsimp only
    split
    · rw [hdecode]
      rfl
    · next hlen' =>
      rw [hlen] at hlen'
      cases hlen'

theorem decode_invalid (h : Utf8.fromUtf8 bytes = .invalid valid truncated)
    (hdecode : Utf8.decode? (bytes.take valid) = some text) {len : Nat}
    (hlen : Utf8.errorLen (bytes.drop valid) = some len) :
    p.decode bytes = SseParser.decode ⟨p.text ++ text ++ [Utf8.replacementCharacter], p.part⟩
      (bytes.drop (valid + len)) := by
  rw [decode]
  split
  · next h' =>
    rw [h] at h'
    cases h'
  · next h' =>
    rw [h] at h'
    cases h'
    dsimp only
    split
    · next hlen' =>
      rw [hlen] at hlen'
      cases hlen'
    · next hlen' =>
      rw [hlen] at hlen'
      cases hlen'
      rw [hdecode]
      rfl

end Decode

/-- Decoding appends what the bytes decode to, and keeps what they end in. -/
theorem decode_lossy (p : SseParser) (bytes : Bytes) : ∃ text part, Utf8.Lossy bytes text part ∧
    p.decode bytes = ⟨p.text ++ text, p.part ++ part⟩ := by
  induction p, bytes using decode.induct with
  | case1 p bytes text h =>
    have hwhole : bytes = Utf8.encode text := by
      unfold Utf8.fromUtf8 at h
      split at h
      · next hdecode =>
        cases h
        exact Utf8.decode?_eq_some.mp hdecode
      · cases h
    refine ⟨text, [], hwhole ▸ .encode text, ?_⟩
    rw [decode_valid h, List.append_nil]
  | case2 p bytes valid truncated h hlen =>
    obtain ⟨text, hdecode, htake, hstuck⟩ := Utf8.fromUtf8_eq_invalid h
    refine ⟨text, bytes.drop valid, ?_, decode_part h hdecode hlen⟩
    have hpart : Utf8.isTruncated (bytes.drop valid) = true := by
      by_contra hnot
      rw [Utf8.errorLen, if_neg hnot] at hlen
      cases hlen
    have hwhole := Utf8.Lossy.encode_append text (.part hpart)
    rwa [← htake, List.take_append_drop, List.append_nil] at hwhole
  | case3 p bytes valid truncated h decoded len hlen ih =>
    obtain ⟨text, hdecode, htake, hstuck⟩ := Utf8.fromUtf8_eq_invalid h
    obtain ⟨rest, part, hrest, heq⟩ := ih
    refine ⟨text ++ Utf8.replacementCharacter :: rest, part, ?_, ?_⟩
    · rw [← List.drop_drop] at hrest
      have hwhole := Utf8.Lossy.encode_append text (.invalid hstuck hlen hrest)
      rwa [← htake, List.take_append_drop] at hwhole
    · rw [decode_invalid h hdecode hlen]
      have hdecoded : decoded = p.text ++ text := by simp only [decoded, hdecode, Option.getD_some]
      rw [← hdecoded, heq, hdecoded]
      simp

/-- A parser that has read some bytes: it has yielded the frames of the text they decode to. -/
def Read (p : SseParser) (bytes : Bytes) (events : List SseEvent) : Prop :=
  ∃ text, Utf8.Lossy bytes text p.part ∧ drain text = (events, p.text)

theorem read_new : new.Read [] [] := by
  refine ⟨[], .nil, ?_⟩
  rw [drain_of_none findBlankLine_nil]
  rfl

theorem Read.absorb {p : SseParser} {bytes : Bytes} {events : List SseEvent} (h : p.Read bytes events)
    (chunk : Bytes) : (p.absorb chunk).1.Read (bytes ++ chunk) (events ++ (p.absorb chunk).2) := by
  obtain ⟨text, hlossy, hdrain⟩ := h
  obtain ⟨more, part, hmore, hdecode⟩ := decode_lossy ⟨p.text, []⟩ (p.part ++ chunk)
  have hjoined : (if p.part.isEmpty then p.decode chunk else { p with part := [] }.decode (p.part ++ chunk)) =
      ⟨p.text ++ more, part⟩ := by
    obtain ⟨own, kept⟩ := p
    cases kept with
    | nil => exact hdecode
    | cons b rest => exact hdecode
  have habsorb : p.absorb chunk = (⟨(drain (p.text ++ more)).2, part⟩, (drain (p.text ++ more)).1) := by
    unfold SseParser.absorb
    rw [hjoined]
  rw [habsorb]
  refine ⟨text ++ more, hlossy.append hmore, ?_⟩
  rw [drain_append, hdrain]

theorem feed_of_le {p : SseParser} {chunk : Bytes} (h : (p.absorb chunk).1.pending ≤ maxPending) :
    p.feed chunk = p.absorb chunk := by
  unfold feed
  dsimp only
  rw [if_neg (Nat.not_lt.mpr h)]

theorem Read.feedAll {p : SseParser} {bytes : Bytes} {events : List SseEvent} (h : p.Read bytes events)
    {chunks : List Bytes} (hwithin : p.Within chunks) :
    (p.feedAll chunks).1.Read (bytes ++ chunks.flatten) (events ++ (p.feedAll chunks).2) := by
  induction chunks generalizing p bytes events with
  | nil =>
    rw [List.flatten_nil, List.append_nil]
    unfold SseParser.feedAll
    rwa [List.append_nil]
  | cons chunk chunks ih =>
    obtain ⟨hle, hrest⟩ := hwithin
    rw [feed_of_le hle] at hrest
    have hread := ih (h.absorb chunk) hrest
    unfold SseParser.feedAll
    rw [feed_of_le hle]
    rwa [List.flatten_cons, ← List.append_assoc, ← List.append_assoc]

/-- The frames are those of the whole text. -/
theorem feedAll_new {chunks : List Bytes} (hwithin : new.Within chunks) :
    ∃ text part, Utf8.Lossy chunks.flatten text part ∧ (new.feedAll chunks).2 = (drain text).1 := by
  obtain ⟨text, hlossy, hdrain⟩ := read_new.feedAll hwithin
  exact ⟨text, _, hlossy, by rw [hdrain]; rfl⟩

/-- Bytes that are not a third of the limit are never dropped. -/
theorem Read.within {p : SseParser} {bytes : Bytes} {events : List SseEvent} (h : p.Read bytes events)
    {chunks : List Bytes} (hshort : 3 * (bytes ++ chunks.flatten).length ≤ maxPending) :
    p.Within chunks := by
  induction chunks generalizing p bytes events with
  | nil => trivial
  | cons chunk chunks ih =>
    rw [List.flatten_cons, ← List.append_assoc] at hshort
    have hread := h.absorb chunk
    have hle : (p.absorb chunk).1.pending ≤ maxPending := by
      obtain ⟨text, hlossy, hdrain⟩ := hread
      have hbytes := hlossy.length_le
      have hsuffix := drain_suffix text
      rw [hdrain] at hsuffix
      dsimp only at hsuffix
      obtain ⟨front, hfront⟩ := hsuffix
      rw [← hfront, Utf8.encode_append, List.length_append] at hbytes
      rw [List.length_append] at hshort
      unfold pending
      omega
    refine ⟨hle, ?_⟩
    rw [feed_of_le hle]
    exact ih hread hshort

end SseParser

end Sse

end Mcp
