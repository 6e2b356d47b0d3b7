-- SUMMARY: Previews of hits: how long they are, where they are cut and how they end.
import Mathlib.Data.List.DropRight
import NotedThat.Indexer.Searcher

/-!
# Previews of hits

A preview is the chunk's text without the white space at its end where that fits, and otherwise what
the cut leaves of it, with an ellipsis. The cut looks back for the end of a word, but not far.
-/

namespace Searcher

open Text (isWhitespace trimEndMatches)

/-! ## Trimming the end -/

/-- A trimmed text as the list that loses its last elements. -/
theorem trimEndMatches_eq_rdropWhile (p : Char → Bool) (s : Text) : trimEndMatches p s = s.rdropWhile p := rfl

/-- What ends visibly has nothing to trim. -/
theorem trimEnd_append_of_visible {rest : Text} (hne : rest ≠ []) (h : ∀ c ∈ rest, isWhitespace c = false)
    (word : Text) : trimEndMatches isWhitespace (word ++ rest) = word ++ rest := by
  rw [trimEndMatches_eq_rdropWhile, List.rdropWhile_eq_self_iff]
  intro _
  rw [List.getLast_append_of_ne_nil _ hne, h _ (List.getLast_mem hne)]
  exact Bool.false_ne_true

theorem trimEnd_eq_nil {s : Text} : trimEndMatches isWhitespace s = [] ↔ ∀ c ∈ s, isWhitespace c = true := by
  rw [trimEndMatches_eq_rdropWhile, List.rdropWhile_eq_nil_iff]

/-! ## The end of a word -/

/-- The boundary is before the last white space, and that is among the last characters. -/
theorem wordBoundary_eq_some {front word : Text} (h : wordBoundary front = some word) :
    ∃ c rest, front = word ++ c :: rest ∧ isWhitespace c = true ∧ rest.length < wordBackoffChars ∧
      ∀ d ∈ rest, isWhitespace d = false := by
  obtain ⟨i, hi, rfl⟩ := Option.map_eq_some_iff.mp h
  obtain ⟨hlt, hc, hafter⟩ := List.findIdx?_eq_some_iff_getElem.mp hi
  have hlength : i < wordBackoffChars ∧ i < front.length := by
    rw [List.length_take, List.length_reverse] at hlt
    exact lt_min_iff.mp hlt
  have hcut : front.length - 1 - i < front.length := by omega
  refine ⟨front[front.length - 1 - i], front.drop (front.length - 1 - i + 1), ?_, ?_, ?_, fun d hd => ?_⟩
  · rw [List.getElem_cons_drop, List.take_append_drop]
  · rwa [List.getElem_take, List.getElem_reverse] at hc
  · rw [List.length_drop]
    omega
  · obtain ⟨k, hk, rfl⟩ := List.mem_iff_getElem.mp hd
    rw [List.length_drop] at hk
    have hvisible := hafter (i - 1 - k) (by omega)
    rw [List.getElem_take, List.getElem_reverse, Bool.not_eq_true] at hvisible
    rw [List.getElem_drop, ← hvisible]
    congr 2
    omega

/-- Where there is no boundary, a text ends visibly. -/
theorem trimEnd_of_wordBoundary_eq_none {front : Text} (h : wordBoundary front = none) :
    trimEndMatches isWhitespace front = front := by
  rw [wordBoundary, Option.map_eq_none_iff, List.findIdx?_eq_none_iff] at h
  rcases List.eq_nil_or_concat front with rfl | ⟨before, last, rfl⟩
  · rfl
  · rw [List.concat_eq_append]
    refine trimEnd_append_of_visible (List.cons_ne_nil last []) (fun c hc => ?_) before
    rw [List.mem_singleton.mp hc]
    refine h last ?_
    rw [List.concat_eq_append, List.reverse_append]
    exact List.mem_cons_self

/-! ## The cut -/

/-- What is left of a text that is cut where there is room for no more than `room` of its characters: a
beginning of it that does not end with white space, cut at most `wordBackoffChars` characters too early. -/
structure Cut (text : Text) (room : Nat) (front : Text) : Prop where
  begins : front <+: text
  trimmed : trimEndMatches isWhitespace front = front
  near : ∃ cut ≤ room, room ≤ cut + wordBackoffChars ∧ front = trimEndMatches isWhitespace (text.take cut)

theorem Cut.of_take (text : Text) {room cut : Nat} (hle : cut ≤ room) (hnear : room ≤ cut + wordBackoffChars) :
    Cut text room (trimEndMatches isWhitespace (text.take cut)) where
  begins := (List.rdropWhile_prefix _ _).trans (List.take_prefix cut text)
  trimmed := List.rdropWhile_idempotent _ _
  near := ⟨cut, hle, hnear, rfl⟩

theorem Cut.length_le {text front : Text} {room : Nat} (h : Cut text room front) : front.length ≤ room := by
  obtain ⟨cut, hle, -, rfl⟩ := h.near
  have htrim := (List.rdropWhile_prefix isWhitespace (text.take cut)).length_le
  exact (htrim.trans (List.length_take_le cut text)).trans hle

/-- What is cut from what there is room for is cut from the text. -/
theorem Cut.of_front {text front : Text} {room : Nat} (h : Cut (text.take room) room front) :
    Cut text room front := by
  obtain ⟨cut, hle, hnear, rfl⟩ := h.near
  rw [List.take_take, min_eq_left hle]
  exact .of_take text hle hnear

/-- The front that a preview keeps: up to the boundary, unless that leaves only white space. -/
def keptFront (front : Text) (boundary : Option Text) : Text :=
  ((boundary.map (trimEndMatches isWhitespace)).filter (!·.isEmpty)).getD front

theorem keptFront_some_of_blank {word : Text} (h : ∀ c ∈ word, isWhitespace c = true) (front : Text) :
    keptFront front (some word) = front := by
  rw [keptFront, Option.map_some, trimEnd_eq_nil.mpr h]
  rfl

theorem keptFront_some_of_visible {word : Text} (h : ¬∀ c ∈ word, isWhitespace c = true) (front : Text) :
    keptFront front (some word) = trimEndMatches isWhitespace word := by
  have hne : trimEndMatches isWhitespace word ≠ [] := mt trimEnd_eq_nil.mp h
  simp [keptFront, Option.filter, hne]

/-- White space at the cut: the front ends with a word already. -/
theorem keptFront_whole {front : Text} (h : ¬∀ c ∈ front, isWhitespace c = true) :
    Cut front front.length (keptFront front (some front)) := by
  have hcut := Cut.of_take front le_rfl (Nat.le_add_right front.length wordBackoffChars)
  rw [List.take_length] at hcut
  rwa [keptFront_some_of_visible h]

/-- A word goes on at the cut: it is left out if a word ends not far before it. -/
theorem keptFront_wordBoundary {front : Text} (h : ¬∀ c ∈ front, isWhitespace c = true) :
    Cut front front.length (keptFront front (wordBoundary front)) := by
  have hwhole := Cut.of_take front le_rfl (Nat.le_add_right front.length wordBackoffChars)
  rw [List.take_length] at hwhole
  cases hword : wordBoundary front with
  | none =>
    rw [trimEnd_of_wordBoundary_eq_none hword] at hwhole
    exact hwhole
  | some word =>
    obtain ⟨c, rest, rfl, hc, hshort, hvisible⟩ := wordBoundary_eq_some hword
    by_cases hblank : ∀ d ∈ word, isWhitespace d = true
    · -- nothing but white space before the only word: all of the front stays
      have hne : rest ≠ [] := by
        rintro rfl
        refine h fun d hd => ?_
        rcases List.mem_append.mp hd with hd | hd
        · exact hblank d hd
        · rwa [List.mem_singleton.mp hd]
      have hend := trimEnd_append_of_visible hne hvisible (word ++ [c])
      rw [List.append_assoc, List.singleton_append] at hend
      rw [hend] at hwhole
      rwa [keptFront_some_of_blank hblank]
    · have hcut := @Cut.of_take (word ++ c :: rest) (word ++ c :: rest).length word.length
        (by simp) (by simp only [List.length_append, List.length_cons]; omega)
      rw [List.take_left] at hcut
      rwa [keptFront_some_of_visible hblank]

/-- A front of white space stays as it is. -/
theorem keptFront_blank {front : Text} (h : ∀ c ∈ front, isWhitespace c = true) :
    keptFront front (some front) = front ∧ keptFront front (wordBoundary front) = front := by
  refine ⟨keptFront_some_of_blank h front, ?_⟩
  cases hword : wordBoundary front with
  | none => rfl
  | some word =>
    obtain ⟨c, rest, rfl, -⟩ := wordBoundary_eq_some hword
    exact keptFront_some_of_blank (fun d hd => h d (List.mem_append_left _ hd)) _

/-! ## The preview -/

/-- A text that fits is not cut. -/
theorem truncatePreview_of_le {text : Text} {maxChars : Nat}
    (h : (trimEndMatches isWhitespace text).length ≤ maxChars) :
    truncatePreview text maxChars = trimEndMatches isWhitespace text := by
  unfold truncatePreview
  split
  · next hzero =>
    rw [hzero, Nat.le_zero, List.length_eq_zero_iff] at h
    exact h.symm
  · have hrest : ((trimEndMatches isWhitespace text).drop (maxChars - 1)).length ≤ 1 := by
      rw [List.length_drop]
      omega
    dsimp only
    split
    · rfl
    · rfl
    · next c rest hmore hdrop =>
      rw [hdrop, List.length_cons] at hrest
      have hnil : rest = [] := List.length_eq_zero_iff.mp (by omega)
      exact absurd hnil hmore

/-- A text that does not fit is cut at one of two boundaries. -/
theorem truncatePreview_of_lt {text : Text} {maxChars : Nat} (hpos : 0 < maxChars)
    (h : maxChars < (trimEndMatches isWhitespace text).length) :
    ∃ boundary, (boundary = some (text.take (maxChars - 1)) ∨ boundary = wordBoundary (text.take (maxChars - 1))) ∧
      truncatePreview text maxChars = keptFront (text.take (maxChars - 1)) boundary ++ ['…'] := by
  have hfront : (trimEndMatches isWhitespace text).take (maxChars - 1) = text.take (maxChars - 1) := by
    obtain ⟨spaces, hspaces⟩ := List.rdropWhile_prefix isWhitespace text
    conv_rhs => rw [← hspaces]
    rw [List.take_append_of_le_length]
    · rfl
    · exact (Nat.sub_le maxChars 1).trans h.le
  have hrest : 2 ≤ ((trimEndMatches isWhitespace text).drop (maxChars - 1)).length := by
    rw [List.length_drop]
    omega
  unfold truncatePreview
  rw [if_neg hpos.ne']
  dsimp only
  split
  · next hdrop =>
    rw [hdrop, List.length_nil] at hrest
    omega
  · next hdrop =>
    rw [hdrop, List.length_singleton] at hrest
    omega
  · next c rest _ _ =>
    rw [hfront]
    refine ⟨_, ?_, rfl⟩
    split
    · exact .inl rfl
    · exact .inr rfl

/-- What a preview of at most `maxChars` characters is. Room is left for the ellipsis. -/
structure IsPreview (text : Text) (maxChars : Nat) (preview : Text) : Prop where
  bounded : preview.length ≤ maxChars
  fits : (trimEndMatches isWhitespace text).length ≤ maxChars → preview = trimEndMatches isWhitespace text
  cut : maxChars < (trimEndMatches isWhitespace text).length →
    ¬(∀ c ∈ text.take (maxChars - 1), isWhitespace c = true) →
    ∃ front, Cut text (maxChars - 1) front ∧ preview = front ++ ['…']
  blank : 0 < maxChars → maxChars < (trimEndMatches isWhitespace text).length →
    (∀ c ∈ text.take (maxChars - 1), isWhitespace c = true) → preview = text.take (maxChars - 1) ++ ['…']

/-- A preview is what it is said to be, for every text and every limit. -/
theorem truncatePreview_exact (text : Text) (maxChars : Nat) :
    IsPreview text maxChars (truncatePreview text maxChars) := by
  rcases Nat.lt_or_ge maxChars (trimEndMatches isWhitespace text).length with hlt | hle
  · rcases Nat.eq_zero_or_pos maxChars with rfl | hpos
    · refine ⟨le_rfl, fun hle => absurd hlt (Nat.not_lt.mpr hle), fun _ hvisible => ?_,
        fun h => absurd h (lt_irrefl 0)⟩
      exact absurd (fun c hc => absurd hc List.not_mem_nil) hvisible
    · obtain ⟨boundary, hboundary, heq⟩ := truncatePreview_of_lt hpos hlt
      have hlength : (text.take (maxChars - 1)).length = maxChars - 1 := by
        have hle := (List.rdropWhile_prefix isWhitespace text).length_le
        rw [← trimEndMatches_eq_rdropWhile] at hle
        exact List.length_take_of_le (by omega)
      have hcut : ¬(∀ c ∈ text.take (maxChars - 1), isWhitespace c = true) →
          Cut text (maxChars - 1) (keptFront (text.take (maxChars - 1)) boundary) := by
        intro hvisible
        refine .of_front ?_
        rcases hboundary with rfl | rfl
        · simpa only [hlength] using keptFront_whole hvisible
        · simpa only [hlength] using keptFront_wordBoundary hvisible
      have hblank : (∀ c ∈ text.take (maxChars - 1), isWhitespace c = true) →
          keptFront (text.take (maxChars - 1)) boundary = text.take (maxChars - 1) := by
        intro hspaces
        rcases hboundary with rfl | rfl
        · exact (keptFront_blank hspaces).1
        · exact (keptFront_blank hspaces).2
      refine ⟨?_, fun hle => absurd hlt (Nat.not_lt.mpr hle), fun _ hvisible => ⟨_, hcut hvisible, heq⟩,
        fun _ _ hspaces => ?_⟩
      · have hkept : (keptFront (text.take (maxChars - 1)) boundary).length ≤ maxChars - 1 := by
          by_cases hspaces : ∀ c ∈ text.take (maxChars - 1), isWhitespace c = true
          · rw [hblank hspaces, hlength]
          · exact (hcut hspaces).length_le
        rw [heq, List.length_append, List.length_singleton]
        omega
      · rw [heq, hblank hspaces]
  · have hfits := truncatePreview_of_le hle
    refine ⟨by rwa [hfits], fun _ => hfits, fun hlt => absurd hle (Nat.not_le.mpr hlt),
      fun _ hlt => absurd hle (Nat.not_le.mpr hlt)⟩

/-- No ellipsis where there is no room for one, and white space stays where there is nothing else. -/
theorem truncatePreview_uncut :
    (0 < (trimEndMatches isWhitespace "a".toList).length ∧
      ¬∃ front, Cut "a".toList (0 - 1) front ∧ truncatePreview "a".toList 0 = front ++ ['…']) ∧
    (3 < (trimEndMatches isWhitespace "  abc".toList).length ∧
      ¬∃ front, Cut "  abc".toList (3 - 1) front ∧ truncatePreview "  abc".toList 3 = front ++ ['…']) := by
  refine ⟨⟨by decide, ?_⟩, by decide, ?_⟩
  · rintro ⟨front, -, heq⟩
    exact List.append_ne_nil_of_right_ne_nil front (List.cons_ne_nil '…' []) heq.symm
  · rintro ⟨front, hcut, heq⟩
    have hspaces : truncatePreview "  abc".toList 3 = "  ".toList ++ ['…'] := by decide
    rw [← List.append_cancel_right (hspaces.symm.trans heq)] at hcut
    exact absurd hcut.trimmed (by decide)

end Searcher
