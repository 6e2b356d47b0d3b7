-- SUMMARY: Where the streaming chunker splits a window of text: how long the pieces are, and that no line end is halved.
import NotedThat.Indexer.Chunker

/-!
# Splits

The scan for a split keeps the last place it prefers. Each such place, and the place it falls back
on, leaves a piece of bounded length behind and does not part `\r` from `\n`: a `\r` at the end of
a window that more text follows is left for the next piece.
-/

namespace Chunker

/-- Between the two characters of a line end. -/
def PartsLineEnd (before after : Text) : Prop := before.getLast? = some '\r' ∧ after.head? = some '\n'

/-- What the chunker may cut off in front of `rest`, which ends with the section. -/
structure Piece (maxChars minChars : Nat) (text rest : Text) : Prop where
  nonempty : text ≠ []
  atMost : text.length ≤ maxChars
  atLeast : rest = [] ∨ minChars ≤ text.length
  lineEnd : 2 ≤ maxChars → ¬PartsLineEnd text rest

/-- A cut of the window into a text and the rest, of which `P` holds. -/
def CutsAt (P : Text → Text → Prop) (window : Text) (n : Nat) : Prop :=
  ∃ text rest, window = text ++ rest ∧ P text rest ∧ n = (Utf8.encode text).length

/-! ## The scan -/

/-- What the scan remembers after reading `seen` of the window. -/
structure Scan.Valid (P : Text → Text → Prop) (window seen : Text) (scan : Scan) : Prop where
  byte : scan.byte = (Utf8.encode seen).length
  count : scan.count = seen.length
  whitespace : ∀ n ∈ scan.whitespace, CutsAt P window n
  paragraph : ∀ n ∈ scan.paragraph, CutsAt P window n

theorem Scan.Valid.cut {P : Text → Text → Prop} {window seen : Text} {scan : Scan} {hard : Nat}
    (h : scan.Valid P window seen) (hhard : CutsAt P window hard) : CutsAt P window (scan.cut hard) := by
  unfold Scan.cut
  cases hparagraph : scan.paragraph with
  | some n => exact h.paragraph n hparagraph
  | none =>
    cases hwhitespace : scan.whitespace with
    | some n => exact h.whitespace n hwhitespace
    | none => exact hhard

/-- What has to hold of the places the scan chooses from: the preferred ones, the last one, the one
before the last, and the end of the window. -/
structure Scan.Rule (P : Text → Text → Prop) (maxChars limit : Nat) (complete : Bool) (window : Text) :
    Prop where
  preferred : ∀ seen c rest, window = seen ++ c :: rest → seen.length < limit →
    maxChars * 3 / 4 ≤ seen.length + 1 → crPending complete c rest = false → P (seen ++ [c]) rest
  last : ∀ seen c rest, window = seen ++ c :: rest → seen.length + 1 = limit →
    crPending complete c rest = false ∨ seen = [] → P (seen ++ [c]) rest
  before : ∀ seen rest, window = seen ++ '\r' :: rest → seen.length + 1 = limit → seen ≠ [] →
    P seen ('\r' :: rest)
  all : window.length < limit → P window []

section

variable {P : Text → Text → Prop} {maxChars limit : Nat} {complete : Bool} {window : Text}

/-- One character further; the place behind it is preferred only if the rule allows it. -/
theorem Scan.Valid.next {seen rest : Text} {c : Char} {scan : Scan} (h : scan.Valid P window seen)
    (hrule : Scan.Rule P maxChars limit complete window) (hwindow : window = seen ++ c :: rest)
    (hlt : seen.length < limit) :
    (scan.next maxChars complete c rest).Valid P window (seen ++ [c]) := by
  have hbyte : (scan.next maxChars complete c rest).byte = (Utf8.encode (seen ++ [c])).length := by
    rw [Utf8.encode_append, List.length_append, ← h.byte, Utf8.encode_cons, Utf8.encode_nil,
      List.append_nil]
    rfl
  have hcount : (scan.next maxChars complete c rest).count = (seen ++ [c]).length := by
    rw [List.length_append, ← h.count]
    rfl
  have hplace : scan.count + 1 ≥ maxChars * 3 / 4 → crPending complete c rest = false →
      CutsAt P window (scan.next maxChars complete c rest).byte := by
    intro hlate hpending
    rw [h.count] at hlate
    exact ⟨seen ++ [c], rest, by rw [hwindow, List.append_assoc]; rfl,
      hrule.preferred seen c rest hwindow hlt hlate hpending, hbyte⟩
  refine ⟨hbyte, hcount, fun n hn => ?_, fun n hn => ?_⟩
  · simp only [Scan.next] at hn
    split at hn
    · next hpreferred =>
      obtain rfl := Option.mem_some_iff.mp hn
      exact hplace hpreferred.1 hpreferred.2.2
    · exact h.whitespace n hn
  · simp only [Scan.next] at hn
    split at hn
    · next hpreferred =>
      obtain rfl := Option.mem_some_iff.mp hn
      exact hplace hpreferred.1.1 hpreferred.1.2.2
    · exact h.paragraph n hn

theorem scanCut_cutsAt {seen rest : Text} {scan : Scan} (h : scan.Valid P window seen)
    (hrule : Scan.Rule P maxChars limit complete window) (hwindow : window = seen ++ rest)
    (hlt : seen.length < limit) : CutsAt P window (scanCut maxChars limit complete scan rest) := by
  induction rest generalizing scan seen with
  | nil =>
    rw [List.append_nil] at hwindow
    subst hwindow
    exact h.cut ⟨window, [], (List.append_nil window).symm, hrule.all hlt, h.byte⟩
  | cons c rest ih =>
    have hnext := h.next hrule hwindow hlt
    have hlength : (seen ++ [c]).length = seen.length + 1 := List.length_append
    have hcount := hnext.count
    simp only [scanCut]
    split
    · next hlast =>
      rw [hcount, hlength] at hlast
      refine hnext.cut ?_
      split
      · next hbefore =>
        -- the `\r` is left for the next piece
        have hseen : seen ≠ [] := by
          rintro rfl
          exact absurd hbefore.2 (by rw [h.byte]; decide)
        obtain ⟨rfl, -⟩ : c = '\r' ∧ _ := by simpa [crPending] using hbefore.1
        exact ⟨seen, '\r' :: rest, hwindow, hrule.before seen rest hwindow hlast hseen, h.byte⟩
      · next hbefore =>
        refine ⟨seen ++ [c], rest, by rw [hwindow, List.append_assoc]; rfl,
          hrule.last seen c rest hwindow hlast ?_, hnext.byte⟩
        cases hpending : crPending complete c rest with
        | false => exact .inl rfl
        | true =>
          refine .inr ?_
          by_contra hseen
          exact hbefore ⟨hpending, h.byte ▸ Utf8.encode_length_pos hseen⟩
    · next hmore =>
      rw [hcount, hlength] at hmore
      exact ih hnext (by rw [hwindow, List.append_assoc]; rfl) (by omega)

theorem splitByte_cutsAt {minTail : Nat}
    (hwhole : complete = true → window.length ≤ maxChars → P window [])
    (hpart : ∀ limit, (complete = true → maxChars < window.length ∧ limit = min maxChars (window.length - minTail)) →
      (complete = false → limit = maxChars) → 0 < limit ∧ Scan.Rule P maxChars limit complete window) :
    CutsAt P window (splitByte window maxChars minTail complete) := by
  have hstart : ({} : Scan).Valid P window [] := ⟨rfl, rfl, (fun n hn => nomatch hn), (fun n hn => nomatch hn)⟩
  unfold splitByte
  split
  · next hall => exact ⟨window, [], (List.append_nil window).symm, hwhole hall.1 hall.2, rfl⟩
  · next hmany =>
    dsimp only
    cases complete with
    | true =>
      have htotal : maxChars < window.length := by
        by_contra hfew
        exact hmany ⟨rfl, by omega⟩
      obtain ⟨hpos, hrule⟩ := hpart (min maxChars (window.length - minTail)) (fun _ => ⟨htotal, rfl⟩) nofun
      exact scanCut_cutsAt hstart hrule (List.nil_append window).symm hpos
    | false =>
      obtain ⟨hpos, hrule⟩ := hpart maxChars nofun fun _ => rfl
      exact scanCut_cutsAt hstart hrule (List.nil_append window).symm hpos

end

/-! ## Pieces -/

/-- A `\r` that `\n` may follow is pending. -/
theorem not_partsLineEnd {complete : Bool} {seen rest more : Text} {c : Char}
    (hcomplete : complete = true ↔ more = []) (h : crPending complete c rest = false) :
    ¬PartsLineEnd (seen ++ [c]) (rest ++ more) := by
  rintro ⟨hcr, hlf⟩
  obtain rfl : c = '\r' := by simpa using hcr
  cases rest with
  | nil =>
    cases complete with
    | true =>
      rw [hcomplete.mp rfl] at hlf
      exact absurd hlf nofun
    | false => exact absurd h (by decide)
  | cons next rest =>
    obtain rfl : next = '\n' := by simpa using hlf
    exact absurd h (by simp [crPending])

/-- A window that is not all that is left holds as many characters as a chunk may have. -/
theorem splitByte_piece {maxChars minChars : Nat} {complete : Bool} {window more : Text} (hne : window ≠ [])
    (hpos : 1 ≤ maxChars) (hmin : 4 * minChars ≤ maxChars) (hcomplete : complete = true ↔ more = [])
    (hfull : complete = false → maxChars ≤ window.length) :
    CutsAt (fun text rest => Piece maxChars minChars text (rest ++ more)) window
      (splitByte window maxChars minChars complete) := by
  refine splitByte_cutsAt (fun hall hfew => ?_) fun limit hwhole hpart => ?_
  · obtain rfl := hcomplete.mp hall
    exact ⟨hne, hfew, .inl rfl, fun _ hparts => absurd hparts.2 nofun⟩
  · -- the limit leaves room for a piece that is not short, and does not pass the window
    obtain ⟨hmax, htail, hline, hlimit⟩ :
        limit ≤ maxChars ∧ minChars ≤ limit - 1 ∧ (2 ≤ maxChars → 2 ≤ limit) ∧ limit ≤ window.length := by
      cases complete with
      | true =>
        obtain ⟨htotal, rfl⟩ := hwhole rfl
        omega
      | false =>
        obtain rfl := hpart rfl
        have htotal := hfull rfl
        omega
    have hlimitPos : 0 < limit := by
      cases complete with
      | true =>
        obtain ⟨htotal, rfl⟩ := hwhole rfl
        omega
      | false =>
        obtain rfl := hpart rfl
        omega
    refine ⟨hlimitPos, fun seen c rest _ hlt hlate hpending => ?_, fun seen c rest _ hlast hpending => ?_,
      fun seen rest _ hlast hseen => ?_, fun hshort => absurd hshort (Nat.not_lt.mpr hlimit)⟩
    · refine ⟨by simp, ?_, .inr ?_, fun _ => not_partsLineEnd hcomplete hpending⟩
      · rw [List.length_append, List.length_singleton]
        omega
      · rw [List.length_append, List.length_singleton]
        omega
    · refine ⟨by simp, ?_, .inr ?_, fun htwo => not_partsLineEnd hcomplete (hpending.resolve_right ?_)⟩
      · rw [List.length_append, List.length_singleton]
        omega
      · rw [List.length_append, List.length_singleton]
        omega
      · rintro rfl
        have htwo' := hline htwo
        rw [List.length_nil] at hlast
        omega
    · exact ⟨hseen, by omega, .inr (by omega), fun _ hparts => absurd hparts.2 (by simp)⟩

/-- Any text is cut behind at least one character. -/
theorem splitByte_nonempty {window : Text} (hne : window ≠ []) {maxChars minTail : Nat} (hpos : 1 ≤ maxChars)
    (htail : minTail ≤ maxChars) (complete : Bool) :
    CutsAt (fun text _ => text ≠ []) window (splitByte window maxChars minTail complete) := by
  refine splitByte_cutsAt (fun _ _ => hne) fun limit hwhole hpart => ⟨?_, fun _ _ _ _ _ _ _ => by simp,
    fun _ _ _ _ _ _ => by simp, fun _ _ _ _ hseen => hseen, fun _ => hne⟩
  cases complete with
  | true =>
    obtain ⟨htotal, rfl⟩ := hwhole rfl
    omega
  | false =>
    obtain rfl := hpart rfl
    exact hpos

end Chunker
