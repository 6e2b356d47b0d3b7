-- SUMMARY: Lossy UTF-8 decoding in pieces: what is invalid is replaced, what ends in the middle of a character is kept, and the pieces do not matter.
import NotedThat.Lib.Utf8Slices

/-!
# Lossy decoding

Bytes are decoded from the left. What no character begins with is replaced, unless the bytes end in it
and more of them might make it a character: then it is kept for when they come. What bytes decode to
does not depend on where they were cut.
-/

namespace Utf8

/-- `char::REPLACEMENT_CHARACTER`. -/
def replacementCharacter : Char := '\ufffd'

/-- How many of the bytes could have been a character that then goes wrong. -/
def invalidLength : Bytes → Nat
  | a :: b :: c :: _ => if mayFollow a b then if 0xF0 ≤ a ∧ isContinuation c then 3 else 2 else 1
  | _ => 1

/-- `Utf8Error::error_len`, of the bytes from `Utf8Error::valid_up_to` on. -/
def errorLen (b : Bytes) : Option Nat := if isTruncated b then none else some (invalidLength b)

/-- The bytes decode to a text, and the last of them are kept. -/
inductive Lossy : Bytes → Text → Bytes → Prop where
  | nil : Lossy [] [] []
  | part {b : Bytes} : isTruncated b = true → Lossy b [] b
  | char {b part : Bytes} {t : Text} (c : Char) :
      Lossy b t part → Lossy (String.utf8EncodeChar c ++ b) (c :: t) part
  | invalid {b part : Bytes} {t : Text} {len : Nat} :
      Stuck b → errorLen b = some len → Lossy (b.drop len) t part →
        Lossy b (replacementCharacter :: t) part

/-! ## Truncated characters -/

theorem mayFollow_lead {a b : UInt8} (h : mayFollow a b = true) : 0xE0 ≤ a ∧ a ≤ 0xF4 := by
  simp only [mayFollow, isContinuation, decide_eq_true_eq, UInt8.le_iff_toNat_le, ← UInt8.toNat_inj,
    UInt8.reduceToNat, ne_eq] at h ⊢
  omega

/-- The first byte of a truncated character says that more follow than there are. -/
theorem isTruncated_lead {b : Bytes} (h : isTruncated b = true) : ∃ a rest, b = a :: rest ∧
    rest.length ≤ 2 ∧ 0xC2 ≤ a ∧ (1 ≤ rest.length → 0xE0 ≤ a) ∧ (2 ≤ rest.length → 0xF0 ≤ a) := by
  unfold isTruncated at h
  split at h
  · next a =>
    rw [decide_eq_true_eq] at h
    exact ⟨a, [], rfl, by simp, h.1, by simp, by simp⟩
  · next a b =>
    have hlead := (mayFollow_lead h).1
    exact ⟨a, [b], rfl, by simp, UInt8.le_trans (by decide) hlead, fun _ => hlead, by simp⟩
  · next a b c =>
    rw [decide_eq_true_eq] at h
    have hlead := (mayFollow_lead h.2.1).1
    exact ⟨a, [b, c], rfl, by simp, UInt8.le_trans (by decide) hlead, fun _ => hlead, fun _ => h.1⟩
  · cases h

theorem not_begins_of_isTruncated {b : Bytes} (h : isTruncated b = true) (c : Char) :
    ¬ String.utf8EncodeChar c <+: b := by
  rintro ⟨more, hmore⟩
  have hvalid : c.val.toNat < 0xD800 ∨ 0xDFFF < c.val.toNat ∧ c.val.toNat < 0x110000 := c.valid
  obtain ⟨a, rest, rfl, hlen, hone, htwo, hthree⟩ := isTruncated_lead h
  simp only [UInt8.le_iff_toNat_le, UInt8.reduceToNat] at hone htwo hthree
  unfold String.utf8EncodeChar at hmore
  dsimp only at hmore
  split_ifs at hmore with h1 h2 h3
  · obtain ⟨rfl, -⟩ := List.cons.inj hmore
    rw [UInt8.toNat_ofNat'] at hone
    omega
  · obtain ⟨rfl, rfl⟩ := List.cons.inj hmore
    have hlead := htwo (by simp)
    simp (disch := decide) only [toNat_digit] at hlead
    omega
  · obtain ⟨rfl, rfl⟩ := List.cons.inj hmore
    have hlead := hthree (by simp)
    simp (disch := decide) only [toNat_digit] at hlead
    omega
  · obtain ⟨-, rfl⟩ := List.cons.inj hmore
    simp at hlen

/-- A front of a truncated character is one. -/
theorem isTruncated_of_append {b more : Bytes} (hne : b ≠ []) (h : isTruncated (b ++ more) = true) :
    isTruncated b = true := by
  have hlead : ∀ {a b : UInt8}, mayFollow a b = true → isTruncated [a] = true := by
    intro a b hfollow
    obtain ⟨hlow, hhigh⟩ := mayFollow_lead hfollow
    exact decide_eq_true ⟨UInt8.le_trans (by decide) hlow, hhigh⟩
  match b, more with
  | [], _ => exact absurd rfl hne
  | b, [] => rwa [List.append_nil] at h
  | [a], [b] => exact hlead h
  | [a], [b, c] =>
    have hthree := of_decide_eq_true h
    exact hlead hthree.2.1
  | [a, b], [c] =>
    have hthree := of_decide_eq_true h
    exact hthree.2.1
  | [a], _ :: _ :: _ :: _ => cases h
  | [a, b], _ :: _ :: _ => cases h
  | [a, b, c], _ :: _ => cases h
  | _ :: _ :: _ :: _ :: _, _ :: _ => cases h

/-! ## Cuts -/

/-- What goes wrong does so whatever comes behind it. -/
theorem errorLen_append {b : Bytes} {len : Nat} (hne : b ≠ []) (h : errorLen b = some len)
    (more : Bytes) : errorLen (b ++ more) = some len ∧ 0 < len ∧ len ≤ b.length := by
  rw [errorLen, Option.ite_none_left_eq_some] at h
  obtain ⟨hwhole, hlen⟩ := h
  have hmore : ¬ isTruncated (b ++ more) = true := fun htruncated =>
    hwhole (isTruncated_of_append hne htruncated)
  rw [errorLen, if_neg hmore, ← hlen]
  -- only the first three bytes are looked at, and with fewer the second does not fit the first
  have hfirst : ∀ {a b : UInt8}, isTruncated [a] ≠ true → mayFollow a b = false := by
    intro a b hnot
    rw [Bool.eq_false_iff]
    intro hfollow
    obtain ⟨hlow, hhigh⟩ := mayFollow_lead hfollow
    exact hnot (decide_eq_true ⟨UInt8.le_trans (by decide) hlow, hhigh⟩)
  cases hlen
  match b, more with
  | [], _ => exact absurd rfl hne
  | [a], [] => simp [invalidLength]
  | [a], [b] => simp [invalidLength]
  | [a], b :: c :: _ => simp [invalidLength, hfirst hwhole]
  | [a, b], [] => simp [invalidLength]
  | [a, b], c :: _ =>
    have hfollow : mayFollow a b = false := Bool.eq_false_iff.mpr hwhole
    simp [invalidLength, hfollow]
  | a :: b :: c :: rest, more =>
    refine ⟨rfl, ?_⟩
    simp only [invalidLength, List.length_cons]
    split_ifs <;> omega

theorem Stuck.append {b : Bytes} {len : Nat} (h : Stuck b) (hlen : errorLen b = some len)
    (more : Bytes) : Stuck (b ++ more) := by
  refine ⟨List.append_ne_nil_of_left_ne_nil h.1 more, fun c hbegins => ?_⟩
  rcases List.prefix_or_prefix_of_prefix hbegins (List.prefix_append b more) with hin | hpart
  · exact h.2 c hin
  · have hproper : b ≠ String.utf8EncodeChar c := by
      rintro rfl
      exact h.2 c List.prefix_rfl
    rw [errorLen, if_pos (isTruncated_of_isPart ⟨hpart, hproper⟩ h.1)] at hlen
    cases hlen

theorem stuck_of_isTruncated {b : Bytes} (h : isTruncated b = true) : Stuck b := by
  refine ⟨?_, not_begins_of_isTruncated h⟩
  rintro rfl
  cases h

namespace Lossy

variable {a b part part' : Bytes} {t t' : Text}

/-- Decoding bytes, and then what was kept with the bytes behind them, decodes the whole. -/
theorem append (h : Lossy a t part) (h' : Lossy (part ++ b) t' part') : Lossy (a ++ b) (t ++ t') part' := by
  induction h with
  | nil => exact h'
  | part htruncated => exact h'
  | char c _ ih =>
    rw [List.append_assoc]
    exact .char c (ih h')
  | @invalid a _ _ len hstuck hlen _ ih =>
    obtain ⟨hmore, -, hle⟩ := errorLen_append hstuck.1 hlen b
    refine .invalid (hstuck.append hlen b) hmore ?_
    rw [List.drop_append_of_le_length hle]
    exact ih h'

theorem unique (h : Lossy a t part) (h' : Lossy a t' part') : t = t' ∧ part = part' := by
  induction h generalizing t' part' with
  | nil =>
    generalize hempty : ([] : Bytes) = b at h'
    cases h' with
    | nil => exact ⟨rfl, rfl⟩
    | part htruncated => exact ⟨rfl, rfl⟩
    | char c _ => exact absurd (List.append_eq_nil_iff.mp hempty.symm).1 String.utf8EncodeChar_ne_nil
    | invalid hstuck => exact absurd hempty.symm hstuck.1
  | @part a htruncated =>
    generalize hwhole : a = b at h'
    cases h' with
    | nil =>
      cases hwhole
      cases htruncated
    | part => exact ⟨rfl, rfl⟩
    | char c _ =>
      exact absurd (hwhole ▸ List.prefix_append _ _) ((stuck_of_isTruncated htruncated).2 c)
    | invalid _ hlen =>
      cases hwhole
      rw [errorLen, if_pos htruncated] at hlen
      cases hlen
  | @char a _ _ c _ ih =>
    generalize hwhole : String.utf8EncodeChar c ++ a = b at h'
    cases h' with
    | nil => exact absurd (List.append_eq_nil_iff.mp hwhole).1 String.utf8EncodeChar_ne_nil
    | part htruncated =>
      exact absurd (hwhole ▸ List.prefix_append _ _) ((stuck_of_isTruncated htruncated).2 c)
    | char d hrest =>
      obtain ⟨rfl, rfl⟩ := encodeChar_append_inj hwhole
      obtain ⟨rfl, hpart⟩ := ih hrest
      exact ⟨rfl, hpart⟩
    | invalid hstuck => exact absurd (hwhole ▸ List.prefix_append _ _) (hstuck.2 c)
  | @invalid a _ _ len hstuck hlen _ ih =>
    generalize hwhole : a = b at h'
    cases h' with
    | nil => exact absurd hwhole hstuck.1
    | part htruncated =>
      cases hwhole
      rw [errorLen, if_pos htruncated] at hlen
      cases hlen
    | char c _ => exact absurd (hwhole ▸ List.prefix_append _ _) (hstuck.2 c)
    | invalid _ hlen' hrest =>
      cases hwhole
      rw [hlen] at hlen'
      cases hlen'
      obtain ⟨rfl, hpart⟩ := ih hrest
      exact ⟨rfl, hpart⟩

/-- A text in front is decoded as it is. -/
theorem encode_append (s : Text) (h : Lossy b t part) : Lossy (encode s ++ b) (s ++ t) part := by
  induction s with
  | nil => exact h
  | cons c s ih =>
    rw [encode_cons, List.append_assoc]
    exact .char c ih

theorem encode (s : Text) : Lossy (encode s) s [] := by
  have hwhole := encode_append s .nil
  rwa [List.append_nil, List.append_nil] at hwhole

/-- A byte becomes three at most. -/
theorem length_le (h : Lossy b t part) : (Utf8.encode t).length + part.length ≤ 3 * b.length := by
  induction h with
  | nil => simp
  | @part b _ =>
    rw [encode_nil, List.length_nil]
    omega
  | char c _ ih =>
    rw [encode_cons, List.length_append, List.length_append]
    omega
  | @invalid b _ t len hstuck hlen _ ih =>
    obtain ⟨-, hpos, hle⟩ := errorLen_append hstuck.1 hlen []
    have hthree : (String.utf8EncodeChar replacementCharacter).length = 3 := by decide
    rw [encode_cons, List.length_append, hthree]
    rw [List.length_drop] at ih
    omega

end Lossy

/-! ## Checking -/

/-- Invalid bytes are those of a text, up to where they are stuck. -/
theorem fromUtf8_eq_invalid {b : Bytes} {valid : Nat} {truncated : Bool}
    (h : fromUtf8 b = .invalid valid truncated) :
    ∃ t, decode? (b.take valid) = some t ∧ b.take valid = encode t ∧ Stuck (b.drop valid) := by
  unfold fromUtf8 at h
  split at h
  · cases h
  · next hnone =>
    cases h
    have hvalid : (decode? (b.take (validUpTo b))).isSome = true :=
      Nat.findGreatest_spec (P := fun n => (decode? (b.take n)).isSome = true) (Nat.zero_le _)
        (by rw [List.take_zero, ← encode_nil, decode?_encode]; rfl)
    obtain ⟨t, ht⟩ := Option.isSome_iff_exists.mp hvalid
    have htake := decode?_eq_some.mp ht
    refine ⟨t, ht, htake, fun hnil => ?_, fun c hbegins => ?_⟩
    · rw [List.take_of_length_le (List.drop_eq_nil_iff.mp hnil), hnone] at ht
      cases ht
    · -- with one more character the bytes would be valid further
      obtain ⟨rest, hrest⟩ := hbegins
      have hb : b = encode (t ++ [c]) ++ rest := by
        rw [encode_append, ← htake, encode_cons, encode_nil, List.append_nil, List.append_assoc, hrest,
          List.take_append_drop]
      have hlong : (encode (t ++ [c])).length ≤ validUpTo b := by
        refine Nat.le_findGreatest ?_ ?_
        · rw [hb, List.length_append]
          exact Nat.le_add_right _ _
        · rw [hb, List.take_left, decode?_encode]
          rfl
      have hshort : (encode t).length = validUpTo b := by
        rw [← htake, List.length_take]
        exact Nat.min_eq_left (Nat.findGreatest_le _)
      have hpos := encode_length_pos (List.cons_ne_nil c [])
      rw [encode_append, List.length_append] at hlong
      omega

/-- Bytes are those of a text, or of one with what it is stuck in behind. -/
theorem encode_or_stuck (b : Bytes) : (∃ t, b = encode t) ∨ ∃ t x, b = encode t ++ x ∧ Stuck x := by
  cases hchecked : fromUtf8 b with
  | valid t =>
    unfold fromUtf8 at hchecked
    split at hchecked
    · next s hs => exact .inl ⟨s, decode?_eq_some.mp hs⟩
    · cases hchecked
  | invalid valid truncated =>
    obtain ⟨t, -, htake, hstuck⟩ := fromUtf8_eq_invalid hchecked
    exact .inr ⟨t, _, (htake ▸ List.take_append_drop valid b).symm, hstuck⟩

theorem Stuck.not_text {b : Bytes} (h : Stuck b) {s t : Text} : encode s ++ b ≠ encode t := by
  intro heq
  have hinvalid := fromUtf8_stuck h s
  rw [heq, fromUtf8_encode] at hinvalid
  cases hinvalid

/-! ## The whole at once -/

/-- `String::from_utf8_lossy`: what is invalid is replaced, also at the end. -/
def fromUtf8Lossy (b : Bytes) : Text :=
  match _h : fromUtf8 b with
  | .valid t => t
  | .invalid valid _ =>
    let front := (decode? (b.take valid)).getD []
    match _hlen : errorLen (b.drop valid) with
    | none => front ++ [replacementCharacter]
    | some len => front ++ replacementCharacter :: fromUtf8Lossy (b.drop (valid + len))
termination_by b.length
decreasing_by
  obtain ⟨t, -, -, hstuck⟩ := fromUtf8_eq_invalid _h
  obtain ⟨-, hpos, hle⟩ := errorLen_append hstuck.1 _hlen []
  rw [List.length_drop] at hle ⊢
  omega

theorem fromUtf8Lossy_encode (t : Text) : fromUtf8Lossy (encode t) = t := by
  have hvalid : fromUtf8 (encode t) = .valid t := by
    rw [fromUtf8, decode?_encode]
  rw [fromUtf8Lossy]
  split
  · next s hs =>
    rw [hvalid] at hs
    cases hs
    rfl
  · next valid truncated hinvalid =>
    rw [hvalid] at hinvalid
    cases hinvalid

/-- Only what is UTF-8 is decoded to a text that has these bytes. -/
theorem encode_fromUtf8Lossy {b : Bytes} : encode (fromUtf8Lossy b) = b ↔ ∃ t, b = encode t := by
  constructor
  · intro h
    exact ⟨_, h.symm⟩
  · rintro ⟨t, rfl⟩
    rw [fromUtf8Lossy_encode]

end Utf8
