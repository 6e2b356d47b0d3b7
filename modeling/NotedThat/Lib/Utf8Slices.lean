-- SUMMARY: Cutting UTF-8: encodings are prefix-free, and what a cut in the middle of a character leaves.
import NotedThat.Lib.ByteOrder
import Mathlib.Data.Nat.Find

/-!
# Slices of UTF-8

No encoding of a character begins that of another. So the front of an encoded text is an encoded
text again, with at most a part of one further character behind it.
-/

namespace Utf8

/-! ## Prefixes -/

theorem encodeChar_eq_of_begins {c d : Char} (h : String.utf8EncodeChar c <+: String.utf8EncodeChar d) :
    c = d := by
  obtain ⟨rest, hrest⟩ := h
  rcases lt_trichotomy c d with hlt | heq | hlt
  · -- with something behind the shorter one, it would have to come first and last
    have hlt' := encodeChar_lt hlt (rest ++ [0]) []
    rw [List.append_nil, ← List.append_assoc, hrest] at hlt'
    exact absurd hlt' (List.lt_asymm (List.lt_append_of_ne_nil (List.cons_ne_nil _ _)))
  · exact heq
  · have hlt' := encodeChar_lt hlt [] rest
    rw [List.append_nil, hrest] at hlt'
    exact absurd hlt' (List.lt_irrefl _)

theorem encodeChar_append_inj {c d : Char} {x y : Bytes}
    (h : String.utf8EncodeChar c ++ x = String.utf8EncodeChar d ++ y) : c = d ∧ x = y := by
  have hle : String.utf8EncodeChar c <+: String.utf8EncodeChar d ++ y := ⟨x, h⟩
  have hcd : c = d :=
    (List.prefix_or_prefix_of_prefix hle (List.prefix_append _ y)).elim encodeChar_eq_of_begins
      fun h => (encodeChar_eq_of_begins h).symm
  subst hcd
  exact ⟨rfl, List.append_cancel_left h⟩

theorem encode_length_pos {t : Text} (h : t ≠ []) : 0 < (encode t).length := by
  obtain ⟨c, rest, rfl⟩ := List.exists_cons_of_ne_nil h
  rw [encode_cons, List.length_append]
  exact Nat.add_pos_left (List.length_pos_iff.mpr String.utf8EncodeChar_ne_nil) _

theorem encodeChar_length_le (c : Char) : (String.utf8EncodeChar c).length ≤ 4 := by
  rw [String.length_utf8EncodeChar]
  exact Char.utf8Size_le_four c

theorem encode_length_le (t : Text) : (encode t).length ≤ 4 * t.length := by
  induction t with
  | nil => exact Nat.le_refl 0
  | cons c t ih =>
    have hc := encodeChar_length_le c
    rw [encode_cons, List.length_append, List.length_cons]
    omega

/-- A front of a text is encoded by no more bytes. -/
theorem encode_length_mono {s t : Text} (h : s <+: t) : (encode s).length ≤ (encode t).length := by
  obtain ⟨rest, rfl⟩ := h
  rw [encode_append, List.length_append]
  exact Nat.le_add_right _ _

/-- What begins like an encoded text begins with it. -/
theorem encode_append_eq {s t : Text} {x : Bytes} (h : encode s ++ x = encode t) :
    ∃ rest, t = s ++ rest ∧ x = encode rest := by
  induction s generalizing t with
  | nil => exact ⟨t, rfl, h⟩
  | cons c s ih =>
    cases t with
    | nil =>
      rw [encode_cons, encode_nil, List.append_assoc] at h
      exact absurd (List.append_eq_nil_iff.mp h).1 String.utf8EncodeChar_ne_nil
    | cons d t =>
      rw [encode_cons, encode_cons, List.append_assoc] at h
      obtain ⟨rfl, htail⟩ := encodeChar_append_inj h
      obtain ⟨rest, rfl, hx⟩ := ih htail
      exact ⟨rest, rfl, hx⟩

/-- A part of a character: some of its bytes, not all. -/
def IsPart (part : Bytes) (c : Char) : Prop :=
  part <+: String.utf8EncodeChar c ∧ part ≠ String.utf8EncodeChar c

/-- The front of an encoded text: as many characters as fit, and a part of the next. -/
theorem take_encode (t : Text) (n : Nat) : ∃ front rest part, t = front ++ rest ∧
    (encode t).take n = encode front ++ part ∧
      (part = [] ∨ ∃ c rest', rest = c :: rest' ∧ IsPart part c) := by
  induction t generalizing n with
  | nil => exact ⟨[], [], [], rfl, by simp, .inl rfl⟩
  | cons c t ih =>
    by_cases hfits : (String.utf8EncodeChar c).length ≤ n
    · obtain ⟨front, rest, part, rfl, htake, hpart⟩ := ih (n - (String.utf8EncodeChar c).length)
      refine ⟨c :: front, rest, part, rfl, ?_, hpart⟩
      rw [encode_cons, List.take_append, List.take_of_length_le hfits, htake, encode_cons,
        List.append_assoc]
    · refine ⟨[], c :: t, (String.utf8EncodeChar c).take n, rfl, ?_, .inr ⟨c, t, rfl, ?_, ?_⟩⟩
      · rw [encode_cons, List.take_append_of_le_length (Nat.le_of_not_le hfits)]
        rfl
      · exact List.take_prefix _ _
      · intro heq
        have hlen := congrArg List.length heq
        rw [List.length_take] at hlen
        exact hfits (by omega)

/-! ## Checking -/

/-- `Utf8Error::valid_up_to`: the greatest index up to which the bytes are UTF-8. -/
def validUpTo (b : Bytes) : Nat :=
  Nat.findGreatest (fun n => (decode? (b.take n)).isSome = true) b.length

/-- The bytes a character may go on with. -/
def isContinuation (b : UInt8) : Bool := 0x80 ≤ b ∧ b ≤ 0xBF

/-- Whether the second byte may follow the first of a character of three or four bytes. -/
def mayFollow (a b : UInt8) : Bool :=
  (a = 0xE0 ∧ 0xA0 ≤ b ∧ b ≤ 0xBF) ∨ (a = 0xED ∧ 0x80 ≤ b ∧ b ≤ 0x9F) ∨
    (0xE1 ≤ a ∧ a ≤ 0xEF ∧ a ≠ 0xED ∧ isContinuation b) ∨
    (a = 0xF0 ∧ 0x90 ≤ b ∧ b ≤ 0xBF) ∨ (0xF1 ≤ a ∧ a ≤ 0xF3 ∧ isContinuation b) ∨
    (a = 0xF4 ∧ 0x80 ≤ b ∧ b ≤ 0x8F)

/-- `Utf8Error::error_len` is none: the bytes end in the middle of a character. -/
def isTruncated : Bytes → Bool
  | [a] => 0xC2 ≤ a ∧ a ≤ 0xF4
  | [a, b] => mayFollow a b
  | [a, b, c] => 0xF0 ≤ a ∧ mayFollow a b ∧ isContinuation c
  | _ => false

/-- The result of `std::str::from_utf8`. -/
inductive Checked where
  | valid (t : Text)
  | invalid (upTo : Nat) (truncated : Bool)

def fromUtf8 (b : Bytes) : Checked :=
  match decode? b with
  | some t => .valid t
  | none => .invalid (validUpTo b) (isTruncated (b.drop (validUpTo b)))

theorem isTruncated_of_isPart {part : Bytes} {c : Char} (h : IsPart part c) (hne : part ≠ []) :
    isTruncated part = true := by
  obtain ⟨⟨rest, hrest⟩, hpart⟩ := h
  have hvalid : c.val.toNat < 0xD800 ∨ 0xDFFF < c.val.toNat ∧ c.val.toNat < 0x110000 := c.valid
  have hcut : rest ≠ [] := by
    rintro rfl
    rw [List.append_nil] at hrest
    exact hpart hrest
  obtain ⟨a, part, rfl⟩ := List.exists_cons_of_ne_nil hne
  unfold String.utf8EncodeChar at hrest
  dsimp only at hrest
  split_ifs at hrest
  · simp [hcut] at hrest
  · rcases part with _ | ⟨b, part⟩
    · obtain ⟨rfl, -⟩ := List.cons.inj hrest
      simp (disch := decide) only [isTruncated, decide_eq_true_eq, UInt8.le_iff_toNat_le, toNat_digit,
        UInt8.reduceToNat]
      omega
    · simp [hcut] at hrest
  · rcases part with _ | ⟨b, _ | ⟨d, part⟩⟩
    · obtain ⟨rfl, -⟩ := List.cons.inj hrest
      simp (disch := decide) only [isTruncated, decide_eq_true_eq, UInt8.le_iff_toNat_le, toNat_digit,
        UInt8.reduceToNat]
      omega
    · simp only [List.cons_append, List.cons.injEq] at hrest
      obtain ⟨rfl, rfl, -⟩ := hrest
      simp (disch := decide) only [isTruncated, mayFollow, isContinuation, decide_eq_true_eq,
        UInt8.le_iff_toNat_le, ← UInt8.toNat_inj, toNat_digit, UInt8.reduceToNat, ne_eq]
      omega
    · simp [hcut] at hrest
  · rcases part with _ | ⟨b, _ | ⟨d, _ | ⟨e, part⟩⟩⟩
    · obtain ⟨rfl, -⟩ := List.cons.inj hrest
      simp (disch := decide) only [isTruncated, decide_eq_true_eq, UInt8.le_iff_toNat_le, toNat_digit,
        UInt8.reduceToNat]
      omega
    · simp only [List.cons_append, List.cons.injEq] at hrest
      obtain ⟨rfl, rfl, -⟩ := hrest
      simp (disch := decide) only [isTruncated, mayFollow, isContinuation, decide_eq_true_eq,
        UInt8.le_iff_toNat_le, ← UInt8.toNat_inj, toNat_digit, UInt8.reduceToNat, ne_eq]
      omega
    · simp only [List.cons_append, List.cons.injEq] at hrest
      obtain ⟨rfl, rfl, rfl, -⟩ := hrest
      simp (disch := decide) only [isTruncated, mayFollow, isContinuation, decide_eq_true_eq,
        UInt8.le_iff_toNat_le, ← UInt8.toNat_inj, toNat_digit, UInt8.reduceToNat, ne_eq]
      omega
    · simp [hcut] at hrest

theorem fromUtf8_encode (t : Text) : fromUtf8 (encode t) = .valid t := by
  rw [fromUtf8, decode?_encode]

/-- There are bytes, and no character begins with them. -/
def Stuck (b : Bytes) : Prop := b ≠ [] ∧ ∀ c, ¬ String.utf8EncodeChar c <+: b

theorem stuck_of_isPart {part : Bytes} {c : Char} (h : IsPart part c) (hne : part ≠ []) : Stuck part := by
  refine ⟨hne, fun d hwhole => ?_⟩
  obtain rfl := encodeChar_eq_of_begins (hwhole.trans h.1)
  exact h.2 (h.1.eq_of_length_le hwhole.length_le)

theorem Stuck.encode_nil_of_begins {b : Bytes} (h : Stuck b) {t : Text} (hbegins : encode t <+: b) : t = [] := by
  cases t with
  | nil => rfl
  | cons c t =>
    rw [encode_cons] at hbegins
    exact absurd ((List.prefix_append _ _).trans hbegins) (h.2 c)

/-- A text with bytes behind it in which it is stuck is valid up to them. -/
theorem fromUtf8_stuck {b : Bytes} (h : Stuck b) (t : Text) :
    fromUtf8 (encode t ++ b) = .invalid (encode t).length (isTruncated b) := by
  -- no more of it is an encoded text: a character would begin with what is stuck
  have hnone : ∀ {n s}, decode? ((encode t ++ b).take n) = some s → n ≤ (encode t).length := by
    intro n s hs
    by_contra hlt
    rw [decode?_eq_some, List.take_append, List.take_of_length_le (by omega)] at hs
    obtain ⟨rest, -, hrest⟩ := encode_append_eq hs
    obtain rfl := h.encode_nil_of_begins (hrest ▸ List.take_prefix _ b)
    rcases List.take_eq_nil_iff.mp hrest with hzero | hnil
    · omega
    · exact h.1 hnil
  have hself : decode? ((encode t ++ b).take (encode t).length) = some t := by
    rw [List.take_left, decode?_encode]
  have hupTo : validUpTo (encode t ++ b) = (encode t).length := by
    refine Nat.findGreatest_eq_iff.mpr ⟨by simp, fun _ => by rw [hself]; rfl, fun n hn _ hsome => ?_⟩
    obtain ⟨s, hs⟩ := Option.isSome_iff_exists.mp hsome
    exact absurd (hnone hs) (Nat.not_le.mpr hn)
  have hinvalid : decode? (encode t ++ b) = none := by
    rw [Option.eq_none_iff_forall_ne_some]
    intro s hs
    rw [← List.take_length (l := encode t ++ b)] at hs
    have hle := hnone hs
    rw [List.length_append] at hle
    exact h.1 (List.eq_nil_of_length_eq_zero (by omega))
  rw [fromUtf8, hinvalid]
  simp only [hupTo, List.drop_left]

/-- A text cut in the middle of a character is valid up to it. -/
theorem fromUtf8_encode_append {t : Text} {part : Bytes} {c : Char} (h : IsPart part c)
    (hne : part ≠ []) : fromUtf8 (encode t ++ part) = .invalid (encode t).length true := by
  rw [fromUtf8_stuck (stuck_of_isPart h hne), isTruncated_of_isPart h hne]

end Utf8
