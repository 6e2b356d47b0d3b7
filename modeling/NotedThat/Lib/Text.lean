-- SUMMARY: Texts as lists of characters: prefixes, suffixes, splitting, trimming, UTF-8, percent-decoding and percent-encoding.
import Mathlib.Algebra.Group.Nat.Defs
import Mathlib.Data.Char
import Mathlib.Data.List.Lex
import Mathlib.Data.List.TakeWhile
import Mathlib.Tactic.Common

/-!
# Texts

A text is a list of Unicode scalar values and a byte string a list of bytes. The functions
follow Rust's `str` methods of the same names. Splitting at a character is `List.splitOn`.
-/

abbrev Text := List Char

instance : LawfulBEq Text := List.instLawfulBEq

abbrev Bytes := List UInt8

namespace Text

/-! ## Prefixes and suffixes -/

/-- `str::strip_prefix` with a string pattern. -/
def stripPrefix : Text → Text → Option Text
  | [], s => some s
  | _ :: _, [] => none
  | p :: ps, c :: cs => if p = c then stripPrefix ps cs else none

@[simp] theorem stripPrefix_append (p t : Text) : stripPrefix p (p ++ t) = some t := by
  induction p with
  | nil => rfl
  | cons c p ih => simpa [stripPrefix] using ih

theorem stripPrefix_eq_some {p s t : Text} : stripPrefix p s = some t ↔ s = p ++ t := by
  constructor
  · intro h
    induction p generalizing s with
    | nil => simpa [stripPrefix] using h
    | cons c p ih =>
      cases s with
      | nil => simp [stripPrefix] at h
      | cons d s =>
        simp only [stripPrefix] at h
        split at h
        · next hc => rw [hc, ih h]; rfl
        · cases h
  · rintro rfl
    exact stripPrefix_append p t

/-- `str::strip_suffix` with a character pattern. -/
def stripSuffix (c : Char) (s : Text) : Option Text :=
  if s.getLast? = some c then some s.dropLast else none

@[simp] theorem stripSuffix_append (c : Char) (t : Text) : stripSuffix c (t ++ [c]) = some t := by
  simp [stripSuffix]

theorem stripSuffix_eq_some {c : Char} {s t : Text} :
    stripSuffix c s = some t ↔ s = t ++ [c] := by
  constructor
  · intro h
    simp only [stripSuffix] at h
    split at h
    · next hl =>
      obtain ⟨l, rfl⟩ := List.getLast?_eq_some_iff.mp hl
      simpa using h
    · cases h
  · rintro rfl
    exact stripSuffix_append c t

theorem stripSuffix_eq_none {c : Char} {s : Text} :
    stripSuffix c s = none ↔ s.getLast? ≠ some c := by
  simp [stripSuffix]

/-- `str::split_once` with a character pattern: the text before and after the first `c`. -/
def splitOnce (c : Char) : Text → Option (Text × Text)
  | [] => none
  | d :: s => if d = c then some ([], s) else (splitOnce c s).map fun (a, b) => (d :: a, b)

theorem splitOnce_append {c : Char} {a : Text} (h : c ∉ a) (b : Text) :
    splitOnce c (a ++ c :: b) = some (a, b) := by
  induction a with
  | nil => simp [splitOnce]
  | cons d a ih =>
    simp only [List.mem_cons, not_or] at h
    simp [splitOnce, Ne.symm h.1, ih h.2]

theorem splitOnce_of_not_mem {c : Char} {s : Text} (h : c ∉ s) : splitOnce c s = none := by
  induction s with
  | nil => rfl
  | cons d s ih =>
    simp only [List.mem_cons, not_or] at h
    simp [splitOnce, Ne.symm h.1, ih h.2]

theorem splitOnce_eq_none {c : Char} {s : Text} : splitOnce c s = none ↔ c ∉ s := by
  refine ⟨?_, splitOnce_of_not_mem⟩
  intro h hc
  obtain ⟨a, b, rfl, ha⟩ := List.eq_append_cons_of_mem hc
  rw [splitOnce_append ha] at h
  cases h

theorem splitOnce_eq_some {c : Char} {s a b : Text} :
    splitOnce c s = some (a, b) ↔ s = a ++ c :: b ∧ c ∉ a := by
  refine ⟨?_, ?_⟩
  · intro h
    have hc : c ∈ s := by
      by_contra hc
      rw [splitOnce_of_not_mem hc] at h
      cases h
    obtain ⟨a', b', rfl, ha⟩ := List.eq_append_cons_of_mem hc
    rw [splitOnce_append ha] at h
    cases h
    exact ⟨rfl, ha⟩
  · rintro ⟨rfl, ha⟩
    exact splitOnce_append ha b

/-- A text is cut in one way before the first of a character. -/
theorem append_cons_inj {c : Char} {a a' b b' : Text} (ha : c ∉ a) (ha' : c ∉ a')
    (h : a ++ c :: b = a' ++ c :: b') : a = a' ∧ b = b' := by
  have hsplit := congrArg (splitOnce c) h
  rw [splitOnce_append ha, splitOnce_append ha'] at hsplit
  cases hsplit
  exact ⟨rfl, rfl⟩

/-- No piece of a split contains the character that was split on. -/
theorem not_mem_of_mem_splitOn {c : Char} {s w : Text} (h : w ∈ s.splitOn c) : c ∉ w := by
  induction s generalizing w with
  | nil =>
    simp only [List.splitOn_nil, List.mem_singleton] at h
    simp [h]
  | cons d s ih =>
    rw [List.splitOn_cons_eq_if_modifyHead] at h
    split at h
    · rcases List.mem_cons.mp h with rfl | hmem
      · simp
      · exact ih hmem
    · next hd =>
      obtain ⟨w₀, ws, hws⟩ := List.exists_cons_of_ne_nil (List.splitOn_ne_nil c s)
      rw [hws, List.modifyHead_cons] at h
      rcases List.mem_cons.mp h with rfl | hmem
      · have hw₀ : c ∉ w₀ := ih (by simp [hws])
        have hne : c ≠ d := fun heq => hd (by simp [heq])
        simp [hne, hw₀]
      · exact ih (by simp [hws, hmem])

/-- The pieces of a split have only characters of the text. -/
theorem mem_of_mem_splitOn {c d : Char} {s w : Text} (h : w ∈ s.splitOn c) (hd : d ∈ w) :
    d ∈ s := by
  induction s generalizing w with
  | nil =>
    simp only [List.splitOn_nil, List.mem_singleton] at h
    simp [h] at hd
  | cons e s ih =>
    rw [List.splitOn_cons_eq_if_modifyHead] at h
    split at h
    · rcases List.mem_cons.mp h with rfl | hmem
      · cases hd
      · exact List.mem_cons_of_mem _ (ih hmem hd)
    · obtain ⟨w₀, ws, hws⟩ := List.exists_cons_of_ne_nil (List.splitOn_ne_nil c s)
      rw [hws, List.modifyHead_cons] at h
      rcases List.mem_cons.mp h with rfl | hmem
      · rcases List.mem_cons.mp hd with rfl | hd
        · simp
        · exact List.mem_cons_of_mem _ (ih (by simp [hws]) hd)
      · exact List.mem_cons_of_mem _ (ih (by simp [hws, hmem]) hd)

/-! ## White space -/

/-- `char::is_whitespace`: the characters with the Unicode property `White_Space`. -/
def isWhitespace (c : Char) : Bool :=
  let n := c.toNat
  (0x9 ≤ n ∧ n ≤ 0xD) || n = 0x20 || n = 0x85 || n = 0xA0 || n = 0x1680 ||
    (0x2000 ≤ n ∧ n ≤ 0x200A) || n = 0x2028 || n = 0x2029 || n = 0x202F || n = 0x205F || n = 0x3000

theorem isWhitespace_of_isDigit {c : Char} (h : c.isDigit = true) : isWhitespace c = false := by
  have hrange : 48 ≤ c.toNat ∧ c.toNat ≤ 57 := Char.isDigit_iff_toNat.mp h
  simp only [isWhitespace, Bool.or_eq_false_iff, decide_eq_false_iff_not]
  omega

/-- `char::is_control`: the characters of the Unicode general category `Cc`. -/
def isControl (c : Char) : Bool :=
  let n := c.toNat
  n ≤ 0x1F || (0x7F ≤ n ∧ n ≤ 0x9F)

/-- `str::trim_start_matches` with a predicate. -/
def trimStartMatches (p : Char → Bool) (s : Text) : Text := s.dropWhile p

/-- `str::trim_end_matches` with a predicate. -/
def trimEndMatches (p : Char → Bool) (s : Text) : Text := (s.reverse.dropWhile p).reverse

/-- `str::trim`. -/
def trim (s : Text) : Text := trimEndMatches isWhitespace (trimStartMatches isWhitespace s)

/-- A text that neither starts nor ends with white space is its own trim. -/
theorem trim_eq_self {s : Text} (hh : ∀ c ∈ s.head?, isWhitespace c = false)
    (hl : ∀ c ∈ s.getLast?, isWhitespace c = false) : trim s = s := by
  have hstart : trimStartMatches isWhitespace s = s := by
    cases s with
    | nil => rfl
    | cons c s => simp [trimStartMatches, hh c (by simp)]
  rw [trim, hstart, trimEndMatches]
  cases hs : s.reverse with
  | nil => simp_all
  | cons c r =>
    have hc : isWhitespace c = false := hl c (by
      rw [← List.head?_reverse, hs]; rfl)
    rw [List.dropWhile_cons_of_neg (by simp [hc]), ← hs, List.reverse_reverse]

theorem dropWhile_of_head {s : Text} (h : ∀ c ∈ s.head?, isWhitespace c = false) : s.dropWhile isWhitespace = s := by
  cases s with
  | nil => rfl
  | cons c s => rw [List.dropWhile_cons_of_neg (by simp [h c (by simp)])]

/-- White space around a text that neither starts nor ends with any is trimmed. -/
theorem trim_padded {ws s ws' : Text} (hws : ∀ c ∈ ws, isWhitespace c = true)
    (hws' : ∀ c ∈ ws', isWhitespace c = true) (hh : ∀ c ∈ s.head?, isWhitespace c = false)
    (hl : ∀ c ∈ s.getLast?, isWhitespace c = false) : trim (ws ++ (s ++ ws')) = s := by
  rw [trim, trimStartMatches, List.dropWhile_append_of_pos hws]
  rcases List.eq_nil_or_concat s with rfl | ⟨front, last, rfl⟩
  · rw [List.nil_append, List.dropWhile_eq_nil_iff.mpr hws']
    rfl
  · have hstart : (front.concat last ++ ws').dropWhile isWhitespace = front.concat last ++ ws' := by
      refine dropWhile_of_head fun c hc => hh c ?_
      cases front with
      | nil => exact hc
      | cons d front => exact hc
    have hend : (front.concat last).reverse.dropWhile isWhitespace = (front.concat last).reverse :=
      dropWhile_of_head fun c hc => hl c (by rwa [List.head?_reverse] at hc)
    rw [hstart, trimEndMatches, List.reverse_append,
      List.dropWhile_append_of_pos fun c hc => hws' c (List.mem_reverse.mp hc), hend, List.reverse_reverse]

theorem trim_sublist (s : Text) : (trim s).Sublist s := by
  have hend : (trimEndMatches isWhitespace (trimStartMatches isWhitespace s)).reverse.Sublist
      (trimStartMatches isWhitespace s).reverse := by
    rw [trimEndMatches, List.reverse_reverse]
    exact List.dropWhile_sublist _
  exact (List.reverse_sublist.mp hend).trans (List.dropWhile_sublist _)

theorem mem_of_mem_trim {s : Text} {c : Char} (h : c ∈ trim s) : c ∈ s := (trim_sublist s).subset h

/-- Only white space is trimmed. -/
theorem mem_trim {s : Text} {c : Char} (h : c ∈ s) (hc : isWhitespace c = false) :
    c ∈ trim s := by
  have hdrop : ∀ t : Text, c ∈ t → c ∈ t.dropWhile isWhitespace := by
    intro t ht
    rw [← List.takeWhile_append_dropWhile (p := isWhitespace) (l := t)] at ht
    rcases List.mem_append.mp ht with ht | ht
    · have htrue := List.mem_takeWhile_imp ht
      rw [hc] at htrue
      cases htrue
    · exact ht
  rw [trim, trimEndMatches, List.mem_reverse]
  exact hdrop _ (List.mem_reverse.mpr (hdrop _ h))

theorem trim_eq_of_forall {s : Text} (h : ∀ c ∈ s, isWhitespace c = false) : trim s = s :=
  trim_eq_self (fun c hc => h c (List.mem_of_mem_head? hc)) fun c hc => h c (List.mem_of_mem_getLast? hc)

/-- `char::eq_ignore_ascii_case` on the characters of a text. -/
def toAsciiLowercase (s : Text) : Text := s.map Char.toLower

/-- The decimal digits of a number read from left to right, onto what was read before. -/
def digitsValue : Nat → Text → Option Nat
  | n, [] => some n
  | n, c :: rest => if c.isDigit then digitsValue (10 * n + (c.toNat - '0'.toNat)) rest else none

/-- Read an unsigned 64-bit integer: decimal digits, after at most one `+`. -/
def parseU64 (s : Text) : Option Nat :=
  let digits := (stripPrefix ['+'] s).getD s
  if digits.isEmpty then none else (digitsValue 0 digits).filter (· < 2 ^ 64)

theorem digitsValue_eq {n : Nat} {s : Text} (hs : ∀ c ∈ s, c.isDigit = true) :
    digitsValue n s = some (Nat.ofDigitChars 10 s n) := by
  induction s generalizing n with
  | nil => simp [digitsValue]
  | cons c s ih =>
    rw [digitsValue, if_pos (hs c (by simp)), ih fun d hd => hs d (by simp [hd]),
      Nat.ofDigitChars_cons]

/-- The decimal digits of a number are read back as that number. -/
theorem parseU64_toDigits_eq (n : Nat) :
    parseU64 (Nat.toDigits 10 n) = if n < 2 ^ 64 then some n else none := by
  have hdigit : ∀ c ∈ Nat.toDigits 10 n, c.isDigit = true := fun c hc =>
    Nat.isDigit_of_mem_toDigits (by decide) (by decide) hc
  have hplus : stripPrefix ['+'] (Nat.toDigits 10 n) = none := by
    cases hs : stripPrefix ['+'] (Nat.toDigits 10 n) with
    | none => rfl
    | some rest =>
      have := hdigit '+' (by simp [stripPrefix_eq_some.mp hs])
      cases this
  have hne : (Nat.toDigits 10 n).isEmpty = false := List.isEmpty_eq_false_iff.mpr Nat.toDigits_ne_nil
  simp only [parseU64, hplus, Option.getD_none, hne, digitsValue_eq hdigit,
    Nat.ofDigitChars_ten_toDigits, Option.filter_some, decide_eq_true_eq, Bool.false_eq_true, if_false]

theorem parseU64_toDigits {n m : Nat} (h : parseU64 (Nat.toDigits 10 n) = some m) : m = n := by
  rw [parseU64_toDigits_eq, Option.ite_none_right_eq_some] at h
  exact (Option.some.inj h.2).symm

/-- Replace a character by a text everywhere. -/
def replaceChar (c : Char) (replacement s : Text) : Text :=
  s.flatMap fun x => if x = c then replacement else [x]

theorem intercalate_append {sep : Text} {xs ys : List Text} (hxs : xs ≠ []) (hys : ys ≠ []) :
    sep.intercalate (xs ++ ys) = sep.intercalate xs ++ sep ++ sep.intercalate ys := by
  induction xs with
  | nil => exact absurd rfl hxs
  | cons x xs ih =>
    rw [List.cons_append, List.intercalate_cons_of_ne_nil (List.append_ne_nil_of_right_ne_nil xs hys)]
    cases xs with
    | nil => simp
    | cons x' xs =>
      rw [ih (List.cons_ne_nil _ _), List.intercalate_cons_cons]
      simp only [List.append_assoc]

theorem sublist_intercalate {sep w : Text} {ws : List Text} (h : w ∈ ws) : w.Sublist (sep.intercalate ws) := by
  induction ws with
  | nil => cases h
  | cons x xs ih =>
    cases xs with
    | nil =>
      rw [List.mem_singleton] at h
      rw [h, List.intercalate_singleton]
    | cons y ys =>
      rw [List.intercalate_cons_cons, List.append_assoc]
      rcases List.mem_cons.mp h with rfl | h
      · exact List.sublist_append_left _ _
      · exact (ih h).trans ((List.sublist_append_right _ _).trans (List.sublist_append_right _ _))

theorem sublist_of_mem_splitOn {c : Char} {s w : Text} (h : w ∈ s.splitOn c) : w.Sublist s := by
  have hsublist := @sublist_intercalate [c] w _ h
  rwa [List.intercalate_splitOn] at hsublist

/-- What follows the last separator goes with the last piece of a split. -/
theorem splitOn_append_of_not_mem {c : Char} {t : Text} (ht : c ∉ t) (s : Text) :
    (s ++ t).splitOn c = (s.splitOn c).dropLast ++ [(s.splitOn c).getLast?.getD [] ++ t] := by
  rcases List.eq_nil_or_concat (s.splitOn c) with hnil | ⟨front, last, hsplit⟩
  · exact absurd hnil (List.splitOn_ne_nil c s)
  · rw [List.concat_eq_append] at hsplit
    have hpieces : ∀ w ∈ front ++ [last], c ∉ w := fun w hw =>
      not_mem_of_mem_splitOn (hsplit ▸ hw)
    have hwhole : s ++ t = [c].intercalate (front ++ [last ++ t]) := by
      rw [← @List.intercalate_splitOn _ s _ _ c, hsplit]
      cases front with
      | nil => simp
      | cons first front =>
        rw [intercalate_append (List.cons_ne_nil _ _) (List.cons_ne_nil _ _),
          intercalate_append (List.cons_ne_nil _ _) (List.cons_ne_nil _ _)]
        simp
    rw [hwhole, hsplit, List.splitOn_intercalate]
    · simp
    · intro w hw
      rcases List.mem_append.mp hw with hw | hw
      · exact hpieces w (List.mem_append_left _ hw)
      · cases List.mem_singleton.mp hw
        simp [ht, hpieces last (by simp)]
    · simp

/-- A text goes on behind another and a separator exactly if its pieces are the other's and more. -/
theorem append_sep_prefix_iff {c : Char} {s t : Text} :
    s ++ [c] <+: t ↔ s.splitOn c <+: t.splitOn c ∧ s ≠ t := by
  constructor
  · rintro ⟨rest, rfl⟩
    refine ⟨?_, fun heq => ?_⟩
    · rw [List.append_assoc, List.singleton_append, List.splitOn_append_cons_self]
      exact List.prefix_append _ _
    · have hlen := congrArg List.length heq
      simp at hlen
  · rintro ⟨⟨rest, hrest⟩, hne⟩
    have hmore : rest ≠ [] := by
      rintro rfl
      refine hne ?_
      rw [← @List.intercalate_splitOn _ s _ _ c, ← @List.intercalate_splitOn _ t _ _ c, ← hrest,
        List.append_nil]
    rw [← @List.intercalate_splitOn _ t _ _ c, ← hrest,
      intercalate_append (List.splitOn_ne_nil c s) hmore, List.intercalate_splitOn]
    exact List.prefix_append _ _

/-- `str::contains` with a string pattern. -/
def containsText (needle : Text) : Text → Bool
  | [] => needle.isEmpty
  | c :: cs => needle.isPrefixOf (c :: cs) || containsText needle cs

end Text

/-! ## UTF-8 -/

namespace Utf8

/-- The UTF-8 encoding of a text. -/
def encode (t : Text) : Bytes := t.flatMap String.utf8EncodeChar

/-- `std::str::from_utf8`: the text a byte string encodes, if it encodes one. -/
def decode? (b : Bytes) : Option Text := (ByteArray.mk b.toArray).utf8Decode?.map Array.toList

@[simp] theorem encode_nil : encode [] = [] := rfl

@[simp] theorem encode_cons (c : Char) (t : Text) :
    encode (c :: t) = String.utf8EncodeChar c ++ encode t := rfl

@[simp] theorem encode_append (s t : Text) : encode (s ++ t) = encode s ++ encode t :=
  List.flatMap_append

theorem toByteArray_encode (t : Text) : ByteArray.mk (encode t).toArray = t.utf8Encode := by
  rw [List.utf8Encode, encode]
  exact ByteArray.ext (by simp)

/-- The bytes of a string's text are those that the string is made of. -/
theorem length_encode_toList (s : String) : (encode s.toList).length = s.utf8ByteSize := by
  have hbytes : ByteArray.mk (encode s.toList).toArray = s.toByteArray := by
    rw [toByteArray_encode, String.utf8Encode_toList]
  calc (encode s.toList).length = (ByteArray.mk (encode s.toList).toArray).size := List.size_toArray.symm
    _ = s.utf8ByteSize := congrArg ByteArray.size hbytes

@[simp] theorem decode?_encode (t : Text) : decode? (encode t) = some t := by
  rw [decode?, toByteArray_encode, List.utf8Decode?_utf8Encode]
  rfl

theorem decode?_eq_some {b : Bytes} {t : Text} : decode? b = some t ↔ b = encode t := by
  constructor
  · intro h
    simp only [decode?, Option.map_eq_some_iff] at h
    obtain ⟨a, ha, rfl⟩ := h
    have hsome : (ByteArray.mk b.toArray).utf8Decode?.isSome := by simp [ha]
    have henc := ByteArray.utf8Encode_get_utf8Decode? (h := hsome)
    simp only [ha, Option.get_some] at henc
    rw [← toByteArray_encode] at henc
    simpa using (congrArg (fun x => x.data.toList) henc).symm
  · rintro rfl
    exact decode?_encode t

theorem encode_injective : Function.Injective encode := by
  intro s t h
  have hdecode := decode?_encode s
  rw [h, decode?_encode] at hdecode
  exact (Option.some.inj hdecode).symm

theorem length_le_encode (t : Text) : t.length ≤ (encode t).length := by
  induction t with
  | nil => exact Nat.le_refl _
  | cons c t ih =>
    have hc : 1 ≤ (String.utf8EncodeChar c).length := by
      rw [String.length_utf8EncodeChar]
      exact c.utf8Size_pos
    rw [encode_cons, List.length_append, List.length_cons]
    omega

theorem encodeChar_ascii {c : Char} (h : c.toNat < 0x80) :
    String.utf8EncodeChar c = [UInt8.ofNat c.toNat] := by
  have hsize : c.utf8Size = 1 := by
    rw [Char.utf8Size_eq_one_iff, UInt32.le_iff_toNat_le]
    show c.toNat ≤ 127
    omega
  rw [String.utf8EncodeChar_eq_singleton hsize]
  congr 1

/-- Every byte is the code of a character. -/
theorem toNat_ofNat_toNat (b : UInt8) : (Char.ofNat b.toNat).toNat = b.toNat := by
  have hvalid : b.toNat.isValidChar := .inl (by have := b.toNat_lt; omega)
  unfold Char.ofNat
  rw [dif_pos hvalid]
  rfl

end Utf8

/-! ## Percent-decoding -/

namespace Percent

/-- The value of an ASCII hexadecimal digit. -/
def hexValue (b : UInt8) : Option UInt8 :=
  if 0x30 ≤ b ∧ b ≤ 0x39 then some (b - 0x30)
  else if 0x41 ≤ b ∧ b ≤ 0x46 then some (b - 0x41 + 10)
  else if 0x61 ≤ b ∧ b ≤ 0x66 then some (b - 0x61 + 10)
  else none

/-- Replace every `%` that is followed by two hexadecimal digits by the byte they name, and
keep every other byte. -/
def decode : Bytes → Bytes
  | 0x25 :: h :: l :: rest =>
    match hexValue h, hexValue l with
    | some hi, some lo => (hi * 16 + lo) :: decode rest
    | _, _ => 0x25 :: decode (h :: l :: rest)
  | b :: rest => b :: decode rest
  | [] => []

/-- `percent_decode_str(..).decode_utf8()`: percent-decode, then read the bytes as UTF-8. -/
def decodeUtf8 (s : Text) : Option Text := Utf8.decode? (decode (Utf8.encode s))

@[simp] theorem decode_nil : decode [] = [] := rfl

theorem decode_cons_of_ne {b : UInt8} (h : b ≠ 0x25) (rest : Bytes) :
    decode (b :: rest) = b :: decode rest := by
  rw [decode.eq_2]
  intro _ _ _ hb
  exact absurd hb h

/-- A byte that is neither `%` nor a hexadecimal digit separates what is decoded before it
from what is decoded after it. -/
theorem decode_append_sep {sep : UInt8} (hp : sep ≠ 0x25) (hh : hexValue sep = none)
    (xs ys : Bytes) : decode (xs ++ sep :: ys) = decode xs ++ sep :: decode ys := by
  fun_induction decode xs with
  | case1 h l rest hi lo hhi hlo ih =>
    simp only [List.cons_append, decode, hhi, hlo, ih]
  | case2 h l rest hno ih =>
    simp only [List.cons_append] at ih ⊢
    rw [decode]
    split
    · next hi lo hhi hlo => exact (hno hi lo hhi hlo).elim
    · rw [ih]
  | case3 b rest hb ih =>
    by_cases h25 : b = 0x25
    · -- at most one byte follows this `%`, so the separator is read as a digit and refused
      subst h25
      match rest, hb, ih with
      | [], _, _ =>
        match ys with
        | [] => simp [decode, decode_cons_of_ne hp]
        | y :: ys =>
          simp only [List.cons_append, List.nil_append]
          rw [decode, hh]
          simp [decode_cons_of_ne hp, decode]
      | [x], _, ih =>
        simp only [List.cons_append, List.nil_append] at ih ⊢
        rw [decode, hh]
        split
        · next h => cases h
        · rw [ih]
      | x :: y :: rest, hb, _ => exact absurd rfl (hb x y rest rfl)
    · simp only [List.cons_append]
      rw [decode_cons_of_ne h25, ih]
  | case4 => simp [decode_cons_of_ne hp]

/-- A separator character that percent-decoding neither reads nor produces a part of: ASCII,
neither `%` nor a hexadecimal digit. -/
structure IsSeparator (sep : Char) : Prop where
  ascii : sep.toNat < 0x80
  notPercent : UInt8.ofNat sep.toNat ≠ 0x25
  notHex : hexValue (UInt8.ofNat sep.toNat) = none

theorem decodeUtf8_append_sep {sep : Char} (hsep : IsSeparator sep) {a b x y : Text}
    (ha : decodeUtf8 a = some x) (hb : decodeUtf8 b = some y) :
    decodeUtf8 (a ++ sep :: b) = some (x ++ sep :: y) := by
  rw [decodeUtf8, Utf8.decode?_eq_some] at ha hb ⊢
  simp only [Utf8.encode_append, Utf8.encode_cons, Utf8.encodeChar_ascii hsep.ascii,
    List.singleton_append]
  rw [decode_append_sep hsep.notPercent hsep.notHex, ha, hb]

/-- Percent-decoding a text joined with a separator decodes the joined pieces one by one. -/
theorem decodeUtf8_intercalate {sep : Char} (hsep : IsSeparator sep) {raws decs : List Text}
    (h : raws.mapM decodeUtf8 = some decs) :
    decodeUtf8 ([sep].intercalate raws) = some ([sep].intercalate decs) := by
  induction raws generalizing decs with
  | nil =>
    cases h
    simp [decodeUtf8, Utf8.decode?_eq_some]
  | cons raw raws ih =>
    simp only [List.mapM_cons, Option.pure_def, Option.bind_eq_bind,
      Option.bind_eq_some_iff] at h
    obtain ⟨dec, hdec, decs', hdecs, heq⟩ := h
    cases heq
    cases raws with
    | nil =>
      cases hdecs
      simpa using hdec
    | cons raw' raws =>
      obtain ⟨dec', decs'', rfl⟩ : ∃ d ds, decs' = d :: ds := by
        cases decs' with
        | nil => simp [List.mapM_cons, Option.bind_eq_some_iff] at hdecs
        | cons d ds => exact ⟨d, ds, rfl⟩
      simpa [List.intercalate_cons_cons] using decodeUtf8_append_sep hsep hdec (ih hdecs)

/-! ## Percent-encoding -/

/-- The digit of a value below 16, in upper case. -/
def hexDigit (n : Nat) : Char := if n < 10 then Char.ofNat (0x30 + n) else Char.ofNat (0x37 + n)

def encodeByte (b : UInt8) : Text := ['%', hexDigit (b.toNat / 16), hexDigit (b.toNat % 16)]

/-- Percent-encode the UTF-8 bytes of every character but those to keep. -/
def encode (keep : Char → Bool) (s : Text) : Text :=
  s.flatMap fun c => if keep c then [c] else (String.utf8EncodeChar c).flatMap encodeByte

theorem hexValue_hexDigit {n : Nat} (h : n < 16) :
    Utf8.encode [hexDigit n] = [UInt8.ofNat (hexDigit n).toNat] ∧
      hexValue (UInt8.ofNat (hexDigit n).toNat) = some (UInt8.ofNat n) := by
  have hall : ∀ n : Fin 16, Utf8.encode [hexDigit n] = [UInt8.ofNat (hexDigit n).toNat] ∧
      hexValue (UInt8.ofNat (hexDigit n).toNat) = some (UInt8.ofNat n) := by decide
  exact hall ⟨n, h⟩

/-- A byte that was encoded is decoded. -/
theorem decode_encodeByte (b : UInt8) (rest : Bytes) :
    decode (Utf8.encode (encodeByte b) ++ rest) = b :: decode rest := by
  have hb : b.toNat < 256 := b.toNat_lt
  obtain ⟨hhi, hhi'⟩ := hexValue_hexDigit (show b.toNat / 16 < 16 by omega)
  obtain ⟨hlo, hlo'⟩ := hexValue_hexDigit (show b.toNat % 16 < 16 by omega)
  have hcons : encodeByte b = ['%'] ++ ([hexDigit (b.toNat / 16)] ++ [hexDigit (b.toNat % 16)]) := rfl
  have hpercent : Utf8.encode ['%'] = [0x25] := by decide
  rw [hcons, Utf8.encode_append, Utf8.encode_append, hhi, hlo, hpercent]
  simp only [List.cons_append, List.nil_append, decode, hhi', hlo']
  congr 1
  rw [← UInt8.toNat_inj, UInt8.toNat_add, UInt8.toNat_mul]
  simp only [UInt8.toNat_ofNat', UInt8.toNat_ofNat]
  omega

theorem decode_encodeBytes (bytes rest : Bytes) :
    decode (Utf8.encode (bytes.flatMap encodeByte) ++ rest) = bytes ++ decode rest := by
  induction bytes with
  | nil => rfl
  | cons b bytes ih =>
    rw [List.flatMap_cons, Utf8.encode_append, List.append_assoc, decode_encodeByte, ih]
    rfl

/-- What was encoded is decoded, if no `%` was kept. -/
theorem decodeUtf8_encode {keep : Char → Bool} (hkeep : ∀ c, keep c = true → c.toNat < 0x80 ∧ c ≠ '%')
    (s : Text) : decodeUtf8 (encode keep s) = some s := by
  have hdecode : ∀ s, decode (Utf8.encode (encode keep s)) = Utf8.encode s := by
    intro s
    induction s with
    | nil => rfl
    | cons c s ih =>
      rw [encode, List.flatMap_cons, Utf8.encode_append, Utf8.encode_cons]
      split
      · next hc =>
        obtain ⟨hascii, hne⟩ := hkeep c hc
        have hbyte : UInt8.ofNat c.toNat ≠ 0x25 := by
          intro heq
          have hnat := congrArg UInt8.toNat heq
          rw [UInt8.toNat_ofNat', Nat.mod_eq_of_lt (by omega)] at hnat
          refine hne (Char.ext (UInt32.toNat_inj.mp ?_))
          exact hnat
        rw [Utf8.encode_cons, Utf8.encode_nil, List.append_nil, Utf8.encodeChar_ascii hascii,
          List.singleton_append, decode_cons_of_ne hbyte]
        exact congrArg _ ih
      · rw [decode_encodeBytes]
        exact congrArg _ ih
  rw [decodeUtf8, hdecode, Utf8.decode?_encode]

/-- What an encoding is made of. -/
theorem mem_encode {keep : Char → Bool} {c : Char} {s : Text} (h : c ∈ encode keep s) :
    keep c = true ∨ c = '%' ∨ ∃ n : Fin 16, c = hexDigit n := by
  obtain ⟨d, -, hmem⟩ := List.mem_flatMap.mp h
  split at hmem
  · next hd =>
    rw [List.mem_singleton.mp hmem]
    exact Or.inl hd
  · obtain ⟨b, -, hb⟩ := List.mem_flatMap.mp hmem
    have hlt : b.toNat < 256 := b.toNat_lt
    simp only [encodeByte, List.mem_cons, List.not_mem_nil, or_false] at hb
    rcases hb with hb | hb | hb
    · exact Or.inr (Or.inl hb)
    · exact Or.inr (Or.inr ⟨⟨b.toNat / 16, by omega⟩, hb⟩)
    · exact Or.inr (Or.inr ⟨⟨b.toNat % 16, by omega⟩, hb⟩)

/-- A separator is not part of what was encoded, if it was not kept. -/
theorem not_mem_encode {keep : Char → Bool} {c : Char} (hkeep : keep c = false) (hpercent : c ≠ '%')
    (hdigit : ∀ n : Fin 16, c ≠ hexDigit n) (s : Text) : c ∉ encode keep s := by
  intro hmem
  rcases mem_encode hmem with hc | hc | ⟨n, hc⟩
  · rw [hkeep] at hc
    cases hc
  · exact hpercent hc
  · exact hdigit n hc

/-- A text of characters to keep is its encoding. -/
theorem encode_eq_self {keep : Char → Bool} {s : Text} (h : ∀ c ∈ s, keep c = true) :
    encode keep s = s := by
  induction s with
  | nil => rfl
  | cons c s ih =>
    obtain ⟨hc, hs⟩ := List.forall_mem_cons.mp h
    rw [encode, List.flatMap_cons, if_pos hc]
    exact congrArg _ (ih hs)

end Percent
