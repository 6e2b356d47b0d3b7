-- SUMMARY: Decimal spellings of 64-bit numbers.
import NotedThat.Lib.ByteOrder

/-!
# Decimals

What the reader of 64-bit numbers accepts without a sign, and what the printer of numbers writes.
-/

/-- Decimal digits, and the number they spell. -/
structure Numeral (s : Text) (n : Nat) : Prop where
  nonempty : s ≠ []
  digits : ∀ c ∈ s, c.isDigit = true
  value : Nat.ofDigitChars 10 s 0 = n

namespace Numeral

variable {s : Text} {n m : Nat}

theorem toDigits (n : Nat) : Numeral (Nat.toDigits 10 n) n where
  nonempty := Nat.toDigits_ne_nil
  digits _ hc := Nat.isDigit_of_mem_toDigits (by decide) (by decide) hc
  value := Nat.ofDigitChars_ten_toDigits

/-- A number is printed in decimal digits. -/
theorem toList_toString (n : Nat) : (toString n).toList = Nat.toDigits 10 n := String.toList_ofList

theorem unique (h : Numeral s n) (h' : Numeral s m) : n = m := h.value.symm.trans h'.value

theorem not_mem (h : Numeral s n) {c : Char} (hc : c.isDigit = false) : c ∉ s := by
  intro hmem
  rw [h.digits c hmem] at hc
  cases hc

theorem hyphen_not_mem (h : Numeral s n) : '-' ∉ s := h.not_mem rfl

theorem comma_not_mem (h : Numeral s n) : ',' ∉ s := h.not_mem rfl

theorem slash_not_mem (h : Numeral s n) : '/' ∉ s := h.not_mem rfl

theorem not_isWhitespace (h : Numeral s n) : ∀ c ∈ s, Text.isWhitespace c = false := fun c hc =>
  Text.isWhitespace_of_isDigit (h.digits c hc)

/-- A number is read back if it is one of 64 bits. -/
theorem parseU64_eq (h : Numeral s n) : Text.parseU64 s = (some n).filter fun n => n < 2 ^ 64 := by
  have hplus : Text.stripPrefix ['+'] s = none := by
    cases hs : Text.stripPrefix ['+'] s with
    | none => rfl
    | some rest =>
      have hdigit := h.digits '+' (by simp [Text.stripPrefix_eq_some.mp hs])
      cases hdigit
  have hnonempty : s.isEmpty = false := List.isEmpty_eq_false_iff.mpr h.nonempty
  simp only [Text.parseU64, hplus, Option.getD_none, hnonempty, Text.digitsValue_eq h.digits, h.value,
    Bool.false_eq_true, if_false]

end Numeral

/-- A number of 64 bits. -/
structure Decimal (s : Text) (n : Nat) : Prop extends Numeral s n where
  bound : n < 2 ^ 64

namespace Decimal

variable {s : Text} {n : Nat}

theorem toDigits (h : n < 2 ^ 64) : Decimal (Nat.toDigits 10 n) n := ⟨.toDigits n, h⟩

theorem parseU64 (h : Decimal s n) : Text.parseU64 s = some n := by
  rw [h.parseU64_eq, Option.filter_some, decide_eq_true h.bound]
  rfl

end Decimal

-- ---------------------------------------------------------------------------
-- Numbers of a fixed width
-- ---------------------------------------------------------------------------

namespace FixedWidth

/-- The last digits of a number. -/
def digits : Nat → Nat → Text
  | 0, _ => []
  | width + 1, n => digits width (n / 10) ++ [Nat.digitChar (n % 10)]

theorem length_digits (width n : Nat) : (digits width n).length = width := by
  induction width generalizing n with
  | zero => rfl
  | succ width ih => rw [digits, List.length_append, ih, List.length_singleton]

theorem digits_zero (width : Nat) : digits width 0 = List.replicate width '0' := by
  induction width with
  | zero => rfl
  | succ width ih =>
    rw [digits, Nat.zero_div, ih, Nat.zero_mod, List.replicate_succ']
    rfl

/-- A number that is short enough is its decimal spelling, filled up with zeros. -/
theorem digits_eq {width n : Nat} (h : n < 10 ^ (width + 1)) :
    digits (width + 1) n =
      List.replicate (width + 1 - (Nat.toDigits 10 n).length) '0' ++ Nat.toDigits 10 n := by
  induction width generalizing n with
  | zero =>
    have hn : n < 10 := h
    rw [Nat.toDigits_of_lt_base hn, digits, digits, Nat.mod_eq_of_lt hn]
    rfl
  | succ width ih =>
    rw [digits]
    by_cases hn : n < 10
    · rw [Nat.div_eq_of_lt hn, Nat.mod_eq_of_lt hn, digits_zero, Nat.toDigits_of_lt_base hn]
      rfl
    · have hdiv : n / 10 < 10 ^ (width + 1) := Nat.div_lt_of_lt_mul (by rwa [Nat.pow_succ'] at h)
      rw [ih hdiv, Nat.toDigits_of_base_le (by decide) (Nat.not_lt.mp hn), List.length_append,
        List.length_singleton, Nat.add_sub_add_right, List.append_assoc]

/-- Of two texts of one length the order is decided before whatever follows them. -/
theorem append_lt_append {s t : Text} (hlength : s.length = t.length) (h : s < t) (x y : Text) :
    s ++ x < t ++ y := by
  refine List.append_lt_append_of_not_prefix h fun hpre => ?_
  rw [hpre.eq_of_length hlength] at h
  exact List.lt_irrefl _ h

theorem digitChar_lt {a b : Nat} (hb : b < 10) (h : a < b) : Nat.digitChar a < Nat.digitChar b := by
  have hlt : (Nat.digitChar a).toNat < (Nat.digitChar b).toNat := by
    rw [Nat.toNat_digitChar_of_lt_ten (h.trans hb), Nat.toNat_digitChar_of_lt_ten hb]
    exact Nat.add_lt_add_left h _
  exact hlt

theorem digits_lt {width n m : Nat} (hm : m < 10 ^ width) (h : n < m) :
    digits width n < digits width m := by
  induction width generalizing n m with
  | zero => omega
  | succ width ih =>
    have hm' : m / 10 < 10 ^ width := Nat.div_lt_of_lt_mul (by rwa [Nat.pow_succ'] at hm)
    rw [digits, digits]
    rcases Nat.lt_or_ge (n / 10) (m / 10) with hlt | hge
    · refine append_lt_append ?_ (ih hm' hlt) _ _
      rw [length_digits, length_digits]
    · have heq : n / 10 = m / 10 := by omega
      rw [heq]
      refine List.append_left_lt (List.cons_lt_cons_iff.mpr (.inl (digitChar_lt ?_ ?_)))
      · exact Nat.mod_lt _ (by decide)
      · omega

end FixedWidth
