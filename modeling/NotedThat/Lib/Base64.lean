-- SUMMARY: Base64 with the standard alphabet and canonical padding: what is decoded is exactly what is encoded.
import NotedThat.Lib.Text

/-!
# Base64

Three bytes are four digits of six bits. The last one or two bytes are padded with `=`, and the bits that
stand for nothing are zero. The decoder takes no other text, so that a byte string has one spelling.
-/

namespace Base64

/-- The digit of a value below 64. -/
def digit (n : Nat) : Char :=
  if n < 26 then Char.ofNat (0x41 + n)
  else if n < 52 then Char.ofNat (0x61 + (n - 26))
  else if n < 62 then Char.ofNat (0x30 + (n - 52))
  else if n = 62 then '+'
  else '/'

def value (c : Char) : Option Nat :=
  if 0x41 ≤ c.toNat ∧ c.toNat ≤ 0x5a then some (c.toNat - 0x41)
  else if 0x61 ≤ c.toNat ∧ c.toNat ≤ 0x7a then some (c.toNat - 0x61 + 26)
  else if 0x30 ≤ c.toNat ∧ c.toNat ≤ 0x39 then some (c.toNat - 0x30 + 52)
  else if c = '+' then some 62
  else if c = '/' then some 63
  else none

/-- Three bytes. -/
def encodeThree (a b c : UInt8) : Text :=
  [digit (a.toNat / 4), digit (a.toNat % 4 * 16 + b.toNat / 16), digit (b.toNat % 16 * 4 + c.toNat / 64),
    digit (c.toNat % 64)]

def encode : Bytes → Text
  | [] => []
  | [a] => [digit (a.toNat / 4), digit (a.toNat % 4 * 16), '=', '=']
  | [a, b] =>
    [digit (a.toNat / 4), digit (a.toNat % 4 * 16 + b.toNat / 16), digit (b.toNat % 16 * 4), '=']
  | a :: b :: c :: rest => encodeThree a b c ++ encode rest

/-- The last four characters, when the fourth is padding. -/
def decodePadded (w x y : Char) : Option Bytes := do
  let w ← value w
  let x ← value x
  if y = '=' then if x % 16 = 0 then some [UInt8.ofNat (w * 4 + x / 16)] else none
  else do
    let y ← value y
    if y % 4 = 0 then some [UInt8.ofNat (w * 4 + x / 16), UInt8.ofNat (x % 16 * 16 + y / 4)] else none

/-- Four characters of which none is padding. -/
def decodeFour (w x y z : Char) : Option Bytes := do
  let w ← value w
  let x ← value x
  let y ← value y
  let z ← value z
  some [UInt8.ofNat (w * 4 + x / 16), UInt8.ofNat (x % 16 * 16 + y / 4), UInt8.ofNat (y % 4 * 64 + z)]

def decode : Text → Option Bytes
  | [] => some []
  | w :: x :: y :: z :: rest =>
    if rest = [] ∧ z = '=' then decodePadded w x y
    else do
      let front ← decodeFour w x y z
      let back ← decode rest
      some (front ++ back)
  | _ => none

/-! ## Digits -/

theorem value_digit {n : Nat} (h : n < 64) : value (digit n) = some n := by
  revert h n
  decide

theorem digit_ne_padding {n : Nat} (h : n < 64) : digit n ≠ '=' := by
  revert h n
  decide

theorem digit_ne_blank {n : Nat} (h : n < 64) : digit n ≠ ' ' := by
  revert h n
  decide

/-- A character has a value only as the digit of that value. -/
theorem value_eq_some {c : Char} {n : Nat} : value c = some n ↔ n < 64 ∧ c = digit n := by
  constructor
  · intro h
    unfold value at h
    split at h
    · obtain rfl := Option.some.inj h
      refine ⟨by omega, ?_⟩
      rw [digit, if_pos (by omega), show 0x41 + (c.toNat - 0x41) = c.toNat by omega, Char.ofNat_toNat]
    · split at h
      · obtain rfl := Option.some.inj h
        refine ⟨by omega, ?_⟩
        rw [digit, if_neg (by omega), if_pos (by omega),
          show 0x61 + (c.toNat - 0x61 + 26 - 26) = c.toNat by omega, Char.ofNat_toNat]
      · split at h
        · obtain rfl := Option.some.inj h
          refine ⟨by omega, ?_⟩
          rw [digit, if_neg (by omega), if_neg (by omega), if_pos (by omega),
            show 0x30 + (c.toNat - 0x30 + 52 - 52) = c.toNat by omega, Char.ofNat_toNat]
        · split at h
          · next hc =>
            obtain rfl := Option.some.inj h
            exact ⟨by decide, hc⟩
          · split at h
            · next hc =>
              obtain rfl := Option.some.inj h
              exact ⟨by decide, hc⟩
            · cases h
  · rintro ⟨hn, rfl⟩
    exact value_digit hn

/-! ## Decoding what was encoded -/

theorem decodeFour_encodeThree (a b c : UInt8) :
    decodeFour (digit (a.toNat / 4)) (digit (a.toNat % 4 * 16 + b.toNat / 16))
      (digit (b.toNat % 16 * 4 + c.toNat / 64)) (digit (c.toNat % 64)) = some [a, b, c] := by
  have ha := a.toNat_lt
  have hb := b.toNat_lt
  have hc := c.toNat_lt
  rw [decodeFour, value_digit (by omega), value_digit (by omega), value_digit (by omega), value_digit (by omega)]
  have h₁ : a.toNat / 4 * 4 + (a.toNat % 4 * 16 + b.toNat / 16) / 16 = a.toNat := by omega
  have h₂ : (a.toNat % 4 * 16 + b.toNat / 16) % 16 * 16 + (b.toNat % 16 * 4 + c.toNat / 64) / 4 = b.toNat := by
    omega
  have h₃ : (b.toNat % 16 * 4 + c.toNat / 64) % 4 * 64 + c.toNat % 64 = c.toNat := by omega
  simp only [Option.bind_eq_bind, Option.bind_some, h₁, h₂, h₃, UInt8.ofNat_toNat]

theorem decodePadded_one (a : UInt8) :
    decodePadded (digit (a.toNat / 4)) (digit (a.toNat % 4 * 16)) '=' = some [a] := by
  have ha := a.toNat_lt
  rw [decodePadded, value_digit (by omega), value_digit (by omega)]
  have hzero : a.toNat % 4 * 16 % 16 = 0 := by omega
  have h₁ : a.toNat / 4 * 4 + a.toNat % 4 * 16 / 16 = a.toNat := by omega
  simp only [Option.bind_eq_bind, Option.bind_some, if_true, hzero, h₁, UInt8.ofNat_toNat]

theorem decodePadded_two (a b : UInt8) :
    decodePadded (digit (a.toNat / 4)) (digit (a.toNat % 4 * 16 + b.toNat / 16)) (digit (b.toNat % 16 * 4)) =
      some [a, b] := by
  have ha := a.toNat_lt
  have hb := b.toNat_lt
  rw [decodePadded, value_digit (by omega), value_digit (by omega), value_digit (by omega)]
  have hzero : b.toNat % 16 * 4 % 4 = 0 := by omega
  have h₁ : a.toNat / 4 * 4 + (a.toNat % 4 * 16 + b.toNat / 16) / 16 = a.toNat := by omega
  have h₂ : (a.toNat % 4 * 16 + b.toNat / 16) % 16 * 16 + b.toNat % 16 * 4 / 4 = b.toNat := by omega
  simp only [Option.bind_eq_bind, Option.bind_some, if_neg (digit_ne_padding (show b.toNat % 16 * 4 < 64 by omega)),
    if_pos hzero, h₁, h₂, UInt8.ofNat_toNat]

/-- What was encoded is decoded to the same bytes. -/
@[simp] theorem decode_encode (bytes : Bytes) : decode (encode bytes) = some bytes := by
  induction bytes using encode.induct with
  | case1 => rfl
  | case2 a =>
    rw [encode, decode, if_pos ⟨rfl, rfl⟩]
    exact decodePadded_one a
  | case3 a b =>
    rw [encode, decode, if_pos ⟨rfl, rfl⟩]
    exact decodePadded_two a b
  | case4 a b c rest ih =>
    have hlast : ¬ (encode rest = [] ∧ digit (c.toNat % 64) = '=') := fun h =>
      digit_ne_padding (Nat.mod_lt _ (by decide)) h.2
    rw [encode, encodeThree]
    simp only [List.cons_append, List.nil_append]
    rw [decode, if_neg hlast, decodeFour_encodeThree, ih]
    rfl

/-! ## Only what is encoded -/

theorem decodeFour_eq_some {w x y z : Char} {bytes : Bytes} (h : decodeFour w x y z = some bytes) :
    ∃ a b c, bytes = [a, b, c] ∧ [w, x, y, z] = encodeThree a b c := by
  simp only [decodeFour, Option.bind_eq_bind, Option.bind_eq_some_iff, value_eq_some, Option.some.injEq] at h
  obtain ⟨w, ⟨hw, rfl⟩, x, ⟨hx, rfl⟩, y, ⟨hy, rfl⟩, z, ⟨hz, rfl⟩, rfl⟩ := h
  have hw' : (w * 4 + x / 16) % 256 / 4 = w := by omega
  have hx' : (w * 4 + x / 16) % 256 % 4 * 16 + (x % 16 * 16 + y / 4) % 256 / 16 = x := by omega
  have hy' : (x % 16 * 16 + y / 4) % 256 % 16 * 4 + (y % 4 * 64 + z) % 256 / 64 = y := by omega
  have hz' : (y % 4 * 64 + z) % 256 % 64 = z := by omega
  refine ⟨_, _, _, rfl, ?_⟩
  simp only [encodeThree, UInt8.toNat_ofNat', Nat.reducePow, hw', hx', hy', hz']

/-- The padding stands for one byte or two. -/
theorem decodePadded_eq_some {w x y : Char} {bytes : Bytes} (h : decodePadded w x y = some bytes) :
    [w, x, y, '='] = encode bytes := by
  simp only [decodePadded, Option.bind_eq_bind, Option.bind_eq_some_iff, value_eq_some] at h
  obtain ⟨w, ⟨hw, rfl⟩, x, ⟨hx, rfl⟩, h⟩ := h
  have hw' : (w * 4 + x / 16) % 256 / 4 = w := by omega
  split at h
  · next hpad =>
    split at h
    · next hzero =>
      obtain rfl := Option.some.inj h
      have hx' : (w * 4 + x / 16) % 256 % 4 * 16 = x := by omega
      simp only [encode, UInt8.toNat_ofNat', Nat.reducePow, hw', hx', hpad]
    · cases h
  · simp only [Option.bind_eq_some_iff, value_eq_some] at h
    obtain ⟨y, ⟨hy, rfl⟩, h⟩ := h
    split at h
    · next hzero =>
      obtain rfl := Option.some.inj h
      have hx' : (w * 4 + x / 16) % 256 % 4 * 16 + (x % 16 * 16 + y / 4) % 256 / 16 = x := by omega
      have hy' : (x % 16 * 16 + y / 4) % 256 % 16 * 4 = y := by omega
      simp only [encode, UInt8.toNat_ofNat', Nat.reducePow, hw', hx', hy']
    · cases h

/-- A text is decoded only if it is the spelling of the bytes that it is decoded to. -/
theorem decode_eq_some {t : Text} {bytes : Bytes} : decode t = some bytes ↔ t = encode bytes := by
  refine ⟨fun h => ?_, fun h => h ▸ decode_encode bytes⟩
  induction t using decode.induct generalizing bytes with
  | case1 =>
    obtain rfl := Option.some.inj h
    rfl
  | case2 w x y z rest hlast =>
    obtain ⟨rfl, rfl⟩ := hlast
    rw [decode, if_pos ⟨rfl, rfl⟩] at h
    exact decodePadded_eq_some h
  | case3 w x y z rest hlast ih =>
    rw [decode, if_neg hlast] at h
    simp only [Option.bind_eq_bind, Option.bind_eq_some_iff, Option.some.injEq] at h
    obtain ⟨front, hfront, back, hback, rfl⟩ := h
    obtain ⟨a, b, c, rfl, hdigits⟩ := decodeFour_eq_some hfront
    rw [List.cons_append, List.cons_append, List.cons_append, List.nil_append, encode, ← hdigits, ← ih hback]
    rfl
  | case4 t hnil hfour => rw [decode.eq_3 _ hnil hfour] at h; cases h

theorem head_encode_ne_blank (bytes : Bytes) : (encode bytes).head? ≠ some ' ' := by
  have hdigit (a : UInt8) : some (digit (a.toNat / 4)) ≠ some ' ' := fun heq =>
    digit_ne_blank (by have := a.toNat_lt; omega) (Option.some.inj heq)
  match bytes with
  | [] => simp [encode]
  | [a] => exact hdigit a
  | [a, b] => exact hdigit a
  | a :: b :: c :: rest => exact hdigit a

end Base64
