-- SUMMARY: Lists sorted by a key, lexicographic order and prefixes, and that UTF-8 keeps the order of texts.
import NotedThat.Lib.Text
import Mathlib.Data.List.Perm.Basic
import Mathlib.Data.List.Sort

/-!
# Byte order

Texts are compared character by character. Their encodings are compared byte by byte, and UTF-8 is
made so that this is the same order.
-/

/-! ## Lists sorted by a key -/

section

variable {α κ : Type} [Preorder κ] {key : α → κ} {l l' : List α}

/-- Strictly sorted lists with the same members are equal. -/
theorem List.eq_of_keys_lt (hl : l.Pairwise fun a b => key a < key b)
    (hl' : l'.Pairwise fun a b => key a < key b) (h : ∀ a, a ∈ l ↔ a ∈ l') : l = l' := by
  have hnodup : ∀ {l : List α}, (l.Pairwise fun a b => key a < key b) → l.Nodup := by
    intro l hl
    refine hl.imp fun {a b} hlt heq => ?_
    subst heq
    exact lt_irrefl _ hlt
  refine List.Perm.eq_of_pairwise (fun a b _ _ h h' => absurd h (lt_asymm h')) hl hl' ?_
  exact (List.perm_ext_iff_of_nodup (hnodup hl) (hnodup hl')).mpr h

/-- What a front of a strictly sorted list leaves out is what comes behind its last element. -/
theorem List.mem_drop_iff_of_keys_lt (hl : l.Pairwise fun a b => key a < key b) {n : Nat} {last : α}
    (hlast : (l.take n).getLast? = some last) {a : α} : a ∈ l.drop n ↔ a ∈ l ∧ key last < key a := by
  have hsplit : (l.take n ++ l.drop n).Pairwise fun a b => key a < key b := by
    rwa [List.take_append_drop]
  obtain ⟨htake, -, hcross⟩ := List.pairwise_append.mp hsplit
  constructor
  · intro hdropped
    exact ⟨List.mem_of_mem_drop hdropped, hcross _ (List.mem_of_getLast? hlast) _ hdropped⟩
  · rintro ⟨hmem, hlt⟩
    rw [← List.take_append_drop n l, List.mem_append] at hmem
    refine hmem.resolve_left fun htaken => ?_
    obtain ⟨init, hinit⟩ := List.getLast?_eq_some_iff.mp hlast
    rw [hinit] at htaken htake
    rcases List.mem_append.mp htaken with hin | hin
    · exact lt_asymm hlt ((List.pairwise_append.mp htake).2.2 _ hin _ (by simp))
    · rw [List.mem_singleton.mp hin] at hlt
      exact lt_irrefl _ hlt

end

/-- What a front of a strictly sorted list has is what comes up to its last element. -/
theorem List.mem_take_iff_of_keys_lt {α κ : Type} [LinearOrder κ] {key : α → κ} {l : List α}
    (hl : l.Pairwise fun a b => key a < key b) {n : Nat} {last : α}
    (hlast : (l.take n).getLast? = some last) {a : α} : a ∈ l.take n ↔ a ∈ l ∧ key a ≤ key last := by
  have hsplit : (l.take n ++ l.drop n).Pairwise fun a b => key a < key b := by
    rwa [List.take_append_drop]
  have hdrop := @List.mem_drop_iff_of_keys_lt _ _ _ _ _ hl _ _ hlast a
  constructor
  · intro htaken
    have hmem := List.mem_of_mem_take htaken
    refine ⟨hmem, not_lt.mp fun hlt => ?_⟩
    exact lt_irrefl _ ((List.pairwise_append.mp hsplit).2.2 a htaken a (hdrop.mpr ⟨hmem, hlt⟩))
  · rintro ⟨hmem, hle⟩
    rw [← List.take_append_drop n l, List.mem_append] at hmem
    exact hmem.resolve_right fun hdropped => absurd (hdrop.mp hdropped).2 (not_lt.mpr hle)

/-- Insertion keeps a list strictly sorted, if the key is new to it. -/
theorem List.pairwise_keys_lt_orderedInsert {α κ : Type} [LinearOrder κ] {key : α → κ} {l : List α} {a : α}
    (hl : l.Pairwise fun b c => key b < key c) (hnew : ∀ b ∈ l, key b ≠ key a) :
    (l.orderedInsert (fun b c => key b ≤ key c) a).Pairwise fun b c => key b < key c := by
  induction l with
  | nil => simp
  | cons b l ih =>
    obtain ⟨hb, hrest⟩ := List.pairwise_cons.mp hl
    rw [List.orderedInsert_cons]
    split
    · next hle =>
      have hlt : key a < key b := lt_of_le_of_ne hle (hnew b List.mem_cons_self).symm
      refine List.pairwise_cons.mpr ⟨fun c hc => ?_, hl⟩
      rcases List.mem_cons.mp hc with rfl | hc
      · exact hlt
      · exact hlt.trans (hb c hc)
    · next hgt =>
      refine List.pairwise_cons.mpr ⟨fun c hc => ?_, ih hrest fun c hc => hnew c (List.mem_cons_of_mem _ hc)⟩
      rcases (List.mem_orderedInsert _).mp hc with rfl | hc
      · exact not_le.mp hgt
      · exact hb c hc

/-! ## Lexicographic order -/

section

variable {α : Type} [LT α] {s t x y : List α}

/-- A difference decides, whatever follows it. -/
theorem List.append_lt_append_of_not_prefix (h : s < t) (hpre : ¬ s <+: t) : s ++ x < t ++ y := by
  induction s generalizing t with
  | nil => exact absurd List.nil_prefix hpre
  | cons a s ih =>
    cases t with
    | nil => exact absurd h (List.not_lt_nil _)
    | cons b t =>
      rw [List.cons_append, List.cons_append, List.cons_lt_cons_iff]
      rcases List.cons_lt_cons_iff.mp h with hlt | ⟨rfl, hlt⟩
      · exact .inl hlt
      · exact .inr ⟨rfl, ih hlt fun hle => hpre (List.cons_prefix_cons.mpr ⟨rfl, hle⟩)⟩

theorem List.lt_append_of_ne_nil (hx : x ≠ []) : s < s ++ x := by
  obtain ⟨b, x, rfl⟩ := List.exists_cons_of_ne_nil hx
  simpa using List.append_left_lt (List.nil_lt_cons b x)

end

/-! ## UTF-8 -/

namespace Utf8

/-- Four digits to the base 64 decide the order of the numbers. -/
theorem digits_lt {v w : Nat} (h : v < w) (hw : w < 2097152) :
    v / 262144 % 8 < w / 262144 % 8 ∨ v / 262144 % 8 = w / 262144 % 8 ∧
      (v / 4096 % 64 < w / 4096 % 64 ∨ v / 4096 % 64 = w / 4096 % 64 ∧
        (v / 64 % 64 < w / 64 % 64 ∨ v / 64 % 64 = w / 64 % 64 ∧ v % 64 < w % 64)) := by
  have hdigit : ∀ {v w : Nat}, v < w → v / 64 < w / 64 ∨ v / 64 = w / 64 ∧ v % 64 < w % 64 := by
    intro v w h
    omega
  have hdiv : ∀ v, v / 64 / 64 = v / 4096 ∧ v / 4096 / 64 = v / 262144 := fun v =>
    ⟨Nat.div_div_eq_div_mul v 64 64, Nat.div_div_eq_div_mul v 4096 64⟩
  rcases hdigit h with h | ⟨h, hlast⟩
  · rcases hdigit h with h | ⟨h, hlast⟩
    · rw [(hdiv v).1, (hdiv w).1] at h
      rcases hdigit h with h | ⟨h, hlast⟩
      · rw [(hdiv v).2, (hdiv w).2] at h
        omega
      · rw [(hdiv v).2, (hdiv w).2] at h
        omega
    · rw [(hdiv v).1, (hdiv w).1] at h
      have h₂ : v / 262144 = w / 262144 := by rw [← (hdiv v).2, ← (hdiv w).2, h]
      omega
  · have h₁ : v / 4096 = w / 4096 := by rw [← (hdiv v).1, ← (hdiv w).1, h]
    have h₂ : v / 262144 = w / 262144 := by rw [← (hdiv v).2, ← (hdiv w).2, h₁]
    omega

theorem toNat_digit {x base lead : Nat} (hbase : 0 < base) (h : base + lead ≤ 256) :
    (UInt8.ofNat (x % base + lead)).toNat = x % base + lead := by
  rw [UInt8.toNat_ofNat']
  exact Nat.mod_eq_of_lt (Nat.lt_of_lt_of_le (Nat.add_lt_add_right (Nat.mod_lt x hbase) lead) h)

theorem encodeChar_lt {c d : Char} (h : c < d) (x y : Bytes) :
    String.utf8EncodeChar c ++ x < String.utf8EncodeChar d ++ y := by
  have hlt : c.val.toNat < d.val.toNat := h
  have hd : d.val.toNat < 1114112 := by
    rcases d.valid with h | h
    · exact Nat.lt_trans h (by decide)
    · exact h.2
  have hdigits := digits_lt hlt (Nat.lt_trans hd (by decide))
  have hascii : ∀ {v : Nat}, v ≤ 127 → (UInt8.ofNat v).toNat = v := fun h => by
    rw [UInt8.toNat_ofNat', Nat.mod_eq_of_lt (by omega)]
  unfold String.utf8EncodeChar
  dsimp only
  -- the first byte tells the lengths apart; within a length the digits decide
  split_ifs <;> simp (disch := first | assumption | decide) only [List.cons_append,
    List.nil_append, List.cons_lt_cons_iff, UInt8.lt_iff_toNat_lt, ← UInt8.toNat_inj, toNat_digit,
    hascii, Nat.add_lt_add_iff_right, Nat.add_right_cancel_iff]
  all_goals first
    | exact hdigits.imp_right (And.imp_right (Or.imp_right (And.imp_right (Or.imp_right (And.imp_right .inl)))))
    | omega

theorem encode_lt {s t : Text} (h : s < t) : encode s < encode t := by
  induction s generalizing t with
  | nil =>
    cases t with
    | nil => exact absurd h (List.lt_irrefl _)
    | cons d t =>
      obtain ⟨b, bs, hb⟩ := List.exists_cons_of_ne_nil (String.utf8EncodeChar_ne_nil (c := d))
      rw [encode_cons, hb]
      exact List.nil_lt_cons _ _
  | cons c s ih =>
    cases t with
    | nil => exact absurd h (List.not_lt_nil _)
    | cons d t =>
      rw [encode_cons, encode_cons]
      rcases List.cons_lt_cons_iff.mp h with hlt | ⟨rfl, hlt⟩
      · exact encodeChar_lt hlt _ _
      · exact List.append_left_lt (ih hlt)

end Utf8
