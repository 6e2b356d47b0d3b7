-- SUMMARY: Lines of a text and of its bytes: an ASCII byte of an encoded text is that character, so both are cut alike.
import NotedThat.Lib.Utf8Slices
import NotedThat.Lib.Lines

/-!
# Lines of UTF-8

No byte of a character of several bytes is an ASCII byte. So bytes are cut at the line ends of the
text they encode, and a front of them captures the characters that fit.
-/

namespace Lines

/-- What has no end in front of other lines belongs to the first of them. -/
theorem split_unended_append {α : Type} {isEnd : α → Bool} {content : List α} (hne : content ≠ [])
    (h : ∀ a ∈ content, isEnd a = false) (rest : List α) :
    split isEnd (content ++ rest) =
      (content ++ (split isEnd rest).head?.getD []) :: (split isEnd rest).tail := by
  induction content with
  | nil => exact absurd rfl hne
  | cons a content ih =>
    obtain ⟨ha, hcontent⟩ := List.forall_mem_cons.mp h
    rw [List.cons_append, split, if_neg (by simp [ha])]
    cases content with
    | nil =>
      rw [List.nil_append]
      cases split isEnd rest <;> rfl
    | cons b content =>
      rw [ih (List.cons_ne_nil _ _) hcontent]
      rfl

end Lines

namespace Utf8

/-- An ASCII byte is in the encoding of no other character. -/
theorem eq_of_mem_encodeChar {c : Char} {b : UInt8} (h : b ∈ String.utf8EncodeChar c) (hb : b.toNat < 0x80) :
    c.toNat = b.toNat := by
  have hvalid : c.val.toNat < 0xD800 ∨ 0xDFFF < c.val.toNat ∧ c.val.toNat < 0x110000 := c.valid
  have hc : c.toNat = c.val.toNat := rfl
  unfold String.utf8EncodeChar at h
  dsimp only at h
  split_ifs at h
  · obtain rfl := List.mem_singleton.mp h
    rw [hc, UInt8.toNat_ofNat']
    omega
  all_goals
    simp (disch := decide) only [List.mem_cons, List.not_mem_nil, or_false, ← UInt8.toNat_inj,
      toNat_digit] at h
    omega

/-- An encoded text is cut into lines where the text is. -/
theorem split_encode {c : Char} (hc : c.toNat < 0x80) (t : Text) :
    Lines.split (fun b => b = UInt8.ofNat c.toNat) (encode t) =
      (Lines.split (fun d => d = c) t).map encode := by
  have hbyte : (UInt8.ofNat c.toNat).toNat = c.toNat := by
    rw [UInt8.toNat_ofNat']
    omega
  induction t with
  | nil => rfl
  | cons d t ih =>
    rw [encode_cons]
    by_cases hd : d = c
    · subst hd
      rw [encodeChar_ascii hc, List.singleton_append, Lines.split_cons_end (by simp),
        Lines.split_cons_end (by simp), ih, List.map_cons, encode_cons, encodeChar_ascii hc]
      rfl
    · have hother : ∀ b ∈ String.utf8EncodeChar d, decide (b = UInt8.ofNat c.toNat) = false := by
        intro b hmem
        refine decide_eq_false fun heq => hd ?_
        have hlow : b.toNat = c.toNat := heq ▸ hbyte
        exact Char.toNat_inj.mp ((eq_of_mem_encodeChar hmem (hlow ▸ hc)).trans hlow)
      have hself : ∀ a ∈ [d], decide (a = c) = false := by simpa using hd
      have hsplit := Lines.split_unended_append (List.cons_ne_nil _ _) hself t
      rw [List.singleton_append] at hsplit
      rw [Lines.split_unended_append String.utf8EncodeChar_ne_nil hother, ih, hsplit]
      cases Lines.split (fun d => decide (d = c)) t with
      | nil => simp [encode_cons]
      | cons line lines => simp [encode_cons]

end Utf8
