-- SUMMARY: The leftmost occurrences of a list in another that do not overlap, and the pieces that lie between them.
import Mathlib.Data.List.Basic
import Mathlib.Data.List.Infix

/-!
# Occurrences

From a position on, the first occurrence of a needle is taken, and the search goes on behind it. The text is
then made up of pieces with the needle between them, and to replace the needle is to put something else
between the pieces.
-/

namespace Occurrences

variable {α : Type}

def OccursAt (needle text : List α) (i : Nat) : Prop := needle <+: text.drop i

/-- The occurrences that a search from `start` yields. -/
inductive Leftmost (needle text : List α) : Nat → List Nat → Prop where
  | done {start : Nat} : (∀ i, start ≤ i → ¬ OccursAt needle text i) → Leftmost needle text start []
  | next {start i : Nat} {rest : List Nat} : start ≤ i → OccursAt needle text i →
      (∀ j, start ≤ j → j < i → ¬ OccursAt needle text j) → Leftmost needle text (i + needle.length) rest →
      Leftmost needle text start (i :: rest)

/-- The pieces of a text behind `start`, with `width` elements left out at each of the positions. -/
def pieces (text : List α) (width : Nat) : Nat → List Nat → List (List α)
  | start, [] => [text.drop start]
  | start, i :: rest => (text.take i).drop start :: pieces text width (i + width) rest

variable {needle text : List α} {start : Nat} {found : List Nat}

theorem Leftmost.unique {found' : List Nat} (h : Leftmost needle text start found)
    (h' : Leftmost needle text start found') : found = found' := by
  induction h generalizing found' with
  | done hnone =>
    cases h' with
    | done _ => rfl
    | next hle hoccurs _ _ => exact absurd hoccurs (hnone _ hle)
  | @next start i rest hle hoccurs hfirst _ ih =>
    cases h' with
    | done hnone => exact absurd hoccurs (hnone _ hle)
    | @next _ i' rest' hle' hoccurs' hfirst' hrest' =>
      obtain rfl : i = i' := by
        rcases Nat.lt_trichotomy i i' with hlt | heq | hlt
        · exact absurd hoccurs (hfirst' i hle hlt)
        · exact heq
        · exact absurd hoccurs' (hfirst i' hle' hlt)
      rw [ih hrest']

/-- Where the needle does not occur, the search may as well begin one further. -/
theorem Leftmost.extend (h : Leftmost needle text (start + 1) found) (hnone : ¬ OccursAt needle text start) :
    Leftmost needle text start found := by
  have hfrom : ∀ j, start ≤ j → OccursAt needle text j → start + 1 ≤ j := by
    intro j hj hoccurs
    rcases Nat.eq_or_lt_of_le hj with rfl | hlt
    · exact absurd hoccurs hnone
    · exact hlt
  cases h with
  | done hrest => exact .done fun i hi hoccurs => hrest i (hfrom i hi hoccurs) hoccurs
  | next hle hoccurs hfirst hrest =>
    exact .next (Nat.le_of_succ_le hle) hoccurs (fun j hj hlt hj' => hfirst j (hfrom j hj hj') hlt hj') hrest

theorem not_occursAt_of_length_le (hneedle : needle ≠ []) {i : Nat} (h : text.length ≤ i) :
    ¬ OccursAt needle text i := by
  rw [OccursAt, List.drop_eq_nil_of_le h, List.prefix_nil]
  exact hneedle

@[simp] theorem length_pieces (width : Nat) : (pieces text width start found).length = found.length + 1 := by
  induction found generalizing start with
  | nil => rfl
  | cons i rest ih => rw [pieces, List.length_cons, ih, List.length_cons]

theorem pieces_ne_nil (width : Nat) : pieces text width start found ≠ [] := by
  cases found <;> exact List.cons_ne_nil _ _

/-- The text is its pieces with the needle between them. -/
theorem Leftmost.intercalate_pieces (h : Leftmost needle text start found) :
    needle.intercalate (pieces text needle.length start found) = text.drop start := by
  induction h with
  | done _ => exact List.intercalate_singleton
  | @next start i rest hle hoccurs _ _ ih =>
    obtain ⟨behind, hbehind⟩ := hoccurs
    have hrest : text.drop (i + needle.length) = behind := by
      rw [← List.drop_drop, ← hbehind, List.drop_left]
    rw [pieces, List.intercalate_cons_of_ne_nil (pieces_ne_nil _), ih, hrest, List.append_assoc, hbehind]
    have hdrop : text.drop start = (text.take i ++ text.drop i).drop start := by rw [List.take_append_drop]
    rcases Nat.le_total i text.length with hin | hout
    · rw [hdrop, List.drop_append_of_le_length (by rwa [List.length_take, Nat.min_eq_left hin])]
    · rw [List.take_of_length_le hout, List.drop_eq_nil_of_le hout, List.append_nil]

theorem length_intercalate {sep : List α} {parts : List (List α)} (h : parts ≠ []) :
    (sep.intercalate parts).length = parts.flatten.length + (parts.length - 1) * sep.length := by
  induction parts with
  | nil => exact absurd rfl h
  | cons part parts ih =>
    cases parts with
    | nil => simp
    | cons next rest =>
      have hflatten : (part :: next :: rest).flatten = part ++ (next :: rest).flatten := rfl
      rw [List.intercalate_cons_cons, List.length_append, List.length_append, ih (List.cons_ne_nil _ _), hflatten,
        List.length_append]
      simp only [List.length_cons, Nat.add_sub_cancel, Nat.add_mul, Nat.one_mul]
      omega

/-- The needle and what replaces it are as often between the pieces as there are occurrences. -/
theorem Leftmost.length_replaced (h : Leftmost needle text 0 found) (replacement : List α) :
    text.length = (pieces text needle.length 0 found).flatten.length + found.length * needle.length ∧
      (replacement.intercalate (pieces text needle.length 0 found)).length =
        (pieces text needle.length 0 found).flatten.length + found.length * replacement.length := by
  have htext : needle.intercalate (pieces text needle.length 0 found) = text := h.intercalate_pieces
  have hlength : ∀ sep : List α, (sep.intercalate (pieces text needle.length 0 found)).length =
      (pieces text needle.length 0 found).flatten.length + found.length * sep.length := by
    intro sep
    rw [length_intercalate (pieces_ne_nil _), length_pieces, Nat.add_sub_cancel]
  exact ⟨(congrArg List.length htext).symm.trans (hlength needle), hlength replacement⟩

end Occurrences
