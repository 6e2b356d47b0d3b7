-- SUMMARY: Lists cut into lines: the lines make up the list, and what lies between two offsets are whole lines.
import Mathlib.Data.List.Basic

/-!
# Lines

A list is cut after every element that ends a line. The last line need not have such an end, and no line is
empty.
-/

namespace Lines

variable {α : Type} (isEnd : α → Bool)

/-- The lines of a list. -/
def split : List α → List (List α)
  | [] => []
  | a :: rest =>
    if isEnd a then [a] :: split rest
    else
      match split rest with
      | [] => [[a]]
      | line :: lines => (a :: line) :: lines

/-- Where each line begins, when the first begins at `i`. -/
def starts : Nat → List (List α) → List Nat
  | _, [] => []
  | i, line :: lines => i :: starts (i + line.length) lines

/-- How long the first `n` lines are. -/
def offset (lines : List (List α)) (n : Nat) : Nat := (lines.take n).flatten.length

variable {isEnd}

theorem flatten_split (xs : List α) : (split isEnd xs).flatten = xs := by
  induction xs with
  | nil => rfl
  | cons a rest ih =>
    unfold split
    split
    · rw [List.flatten_cons, ih, List.singleton_append]
    · split
      · next hnil =>
        rw [hnil] at ih
        rw [← ih]
        rfl
      · next line lines hcons =>
        rw [hcons] at ih
        rw [← ih]
        rfl

theorem split_eq_nil {xs : List α} : split isEnd xs = [] ↔ xs = [] := by
  constructor
  · intro h
    have hflatten : (split isEnd xs).flatten = xs := flatten_split xs
    rw [← hflatten, h, List.flatten_nil]
  · rintro rfl
    rfl

theorem split_cons_end {a : α} (h : isEnd a = true) (xs : List α) :
    split isEnd (a :: xs) = [a] :: split isEnd xs := by
  rw [split, if_pos h]

/-- An element that ends no line is put on the line behind it. -/
theorem starts_split_cons {a : α} (h : isEnd a = false) (i : Nat) (xs : List α) :
    (starts i (split isEnd (a :: xs))).tail = (starts (i + 1) (split isEnd xs)).tail := by
  rw [split, if_neg (by simp [h])]
  split
  · next hnil =>
    rw [hnil]
    rfl
  · next line lines hcons =>
    rw [hcons]
    simp only [starts, List.tail_cons, List.length_cons]
    congr 1
    omega

theorem length_split_le (xs : List α) : (split isEnd xs).length ≤ xs.length := by
  induction xs with
  | nil => exact Nat.le_refl 0
  | cons a rest ih =>
    unfold split
    split
    · exact Nat.succ_le_succ ih
    · split
      · exact Nat.succ_le_succ (Nat.zero_le _)
      · next line lines hcons =>
        rw [hcons] at ih
        exact Nat.le_succ_of_le ih

/-! ## Line ends -/

/-- A line has one end, behind everything else, or it is the last and has none. -/
inductive Line (isEnd : α → Bool) (isLast : Prop) : List α → Prop where
  | ended {content : List α} {a : α} : (∀ b ∈ content, isEnd b = false) → isEnd a = true →
      Line isEnd isLast (content ++ [a])
  | unended {content : List α} : isLast → content ≠ [] → (∀ b ∈ content, isEnd b = false) →
      Line isEnd isLast content

theorem Line.ne_nil {isLast : Prop} {line : List α} (h : Line isEnd isLast line) : line ≠ [] := by
  cases h with
  | ended _ _ => exact List.append_ne_nil_of_right_ne_nil _ (List.cons_ne_nil _ _)
  | unended _ hne _ => exact hne

theorem Line.mono {p q : Prop} {line : List α} (h : Line isEnd p line) (himp : p → q) : Line isEnd q line := by
  cases h with
  | ended hcontent hend => exact .ended hcontent hend
  | unended hlast hne hcontent => exact .unended (himp hlast) hne hcontent

theorem Line.cons {isLast : Prop} {a : α} {line : List α} (ha : isEnd a = false)
    (h : Line isEnd isLast line) : Line isEnd isLast (a :: line) := by
  cases h with
  | @ended content e hcontent hend =>
    exact @Line.ended _ _ _ (a :: content) e (List.forall_mem_cons.mpr ⟨ha, hcontent⟩) hend
  | unended hlast _ hcontent =>
    exact .unended hlast (List.cons_ne_nil _ _) (List.forall_mem_cons.mpr ⟨ha, hcontent⟩)

/-- Another line in front of a line leaves it where it was from the end. -/
theorem line_of_split {xs line : List α} {n : Nat} (h : (split isEnd xs)[n]? = some line) :
    Line isEnd (n + 1 = (split isEnd xs).length) line := by
  induction xs generalizing n line with
  | nil => cases h
  | cons a rest ih =>
    cases ha : isEnd a with
    | true =>
      rw [split_cons_end ha] at h ⊢
      cases n with
      | zero =>
        cases h
        exact @Line.ended _ _ _ [] a (fun _ hmem => nomatch hmem) ha
      | succ n =>
        rw [List.getElem?_cons_succ] at h
        simpa using ih h
    | false =>
      rw [split, if_neg (by simp [ha])] at h ⊢
      split at h
      · cases n with
        | zero =>
          cases h
          exact .unended rfl (List.cons_ne_nil _ _) (by simpa using ha)
        | succ n => cases h
      · next front lines hcons =>
        rw [hcons] at ih
        cases n with
        | zero =>
          cases h
          exact (@ih front 0 rfl).cons ha
        | succ n => exact @ih line (n + 1) h

/-- Every line in front of another one has its end. -/
theorem lines_of_split {xs line : List α} {front rest : List (List α)}
    (h : split isEnd xs = front ++ line :: rest) :
    (∀ l ∈ front, Line isEnd False l) ∧ Line isEnd (rest = []) line := by
  have hlength : (split isEnd xs).length = front.length + rest.length + 1 := by
    rw [h, List.length_append, List.length_cons]
    omega
  constructor
  · intro l hl
    obtain ⟨n, hn, rfl⟩ := List.mem_iff_getElem.mp hl
    have hat : (split isEnd xs)[n]? = some front[n] := by
      rw [h, List.getElem?_append_left hn, List.getElem?_eq_getElem hn]
    exact (line_of_split hat).mono fun hlast => by omega
  · have hat : (split isEnd xs)[front.length]? = some line := by
      rw [h, List.getElem?_append_right (Nat.le_refl _), Nat.sub_self, List.getElem?_cons_zero]
    exact (line_of_split hat).mono fun hlast => List.eq_nil_of_length_eq_zero (by omega)

/-- What has no end is one line. -/
theorem split_unended {content : List α} (hne : content ≠ []) (h : ∀ b ∈ content, isEnd b = false) :
    split isEnd content = [content] := by
  induction content with
  | nil => exact absurd rfl hne
  | cons a content ih =>
    obtain ⟨ha, hcontent⟩ := List.forall_mem_cons.mp h
    rw [split, if_neg (by simp [ha])]
    cases content with
    | nil => rfl
    | cons b content => rw [ih (List.cons_ne_nil _ _) hcontent]

/-- A line with its end is the first line of whatever comes behind it. -/
theorem split_line_append {line : List α} (h : Line isEnd False line) (ys : List α) :
    split isEnd (line ++ ys) = line :: split isEnd ys := by
  cases h with
  | unended hlast _ _ => exact hlast.elim
  | @ended content a hcontent hend =>
    induction content with
    | nil => exact split_cons_end hend ys
    | cons b content ih =>
      obtain ⟨hb, hrest⟩ := List.forall_mem_cons.mp hcontent
      rw [List.cons_append, List.cons_append, split, if_neg (by simp [hb]), ih hrest]

theorem split_flatten_append {lines : List (List α)} (h : ∀ line ∈ lines, Line isEnd False line) (ys : List α) :
    split isEnd (lines.flatten ++ ys) = lines ++ split isEnd ys := by
  induction lines with
  | nil => rfl
  | cons line lines ih =>
    obtain ⟨hline, hlines⟩ := List.forall_mem_cons.mp h
    rw [List.flatten_cons, List.append_assoc, split_line_append hline, ih hlines, List.cons_append]

section Offsets

variable {lines : List (List α)}

theorem starts_eq_cons (h : lines ≠ []) (i : Nat) : starts i lines = i :: (starts i lines).tail := by
  cases lines with
  | nil => exact absurd rfl h
  | cons line lines => rfl

@[simp] theorem length_starts (i : Nat) : (starts i lines).length = lines.length := by
  induction lines generalizing i with
  | nil => rfl
  | cons line lines ih => rw [starts, List.length_cons, ih, List.length_cons]

@[simp] theorem offset_zero : offset lines 0 = 0 := rfl

theorem offset_of_length_le {n : Nat} (h : lines.length ≤ n) : offset lines n = lines.flatten.length := by
  rw [offset, List.take_of_length_le h]

theorem offset_succ {line : List α} (n : Nat) :
    offset (line :: lines) (n + 1) = line.length + offset lines n := by
  rw [offset, List.take_succ_cons, List.flatten_cons, List.length_append, offset]

theorem getElem?_starts {n : Nat} (h : n < lines.length) (i : Nat) :
    (starts i lines)[n]? = some (i + offset lines n) := by
  induction lines generalizing n i with
  | nil => cases h
  | cons line lines ih =>
    cases n with
    | zero => rfl
    | succ n =>
      rw [starts, List.getElem?_cons_succ, ih (by simpa using h), offset_succ, Nat.add_assoc]

theorem take_flatten {m n : Nat} (h : m ≤ n) :
    (lines.take n).flatten = (lines.take m).flatten ++ ((lines.drop m).take (n - m)).flatten := by
  rw [← List.flatten_append, ← List.take_add, Nat.add_sub_cancel' h]

theorem offset_mono {m n : Nat} (h : m ≤ n) : offset lines m ≤ offset lines n := by
  rw [offset, offset, take_flatten h, List.length_append]
  exact Nat.le_add_right _ _

theorem offset_le (n : Nat) : offset lines n ≤ lines.flatten.length := by
  rcases Nat.le_total n lines.length with h | h
  · rw [← offset_of_length_le (Nat.le_refl lines.length)]
    exact offset_mono h
  · exact Nat.le_of_eq (offset_of_length_le h)

/-- Between the offsets of two lines lie the lines from one to the other. -/
theorem take_drop_flatten {m n : Nat} (h : m ≤ n) :
    (lines.flatten.drop (offset lines m)).take (offset lines n - offset lines m) =
      ((lines.drop m).take (n - m)).flatten := by
  have hsplit : lines.flatten = (lines.take m).flatten ++ (lines.drop m).flatten := by
    rw [← List.flatten_append, List.take_append_drop]
  have hrest : (lines.drop m).flatten =
      ((lines.drop m).take (n - m)).flatten ++ ((lines.drop m).drop (n - m)).flatten := by
    rw [← List.flatten_append, List.take_append_drop]
  have hlength : offset lines n - offset lines m = ((lines.drop m).take (n - m)).flatten.length := by
    rw [offset, offset, take_flatten h, List.length_append, Nat.add_sub_cancel_left]
  have hdrop : lines.flatten.drop (offset lines m) = (lines.drop m).flatten := by
    rw [hsplit, offset, List.drop_left]
  rw [hlength, hdrop, hrest, List.take_left]

theorem take_drop_line {n : Nat} {line : List α} (h : lines[n]? = some line) :
    (lines.flatten.drop (offset lines n)).take (offset lines (n + 1) - offset lines n) = line := by
  obtain ⟨hn, hline⟩ := List.getElem?_eq_some_iff.mp h
  rw [take_drop_flatten (Nat.le_add_right n 1), Nat.add_sub_cancel_left, List.drop_eq_getElem_cons hn, hline]
  exact List.append_nil line

theorem offset_lt_succ {n : Nat} {line : List α} (h : lines[n]? = some line) (hne : line ≠ []) :
    offset lines n < offset lines (n + 1) := by
  have hslice := take_drop_line h
  refine Nat.lt_of_not_le fun hle => hne ?_
  rw [← hslice, Nat.sub_eq_zero_of_le hle, List.take_zero]

/-- An offset between those of two lines lies in a line between them. -/
theorem exists_line {m n i : Nat} (hm : offset lines m ≤ i) (hn : i < offset lines n) :
    ∃ k, m ≤ k ∧ k < n ∧ offset lines k ≤ i ∧ i < offset lines (k + 1) := by
  induction n with
  | zero => cases hn
  | succ n ih =>
    rcases Nat.lt_or_ge i (offset lines n) with hlt | hge
    · obtain ⟨k, hmk, hkn, hk⟩ := ih hlt
      exact ⟨k, hmk, Nat.lt_succ_of_lt hkn, hk⟩
    · refine ⟨n, Nat.le_of_not_lt fun hlt => ?_, Nat.lt_succ_self n, hge, hn⟩
      exact absurd (Nat.lt_of_lt_of_le hn (offset_mono hlt)) (Nat.not_lt.mpr hm)

end Offsets

end Lines
