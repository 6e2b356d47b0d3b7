-- SUMMARY: The last items of a sequence in a buffer of fixed size, and searching through it while the sequence goes by.
import Mathlib.Data.List.DropRight
import Mathlib.Data.List.Infix

/-!
# Windows

A buffer that drops its oldest item when it is full holds the end of what went by. A pattern that
is not longer than the buffer occurs in the whole exactly if the buffer has ended with it at some time.
-/

namespace Window

variable {α : Type*}

/-- Add an item; the oldest one makes room for it. -/
def push (size : Nat) (window : List α) (a : α) : List α :=
  (if window.length = size then window.tail else window) ++ [a]

/-- One item into a window that holds the end of what went by. -/
theorem push_rtake {size : Nat} (hsize : 0 < size) (seen : List α) (a : α) :
    push size (seen.rtake size) a = (seen ++ [a]).rtake size := by
  obtain ⟨n, rfl⟩ := Nat.exists_eq_succ_of_ne_zero hsize.ne'
  have hlength : (seen.rtake (n + 1)).length = seen.length - (seen.length - (n + 1)) := by
    rw [List.rtake, List.length_drop]
  rw [push, List.rtake_concat_succ]
  congr 1
  split
  · next hfull =>
    rw [hlength] at hfull
    rw [List.rtake, List.rtake, List.tail_drop]
    congr 1
    omega
  · next hroom =>
    rw [hlength] at hroom
    rw [List.rtake, List.rtake]
    congr 1
    omega

/-- The window ends with the pattern if all that went by does. -/
theorem suffix_rtake_iff {size : Nat} {pattern seen : List α} (h : pattern.length ≤ size) :
    pattern <:+ seen.rtake size ↔ pattern <:+ seen := by
  have hwindow : seen.rtake size <:+ seen := List.drop_suffix _ _
  refine ⟨fun hend => hend.trans hwindow, fun hend => ?_⟩
  refine List.suffix_of_suffix_length_le hend hwindow ?_
  have hle := hend.length_le
  rw [List.rtake, List.length_drop]
  omega

theorem rtake_map {β : Type*} (f : α → β) (seen : List α) (size : Nat) :
    (seen.map f).rtake size = (seen.rtake size).map f := by
  rw [List.rtake, List.rtake, List.length_map, List.map_drop]

/-- Item by item, two sequences agree as far as the shorter one goes. -/
theorem zip_all_iff [DecidableEq α] {front whole : List α} (h : front.length ≤ whole.length) :
    (whole.zip front).all (fun pair => pair.1 = pair.2) = true ↔ front <+: whole := by
  induction front generalizing whole with
  | nil => simp
  | cons b front ih =>
    cases whole with
    | nil => exact absurd h (by simp)
    | cons a whole =>
      have hrest := ih (Nat.le_of_succ_le_succ h)
      simp only [List.zip_cons_cons, List.all_cons, Bool.and_eq_true, decide_eq_true_eq, hrest,
        List.cons_prefix_cons, @eq_comm _ b a]

/-- Read from behind, the window agrees with a pattern it ends with. -/
theorem zip_reverse_all_iff [DecidableEq α] {pattern window : List α} (h : pattern.length ≤ window.length) :
    (window.reverse.zip pattern.reverse).all (fun pair => pair.1 = pair.2) = true ↔
      pattern <:+ window := by
  rw [zip_all_iff (by simpa using h), List.reverse_prefix]

end Window
