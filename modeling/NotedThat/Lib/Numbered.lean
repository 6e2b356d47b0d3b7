-- SUMMARY: Logs whose entries are numbered 1, 2, 3, … in order, and the parts of them a position cuts off.
import Mathlib.Data.List.Basic

/-!
# Numbered logs

The entries of a log carry their positions, counted from one. Selecting the entries behind a
position is then the same as dropping that many of them.
-/

/-- The entries are numbered from `base + 1` on, without a gap. -/
def NumberedFrom {α : Type} (base : Nat) : List (Nat × α) → Prop
  | [] => True
  | e :: log => e.1 = base + 1 ∧ NumberedFrom (base + 1) log

namespace NumberedFrom

variable {α : Type} {base n : Nat} {log : List (Nat × α)}

theorem append {log' : List (Nat × α)} (h : NumberedFrom base log)
    (h' : NumberedFrom (base + log.length) log') : NumberedFrom base (log ++ log') := by
  induction log generalizing base with
  | nil => simpa using h'
  | cons e log ih =>
    refine ⟨h.1, ih h.2 ?_⟩
    have : base + 1 + log.length = base + (e :: log).length := by
      rw [List.length_cons]
      omega
    rwa [this]

theorem drop (h : NumberedFrom base log) (n : Nat) :
    NumberedFrom (base + min n log.length) (log.drop n) := by
  induction log generalizing base n with
  | nil => simpa using h
  | cons e log ih =>
    cases n with
    | zero => simpa using h
    | succ n =>
      have := ih h.2 n
      simp only [List.drop_succ_cons, List.length_cons]
      have heq : base + 1 + min n log.length = base + min (n + 1) (log.length + 1) := by omega
      rwa [← heq]

theorem take (h : NumberedFrom base log) (n : Nat) : NumberedFrom base (log.take n) := by
  induction log generalizing base n with
  | nil => simpa using h
  | cons e log ih =>
    cases n with
    | zero => trivial
    | succ n => exact ⟨h.1, ih h.2 n⟩

theorem lt_of_mem (h : NumberedFrom base log) {e : Nat × α} (he : e ∈ log) :
    base < e.1 ∧ e.1 ≤ base + log.length := by
  induction log generalizing base with
  | nil => cases he
  | cons d log ih =>
    rcases List.mem_cons.mp he with rfl | he
    · have := h.1
      rw [List.length_cons]
      omega
    · have := ih h.2 he
      rw [List.length_cons]
      omega

/-- Every number up to the length of the log is in it. -/
theorem exists_mem (h : NumberedFrom base log) (hn : base < n) (hle : n ≤ base + log.length) :
    ∃ e ∈ log, e.1 = n := by
  induction log generalizing base with
  | nil => simp at hle; omega
  | cons e log ih =>
    by_cases heq : n = base + 1
    · exact ⟨e, by simp, by rw [h.1, heq]⟩
    · rw [List.length_cons] at hle
      obtain ⟨d, hd, hdn⟩ := ih h.2 (by omega) (by omega)
      exact ⟨d, by simp [hd], hdn⟩

/-- The numbers increase. -/
theorem pairwise (h : NumberedFrom base log) : log.Pairwise fun d e => d.1 < e.1 := by
  induction log generalizing base with
  | nil => exact .nil
  | cons e log ih =>
    refine .cons ?_ (ih h.2)
    intro d hd
    have := (h.2.lt_of_mem hd).1
    have := h.1
    omega

/-- The entries behind a position are those left after dropping that many. -/
theorem filter_lt (h : NumberedFrom base log) (n : Nat) :
    log.filter (fun e => decide (n < e.1)) = log.drop (n - base) := by
  induction log generalizing base with
  | nil => simp
  | cons e log ih =>
    have he := h.1
    have hrest := ih h.2
    by_cases hn : n ≤ base
    · have hzero : n - base = 0 := by omega
      have hzero' : n - (base + 1) = 0 := by omega
      rw [hzero, List.drop_zero, List.filter_cons_of_pos (by simp; omega), hrest, hzero',
        List.drop_zero]
    · have hsucc : n - base = (n - (base + 1)) + 1 := by omega
      rw [hsucc, List.drop_succ_cons, List.filter_cons_of_neg (by simp; omega), hrest]

end NumberedFrom

/-- In a list with increasing numbers, the entries up to the last one of an initial part are that
part. -/
theorem filter_le_last {α : Type} {before after : List (Nat × α)} {last : Nat × α}
    (h : (before ++ after).Pairwise fun d e => d.1 < e.1) (hlast : before.getLast? = some last) :
    (before ++ after).filter (fun e => decide (e.1 ≤ last.1)) = before := by
  obtain ⟨init, rfl⟩ := List.getLast?_eq_some_iff.mp hlast
  simp only [List.pairwise_append, List.mem_append, List.mem_singleton] at h
  obtain ⟨⟨-, -, hinit⟩, -, hafter⟩ := h
  rw [List.filter_append, List.filter_eq_self.mpr, List.filter_eq_nil_iff.mpr, List.append_nil]
  · intro e he
    simpa using hafter last (.inr rfl) e he
  · intro e he
    rcases List.mem_append.mp he with he | he
    · simpa using Nat.le_of_lt (hinit e he last rfl)
    · cases List.mem_singleton.mp he
      simp
