-- SUMMARY: Searching a list for the first of several needles, and the search one element at a time.
import Mathlib.Data.List.Infix

/-!
# Needles

Each of several needles is searched for on its own, and the one found first is kept. This is the same as
to look, at one position after the other, for a needle that is there.
-/

namespace Needles

variable {α : Type} [DecidableEq α]

/-- `str::find` with a string pattern. -/
def find (needle : List α) : List α → Option Nat
  | [] => if needle.isEmpty then some 0 else none
  | c :: cs => if needle.isPrefixOf (c :: cs) then some 0 else (find needle cs).map (· + 1)

/-- One needle more, with its length: it is kept if it comes before the best so far. -/
def pick (text : List α) (best : Option (Nat × Nat)) (needle : List α × Nat) : Option (Nat × Nat) :=
  match find needle.1 text with
  | some pos => if best.all fun b => pos < b.1 then some (pos, needle.2) else best
  | none => best

/-- Where the first of the needles is, and its length. -/
def firstOf (needles : List (List α × Nat)) (text : List α) : Option (Nat × Nat) :=
  needles.foldl (pick text) none

/-- The length of the needle that a text begins with. -/
def beginsWith (needles : List (List α × Nat)) (text : List α) : Option Nat :=
  (needles.find? fun needle => needle.1.isPrefixOf text).map Prod.snd

/-- One further to the right. -/
def shift (found : Nat × Nat) : Nat × Nat := (found.1 + 1, found.2)

section

variable {needles : List (List α × Nat)} {c : α} {cs : List α}

theorem pick_shift {needle : List α × Nat} (h : needle.1.isPrefixOf (c :: cs) = false)
    (best : Option (Nat × Nat)) : pick (c :: cs) (best.map shift) needle = (pick cs best needle).map shift := by
  unfold pick
  rw [find, h, if_neg Bool.false_ne_true]
  cases find needle.1 cs with
  | none => rfl
  | some pos =>
    cases best with
    | none => rfl
    | some b =>
      simp only [Option.map_some, Option.all_some, shift, Nat.add_lt_add_iff_right]
      split <;> rfl

/-- Where none begins, the first is as far into the rest. -/
theorem foldl_pick_shift (h : ∀ needle ∈ needles, needle.1.isPrefixOf (c :: cs) = false)
    (best : Option (Nat × Nat)) :
    needles.foldl (pick (c :: cs)) (best.map shift) = (needles.foldl (pick cs) best).map shift := by
  induction needles generalizing best with
  | nil => rfl
  | cons needle needles ih =>
    obtain ⟨hfirst, hrest⟩ := List.forall_mem_cons.mp h
    rw [List.foldl_cons, List.foldl_cons, pick_shift hfirst, ih hrest]

/-- Nothing comes before what is found at once. -/
theorem foldl_pick_zero (text : List α) (needles : List (List α × Nat)) (len : Nat) :
    needles.foldl (pick text) (some (0, len)) = some (0, len) := by
  induction needles with
  | nil => rfl
  | cons needle needles ih =>
    have hkept : pick text (some (0, len)) needle = some (0, len) := by
      unfold pick
      split <;> simp
    rw [List.foldl_cons, hkept, ih]

theorem foldl_pick_begins {len : Nat} (h : beginsWith needles (c :: cs) = some len)
    {best : Option (Nat × Nat)} (hbest : ∀ b ∈ best, 0 < b.1) :
    needles.foldl (pick (c :: cs)) best = some (0, len) := by
  induction needles generalizing best with
  | nil => cases h
  | cons needle needles ih =>
    rw [List.foldl_cons]
    unfold beginsWith at h
    rw [List.find?_cons] at h
    cases hbegins : needle.1.isPrefixOf (c :: cs) with
    | true =>
      rw [hbegins] at h
      cases h
      have hpicked : pick (c :: cs) best needle = some (0, needle.2) := by
        unfold pick
        rw [find, if_pos hbegins]
        dsimp only
        rw [if_pos]
        cases best with
        | none => rfl
        | some b => exact decide_eq_true (hbest b rfl)
      rw [hpicked, foldl_pick_zero]
    | false =>
      rw [hbegins] at h
      refine ih h ?_
      unfold pick
      rw [find, if_neg (by simp [hbegins])]
      cases find needle.1 cs with
      | none => exact hbest
      | some pos =>
        dsimp only [Option.map_some]
        split
        · rintro b hb
          cases hb
          exact Nat.succ_pos pos
        · exact hbest

theorem firstOf_cons (needles : List (List α × Nat)) (c : α) (cs : List α) :
    firstOf needles (c :: cs) =
      (beginsWith needles (c :: cs)).elim ((firstOf needles cs).map shift) fun len => some (0, len) := by
  cases h : beginsWith needles (c :: cs) with
  | some len => exact foldl_pick_begins h nofun
  | none =>
    refine foldl_pick_shift (fun needle hneedle => ?_) none
    have hnone := List.find?_eq_none.mp (Option.map_eq_none_iff.mp h) needle hneedle
    exact Bool.eq_false_iff.mpr hnone

theorem firstOf_nil (h : ∀ needle ∈ needles, needle.1 ≠ []) : firstOf needles [] = none := by
  suffices hfold : needles.foldl (pick []) none = none from hfold
  induction needles with
  | nil => rfl
  | cons needle needles ih =>
    obtain ⟨hfirst, hrest⟩ := List.forall_mem_cons.mp h
    have hnone : pick [] none needle = none := by
      unfold pick
      rw [find, if_neg (by simpa using hfirst)]
    rw [List.foldl_cons, hnone, ih hrest]

theorem beginsWith_mem {text : List α} {len : Nat} (h : beginsWith needles text = some len) :
    ∃ needle, (needle, len) ∈ needles ∧ needle <+: text := by
  obtain ⟨⟨needle, len'⟩, hfind, hlen⟩ := Option.map_eq_some_iff.mp h
  cases hlen
  have hbegins : needle.isPrefixOf text = true :=
    @List.find?_some _ (fun needle : List α × Nat => needle.1.isPrefixOf text) _ _ hfind
  exact ⟨needle, List.mem_of_find?_eq_some hfind, List.isPrefixOf_iff_prefix.mp hbegins⟩

/-- What is found is one of the needles, where it says. -/
theorem firstOf_eq_some {text : List α} {pos len : Nat} (hne : ∀ needle ∈ needles, needle.1 ≠ [])
    (h : firstOf needles text = some (pos, len)) :
    ∃ needle, (needle, len) ∈ needles ∧ needle <+: text.drop pos := by
  induction text generalizing pos with
  | nil =>
    rw [firstOf_nil hne] at h
    cases h
  | cons c cs ih =>
    rw [firstOf_cons] at h
    cases hbegins : beginsWith needles (c :: cs) with
    | some len' =>
      rw [hbegins] at h
      cases h
      exact beginsWith_mem hbegins
    | none =>
      rw [hbegins] at h
      obtain ⟨⟨pos', len'⟩, hrest, heq⟩ := Option.map_eq_some_iff.mp h
      cases heq
      exact ih hrest

end

end Needles
