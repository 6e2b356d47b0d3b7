-- SUMMARY: Numbered values that are put in their places.
import Mathlib.Data.List.Perm.Subperm
import Mathlib.Data.List.Range

/-!
# Slots

Values that carry the number of their place are put in the places of a row. If no two of them have one
number, and there are as many of them as places, then no place is left empty.
-/

/-- The places of a row hold these numbered values, each of them its own. -/
structure Filled {α : Type} (size : Nat) (items : List (Nat × α)) (slots : List (Option α)) : Prop where
  length : slots.length = size
  lt : ∀ item ∈ items, item.1 < size
  nodup : (items.map Prod.fst).Nodup
  get : ∀ i a, slots[i]? = some (some a) ↔ (i, a) ∈ items

namespace Filled

variable {α : Type} {size i : Nat} {a : α} {items : List (Nat × α)} {slots : List (Option α)}

theorem empty (size : Nat) : Filled (α := α) size [] (List.replicate size none) where
  length := List.length_replicate
  lt := nofun
  nodup := List.nodup_nil
  get i a := by
    rw [List.getElem?_replicate]
    split <;> simp

theorem not_mem (h : Filled size items slots) (hi : slots[i]? = some none) : i ∉ items.map Prod.fst := by
  intro hmem
  obtain ⟨⟨_, a⟩, hitem, rfl⟩ := List.mem_map.mp hmem
  have hget := (h.get _ a).mpr hitem
  rw [hi] at hget
  cases hget

/-- A place whose number no value carries is empty. -/
theorem free (h : Filled size items slots) (hlt : i < size) (hi : i ∉ items.map Prod.fst) :
    slots[i]? = some none := by
  rw [List.getElem?_eq_getElem (h.length ▸ hlt)]
  refine congrArg some ?_
  by_contra hne
  obtain ⟨a, ha⟩ := Option.ne_none_iff_exists'.mp hne
  have hget : slots[i]? = some (some a) := by rw [List.getElem?_eq_getElem (h.length ▸ hlt), ha]
  exact hi (List.mem_map.mpr ⟨(i, a), (h.get i a).mp hget, rfl⟩)

theorem set (h : Filled size items slots) (hi : slots[i]? = some none) (a : α) :
    Filled size (items ++ [(i, a)]) (slots.set i (some a)) := by
  have hlt : i < slots.length := (List.getElem?_eq_some_iff.mp hi).1
  refine ⟨by rw [List.length_set, h.length], fun item hitem => ?_, ?_, fun j b => ?_⟩
  · rcases List.mem_append.mp hitem with hitem | hitem
    · exact h.lt item hitem
    · rw [List.mem_singleton.mp hitem, ← h.length]
      exact hlt
  · rw [List.map_append]
    refine List.nodup_append.mpr ⟨h.nodup, List.pairwise_singleton _ _, fun j hj k hk => ?_⟩
    rw [List.mem_singleton.mp hk]
    rintro rfl
    exact h.not_mem hi hj
  · rw [List.mem_append, List.mem_singleton, Prod.mk.injEq, ← h.get]
    by_cases hij : i = j
    · subst hij
      rw [List.getElem?_set_self hlt, hi]
      simp [eq_comm]
    · rw [List.getElem?_set_ne hij]
      simp [Ne.symm hij]

/-- As many numbers as places, each below their count and no two of them equal, are all there are. -/
theorem perm_range {indices : List Nat} (hnodup : indices.Nodup) (hlt : ∀ i ∈ indices, i < size)
    (hlength : indices.length = size) : indices.Perm (List.range size) := by
  refine (List.subperm_of_subset hnodup fun i hi => List.mem_range.mpr (hlt i hi)).perm_of_length_le ?_
  rw [List.length_range, hlength]

theorem perm (h : Filled size items slots) (hlength : items.length = size) :
    (items.map Prod.fst).Perm (List.range size) := by
  refine perm_range h.nodup (fun i hi => ?_) (by rw [List.length_map, hlength])
  obtain ⟨item, hitem, rfl⟩ := List.mem_map.mp hi
  exact h.lt item hitem

/-- With as many values as places no place is left empty. -/
theorem full (h : Filled size items slots) (hlength : items.length = size) : none ∉ slots := by
  intro hnone
  obtain ⟨i, hi⟩ := List.mem_iff_getElem?.mp hnone
  have hlt : i < size := by
    rw [← h.length]
    exact (List.getElem?_eq_some_iff.mp hi).1
  exact h.not_mem hi ((h.perm hlength).mem_iff.mpr (List.mem_range.mpr hlt))

end Filled

/-- The values of a row without an empty place. -/
def collect {α : Type} : List (Option α) → Option (List α)
  | [] => some []
  | none :: _ => none
  | some a :: slots => (collect slots).map (a :: ·)

theorem collect_eq_some {α : Type} {slots : List (Option α)} {row : List α} :
    collect slots = some row ↔ slots = row.map some := by
  induction slots generalizing row with
  | nil => cases row <;> simp [collect]
  | cons slot slots ih =>
    cases slot with
    | none => cases row <;> simp [collect]
    | some a => cases row <;> simp [collect, ih, and_comm]

theorem collect_ne_none {α : Type} {slots : List (Option α)} (h : none ∉ slots) : ∃ row, collect slots = some row := by
  induction slots with
  | nil => exact ⟨[], rfl⟩
  | cons slot slots ih =>
    obtain ⟨hslot, hslots⟩ := not_or.mp (mt List.mem_cons.mpr h)
    obtain ⟨a, rfl⟩ := Option.ne_none_iff_exists'.mp (Ne.symm hslot)
    obtain ⟨row, hrow⟩ := ih hslots
    exact ⟨a :: row, by rw [collect, hrow, Option.map_some]⟩
