-- SUMMARY: Outlines: what encloses an item of a given depth, and when cutting a path at a depth finds it.
import Mathlib.Data.List.Basic
import Mathlib.Data.List.Induction
import Mathlib.Data.List.TakeWhile

/-!
# Outlines

The items of an outline come one after another, each with a depth. An item is enclosed by the nearest
one before it that is shallower, and by what encloses that one. The chain of an item can be kept as a
stack: what is not shallower is taken off before the item is put on. Cutting the stack at the depth
instead is the same only where no depth is skipped.
-/

namespace Outline

variable {α : Type} (depth : α → Nat)

/-- What encloses depth `d` behind these items, the nearest of which comes first. -/
def enclosing : List α → Nat → List α
  | [], _ => []
  | item :: earlier, d =>
    if depth item < d then enclosing earlier (depth item) ++ [item] else enclosing earlier d

/-- The last item, behind what encloses it. -/
def chain (items : List α) : List α :=
  match items.reverse with
  | [] => []
  | item :: earlier => enclosing depth earlier (depth item) ++ [item]

/-- The path that is cut at the depth of each item. -/
def truncated (items : List α) : List α :=
  items.foldl (fun path item => path.take (depth item - 1) ++ [item]) []

/-- Each item that is not deeper than the one before it is enclosed by one of every depth above it. -/
def Filled (items : List α) : Prop :=
  ∀ earlier last item later, items = earlier ++ last :: item :: later → depth item ≤ depth last →
    (enclosing depth (last :: earlier.reverse) (depth item)).length = depth item - 1

/-! ## Enclosing items -/

variable {depth}

theorem depth_lt_of_mem_enclosing {items : List α} {d : Nat} {item : α}
    (h : item ∈ enclosing depth items d) : depth item < d := by
  induction items generalizing d with
  | nil => exact absurd h List.not_mem_nil
  | cons first earlier ih =>
    rw [enclosing] at h
    split_ifs at h with hlt
    · rcases List.mem_append.mp h with h | h
      · exact (ih h).trans hlt
      · rwa [List.mem_singleton.mp h]
    · exact ih h

theorem enclosing_sublist (items : List α) (d : Nat) :
    (enclosing depth items d).Sublist items.reverse := by
  induction items generalizing d with
  | nil => exact List.Sublist.slnil
  | cons first earlier ih =>
    rw [enclosing, List.reverse_cons]
    split_ifs
    · exact (ih _).append (List.Sublist.refl _)
    · exact (ih d).trans (List.sublist_append_left _ _)

/-- Depth increases inwards. -/
theorem pairwise_enclosing (items : List α) (d : Nat) :
    (enclosing depth items d).Pairwise fun outer inner => depth outer < depth inner := by
  induction items generalizing d with
  | nil => exact List.Pairwise.nil
  | cons first earlier ih =>
    rw [enclosing]
    split_ifs
    · refine List.pairwise_append.mpr ⟨ih _, List.pairwise_singleton _ _, fun outer houter inner hinner => ?_⟩
      rw [List.mem_singleton.mp hinner]
      exact depth_lt_of_mem_enclosing houter
    · exact ih d

/-- What is not shallower does not enclose. -/
theorem enclosing_append_of_le {between earlier : List α} {d : Nat} (h : ∀ item ∈ between, d ≤ depth item) :
    enclosing depth (between ++ earlier) d = enclosing depth earlier d := by
  induction between with
  | nil => rfl
  | cons first between ih =>
    rw [List.cons_append, enclosing, if_neg (Nat.not_lt.mpr (h first List.mem_cons_self))]
    exact ih fun item hmem => h item (List.mem_cons_of_mem _ hmem)

theorem takeWhile_concat_of_neg {p : α → Bool} {item : α} (h : p item = false) (items : List α) :
    (items ++ [item]).takeWhile p = items.takeWhile p := by
  rw [List.takeWhile_append, List.takeWhile_cons_of_neg (by rw [h]; decide), List.append_nil]
  split
  · next hall => exact ((List.takeWhile_prefix p).eq_of_length hall).symm
  · rfl

/-- What encloses a smaller depth is the front of what encloses a greater one. -/
theorem enclosing_eq_takeWhile {items : List α} {d e : Nat} (h : d ≤ e) :
    enclosing depth items d = (enclosing depth items e).takeWhile fun item => depth item < d := by
  induction items generalizing e with
  | nil => rfl
  | cons first earlier ih =>
    by_cases hd : depth first < d
    · rw [enclosing, enclosing, if_pos hd, if_pos (hd.trans_le h), List.takeWhile_eq_self_iff.mpr]
      intro item hmem
      rcases List.mem_append.mp hmem with hmem | hmem
      · exact decide_eq_true ((depth_lt_of_mem_enclosing hmem).trans hd)
      · rw [List.mem_singleton.mp hmem]
        exact decide_eq_true hd
    · rw [enclosing, if_neg hd, enclosing]
      split_ifs
      · rw [takeWhile_concat_of_neg (p := fun item => decide (depth item < d)) (decide_eq_false hd)]
        exact ih (Nat.not_lt.mp hd)
      · exact ih h

/-! ## Chains -/

theorem chain_concat (items : List α) (item : α) :
    chain depth (items ++ [item]) = enclosing depth items.reverse (depth item) ++ [item] := by
  rw [chain, List.reverse_concat]

/-- The chain as a stack. -/
theorem enclosing_reverse (items : List α) (d : Nat) :
    enclosing depth items.reverse d = (chain depth items).takeWhile fun item => depth item < d := by
  rcases List.eq_nil_or_concat' items with rfl | ⟨items, last, rfl⟩
  · rfl
  · rw [chain_concat, List.reverse_concat, enclosing]
    split_ifs with hlt
    · rw [List.takeWhile_eq_self_iff.mpr]
      intro item hmem
      rcases List.mem_append.mp hmem with hmem | hmem
      · exact decide_eq_true ((depth_lt_of_mem_enclosing hmem).trans hlt)
      · rw [List.mem_singleton.mp hmem]
        exact decide_eq_true hlt
    · rw [takeWhile_concat_of_neg (p := fun item => decide (depth item < d)) (decide_eq_false hlt)]
      exact enclosing_eq_takeWhile (Nat.not_lt.mp hlt)

theorem chain_sublist (items : List α) : (chain depth items).Sublist items := by
  rcases List.eq_nil_or_concat' items with rfl | ⟨items, last, rfl⟩
  · exact List.Sublist.slnil
  · rw [chain_concat]
    have hfront := @enclosing_sublist _ depth items.reverse (depth last)
    rw [List.reverse_reverse] at hfront
    exact hfront.append (List.Sublist.refl _)

theorem pairwise_chain (items : List α) :
    (chain depth items).Pairwise fun outer inner => depth outer < depth inner := by
  rcases List.eq_nil_or_concat' items with rfl | ⟨items, last, rfl⟩
  · exact List.Pairwise.nil
  · rw [chain_concat]
    refine List.pairwise_append.mpr ⟨pairwise_enclosing _ _, List.pairwise_singleton _ _, ?_⟩
    intro outer houter inner hinner
    rw [List.mem_singleton.mp hinner]
    exact depth_lt_of_mem_enclosing houter

/-- Two items of one depth with none shallower between them are enclosed alike. -/
theorem enclosing_sibling {earlier between : List α} {first second : α} (h : depth first = depth second)
    (hbetween : ∀ item ∈ between, depth second ≤ depth item) :
    enclosing depth (earlier ++ first :: between).reverse (depth second) =
      enclosing depth earlier.reverse (depth first) := by
  rw [List.reverse_append, List.reverse_cons, List.append_assoc,
    enclosing_append_of_le (fun item hmem => hbetween item (List.mem_reverse.mp hmem)),
    List.singleton_append, enclosing, if_neg (by rw [h]; exact Nat.lt_irrefl _), h]

/-! ## Cutting at the depth -/

theorem truncated_concat (items : List α) (item : α) :
    truncated depth (items ++ [item]) = (truncated depth items).take (depth item - 1) ++ [item] := by
  rw [truncated, List.foldl_append]
  rfl

/-- There is room for one item of each depth. -/
theorem length_le_of_pairwise {items : List α} {low high : Nat}
    (hincreasing : items.Pairwise fun outer inner => depth outer < depth inner)
    (hlow : ∀ item ∈ items, low ≤ depth item) (hhigh : ∀ item ∈ items, depth item < high) :
    items.length ≤ high - low := by
  induction items generalizing low with
  | nil => exact Nat.zero_le _
  | cons first items ih =>
    obtain ⟨hfirst, hrest⟩ := List.pairwise_cons.mp hincreasing
    have hle := hlow first List.mem_cons_self
    have hlt := hhigh first List.mem_cons_self
    have hlength : items.length ≤ high - (low + 1) := ih hrest
      (fun item hmem => by have hdeeper := hfirst item hmem; omega)
      (fun item hmem => hhigh item (List.mem_cons_of_mem _ hmem))
    rw [List.length_cons]
    omega

theorem eq_of_prefix_of_length {a b items : List α} (ha : a <+: items) (hb : b <+: items)
    (h : a.length = b.length) : a = b :=
  (List.prefix_of_prefix_length_le ha hb (Nat.le_of_eq h)).eq_of_length h

/-- On the chain, cutting at the depth of the next item leaves as many as enclose it exactly where no
depth is skipped. -/
theorem length_take_chain_iff {items : List α} {last : α} {d : Nat}
    (hpos : ∀ item ∈ items ++ [last], 1 ≤ depth item) :
    min (d - 1) (chain depth (items ++ [last])).length = (enclosing depth (last :: items.reverse) d).length ↔
      (d ≤ depth last → (enclosing depth (last :: items.reverse) d).length = d - 1) := by
  by_cases hlt : depth last < d
  · -- the last item encloses the next, and so does its chain
    have hchain : enclosing depth (last :: items.reverse) d = chain depth (items ++ [last]) := by
      rw [chain_concat, enclosing, if_pos hlt]
    have hroom : (chain depth (items ++ [last])).length ≤ d - 1 :=
      length_le_of_pairwise (pairwise_chain _) (fun item hmem => hpos item ((chain_sublist _).subset hmem))
        (hchain ▸ fun item hmem => depth_lt_of_mem_enclosing hmem)
    rw [hchain]
    exact ⟨fun _ hle => absurd hlt (Nat.not_lt.mpr hle), fun _ => Nat.min_eq_right hroom⟩
  · have hshorter : (enclosing depth (last :: items.reverse) d).length <
        (chain depth (items ++ [last])).length := by
      rw [chain_concat, enclosing, if_neg hlt, enclosing_eq_takeWhile (Nat.not_lt.mp hlt), List.length_append,
        List.length_singleton]
      exact Nat.lt_succ_of_le (List.takeWhile_prefix _).length_le
    constructor
    · intro hmin _
      omega
    · intro hfilled
      have hlength := hfilled (Nat.not_lt.mp hlt)
      omega

theorem filled_of_length {items : List α} (hpos : ∀ item ∈ items, 1 ≤ depth item)
    (h : ∀ front, front <+: items → (truncated depth front).length = (chain depth front).length) :
    Filled depth items := by
  intro earlier last item later hitems
  have hboth : items = earlier ++ [last] ++ [item] ++ later := by
    rw [hitems, List.append_assoc, List.append_assoc]
    rfl
  have hlast : earlier ++ [last] <+: items := ⟨[item] ++ later, by rw [hboth, List.append_assoc (earlier ++ [last])]⟩
  have hnext := h (earlier ++ [last] ++ [item]) ⟨later, hboth.symm⟩
  rw [truncated_concat, chain_concat, List.length_append, List.length_append, List.length_take,
    h _ hlast, List.reverse_concat] at hnext
  exact (length_take_chain_iff fun item hmem => hpos item (hlast.subset hmem)).mp (Nat.add_right_cancel hnext)

/-- Where no depth is skipped, the path that is cut is the chain. -/
theorem truncated_eq_chain {items : List α} (hpos : ∀ item ∈ items, 1 ≤ depth item)
    (h : Filled depth items) {front : List α} (hfront : front <+: items) :
    truncated depth front = chain depth front := by
  induction front using List.reverseRecOn with
  | nil => rfl
  | append_singleton front item ih =>
    rw [truncated_concat, chain_concat, ih ((List.prefix_append _ _).trans hfront)]
    congr 1
    refine eq_of_prefix_of_length (List.take_prefix _ _)
      (@enclosing_reverse _ depth front (depth item) ▸ List.takeWhile_prefix _) ?_
    rw [List.length_take]
    rcases List.eq_nil_or_concat' front with rfl | ⟨earlier, last, rfl⟩
    · exact Nat.min_zero _
    · obtain ⟨later, hitems⟩ := hfront
      have hlast : earlier ++ [last] <+: items :=
        ⟨[item] ++ later, by rw [← hitems, List.append_assoc (earlier ++ [last])]⟩
      rw [List.reverse_concat]
      refine (length_take_chain_iff fun item hmem => hpos item (hlast.subset hmem)).mpr (h _ _ _ later ?_)
      rw [← hitems, List.append_assoc, List.append_assoc]
      rfl

end Outline
