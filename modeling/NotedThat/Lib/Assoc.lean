-- SUMMARY: Maps as lists of entries without repeated keys: lookup, insertion, removal and filtering.
import Mathlib.Data.List.Nodup

/-!
# Finite maps

A hash map whose iteration order does not matter: its entries, in the order they were inserted.
-/

/-- A finite map: its entries, no two of them with the same key. -/
@[ext] structure Assoc (K V : Type) where
  entries : List (K × V)
  nodup : (entries.map Prod.fst).Nodup

namespace Assoc

variable {K V : Type}

instance : Membership (K × V) (Assoc K V) := ⟨fun m e => e ∈ m.entries⟩

instance [DecidableEq K] [DecidableEq V] (e : K × V) (m : Assoc K V) : Decidable (e ∈ m) :=
  inferInstanceAs (Decidable (e ∈ m.entries))

def empty : Assoc K V := ⟨[], .nil⟩

@[simp] theorem not_mem_empty {e : K × V} : e ∉ (empty : Assoc K V) := List.not_mem_nil

def keys (m : Assoc K V) : List K := m.entries.map Prod.fst

def isEmpty (m : Assoc K V) : Bool := m.entries.isEmpty

/-- Two entries with one key are the same. -/
theorem eq_of_mem {m : Assoc K V} {k : K} {v v' : V} (h : (k, v) ∈ m) (h' : (k, v') ∈ m) : v = v' := by
  have heq := List.inj_on_of_nodup_map m.nodup h h' rfl
  exact congrArg Prod.snd heq

/-- Keep the entries that satisfy `p`. -/
def retain (p : K × V → Bool) (m : Assoc K V) : Assoc K V where
  entries := m.entries.filter p
  nodup := m.nodup.sublist (List.filter_sublist.map _)

@[simp] theorem mem_retain {p : K × V → Bool} {m : Assoc K V} {e : K × V} :
    e ∈ m.retain p ↔ e ∈ m ∧ p e = true := List.mem_filter

theorem keys_retain_sublist (p : K × V → Bool) (m : Assoc K V) :
    (m.retain p).keys.Sublist m.keys := List.filter_sublist.map _

/-- Change the values, each by its key. -/
def mapVal (f : K → V → V) (m : Assoc K V) : Assoc K V where
  entries := m.entries.map fun e => (e.1, f e.1 e.2)
  nodup := by
    rw [List.map_map]
    exact m.nodup

@[simp] theorem mem_mapVal {f : K → V → V} {m : Assoc K V} {k : K} {v' : V} :
    (k, v') ∈ m.mapVal f ↔ ∃ v, (k, v) ∈ m ∧ f k v = v' := by
  have hmap : (k, v') ∈ m.mapVal f ↔ ∃ e ∈ m.entries, (e.1, f e.1 e.2) = (k, v') := List.mem_map
  rw [hmap]
  constructor
  · rintro ⟨⟨k', v⟩, hmem, heq⟩
    cases heq
    exact ⟨v, hmem, rfl⟩
  · rintro ⟨v, hmem, rfl⟩
    exact ⟨(k, v), hmem, rfl⟩

theorem mapVal_eq_self {f : K → V → V} {m : Assoc K V} (h : ∀ k v, (k, v) ∈ m → f k v = v) :
    m.mapVal f = m := by
  apply Assoc.ext
  have hsame : ∀ e ∈ m.entries, (e.1, f e.1 e.2) = id e := fun e he => by rw [h e.1 e.2 he]; rfl
  exact (List.map_congr_left hsame).trans (List.map_id _)

variable [DecidableEq K]

def get? (m : Assoc K V) (k : K) : Option V := (m.entries.find? fun e => e.1 = k).map Prod.snd

theorem get?_eq_some {m : Assoc K V} {k : K} {v : V} : m.get? k = some v ↔ (k, v) ∈ m := by
  unfold get?
  constructor
  · intro h
    obtain ⟨⟨k', v'⟩, hfind, hv⟩ := Option.map_eq_some_iff.mp h
    cases hv
    have hkey := List.find?_some hfind
    rw [decide_eq_true_eq] at hkey
    cases hkey
    exact List.mem_of_find?_eq_some hfind
  · intro hmem
    cases hfind : m.entries.find? fun e => e.1 = k with
    | none =>
      have hne := List.find?_eq_none.mp hfind (k, v) hmem
      simp at hne
    | some e =>
      have hkey := List.find?_some hfind
      rw [decide_eq_true_eq] at hkey
      cases hkey
      have hv : e.2 = v := eq_of_mem (List.mem_of_find?_eq_some hfind) hmem
      rw [Option.map_some, hv]

theorem get?_eq_none {m : Assoc K V} {k : K} : m.get? k = none ↔ ∀ v, (k, v) ∉ m := by
  rw [Option.eq_none_iff_forall_ne_some]
  exact forall_congr' fun v => not_congr get?_eq_some

def contains (m : Assoc K V) (k : K) : Bool := decide (k ∈ m.keys)

theorem contains_iff {m : Assoc K V} {k : K} : m.contains k = true ↔ ∃ v, (k, v) ∈ m := by
  unfold contains keys
  rw [decide_eq_true_eq]
  change k ∈ m.entries.map Prod.fst ↔ ∃ v, (k, v) ∈ m.entries
  simp

/-- Insert an entry, in place of the one with its key if there is one. -/
def insert (m : Assoc K V) (k : K) (v : V) : Assoc K V where
  entries := (m.retain fun e => e.1 ≠ k).entries ++ [(k, v)]
  nodup := by
    rw [List.map_append]
    refine List.Nodup.append (m.retain _).nodup (List.nodup_singleton k) ?_
    intro k' hk' hk
    obtain ⟨e, he, rfl⟩ := List.mem_map.mp hk'
    have hne := (mem_retain.mp he).2
    simp only [List.map_cons, List.map_nil, List.mem_singleton] at hk
    simp [hk] at hne

@[simp] theorem mem_insert {m : Assoc K V} {k : K} {v : V} {e : K × V} :
    e ∈ m.insert k v ↔ (e ∈ m ∧ e.1 ≠ k) ∨ e = (k, v) := by
  have happend : e ∈ m.insert k v ↔ e ∈ m.retain (fun e => e.1 ≠ k) ∨ e ∈ [(k, v)] :=
    List.mem_append
  rw [happend, mem_retain, List.mem_singleton, decide_eq_true_eq]

@[simp] theorem contains_insert {m : Assoc K V} {k k' : K} {v : V} :
    (m.insert k v).contains k' = true ↔ k' = k ∨ m.contains k' = true := by
  simp only [contains_iff, mem_insert, Prod.mk.injEq]
  constructor
  · rintro ⟨v', ⟨hmem, -⟩ | ⟨hkey, -⟩⟩
    · exact Or.inr ⟨v', hmem⟩
    · exact Or.inl hkey
  · rintro (rfl | ⟨v', hmem⟩)
    · exact ⟨v, Or.inr ⟨rfl, rfl⟩⟩
    · by_cases hkey : k' = k
      · exact ⟨v, Or.inr ⟨hkey, rfl⟩⟩
      · exact ⟨v', Or.inl ⟨hmem, hkey⟩⟩

def erase (m : Assoc K V) (k : K) : Assoc K V := m.retain fun e => e.1 ≠ k

@[simp] theorem contains_erase {m : Assoc K V} {k k' : K} :
    (m.erase k).contains k' = true ↔ k' ≠ k ∧ m.contains k' = true := by
  simp only [contains_iff, erase, mem_retain, decide_eq_true_eq]
  constructor
  · rintro ⟨v, hmem, hne⟩
    exact ⟨hne, v, hmem⟩
  · rintro ⟨hne, v, hmem⟩
    exact ⟨v, hmem, hne⟩

theorem erase_eq_self {m : Assoc K V} {k : K} (h : m.contains k = false) : m.erase k = m := by
  apply Assoc.ext
  refine List.filter_eq_self.mpr fun e he => ?_
  rw [decide_eq_true_eq]
  rintro rfl
  have hcontains : m.contains e.1 = true := contains_iff.mpr ⟨e.2, he⟩
  rw [h] at hcontains
  cases hcontains

/-- Insert all entries of another map. -/
def extend (m other : Assoc K V) : Assoc K V := other.entries.foldl (fun m e => m.insert e.1 e.2) m

@[simp] theorem contains_extend {m other : Assoc K V} {k : K} :
    (m.extend other).contains k = true ↔ m.contains k = true ∨ other.contains k = true := by
  have hfold : ∀ (entries : List (K × V)) (m : Assoc K V),
      (entries.foldl (fun m e => m.insert e.1 e.2) m).contains k = true ↔
        m.contains k = true ∨ k ∈ entries.map Prod.fst := by
    intro entries
    induction entries with
    | nil => simp
    | cons e entries ih =>
      intro m
      simp only [List.foldl_cons, ih, contains_insert, List.map_cons, List.mem_cons]
      tauto
  have hother : other.contains k = true ↔ k ∈ other.entries.map Prod.fst := decide_eq_true_iff
  rw [extend, hfold, hother]

@[simp] theorem not_contains_empty {k : K} : (empty : Assoc K V).contains k = false := rfl

theorem isEmpty_iff {m : Assoc K V} : m.isEmpty = true ↔ ∀ k, m.contains k = false := by
  unfold isEmpty contains keys
  cases hentries : m.entries with
  | nil => simp
  | cons e entries =>
    simp only [List.isEmpty_cons, Bool.false_eq_true, false_iff, not_forall]
    exact ⟨e.1, by simp⟩

theorem countP_keys_insert_le (m : Assoc K V) (k : K) (v : V) (p : K → Bool) :
    (m.insert k v).keys.countP p ≤ m.keys.countP p + 1 := by
  have hkeys : (m.insert k v).keys = (m.retain fun e => e.1 ≠ k).keys ++ [k] := by
    simp [keys, insert]
  rw [hkeys, List.countP_append]
  have hsub := (m.keys_retain_sublist fun e => e.1 ≠ k).countP_le (p := p)
  have hone : List.countP p [k] ≤ 1 := List.countP_le_length
  omega

end Assoc
