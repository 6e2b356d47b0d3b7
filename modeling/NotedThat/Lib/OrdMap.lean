-- SUMMARY: Maps as lists of entries in the order of their keys: folding changes into one, and that it is determined by what it holds.
import Mathlib.Order.Lattice
import Mathlib.Data.List.Pairwise

/-!
# Ordered maps

A map is the list of its entries, which come in the order of the keys and have one key each. So maps that hold
the same are the same list.
-/

structure OrdMap (K V : Type) [LinearOrder K] where
  entries : List (K × V)
  sorted : entries.Pairwise fun e e' => e.1 < e'.1

namespace OrdMap

variable {K V : Type} [LinearOrder K]

def empty : OrdMap K V := ⟨[], .nil⟩

/-- What entries hold for a key. -/
def lookup (k : K) : List (K × V) → Option V
  | [] => none
  | (k', v) :: entries => if k = k' then some v else lookup k entries

def get? (m : OrdMap K V) (k : K) : Option V := lookup k m.entries

/-- Change what the entries hold for a key. -/
def alterEntries (k : K) (f : Option V → V) : List (K × V) → List (K × V)
  | [] => [(k, f none)]
  | (k', v) :: entries =>
    if k < k' then (k, f none) :: (k', v) :: entries
    else if k = k' then (k', f (some v)) :: entries
    else (k', v) :: alterEntries k f entries

theorem mem_keys_alterEntries {k k' : K} {f : Option V → V} {entries : List (K × V)} {v : V}
    (h : (k', v) ∈ alterEntries k f entries) : k' = k ∨ ∃ v', (k', v') ∈ entries := by
  induction entries with
  | nil =>
    obtain ⟨rfl, -⟩ := Prod.mk.inj (List.mem_singleton.mp h)
    exact .inl rfl
  | cons e entries ih =>
    obtain ⟨first, held⟩ := e
    unfold alterEntries at h
    split_ifs at h with hlt heq
    · rcases List.mem_cons.mp h with h | h
      · exact .inl (Prod.mk.inj h).1
      · exact .inr ⟨v, h⟩
    · rcases List.mem_cons.mp h with h | h
      · exact .inl ((Prod.mk.inj h).1.trans heq.symm)
      · exact .inr ⟨v, List.mem_cons_of_mem _ h⟩
    · rcases List.mem_cons.mp h with h | h
      · exact .inr ⟨v, h ▸ List.mem_cons_self⟩
      · exact (ih h).imp_right fun ⟨v', hv'⟩ => ⟨v', List.mem_cons_of_mem _ hv'⟩

theorem sorted_alterEntries {k : K} {f : Option V → V} {entries : List (K × V)}
    (h : entries.Pairwise fun e e' => e.1 < e'.1) :
    (alterEntries k f entries).Pairwise fun e e' => e.1 < e'.1 := by
  induction entries with
  | nil => exact List.pairwise_singleton _ _
  | cons e entries ih =>
    obtain ⟨hhead, htail⟩ := List.pairwise_cons.mp h
    unfold alterEntries
    split_ifs with hlt heq
    · refine List.pairwise_cons.mpr ⟨fun e' he' => ?_, h⟩
      rcases List.mem_cons.mp he' with rfl | he'
      · exact hlt
      · exact hlt.trans (hhead e' he')
    · exact List.pairwise_cons.mpr ⟨hhead, htail⟩
    · refine List.pairwise_cons.mpr ⟨fun e' he' => ?_, ih htail⟩
      rcases mem_keys_alterEntries he' with hk | ⟨v', hv'⟩
      · rw [hk]
        exact lt_of_le_of_ne (not_lt.mp hlt) fun hk' => heq hk'.symm
      · exact hhead (e'.1, v') hv'

/-- Change what a map holds for a key. -/
def alter (m : OrdMap K V) (k : K) (f : Option V → V) : OrdMap K V :=
  ⟨alterEntries k f m.entries, sorted_alterEntries m.sorted⟩

variable {m m' : OrdMap K V} {k k' : K} {v : V}

@[simp] theorem get?_empty : (empty : OrdMap K V).get? k = none := rfl

theorem lookup_eq_none {entries : List (K × V)} (h : ∀ e ∈ entries, k < e.1) : lookup k entries = none := by
  induction entries with
  | nil => rfl
  | cons e entries ih =>
    obtain ⟨hfirst, hrest⟩ := List.forall_mem_cons.mp h
    rw [lookup, if_neg hfirst.ne, ih hrest]

theorem get?_eq_some : m.get? k = some v ↔ (k, v) ∈ m.entries := by
  obtain ⟨entries, hsorted⟩ := m
  show lookup k entries = some v ↔ (k, v) ∈ entries
  induction entries with
  | nil => exact iff_of_false nofun (List.not_mem_nil)
  | cons e entries ih =>
    obtain ⟨first, held⟩ := e
    obtain ⟨hhead, htail⟩ := List.pairwise_cons.mp hsorted
    rw [lookup, List.mem_cons]
    split
    · next heq =>
      constructor
      · intro h
        exact .inl (by rw [heq, Option.some.inj h])
      · rintro (h | h)
        · rw [(Prod.mk.inj h).2]
        · exact absurd (heq ▸ hhead _ h) (lt_irrefl _)
    · next hne =>
      exact (ih htail).trans ⟨.inr, fun h => h.resolve_left fun heq => hne (Prod.mk.inj heq).1⟩

theorem lookup_alterEntries {f : Option V → V} {entries : List (K × V)}
    (h : entries.Pairwise fun e e' => e.1 < e'.1) :
    lookup k' (alterEntries k f entries) = if k' = k then some (f (lookup k entries)) else lookup k' entries := by
  induction entries with
  | nil => rfl
  | cons e entries ih =>
    obtain ⟨first, held⟩ := e
    obtain ⟨hhead, htail⟩ := List.pairwise_cons.mp h
    unfold alterEntries
    by_cases hk : k' = k
    · subst hk
      rw [if_pos rfl]
      split_ifs with hlt heq
      · -- a key in front of all others has no entry
        have hnone : lookup k' ((first, held) :: entries) = none := by
          refine lookup_eq_none fun e he => ?_
          rcases List.mem_cons.mp he with rfl | he
          · exact hlt
          · exact hlt.trans (hhead e he)
        rw [hnone, lookup, if_pos rfl]
      · rw [lookup, if_pos heq, lookup, if_pos heq]
      · rw [lookup, if_neg heq, ih htail, if_pos rfl, lookup, if_neg heq]
    · rw [if_neg hk]
      split_ifs with hlt heq
      · rw [lookup, if_neg hk]
      · have hne : k' ≠ first := fun h => hk (h.trans heq.symm)
        rw [lookup, if_neg hne, lookup, if_neg hne]
      · rw [lookup, lookup, ih htail, if_neg hk]

theorem get?_alter {f : Option V → V} :
    (m.alter k f).get? k' = if k' = k then some (f (m.get? k)) else m.get? k' :=
  lookup_alterEntries m.sorted

/-- Maps that hold the same are the same. -/
theorem ext_get? (h : ∀ k, m.get? k = m'.get? k) : m = m' := by
  have hmem : ∀ e, e ∈ m.entries ↔ e ∈ m'.entries := by
    rintro ⟨k, v⟩
    rw [← get?_eq_some, ← get?_eq_some, h]
  obtain ⟨entries, hsorted⟩ := m
  obtain ⟨entries', hsorted'⟩ := m'
  have hnodup : ∀ {l : List (K × V)}, (l.Pairwise fun e e' => e.1 < e'.1) → l.Nodup :=
    fun hl => hl.imp fun hlt heq => hlt.ne (congrArg Prod.fst heq)
  have hperm : entries.Perm entries' :=
    (List.perm_ext_iff_of_nodup (hnodup hsorted) (hnodup hsorted')).mpr hmem
  have heq : entries = entries' :=
    hperm.eq_of_pairwise (fun _ _ _ _ hlt hlt' => absurd (hlt.trans hlt') (lt_irrefl _)) hsorted hsorted'
  cases heq
  rfl

end OrdMap
