-- SUMMARY: Comparing what storage holds with what the index holds: one pass with two cursors over sorted listings.
import NotedThat.Core.Names
import Mathlib.Data.List.Pairwise

/-!
# Reconciliation

Both sides are listed in key order. One merge sees every key once: a key on one side only, or on
both with different entity tags, is reported to be looked at again. The private namespace and the
reserved keys are dropped from the storage side only, so that an index entry left under one of them
is reported and cleaned up.
-/

/-- A key the index holds, and the entity tag its chunks were built from. -/
structure IndexedEtag where
  key : Text
  etag : Text
deriving DecidableEq

/-- What one pass found. -/
structure ReconcileReport where
  objectsOnDisk : Nat := 0
  unchanged : Nat := 0
  changed : Nat := 0
  orphaned : Nat := 0
deriving DecidableEq

/-- Whether nothing needs looking at again. -/
def ReconcileReport.isClean (report : ReconcileReport) : Bool :=
  report.changed = 0 ∧ report.orphaned = 0

/-- The counts, and every key that needs a fresh look. -/
structure Reconciliation where
  report : ReconcileReport := {}
  keys : List ObjectPath := []
deriving DecidableEq

namespace Reconciliation

/-- One more object that is indexed from exactly its bytes. -/
def addUnchanged (r : Reconciliation) : Reconciliation :=
  { r with report := { r.report with unchanged := r.report.unchanged + 1 } }

/-- One more object that is new to the index or indexed from other bytes. -/
def addChanged (r : Reconciliation) (path : ObjectPath) : Reconciliation :=
  ⟨{ r.report with changed := r.report.changed + 1 }, path :: r.keys⟩

/-- One more key the index holds and storage does not. -/
def addOrphaned (r : Reconciliation) (path : ObjectPath) : Reconciliation :=
  ⟨{ r.report with orphaned := r.report.orphaned + 1 }, path :: r.keys⟩

end Reconciliation

namespace Reconcile

/-- The path a key parses to, or none when it cannot be acted on at all. -/
def actionablePath (key : Text) : Option ObjectPath := (ObjectPath.tryFromStr key).toOption

/-- Whether the key is exactly one of the reserved keys. -/
def isReserved (key : Text) : Bool := reservedKeys.contains key

/-- A key of the storage side, the path it parses to and the entity tag the listing carries. -/
structure Stored where
  key : Text
  path : ObjectPath
  etag : Option Text

/-- A key of the index side, with the path it parses to. -/
structure Indexed where
  key : Text
  path : ObjectPath
  etag : Text

/-- The merge. It compares the keys as reported, since that is the order both sides arrive in. -/
def merge : List Stored → List Indexed → Reconciliation
  | [], [] => {}
  | s :: storage, [] => (merge storage []).addChanged s.path
  | [], i :: index => (merge [] index).addOrphaned i.path
  | s :: storage, i :: index =>
    if s.key = i.key then
      if s.etag = some i.etag then (merge storage index).addUnchanged
      else (merge storage index).addChanged s.path
    else if s.key < i.key then (merge storage (i :: index)).addChanged s.path
    else (merge (s :: storage) index).addOrphaned i.path
termination_by storage index => storage.length + index.length

/-- The storage side of the comparison. -/
def storageSide (inStorage : List (Text × Option Text)) : List Stored :=
  ((inStorage.filter fun e => !isInternalPath e.1).filterMap fun e =>
    (actionablePath e.1).map fun path => ⟨e.1, path, e.2⟩).filter fun s => !isReserved s.key

/-- The index side of the comparison. -/
def indexSide (indexed : List IndexedEtag) (pre : Option Text) : List Indexed :=
  (indexed.filter fun entry => pre.all fun pre => pre.isPrefixOf entry.key).filterMap fun entry =>
    (actionablePath entry.key).map fun path => ⟨entry.key, path, entry.etag⟩

/-- Compare what storage holds against what the index holds. -/
def compare (inStorage : List (Text × Option Text)) (indexed : List IndexedEtag)
    (pre : Option Text) : Reconciliation :=
  let stored := storageSide inStorage
  let r := merge stored (indexSide indexed pre)
  { r with report := { r.report with objectsOnDisk := stored.length } }

/-! ## The merge -/

/-- What a side has for a key. -/
def lookup {α β : Type} (key : α → Text) (value : α → β) (l : List α) (k : Text) : Option β :=
  (l.find? fun a => key a = k).map value

/-- Sorted by key, and each key is its path. -/
structure Listed {α : Type} (key : α → Text) (path : α → ObjectPath) (l : List α) : Prop where
  sorted : l.Pairwise fun a b => key a < key b
  val : ∀ a ∈ l, (path a).val = key a

section

variable {α β : Type} {key : α → Text} {value : α → β} {path : α → ObjectPath} {l : List α} {a : α}
variable {k : Text}

theorem lookup_cons_self (h : key a = k) : lookup key value (a :: l) k = some (value a) := by
  simp [lookup, h]

theorem lookup_cons_of_ne (h : key a ≠ k) : lookup key value (a :: l) k = lookup key value l k := by
  simp [lookup, h]

theorem lookup_of_lt (h : ∀ b ∈ l, k < key b) : lookup key value l k = none := by
  have hfind : (l.find? fun b => key b = k) = none := by
    rw [List.find?_eq_none]
    intro b hb heq
    exact List.lt_irrefl k (of_decide_eq_true heq ▸ h b hb)
  simp [lookup, hfind]

theorem Listed.tail (h : Listed key path (a :: l)) : Listed key path l :=
  ⟨h.sorted.of_cons, fun b hb => h.val b (List.mem_cons_of_mem _ hb)⟩

theorem Listed.head_lt (h : Listed key path (a :: l)) : ∀ b ∈ l, key a < key b :=
  fun _ hb => List.rel_of_pairwise_cons h.sorted hb

/-- What lies behind a key that is smaller than the first. -/
theorem Listed.lt_of_head (h : Listed key path (a :: l)) (hk : k < key a) :
    ∀ b ∈ a :: l, k < key b := by
  intro b hb
  rcases List.mem_cons.mp hb with rfl | hb
  · exact hk
  · exact List.lt_trans hk (h.head_lt b hb)

theorem Listed.eq_path_iff (h : Listed key path (a :: l)) (p : ObjectPath) :
    p = path a ↔ key a = p.val := by
  rw [← h.val a List.mem_cons_self]
  exact ⟨fun heq => heq ▸ rfl, fun heq => ObjectPath.ext heq.symm⟩

end

variable {storage : List Stored} {index : List Indexed}

abbrev ListedStorage (storage : List Stored) : Prop := Listed Stored.key Stored.path storage

abbrev ListedIndex (index : List Indexed) : Prop := Listed Indexed.key Indexed.path index

/-- The entity tag the storage side has for a path; a listing may carry none. -/
abbrev storedAt (storage : List Stored) (p : ObjectPath) : Option (Option Text) :=
  lookup Stored.key Stored.etag storage p.val

abbrev indexedAt (index : List Indexed) (p : ObjectPath) : Option Text :=
  lookup Indexed.key Indexed.etag index p.val

theorem merge_counts (storage : List Stored) (index : List Indexed) :
    (merge storage index).report.unchanged + (merge storage index).report.changed = storage.length ∧
      (merge storage index).keys.length =
        (merge storage index).report.changed + (merge storage index).report.orphaned := by
  fun_induction merge storage index with
  | case1 => exact ⟨rfl, rfl⟩
  | case2 s storage ih =>
    simp only [Reconciliation.addChanged, List.length_cons]
    omega
  | case3 i index ih =>
    simp only [Reconciliation.addOrphaned, List.length_cons]
    simp only [List.length_nil] at ih ⊢
    omega
  | case4 s storage i index heq hsame ih =>
    simp only [Reconciliation.addUnchanged, List.length_cons]
    omega
  | case5 s storage i index heq hother ih =>
    simp only [Reconciliation.addChanged, List.length_cons]
    omega
  | case6 s storage i index hne hlt ih =>
    simp only [Reconciliation.addChanged, List.length_cons]
    omega
  | case7 s storage i index hne hge ih =>
    simp only [Reconciliation.addOrphaned, List.length_cons] at ih ⊢
    omega

/-- The merge reports the paths on which the sides differ. -/
theorem mem_merge_keys (hstorage : ListedStorage storage) (hindex : ListedIndex index)
    (p : ObjectPath) :
    p ∈ (merge storage index).keys ↔ storedAt storage p ≠ (indexedAt index p).map some := by
  fun_induction merge storage index with
  | case1 => simp [lookup]
  | case2 s storage ih =>
    rw [Reconciliation.addChanged, List.mem_cons, hstorage.eq_path_iff]
    by_cases hp : s.key = p.val
    · rw [storedAt, lookup_cons_self hp]
      simp [hp, lookup]
    · rw [storedAt, lookup_cons_of_ne hp, ← ih hstorage.tail hindex]
      exact or_iff_right hp
  | case3 i index ih =>
    rw [Reconciliation.addOrphaned, List.mem_cons, hindex.eq_path_iff]
    by_cases hp : i.key = p.val
    · rw [indexedAt, lookup_cons_self hp]
      simp [hp, lookup]
    · rw [indexedAt, lookup_cons_of_ne hp, ← ih hstorage hindex.tail]
      exact or_iff_right hp
  | case4 s storage i index heq hsame ih =>
    rw [Reconciliation.addUnchanged, ih hstorage.tail hindex.tail]
    by_cases hp : s.key = p.val
    · rw [storedAt, storedAt, lookup_cons_self hp, lookup_of_lt (hp ▸ hstorage.head_lt), indexedAt,
        indexedAt, lookup_cons_self (heq ▸ hp), lookup_of_lt (hp ▸ heq ▸ hindex.head_lt)]
      simp [hsame]
    · rw [storedAt, storedAt, lookup_cons_of_ne hp, indexedAt, indexedAt,
        lookup_cons_of_ne (heq ▸ hp)]
  | case5 s storage i index heq hother ih =>
    rw [Reconciliation.addChanged, List.mem_cons, hstorage.eq_path_iff,
      ih hstorage.tail hindex.tail]
    by_cases hp : s.key = p.val
    · rw [storedAt, storedAt, lookup_cons_self hp, indexedAt, indexedAt,
        lookup_cons_self (heq ▸ hp)]
      simp [hp, hother]
    · rw [storedAt, storedAt, lookup_cons_of_ne hp, indexedAt, indexedAt,
        lookup_cons_of_ne (heq ▸ hp)]
      exact or_iff_right hp
  | case6 s storage i index hne hlt ih =>
    rw [Reconciliation.addChanged, List.mem_cons, hstorage.eq_path_iff, ih hstorage.tail hindex]
    by_cases hp : s.key = p.val
    · rw [storedAt, storedAt, lookup_cons_self hp, indexedAt,
        lookup_of_lt (hindex.lt_of_head (hp ▸ hlt))]
      simp [hp]
    · rw [storedAt, storedAt, lookup_cons_of_ne hp]
      exact or_iff_right hp
  | case7 s storage i index hne hge ih =>
    have hlt : i.key < s.key := (lt_trichotomy _ _).resolve_right fun h =>
      h.elim (fun heq => hne heq.symm) hge
    rw [Reconciliation.addOrphaned, List.mem_cons, hindex.eq_path_iff, ih hstorage hindex.tail]
    by_cases hp : i.key = p.val
    · rw [indexedAt, indexedAt, lookup_cons_self hp, storedAt,
        lookup_of_lt (hstorage.lt_of_head (hp ▸ hlt))]
      simp [hp]
    · rw [indexedAt, indexedAt, lookup_cons_of_ne hp]
      exact or_iff_right hp

/-- The merge reports only paths of one side or the other. -/
theorem merge_keys_subset (storage : List Stored) (index : List Indexed) :
    ∀ p ∈ (merge storage index).keys, p ∈ storage.map Stored.path ∨ p ∈ index.map Indexed.path := by
  fun_induction merge storage index with
  | case1 => simp
  | case2 s storage ih =>
    intro p hp
    rcases List.mem_cons.mp hp with rfl | hp
    · simp
    · exact (ih p hp).imp_left (List.mem_cons_of_mem _)
  | case3 i index ih =>
    intro p hp
    rcases List.mem_cons.mp hp with rfl | hp
    · simp
    · exact (ih p hp).imp_right (List.mem_cons_of_mem _)
  | case4 s storage i index heq hsame ih =>
    intro p hp
    exact (ih p hp).imp (List.mem_cons_of_mem _) (List.mem_cons_of_mem _)
  | case5 s storage i index heq hother ih =>
    intro p hp
    rcases List.mem_cons.mp hp with rfl | hp
    · simp
    · exact (ih p hp).imp (List.mem_cons_of_mem _) (List.mem_cons_of_mem _)
  | case6 s storage i index hne hlt ih =>
    intro p hp
    rcases List.mem_cons.mp hp with rfl | hp
    · simp
    · exact (ih p hp).imp_left (List.mem_cons_of_mem _)
  | case7 s storage i index hne hge ih =>
    intro p hp
    rcases List.mem_cons.mp hp with rfl | hp
    · simp
    · exact (ih p hp).imp_right (List.mem_cons_of_mem _)

/-- A path reported before every key of what is left to merge. -/
theorem val_lt_merge_keys {q : Text} (hstorage : ListedStorage storage) (hindex : ListedIndex index)
    (hs : ∀ s ∈ storage, q < s.key) (hi : ∀ i ∈ index, q < i.key) :
    ∀ p ∈ (merge storage index).keys, q < p.val := by
  intro p hp
  rcases merge_keys_subset storage index p hp with hp | hp
  · obtain ⟨s, hmem, rfl⟩ := List.mem_map.mp hp
    exact hstorage.val s hmem ▸ hs s hmem
  · obtain ⟨i, hmem, rfl⟩ := List.mem_map.mp hp
    exact hindex.val i hmem ▸ hi i hmem

/-- The merge reports in key order, each path once. -/
theorem merge_keys_sorted (hstorage : ListedStorage storage) (hindex : ListedIndex index) :
    (merge storage index).keys.Pairwise fun p q => p.val < q.val := by
  fun_induction merge storage index with
  | case1 => exact .nil
  | case2 s storage ih =>
    refine List.Pairwise.cons ?_ (ih hstorage.tail hindex)
    rw [hstorage.val s List.mem_cons_self]
    exact val_lt_merge_keys hstorage.tail hindex hstorage.head_lt (by simp)
  | case3 i index ih =>
    refine List.Pairwise.cons ?_ (ih hstorage hindex.tail)
    rw [hindex.val i List.mem_cons_self]
    exact val_lt_merge_keys hstorage hindex.tail (by simp) hindex.head_lt
  | case4 s storage i index heq hsame ih => exact ih hstorage.tail hindex.tail
  | case5 s storage i index heq hother ih =>
    refine List.Pairwise.cons ?_ (ih hstorage.tail hindex.tail)
    rw [hstorage.val s List.mem_cons_self]
    exact val_lt_merge_keys hstorage.tail hindex.tail hstorage.head_lt (heq ▸ hindex.head_lt)
  | case6 s storage i index hne hlt ih =>
    refine List.Pairwise.cons ?_ (ih hstorage.tail hindex)
    rw [hstorage.val s List.mem_cons_self]
    exact val_lt_merge_keys hstorage.tail hindex hstorage.head_lt (hindex.lt_of_head hlt)
  | case7 s storage i index hne hge ih =>
    have hlt : i.key < s.key := (lt_trichotomy _ _).resolve_right fun h =>
      h.elim (fun heq => hne heq.symm) hge
    refine List.Pairwise.cons ?_ (ih hstorage hindex.tail)
    rw [hindex.val i List.mem_cons_self]
    exact val_lt_merge_keys hstorage hindex.tail (hstorage.lt_of_head hlt) hindex.head_lt

/-! ## The two sides -/

/-- A key that does not begin with `/` is the path it parses to. -/
theorem actionablePath_eq_some {key : Text} (hslash : key.head? ≠ some '/') {p : ObjectPath} :
    actionablePath key = some p ↔ p.val = key := by
  rw [← ObjectPath.tryFromStr_eq_ok hslash, actionablePath]
  cases ObjectPath.tryFromStr key with
  | ok q => simp [Except.toOption]
  | error e => simp [Except.toOption]

section

variable {α β : Type} {key : α → Text} {value : α → β} {l : List α} {k : Text} {v : β}

theorem lookup_eq_some_iff (hl : l.Pairwise fun a b => key a < key b) :
    lookup key value l k = some v ↔ ∃ a ∈ l, key a = k ∧ value a = v := by
  induction l with
  | nil => simp [lookup]
  | cons a l ih =>
    by_cases ha : key a = k
    · rw [lookup_cons_self ha]
      constructor
      · exact fun h => ⟨a, List.mem_cons_self, ha, Option.some.inj h⟩
      · rintro ⟨b, hb, hkey, rfl⟩
        rcases List.mem_cons.mp hb with rfl | hb
        · rfl
        · have hlt := List.rel_of_pairwise_cons hl hb
          rw [ha, hkey] at hlt
          exact absurd hlt (List.lt_irrefl k)
    · rw [lookup_cons_of_ne ha, ih hl.of_cons]
      simp [ha]

end

variable {inStorage : List (Text × Option Text)} {indexed : List IndexedEtag} {pre : Option Text}

/-- The entity tag storage lists for a path that may be indexed. -/
def storedEtag (inStorage : List (Text × Option Text)) (p : ObjectPath) : Option (Option Text) :=
  if isInternalPath p.val || p.isReserved then none
  else lookup Prod.fst Prod.snd inStorage p.val

/-- The entity tag the index holds for a path, if the path is in the compared subtree. -/
def indexedEtag (indexed : List IndexedEtag) (pre : Option Text) (p : ObjectPath) : Option Text :=
  if pre.all fun pre => pre.isPrefixOf p.val then
    lookup IndexedEtag.key IndexedEtag.etag indexed p.val
  else none

theorem mem_storageSide {s : Stored} : s ∈ storageSide inStorage ↔
    (s.key, s.etag) ∈ inStorage ∧ isInternalPath s.key = false ∧ isReserved s.key = false ∧
      actionablePath s.key = some s.path := by
  obtain ⟨key, path, etag⟩ := s
  simp only [storageSide, List.mem_filter, List.mem_filterMap, Option.map_eq_some_iff,
    Bool.not_eq_true', Stored.mk.injEq]
  constructor
  · rintro ⟨⟨⟨_, _⟩, ⟨hmem, hinternal⟩, _, hpath, rfl, rfl, rfl⟩, hreserved⟩
    exact ⟨hmem, hinternal, hreserved, hpath⟩
  · rintro ⟨hmem, hinternal, hreserved, hpath⟩
    exact ⟨⟨(key, etag), ⟨hmem, hinternal⟩, path, hpath, rfl, rfl, rfl⟩, hreserved⟩

theorem mem_indexSide {i : Indexed} : i ∈ indexSide indexed pre ↔
    ⟨i.key, i.etag⟩ ∈ indexed ∧ (pre.all fun pre => pre.isPrefixOf i.key) = true ∧
      actionablePath i.key = some i.path := by
  obtain ⟨key, path, etag⟩ := i
  simp only [indexSide, List.mem_filter, List.mem_filterMap, Option.map_eq_some_iff,
    Indexed.mk.injEq]
  constructor
  · rintro ⟨⟨_, _⟩, ⟨hmem, hpre⟩, _, hpath, rfl, rfl, rfl⟩
    exact ⟨hmem, hpre, hpath⟩
  · rintro ⟨hmem, hpre, hpath⟩
    exact ⟨⟨key, etag⟩, ⟨hmem, hpre⟩, path, hpath, rfl, rfl, rfl⟩

theorem listed_storageSide (hsorted : inStorage.Pairwise fun a b => a.1 < b.1)
    (hslash : ∀ e ∈ inStorage, e.1.head? ≠ some '/') : ListedStorage (storageSide inStorage) where
  sorted := by
    refine List.Pairwise.filter _ (List.Pairwise.filterMap _ ?_ (hsorted.filter _))
    intro a b hlt s hs t ht
    obtain ⟨_, -, rfl⟩ := Option.map_eq_some_iff.mp hs
    obtain ⟨_, -, rfl⟩ := Option.map_eq_some_iff.mp ht
    exact hlt
  val := by
    intro s hs
    obtain ⟨hmem, -, -, hpath⟩ := mem_storageSide.mp hs
    exact (actionablePath_eq_some (hslash _ hmem)).mp hpath

theorem listed_indexSide (hsorted : indexed.Pairwise fun a b => a.key < b.key)
    (hslash : ∀ e ∈ indexed, e.key.head? ≠ some '/') : ListedIndex (indexSide indexed pre) where
  sorted := by
    refine List.Pairwise.filterMap _ ?_ (hsorted.filter _)
    intro a b hlt s hs t ht
    obtain ⟨_, -, rfl⟩ := Option.map_eq_some_iff.mp hs
    obtain ⟨_, -, rfl⟩ := Option.map_eq_some_iff.mp ht
    exact hlt
  val := by
    intro i hi
    obtain ⟨hmem, -, hpath⟩ := mem_indexSide.mp hi
    exact (actionablePath_eq_some (hslash _ hmem)).mp hpath

theorem storedAt_storageSide (hsorted : inStorage.Pairwise fun a b => a.1 < b.1)
    (hslash : ∀ e ∈ inStorage, e.1.head? ≠ some '/') (p : ObjectPath) :
    storedAt (storageSide inStorage) p = storedEtag inStorage p := by
  refine Option.ext fun v => ?_
  rw [storedAt, lookup_eq_some_iff (listed_storageSide hsorted hslash).sorted]
  unfold storedEtag
  by_cases hdrop : (isInternalPath p.val || p.isReserved) = true
  · rw [if_pos hdrop]
    refine ⟨?_, fun h => by cases h⟩
    rintro ⟨s, hs, hkey, -⟩
    obtain ⟨-, hinternal, hreserved, -⟩ := mem_storageSide.mp hs
    rw [hkey] at hinternal hreserved
    rw [hinternal, Bool.false_or] at hdrop
    exact absurd hdrop (Bool.eq_false_iff.mp hreserved)
  · rw [if_neg hdrop, lookup_eq_some_iff hsorted]
    rw [Bool.or_eq_true, not_or, Bool.not_eq_true, Bool.not_eq_true] at hdrop
    constructor
    · rintro ⟨s, hs, hkey, rfl⟩
      exact ⟨_, (mem_storageSide.mp hs).1, hkey, rfl⟩
    · rintro ⟨⟨key, etag⟩, hmem, rfl, rfl⟩
      refine ⟨⟨p.val, p, etag⟩, mem_storageSide.mpr ⟨hmem, hdrop.1, hdrop.2, ?_⟩, rfl, rfl⟩
      exact (actionablePath_eq_some (hslash _ hmem)).mpr rfl

theorem indexedAt_indexSide (hsorted : indexed.Pairwise fun a b => a.key < b.key)
    (hslash : ∀ e ∈ indexed, e.key.head? ≠ some '/') (p : ObjectPath) :
    indexedAt (indexSide indexed pre) p = indexedEtag indexed pre p := by
  refine Option.ext fun v => ?_
  rw [indexedAt, lookup_eq_some_iff (listed_indexSide hsorted hslash).sorted]
  unfold indexedEtag
  split
  · next hpre =>
    rw [lookup_eq_some_iff hsorted]
    constructor
    · rintro ⟨i, hi, hkey, rfl⟩
      exact ⟨_, (mem_indexSide.mp hi).1, hkey, rfl⟩
    · rintro ⟨⟨key, etag⟩, hmem, rfl, rfl⟩
      refine ⟨⟨p.val, p, etag⟩, mem_indexSide.mpr ⟨hmem, hpre, ?_⟩, rfl, rfl⟩
      exact (actionablePath_eq_some (hslash _ hmem)).mpr rfl
  · next hpre =>
    refine ⟨?_, fun h => by cases h⟩
    rintro ⟨i, hi, hkey, -⟩
    exact absurd (hkey ▸ (mem_indexSide.mp hi).2.1) hpre

/-- For sorted listings none of whose keys begins with `/`: the paths reported are exactly those on
which the sides differ, where storage has nothing under a private or reserved key; each is reported
once, in key order; the counts add up; and the result is clean iff the sides agree everywhere. -/
theorem compare_exact (inStorage : List (Text × Option Text)) (indexed : List IndexedEtag)
    (pre : Option Text) (hstorage : inStorage.Pairwise fun a b => a.1 < b.1)
    (hindexed : indexed.Pairwise fun a b => a.key < b.key)
    (hstorageSlash : ∀ e ∈ inStorage, e.1.head? ≠ some '/')
    (hindexedSlash : ∀ e ∈ indexed, e.key.head? ≠ some '/') :
    let r := compare inStorage indexed pre
    (∀ p, p ∈ r.keys ↔ storedEtag inStorage p ≠ (indexedEtag indexed pre p).map some) ∧
    (r.keys.Pairwise fun p q => p.val < q.val) ∧
    r.report.objectsOnDisk = r.report.unchanged + r.report.changed ∧
    r.keys.length = r.report.changed + r.report.orphaned ∧
    (r.report.isClean = true ↔
      ∀ p, storedEtag inStorage p = (indexedEtag indexed pre p).map some) := by
  intro r
  have hs := listed_storageSide hstorage hstorageSlash
  have hi : ListedIndex (indexSide indexed pre) := listed_indexSide hindexed hindexedSlash
  have hmem : ∀ p, p ∈ r.keys ↔ storedEtag inStorage p ≠ (indexedEtag indexed pre p).map some := by
    intro p
    rw [← storedAt_storageSide hstorage hstorageSlash, ← indexedAt_indexSide hindexed hindexedSlash]
    exact mem_merge_keys hs hi p
  obtain ⟨hdisk, hkeys⟩ := merge_counts (storageSide inStorage) (indexSide indexed pre)
  refine ⟨hmem, merge_keys_sorted hs hi, hdisk.symm, hkeys, ?_⟩
  have hclean : r.report.isClean = true ↔ r.keys = [] := by
    rw [← List.length_eq_zero_iff]
    change decide (_ ∧ _) = true ↔ _
    rw [decide_eq_true_eq]
    change _ ↔ (merge (storageSide inStorage) (indexSide indexed pre)).keys.length = 0
    rw [hkeys]
    exact Nat.add_eq_zero_iff.symm
  rw [hclean, List.eq_nil_iff_forall_not_mem]
  exact forall_congr' fun p => (not_congr (hmem p)).trans not_not

/-- An object that is indexed, one that is not, and a private entry left in the index. -/
theorem compare_exact_threeKeys :
    let inStorage := [("a.md".toList, some "1".toList), ("b.md".toList, some "2".toList)]
    let indexed := [⟨".notedthat/x".toList, "0".toList⟩, ⟨"a.md".toList, "1".toList⟩]
    (ObjectPath.bMd ∈ (compare inStorage indexed none).keys ↔
      storedEtag inStorage .bMd ≠ (indexedEtag indexed none .bMd).map some) ∧
    (compare inStorage indexed none).report = ⟨2, 1, 1, 1⟩ := by
  intro inStorage indexed
  have h := compare_exact inStorage indexed none (by decide) (by decide) (by decide) (by decide)
  exact ⟨h.1 _, by decide +kernel⟩

/-- A private entry of the index is reported. A bucket with the keys `/a` and `a` has `a` reported
twice, as both parse to it. -/
theorem compare_reports_private_and_repeated :
    (let indexed := [⟨".notedthat/x".toList, "0".toList⟩]
     (indexed.Pairwise fun a b => a.key < b.key) ∧
      ∃ p ∈ (compare [] indexed none).keys, isInternalPath p.val = true) ∧
    (let inStorage := [("/a".toList, some "1".toList), ("a".toList, some "1".toList)]
     (inStorage.Pairwise fun a b => a.1 < b.1) ∧
      (compare inStorage [] none).keys = [ObjectPath.a, ObjectPath.a]) := by
  refine ⟨⟨by decide, ⟨".notedthat/x".toList, by decide⟩, ?_, by decide⟩, by decide, ?_⟩
  · decide +kernel
  · decide +kernel

end Reconcile
