-- SUMMARY: What the filesystem watcher holds back: reports coalesced by containment until they settle.
import NotedThat.Lib.Assoc
import NotedThat.Core.Names
import Mathlib.Data.List.Infix
import Mathlib.Data.List.Perm.Subperm

/-!
# Pending work of the watcher

The kernel names an object, a directory or nothing at all. What was reported is held until it
settles. A pending subtree swallows what lies beneath it and a whole pass swallows everything, so
what is emitted is little and still covers every report.
-/

/-- What the watcher reports: one object, everything under a prefix that ends in `/`, or a whole
knowledge base may have changed. -/
inductive FsSignal where
  | changed (kb : KbSlug) (key : ObjectPath)
  | underPrefix (kb : KbSlug) (pre : Text)
  | kb (kb : KbSlug)
deriving DecidableEq

namespace FsSignal

/-- The knowledge base a signal is about. -/
def kbOf : FsSignal → KbSlug
  | .changed slug _ => slug
  | .underPrefix slug _ => slug
  | .kb slug => slug

/-- Whatever examines the first again examines the second again. -/
def Covers (a b : FsSignal) : Prop :=
  a.kbOf = b.kbOf ∧
    match a, b with
    | .kb _, _ => True
    | .underPrefix _ pre, .underPrefix _ pre' => pre <+: pre'
    | .underPrefix _ pre, .changed _ key => pre <+: key.val
    | .changed _ key, .changed _ key' => key = key'
    | _, _ => False

theorem Covers.refl (a : FsSignal) : a.Covers a := by
  cases a with
  | changed slug key => exact ⟨rfl, rfl⟩
  | underPrefix slug pre => exact ⟨rfl, List.prefix_rfl⟩
  | kb slug => exact ⟨rfl, trivial⟩

theorem Covers.trans {a b c : FsSignal} (h : a.Covers b) (h' : b.Covers c) : a.Covers c := by
  refine ⟨h.1.trans h'.1, ?_⟩
  cases a with
  | kb slug => trivial
  | underPrefix slug pre =>
    cases b with
    | kb slug' => exact h.2.elim
    | underPrefix slug' pre' =>
      cases c with
      | kb slug'' => exact h'.2.elim
      | underPrefix slug'' pre'' => exact h.2.trans h'.2
      | changed slug'' key => exact h.2.trans h'.2
    | changed slug' key =>
      cases c with
      | kb slug'' => exact h'.2.elim
      | underPrefix slug'' pre'' => exact h'.2.elim
      | changed slug'' key' => exact h'.2 ▸ h.2
  | changed slug key =>
    cases b with
    | kb slug' => exact h.2.elim
    | underPrefix slug' pre' => exact h.2.elim
    | changed slug' key' =>
      cases c with
      | kb slug'' => exact h'.2.elim
      | underPrefix slug'' pre'' => exact h'.2.elim
      | changed slug'' key'' => exact h.2.trans h'.2

theorem kb_covers {slug : KbSlug} {b : FsSignal} : (FsSignal.kb slug).Covers b ↔ b.kbOf = slug :=
  (and_iff_left trivial).trans eq_comm

end FsSignal

namespace StorageFs

/-- Work reported but not yet emitted, with the instant it was asked for. -/
structure Pending where
  whole : Assoc KbSlug Nat
  prefixes : Assoc (KbSlug × Text) Nat
  keys : Assoc (KbSlug × ObjectPath) Nat
  overflowed : Bool
  capacity : Nat

/-- Every prefix of `path` that a pending prefix could be, broadest first: those that end in `/`. -/
def ancestorPrefixes (path : Text) : List Text := path.inits.filter (·.getLast? = some '/')

theorem mem_ancestorPrefixes {path pre : Text} :
    pre ∈ ancestorPrefixes path ↔ pre <+: path ∧ pre.getLast? = some '/' := by
  simp [ancestorPrefixes]

namespace Pending

def new (capacity : Nat) : Pending := ⟨.empty, .empty, .empty, false, capacity⟩

/-- Entries held for one knowledge base, across all three kinds. -/
def lenFor (s : Pending) (kb : KbSlug) : Nat :=
  (if s.whole.contains kb then 1 else 0) + s.prefixes.keys.countP (·.1 = kb) +
    s.keys.keys.countP (·.1 = kb)

/-- Ask for a whole knowledge base to be examined again. -/
def wholeKb (s : Pending) (kb : KbSlug) (now : Nat) : Pending :=
  { s with
    prefixes := s.prefixes.retain fun e => e.1.1 ≠ kb
    keys := s.keys.retain fun e => e.1.1 ≠ kb
    whole := s.whole.insert kb now }

/-- Whether a broader pending pass already covers `path`. -/
def covered (s : Pending) (kb : KbSlug) (path : Text) : Bool :=
  s.whole.contains kb || (ancestorPrefixes path).any fun pre => s.prefixes.contains (kb, pre)

/-- Whether `kb` holds as much pending work as is worth tracking individually. -/
def atCapacity (s : Pending) (kb : KbSlug) : Bool × Pending :=
  if s.lenFor kb ≥ s.capacity then (true, { s with overflowed := true }) else (false, s)

/-- Drop what lies under `pre`. -/
def outside (s : Pending) (kb : KbSlug) (pre : Text) : Pending :=
  { s with
    prefixes := s.prefixes.retain fun e => e.1.1 ≠ kb ∨ ¬ pre <+: e.1.2
    keys := s.keys.retain fun e => e.1.1 ≠ kb ∨ ¬ pre <+: e.1.2.val }

/-- Ask for everything under `pre` to be examined again. -/
def underPrefix (s : Pending) (kb : KbSlug) (pre : Text) (now : Nat) : Pending :=
  if s.covered kb pre then s
  else
    match (s.outside kb pre).atCapacity kb with
    | (true, s) => s.wholeKb kb now
    | (false, s) => { s with prefixes := s.prefixes.insert (kb, pre) now }

/-- Ask for one object to be examined again. -/
def key (s : Pending) (kb : KbSlug) (key : ObjectPath) (now : Nat) : Pending :=
  if s.covered kb key.val then s
  else
    match s.atCapacity kb with
    | (true, s) => s.wholeKb kb now
    | (false, s) => { s with keys := s.keys.insert (kb, key) now }

/-- Take everything untouched for at least `settle`, broadest work first. -/
def takeSettled (s : Pending) (now settle : Nat) : List FsSignal × Pending :=
  -- a deadline in the future counts as asked for just now
  let ready (since : Nat) : Bool := now - since ≥ settle
  ((s.whole.retain fun e => ready e.2).keys.map .kb ++
    ((s.prefixes.retain fun e => ready e.2).keys.map fun e => .underPrefix e.1 e.2) ++
    ((s.keys.retain fun e => ready e.2).keys.map fun e => .changed e.1 e.2),
   { s with
     whole := s.whole.retain fun e => !ready e.2
     prefixes := s.prefixes.retain fun e => !ready e.2
     keys := s.keys.retain fun e => !ready e.2 })

/-- Whether work has been traded down to a full pass since this was last asked. -/
def takeOverflowed (s : Pending) : Bool × Pending := (s.overflowed, { s with overflowed := false })

/-! ## What is pending -/

/-- The pending entries, as the signals they will be emitted as, with their instants. -/
def entries (s : Pending) : List (FsSignal × Nat) :=
  (s.whole.entries.map fun e => (.kb e.1, e.2)) ++
    (s.prefixes.entries.map fun e => (.underPrefix e.1.1 e.1.2, e.2)) ++
    (s.keys.entries.map fun e => (.changed e.1.1 e.1.2, e.2))

variable {s s' : Pending} {slug : KbSlug} {pre : Text} {path : ObjectPath} {now since : Nat}
variable {x y : FsSignal}

theorem kb_mem_entries : (.kb slug, since) ∈ s.entries ↔ (slug, since) ∈ s.whole := by
  unfold entries
  simp only [List.mem_append, List.mem_map, Prod.mk.injEq, FsSignal.kb.injEq, reduceCtorEq,
    false_and, and_false, exists_false, or_false]
  constructor
  · rintro ⟨e, he, rfl, rfl⟩
    exact he
  · exact fun h => ⟨_, h, rfl, rfl⟩

theorem underPrefix_mem_entries :
    (.underPrefix slug pre, since) ∈ s.entries ↔ ((slug, pre), since) ∈ s.prefixes := by
  unfold entries
  simp only [List.mem_append, List.mem_map, Prod.mk.injEq, FsSignal.underPrefix.injEq, reduceCtorEq,
    false_and, and_false, exists_false, or_false, false_or]
  constructor
  · rintro ⟨e, he, ⟨rfl, rfl⟩, rfl⟩
    exact he
  · exact fun h => ⟨_, h, ⟨rfl, rfl⟩, rfl⟩

theorem changed_mem_entries :
    (.changed slug path, since) ∈ s.entries ↔ ((slug, path), since) ∈ s.keys := by
  unfold entries
  simp only [List.mem_append, List.mem_map, Prod.mk.injEq, FsSignal.changed.injEq, reduceCtorEq,
    false_and, and_false, exists_false, false_or]
  constructor
  · rintro ⟨e, he, ⟨rfl, rfl⟩, rfl⟩
    exact he
  · exact fun h => ⟨_, h, ⟨rfl, rfl⟩, rfl⟩

/-- An entry for each signal. -/
theorem signals_nodup (s : Pending) : (s.entries.map Prod.fst).Nodup := by
  have hmap : s.entries.map Prod.fst = s.whole.keys.map .kb ++
      (s.prefixes.keys.map fun e => .underPrefix e.1 e.2) ++
      (s.keys.keys.map fun e => .changed e.1 e.2) := by
    simp [entries, Assoc.keys, Function.comp_def]
  rw [hmap]
  refine List.Nodup.append (List.Nodup.append ?_ ?_ ?_) ?_ ?_
  · exact s.whole.nodup.map fun _ _ h => FsSignal.kb.inj h
  · exact s.prefixes.nodup.map fun _ _ h => Prod.ext_iff.mpr (FsSignal.underPrefix.inj h)
  · intro z hz hz'
    obtain ⟨_, -, rfl⟩ := List.mem_map.mp hz
    obtain ⟨_, -, h⟩ := List.mem_map.mp hz'
    cases h
  · exact s.keys.nodup.map fun _ _ h => Prod.ext_iff.mpr (FsSignal.changed.inj h)
  · intro z hz hz'
    obtain ⟨_, -, rfl⟩ := List.mem_map.mp hz'
    rcases List.mem_append.mp hz with h | h
    · obtain ⟨_, -, h⟩ := List.mem_map.mp h
      cases h
    · obtain ⟨_, -, h⟩ := List.mem_map.mp h
      cases h

/-- The signals pending for one knowledge base. -/
def ofKb (s : Pending) (slug : KbSlug) : List FsSignal :=
  (s.entries.map Prod.fst).filter fun x => x.kbOf = slug

theorem mem_ofKb : x ∈ s.ofKb slug ↔ (∃ since, (x, since) ∈ s.entries) ∧ x.kbOf = slug := by
  simp [ofKb]

theorem lenFor_eq (s : Pending) (slug : KbSlug) : s.lenFor slug = (s.ofKb slug).length := by
  have hwhole : (if s.whole.contains slug then 1 else 0) = s.whole.keys.countP (· = slug) := by
    have hcount := List.nodup_iff_count_eq_one.mp s.whole.nodup
    unfold Assoc.contains
    split
    · next hmem =>
      rw [← hcount slug (of_decide_eq_true hmem), List.count, ← Assoc.keys]
      exact List.countP_congr fun x _ => by simp
    · next hmem =>
      refine (List.countP_eq_zero.mpr fun x hx heq => hmem ?_).symm
      rw [of_decide_eq_true heq] at hx
      exact decide_eq_true hx
  unfold lenFor ofKb
  rw [hwhole, ← List.countP_eq_length_filter]
  simp only [entries, Assoc.keys, List.map_append, List.countP_append, List.countP_map,
    Function.comp_def, FsSignal.kbOf]
  rfl

/-! ## What a report does -/

/-- The entry `x` takes the place of what it covers. -/
def Absorbs (s : Pending) (x : FsSignal) (now : Nat) (s' : Pending) : Prop :=
  ∀ y since, (y, since) ∈ s'.entries ↔ (y, since) = (x, now) ∨ (y, since) ∈ s.entries ∧ ¬ x.Covers y

theorem wholeKb_absorbs (s : Pending) (slug : KbSlug) (now : Nat) :
    Absorbs s (.kb slug) now (s.wholeKb slug now) := by
  intro y since
  rw [FsSignal.kb_covers]
  cases y with
  | kb slug' =>
    rw [kb_mem_entries, kb_mem_entries]
    simp [wholeKb, FsSignal.kbOf, or_comm]
  | underPrefix slug' pre =>
    rw [underPrefix_mem_entries, underPrefix_mem_entries]
    simp [wholeKb, FsSignal.kbOf]
  | changed slug' path =>
    rw [changed_mem_entries, changed_mem_entries]
    simp [wholeKb, FsSignal.kbOf]

/-- Nothing pending covers the path, or something does: what `covered` looks up. -/
theorem covered_iff {path : Text} : s.covered slug path = true ↔
    (∃ since, (.kb slug, since) ∈ s.entries) ∨
      ∃ pre since, (.underPrefix slug pre, since) ∈ s.entries ∧ pre <+: path ∧
        pre.getLast? = some '/' := by
  simp only [covered, Bool.or_eq_true, Assoc.contains_iff, List.any_eq_true, mem_ancestorPrefixes,
    kb_mem_entries, underPrefix_mem_entries]
  refine or_congr_right ⟨?_, ?_⟩
  · rintro ⟨pre, ⟨hpre, hslash⟩, since, hmem⟩
    exact ⟨pre, since, hmem, hpre, hslash⟩
  · rintro ⟨pre, since, hmem, hpre, hslash⟩
    exact ⟨pre, ⟨hpre, hslash⟩, since, hmem⟩

/-- What a report may do: nothing, as it is covered already, or add an entry for it or for its whole
knowledge base. The entry is covered by none that stays. -/
inductive Reported (s : Pending) (x : FsSignal) (now : Nat) : Pending → Prop where
  | known {y : FsSignal} {since : Nat} (hmem : (y, since) ∈ s.entries) (hcovers : y.Covers x) :
      Reported s x now s
  | added {s' : Pending} {y : FsSignal} (hnew : y = x ∨ y = .kb x.kbOf) (habsorbs : Absorbs s y now s')
      (hfree : ∀ z since, (z, since) ∈ s.entries → z.Covers y → y.Covers z)
      (hcapacity : s'.capacity = s.capacity)
      (hlen : (s'.ofKb x.kbOf).length ≤ max s.capacity 1) : Reported s x now s'

theorem ofKb_wholeKb_le (s : Pending) (slug : KbSlug) (now : Nat) :
    ((s.wholeKb slug now).ofKb slug).length ≤ 1 := by
  have hall : ∀ x ∈ (s.wholeKb slug now).ofKb slug, x = .kb slug := by
    intro x hx
    obtain ⟨⟨since, hmem⟩, hkb⟩ := mem_ofKb.mp hx
    rcases (wholeKb_absorbs s slug now x since).mp hmem with heq | ⟨-, hcovers⟩
    · cases heq
      rfl
    · exact absurd (FsSignal.kb_covers.mpr hkb) hcovers
  rw [List.eq_replicate_of_mem hall, List.length_replicate]
  have hnodup : ((s.wholeKb slug now).ofKb slug).Nodup := (signals_nodup _).filter _
  rw [List.eq_replicate_of_mem hall] at hnodup
  exact List.nodup_replicate.mp hnodup

theorem wholeKb_reported (s : Pending) (slug : KbSlug) (now : Nat) :
    Reported s (.kb slug) now (s.wholeKb slug now) := by
  refine .added (.inl rfl) (wholeKb_absorbs s slug now) (fun z since _ hz => ?_) rfl
    (Nat.le_trans (ofKb_wholeKb_le s slug now) (Nat.le_max_right _ _))
  exact FsSignal.kb_covers.mpr hz.1

/-- Trading a report down to a whole pass. -/
theorem Reported.escalated {s₁ : Pending} (hkb : x.kbOf = slug) (hcapacity : s₁.capacity = s.capacity)
    (hsub : ∀ y since, y.kbOf ≠ slug → ((y, since) ∈ s₁.entries ↔ (y, since) ∈ s.entries)) :
    Reported s x now (s₁.wholeKb slug now) := by
  refine .added (.inr (congrArg _ hkb.symm)) (fun y since => ?_) (fun z since _ hz => ?_) hcapacity
    (Nat.le_trans ?_ (Nat.le_max_right _ _))
  · rw [wholeKb_absorbs s₁ slug now y since, FsSignal.kb_covers]
    exact or_congr_right (and_congr_left fun hne => hsub y since hne)
  · exact FsSignal.kb_covers.mpr hz.1
  · rw [hkb]
    exact ofKb_wholeKb_le s₁ slug now

theorem mem_outside : (y, since) ∈ (s.outside slug pre).entries ↔
    (y, since) ∈ s.entries ∧ ¬ (FsSignal.underPrefix slug pre).Covers y := by
  cases y with
  | kb slug' =>
    rw [kb_mem_entries, kb_mem_entries]
    exact (and_iff_left fun h => h.2).symm
  | underPrefix slug' pre' =>
    rw [underPrefix_mem_entries, underPrefix_mem_entries]
    simp [outside, FsSignal.Covers, FsSignal.kbOf, eq_comm (a := slug), imp_iff_not_or]
  | changed slug' path =>
    rw [changed_mem_entries, changed_mem_entries]
    simp [outside, FsSignal.Covers, FsSignal.kbOf, eq_comm (a := slug), imp_iff_not_or]

theorem mem_insert_prefixes :
    (y, since) ∈ ({ s with prefixes := s.prefixes.insert (slug, pre) now } : Pending).entries ↔
      (y, since) = (.underPrefix slug pre, now) ∨
        (y, since) ∈ s.entries ∧ y ≠ .underPrefix slug pre := by
  cases y with
  | kb slug' =>
    rw [kb_mem_entries, kb_mem_entries]
    simp
  | underPrefix slug' pre' =>
    rw [underPrefix_mem_entries, underPrefix_mem_entries]
    simp [or_comm]
  | changed slug' path =>
    rw [changed_mem_entries, changed_mem_entries]
    simp

theorem mem_insert_keys :
    (y, since) ∈ ({ s with keys := s.keys.insert (slug, path) now } : Pending).entries ↔
      (y, since) = (.changed slug path, now) ∨
        (y, since) ∈ s.entries ∧ y ≠ .changed slug path := by
  cases y with
  | kb slug' =>
    rw [kb_mem_entries, kb_mem_entries]
    simp
  | underPrefix slug' pre' =>
    rw [underPrefix_mem_entries, underPrefix_mem_entries]
    simp
  | changed slug' path' =>
    rw [changed_mem_entries, changed_mem_entries]
    simp [or_comm]

theorem lenFor_insert_prefixes_le {k : KbSlug × Text} (slug : KbSlug) :
    ({ s with prefixes := s.prefixes.insert k now } : Pending).lenFor slug ≤ s.lenFor slug + 1 := by
  unfold lenFor
  rw [Nat.add_right_comm (_ + _) _ 1]
  refine Nat.add_le_add_right ?_ _
  rw [Nat.add_assoc]
  exact Nat.add_le_add_left (s.prefixes.countP_keys_insert_le k now _) _

theorem lenFor_insert_keys_le {k : KbSlug × ObjectPath} (slug : KbSlug) :
    ({ s with keys := s.keys.insert k now } : Pending).lenFor slug ≤ s.lenFor slug + 1 := by
  unfold lenFor
  rw [Nat.add_assoc _ _ 1]
  exact Nat.add_le_add_left (s.keys.countP_keys_insert_le k now _) _

/-- What is covered by an entry already is reported to no effect. -/
theorem Reported.of_covered {x : FsSignal} {path : Text} (hcovered : s.covered x.kbOf path = true)
    (hunder : ∀ pre, pre <+: path → (FsSignal.underPrefix x.kbOf pre).Covers x) : Reported s x now s := by
  rcases covered_iff.mp hcovered with ⟨since, hmem⟩ | ⟨pre, since, hmem, hle, -⟩
  · exact .known hmem (FsSignal.kb_covers.mpr rfl)
  · exact .known hmem (hunder pre hle)

/-- Otherwise only an entry for a single object can cover the report. -/
theorem changed_of_not_covered {x z : FsSignal} {path : Text} {since : Nat}
    (hslash : ∀ e ∈ s.prefixes, e.1.2.getLast? = some '/') (hfree : ¬ s.covered x.kbOf path = true)
    (hunder : ∀ pre, (FsSignal.underPrefix x.kbOf pre).Covers x → pre <+: path)
    (hz : (z, since) ∈ s.entries) (hcovers : z.Covers x) : ∃ key, z = .changed x.kbOf key := by
  rw [covered_iff, not_or] at hfree
  have hkb : z.kbOf = x.kbOf := hcovers.1
  rw [← hkb] at hfree hunder ⊢
  cases z with
  | kb slug' => exact absurd ⟨since, hz⟩ hfree.1
  | underPrefix slug' pre' =>
    exact absurd ⟨pre', since, hz, hunder pre' hcovers, hslash _ (underPrefix_mem_entries.mp hz)⟩ hfree.2
  | changed slug' key => exact ⟨key, rfl⟩

theorem underPrefix_reported (hslash : ∀ e ∈ s.prefixes, e.1.2.getLast? = some '/') :
    Reported s (.underPrefix slug pre) now (s.underPrefix slug pre now) := by
  unfold underPrefix
  split
  · next hcovered => exact Reported.of_covered hcovered fun _ hle => ⟨rfl, hle⟩
  next hfree =>
  unfold atCapacity
  by_cases hroom : (s.outside slug pre).lenFor slug ≥ (s.outside slug pre).capacity
  · rw [if_pos hroom]
    refine Reported.escalated rfl rfl fun y since hne => ?_
    change (y, since) ∈ (s.outside slug pre).entries ↔ _
    exact mem_outside.trans (and_iff_left fun hcovers => hne hcovers.1.symm)
  · rw [if_neg hroom]
    refine .added (.inl rfl) (fun y since => ?_) (fun z since hz hcovers => ?_) rfl ?_
    · rw [mem_insert_prefixes, mem_outside, and_assoc]
      refine or_congr_right (and_congr_right fun _ => and_iff_left_of_imp ?_)
      rintro hcovers rfl
      exact hcovers (.refl _)
    · -- what covers the new entry would have covered the report
      obtain ⟨key, rfl⟩ := changed_of_not_covered (x := .underPrefix slug pre) hslash hfree
        (fun _ hunder => hunder.2) hz hcovers
      exact hcovers.2.elim
    · rw [← lenFor_eq]
      refine Nat.le_trans (lenFor_insert_prefixes_le slug) (Nat.le_trans ?_ (Nat.le_max_left _ _))
      exact Nat.lt_of_not_ge hroom

theorem key_reported (hslash : ∀ e ∈ s.prefixes, e.1.2.getLast? = some '/') :
    Reported s (.changed slug path) now (s.key slug path now) := by
  unfold key
  split
  · next hcovered => exact Reported.of_covered hcovered fun _ hle => ⟨rfl, hle⟩
  next hfree =>
  unfold atCapacity
  by_cases hroom : s.lenFor slug ≥ s.capacity
  · rw [if_pos hroom]
    exact Reported.escalated rfl rfl fun y since _ => Iff.rfl
  · rw [if_neg hroom]
    refine .added (.inl rfl) (fun y since => ?_) (fun z since hz hcovers => ?_) rfl ?_
    · rw [mem_insert_keys]
      refine or_congr_right (and_congr_right fun _ => not_congr ?_)
      constructor
      · rintro rfl
        exact .refl _
      · intro hcovers
        cases y with
        | kb slug' => exact hcovers.2.elim
        | underPrefix slug' pre' => exact hcovers.2.elim
        | changed slug' path' =>
          obtain ⟨rfl, rfl⟩ := hcovers
          rfl
    · obtain ⟨key, rfl⟩ := changed_of_not_covered (x := .changed slug path) hslash hfree
        (fun _ hunder => hunder.2) hz hcovers
      obtain ⟨-, rfl⟩ := hcovers
      exact .refl _
    · rw [← lenFor_eq]
      refine Nat.le_trans (lenFor_insert_keys_le slug) (Nat.le_trans ?_ (Nat.le_max_left _ _))
      exact Nat.lt_of_not_ge hroom

/-! ## Draining -/

theorem mem_takeSettled_signals {settle : Nat} : x ∈ (s.takeSettled now settle).1 ↔
    ∃ since, (x, since) ∈ s.entries ∧ now - since ≥ settle := by
  unfold takeSettled
  simp only [List.mem_append, List.mem_map, Assoc.keys]
  cases x with
  | kb slug =>
    simp only [kb_mem_entries, FsSignal.kb.injEq, exists_eq_right, reduceCtorEq, and_false,
      exists_false, or_false]
    constructor
    · rintro ⟨⟨_, since⟩, he, rfl⟩
      exact ⟨since, (Assoc.mem_retain.mp he).1, of_decide_eq_true (Assoc.mem_retain.mp he).2⟩
    · rintro ⟨since, he, hready⟩
      exact ⟨(slug, since), Assoc.mem_retain.mpr ⟨he, decide_eq_true hready⟩, rfl⟩
  | underPrefix slug pre =>
    simp only [underPrefix_mem_entries, FsSignal.underPrefix.injEq, reduceCtorEq, and_false,
      exists_false, false_or, or_false]
    constructor
    · rintro ⟨_, ⟨⟨_, since⟩, he, rfl⟩, rfl, rfl⟩
      exact ⟨since, (Assoc.mem_retain.mp he).1, of_decide_eq_true (Assoc.mem_retain.mp he).2⟩
    · rintro ⟨since, he, hready⟩
      exact ⟨_, ⟨((slug, pre), since), Assoc.mem_retain.mpr ⟨he, decide_eq_true hready⟩, rfl⟩, rfl, rfl⟩
  | changed slug path =>
    simp only [changed_mem_entries, FsSignal.changed.injEq, reduceCtorEq, and_false, exists_false,
      false_or]
    constructor
    · rintro ⟨_, ⟨⟨_, since⟩, he, rfl⟩, rfl, rfl⟩
      exact ⟨since, (Assoc.mem_retain.mp he).1, of_decide_eq_true (Assoc.mem_retain.mp he).2⟩
    · rintro ⟨since, he, hready⟩
      exact ⟨_, ⟨((slug, path), since), Assoc.mem_retain.mpr ⟨he, decide_eq_true hready⟩, rfl⟩, rfl,
        rfl⟩

theorem mem_takeSettled_entries {settle : Nat} : (x, since) ∈ (s.takeSettled now settle).2.entries ↔
    (x, since) ∈ s.entries ∧ ¬ now - since ≥ settle := by
  cases x with
  | kb slug =>
    rw [kb_mem_entries, kb_mem_entries]
    simp [takeSettled]
  | underPrefix slug pre =>
    rw [underPrefix_mem_entries, underPrefix_mem_entries]
    simp [takeSettled]
  | changed slug path =>
    rw [changed_mem_entries, changed_mem_entries]
    simp [takeSettled]

end Pending

/-! ## Runs -/

/-- A report. A prefix ends in `/`, so that `notes/` cannot swallow `notes-archive/`. -/
inductive Report where
  | wholeKb (kb : KbSlug)
  | underPrefix (kb : KbSlug) (pre : Text) (slash : pre.getLast? = some '/')
  | key (kb : KbSlug) (key : ObjectPath)

namespace Report

/-- The signal that says no more and no less. -/
def signal : Report → FsSignal
  | .wholeKb kb => .kb kb
  | .underPrefix kb pre _ => .underPrefix kb pre
  | .key kb path => .changed kb path

def apply (now : Nat) : Report → Pending → Pending
  | .wholeKb kb, s => s.wholeKb kb now
  | .underPrefix kb pre _, s => s.underPrefix kb pre now
  | .key kb path, s => s.key kb path now

end Report

/-- What is called on the pending set: by the watcher's event thread and by its settler. -/
inductive Call where
  | report (r : Report) (now : Nat)
  | takeSettled (now settle : Nat)
  | takeOverflowed

/-- The signals a call emits, and the pending set after it. -/
def Call.run : Call → Pending → List FsSignal × Pending
  | .report r now, s => ([], r.apply now s)
  | .takeSettled now settle, s => s.takeSettled now settle
  | .takeOverflowed, s => ([], s.takeOverflowed.2)

/-- The signals a run emits, and the pending set after it. -/
def runCalls : List Call → Pending → List FsSignal × Pending
  | [], s => ([], s)
  | call :: calls, s =>
    let (emitted, s) := call.run s
    let (emitted', s) := runCalls calls s
    (emitted ++ emitted', s)

theorem runCalls_append (calls calls' : List Call) (s : Pending) :
    runCalls (calls ++ calls') s =
      ((runCalls calls s).1 ++ (runCalls calls' (runCalls calls s).2).1,
        (runCalls calls' (runCalls calls s).2).2) := by
  induction calls generalizing s with
  | nil => rfl
  | cons call calls ih =>
    simp only [List.cons_append, runCalls, ih, List.append_assoc]

namespace Pending

variable {capacity : Nat} {s s' : Pending} {x y : FsSignal}

/-- No entry is redundant, and no knowledge base has too many. -/
structure Tidy (capacity : Nat) (s : Pending) : Prop where
  limit : s.capacity = capacity
  slash : ∀ e ∈ s.prefixes, e.1.2.getLast? = some '/'
  alone : ∀ x since y since', (x, since) ∈ s.entries → (y, since') ∈ s.entries → x.Covers y → x = y
  bounded : ∀ slug, (s.ofKb slug).length ≤ max capacity 1

theorem tidy_new (capacity : Nat) : (new capacity).Tidy capacity where
  limit := rfl
  slash _ he := absurd he Assoc.not_mem_empty
  alone _ _ _ _ hx := absurd hx List.not_mem_nil
  bounded _ := Nat.zero_le _

/-- The signal is covered by what is pending. -/
def Covered (s : Pending) (x : FsSignal) : Prop := ∃ y since, (y, since) ∈ s.entries ∧ y.Covers x

theorem report_reported {r : Report} {now : Nat} (hs : s.Tidy capacity) :
    Reported s r.signal now (r.apply now s) := by
  cases r with
  | wholeKb kb => exact wholeKb_reported s kb now
  | underPrefix kb pre slash => exact underPrefix_reported hs.slash
  | key kb path => exact key_reported hs.slash

theorem Reported.new_covers {z : FsSignal} (hnew : z = x ∨ z = .kb x.kbOf) : z.Covers x := by
  rcases hnew with rfl | rfl
  · exact .refl _
  · exact FsSignal.kb_covers.mpr rfl

theorem Reported.covered {now : Nat} (h : Reported s x now s') : s'.Covered x := by
  cases h with
  | known hmem hcovers => exact ⟨_, _, hmem, hcovers⟩
  | added hnew habsorbs => exact ⟨_, _, (habsorbs _ _).mpr (.inl rfl), new_covers hnew⟩

theorem Reported.keeps {now : Nat} (h : Reported s x now s') (hy : s.Covered y) : s'.Covered y := by
  cases h with
  | known => exact hy
  | @added _ new hnew habsorbs =>
    obtain ⟨z, since, hz, hzy⟩ := hy
    by_cases hcovers : new.Covers z
    · exact ⟨new, now, (habsorbs _ _).mpr (.inl rfl), hcovers.trans hzy⟩
    · exact ⟨z, since, (habsorbs _ _).mpr (.inr ⟨hz, hcovers⟩), hzy⟩

theorem Reported.frame {now since : Nat} (h : Reported s x now s') (hy : y.kbOf ≠ x.kbOf) :
    (y, since) ∈ s'.entries ↔ (y, since) ∈ s.entries := by
  cases h with
  | known => rfl
  | added hnew habsorbs =>
    have hkb := (new_covers hnew).1
    rw [habsorbs]
    constructor
    · rintro (heq | ⟨hmem, -⟩)
      · cases heq
        exact absurd hkb hy
      · exact hmem
    · exact fun hmem => .inr ⟨hmem, fun hcovers => hy (hcovers.1.symm.trans hkb)⟩

theorem Reported.alone {now : Nat} (hs : s.Tidy capacity) (h : Reported s x now s') :
    ∀ z since z' since', (z, since) ∈ s'.entries → (z', since') ∈ s'.entries → z.Covers z' →
      z = z' := by
  cases h with
  | known => exact hs.alone
  | added hnew habsorbs hfree =>
    intro z since z' since' hz hz' hcovers
    rcases (habsorbs _ _).mp hz with heq | ⟨hmem, hout⟩
    · cases heq
      rcases (habsorbs _ _).mp hz' with heq' | ⟨hmem', hout'⟩
      · cases heq'
        rfl
      · exact absurd hcovers hout'
    · rcases (habsorbs _ _).mp hz' with heq' | ⟨hmem', hout'⟩
      · cases heq'
        exact absurd (hfree z since hmem hcovers) hout
      · exact hs.alone z since z' since' hmem hmem' hcovers

theorem Reported.bounded {now : Nat} (hs : s.Tidy capacity) (h : Reported s x now s') (slug : KbSlug) :
    (s'.ofKb slug).length ≤ max capacity 1 := by
  by_cases hslug : slug = x.kbOf
  · subst hslug
    cases h with
    | known => exact hs.bounded _
    | added hnew habsorbs hfree hcapacity hlen => exact hs.limit ▸ hlen
  · have hsub : (s'.ofKb slug).length ≤ (s.ofKb slug).length := by
      refine List.Subperm.length_le ?_
      refine List.subperm_of_subset ((signals_nodup s').filter _) fun z hz => ?_
      obtain ⟨⟨since, hmem⟩, hz⟩ := mem_ofKb.mp hz
      exact mem_ofKb.mpr ⟨⟨since, (h.frame fun heq => hslug (hz.symm.trans heq)).mp hmem⟩, hz⟩
    exact Nat.le_trans hsub (hs.bounded slug)

theorem Reported.limit {now : Nat} (hs : s.Tidy capacity) (h : Reported s x now s') :
    s'.capacity = capacity := by
  cases h with
  | known => exact hs.limit
  | added hnew habsorbs hfree hcapacity hlen => exact hcapacity.trans hs.limit

theorem Reported.slash {now : Nat} (hs : s.Tidy capacity) (h : Reported s x now s')
    (hx : ∀ slug pre, x = .underPrefix slug pre → pre.getLast? = some '/') :
    ∀ e ∈ s'.prefixes, e.1.2.getLast? = some '/' := by
  rintro ⟨⟨slug, pre⟩, since⟩ he
  rw [← underPrefix_mem_entries] at he
  cases h with
  | known => exact hs.slash _ (underPrefix_mem_entries.mp he)
  | added hnew habsorbs =>
    rcases (habsorbs _ _).mp he with heq | ⟨hmem, -⟩
    · cases heq
      rcases hnew with hnew | hnew
      · exact hx slug pre hnew.symm
      · cases hnew
    · exact hs.slash _ (underPrefix_mem_entries.mp hmem)

/-- One call: what was covered stays covered or is emitted, and the set stays tidy. -/
theorem Tidy.step (hs : s.Tidy capacity) (call : Call) : (call.run s).2.Tidy capacity ∧
    ∀ x, s.Covered x → (call.run s).2.Covered x ∨ ∃ y ∈ (call.run s).1, y.Covers x := by
  cases call with
  | report r now =>
    have h : Reported s r.signal now (r.apply now s) := report_reported hs
    refine ⟨⟨h.limit hs, h.slash hs fun slug pre heq => ?_, h.alone hs, h.bounded hs⟩,
      fun x hx => .inl (h.keeps hx)⟩
    cases r with
    | wholeKb kb => cases heq
    | underPrefix kb pre' slash =>
      cases heq
      exact slash
    | key kb path => cases heq
  | takeSettled now settle =>
    refine ⟨⟨hs.limit, ?_, ?_, fun slug => ?_⟩, ?_⟩
    · exact fun e he => hs.slash e (Assoc.mem_retain.mp he).1
    · intro x since y since' hx hy
      exact hs.alone x since y since' (mem_takeSettled_entries.mp hx).1 (mem_takeSettled_entries.mp hy).1
    · refine Nat.le_trans (List.Subperm.length_le ?_) (hs.bounded slug)
      refine List.subperm_of_subset ((signals_nodup _).filter _) fun z hz => ?_
      obtain ⟨⟨since, hmem⟩, hz⟩ := mem_ofKb.mp hz
      exact mem_ofKb.mpr ⟨⟨since, (mem_takeSettled_entries.mp hmem).1⟩, hz⟩
    · rintro x ⟨y, since, hy, hcovers⟩
      by_cases hready : now - since ≥ settle
      · exact .inr ⟨y, mem_takeSettled_signals.mpr ⟨since, hy, hready⟩, hcovers⟩
      · exact .inl ⟨y, since, mem_takeSettled_entries.mpr ⟨hy, hready⟩, hcovers⟩
  | takeOverflowed => exact ⟨⟨hs.limit, hs.slash, hs.alone, hs.bounded⟩, fun x hx => .inl hx⟩

/-- A run, by induction on its calls. -/
theorem Tidy.run (hs : s.Tidy capacity) (calls : List Call) : (runCalls calls s).2.Tidy capacity ∧
    ∀ x, s.Covered x → (runCalls calls s).2.Covered x ∨ ∃ y ∈ (runCalls calls s).1, y.Covers x := by
  induction calls generalizing s with
  | nil => exact ⟨hs, fun x hx => .inl hx⟩
  | cons call calls ih =>
    obtain ⟨htidy, hkeeps⟩ := hs.step call
    obtain ⟨htidy', hkeeps'⟩ := ih htidy
    refine ⟨htidy', fun x hx => ?_⟩
    rcases hkeeps x hx with hx | ⟨y, hy, hcovers⟩
    · refine (hkeeps' x hx).imp_right ?_
      rintro ⟨y, hy, hcovers⟩
      exact ⟨y, List.mem_append_right _ hy, hcovers⟩
    · exact .inr ⟨y, List.mem_append_left _ hy, hcovers⟩

end Pending

open Pending in
/-- Over any run, with `s` the pending set it leaves: a report is covered by what is pending or by a
signal emitted since; no entry is covered by another; no knowledge base has more entries than the
capacity, or than one; and a report leaves the entries of other knowledge bases as they are. -/
theorem pending_covers_reports (capacity : Nat) (calls : List Call) :
    let s := (runCalls calls (.new capacity)).2
    (∀ before r now after, calls = before ++ .report r now :: after →
      s.Covered r.signal ∨
        ∃ y ∈ (runCalls after (runCalls (before ++ [.report r now]) (.new capacity)).2).1,
          y.Covers r.signal) ∧
    (∀ x since y since', (x, since) ∈ s.entries → (y, since') ∈ s.entries → x.Covers y → x = y) ∧
    (s.entries.map Prod.fst).Nodup ∧
    (∀ kb, (s.ofKb kb).length ≤ max capacity 1) ∧
    ∀ r now x since, x.kbOf ≠ r.signal.kbOf →
      ((x, since) ∈ ((Call.report r now).run s).2.entries ↔ (x, since) ∈ s.entries) := by
  intro s
  have hs : s.Tidy capacity := ((tidy_new capacity).run calls).1
  refine ⟨fun before r now after heq => ?_, hs.alone, signals_nodup s, hs.bounded, ?_⟩
  · have hbefore : (runCalls before (.new capacity)).2.Tidy capacity :=
      ((tidy_new capacity).run before).1
    have hreport : runCalls (before ++ [.report r now]) (.new capacity) =
        ((runCalls before (.new capacity)).1 ++ [],
          r.apply now (runCalls before (.new capacity)).2) := runCalls_append _ _ _
    have hcovered : (r.apply now (runCalls before (.new capacity)).2).Covered r.signal :=
      (report_reported hbefore).covered
    have hafter : s = (runCalls after (r.apply now (runCalls before (.new capacity)).2)).2 := by
      change (runCalls calls (.new capacity)).2 = _
      rw [heq, runCalls_append]
      rfl
    rw [hreport, hafter]
    exact ((hbefore.step (.report r now)).1.run after).2 _ hcovered
  · exact fun r now x since hne => (report_reported hs).frame hne

end StorageFs
