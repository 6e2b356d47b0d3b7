-- SUMMARY: Trees of files and directories as finite maps from paths, and what the kernel does to them.
import NotedThat.Lib.Assoc
import Mathlib.Data.List.Infix

/-!
# File trees

A tree is the map from the paths that exist to what is there. What exists lies in directories. An
operation is the one system call that changes the tree; it names the paths at which the change is
visible from the directory above, its `tops`.
-/

inductive FileKind where
  | file
  | dir
deriving DecidableEq

/-- What exists, at paths of names of type `N`. What has a parent has a directory for it. -/
structure FileTree (N : Type) where
  entries : Assoc (List N) FileKind
  closed : ∀ p name kind, (p ++ [name], kind) ∈ entries → (p, .dir) ∈ entries

namespace FileTree

variable {N : Type} {t t' sub : FileTree N} {p q x : List N} {kind kind' : FileKind}

instance : Membership (List N × FileKind) (FileTree N) := ⟨fun t e => e ∈ t.entries⟩

instance [DecidableEq N] (e : List N × FileKind) (t : FileTree N) : Decidable (e ∈ t) :=
  inferInstanceAs (Decidable (e ∈ t.entries.entries))

/-- A path is one thing. -/
theorem kind_unique (h : (p, kind) ∈ t) (h' : (p, kind') ∈ t) : kind = kind' := by
  have hmem : (p, kind) = (p, kind') := List.inj_on_of_nodup_map t.entries.nodup h h' rfl
  exact (Prod.mk.inj hmem).2

theorem dir_above (hle : p <+: q) (hne : p ≠ q) (h : (q, kind) ∈ t) : (p, .dir) ∈ t := by
  obtain ⟨rest, rfl⟩ := hle
  induction rest using List.reverseRecOn generalizing kind with
  | nil => exact absurd (List.append_nil p).symm hne
  | append_singleton rest name ih =>
    rw [← List.append_assoc] at h
    have hparent : (p ++ rest, .dir) ∈ t := t.closed _ _ _ h
    by_cases hrest : rest = []
    · simpa [hrest] using hparent
    · exact ih (fun heq => hrest (List.self_eq_append_right.mp heq)) hparent

/-- The path exists. -/
def Exists (t : FileTree N) (p : List N) : Prop := p ∈ t.entries.keys

instance [DecidableEq N] (t : FileTree N) (p : List N) : Decidable (t.Exists p) :=
  inferInstanceAs (Decidable (p ∈ t.entries.keys))

theorem exists_iff : t.Exists p ↔ ∃ kind, (p, kind) ∈ t := by
  unfold Exists Assoc.keys
  rw [List.mem_map]
  constructor
  · rintro ⟨⟨_, kind⟩, h, rfl⟩
    exact ⟨kind, h⟩
  · rintro ⟨kind, h⟩
    exact ⟨_, h, rfl⟩

/-- A path above one that exists is that path, or a directory. -/
theorem eq_or_dir_above (hmem : (x, kind) ∈ t) (hle : p <+: x) : p = x ∨ (p, .dir) ∈ t :=
  or_iff_not_imp_left.mpr fun hne => dir_above hle hne hmem

theorem exists_above (hmem : (x, kind) ∈ t) (hle : p <+: x) : t.Exists p := by
  rcases eq_or_dir_above hmem hle with rfl | hdir
  · exact exists_iff.mpr ⟨kind, hmem⟩
  · exact exists_iff.mpr ⟨_, hdir⟩

/-- Whether the path's parent is a directory, so that a name can be put there. -/
def ParentIsDir (t : FileTree N) (p : List N) : Prop := p ≠ [] ∧ (p.dropLast, .dir) ∈ t

instance [DecidableEq N] (t : FileTree N) (p : List N) : Decidable (t.ParentIsDir p) :=
  inferInstanceAs (Decidable (_ ∧ _))

/-- Nothing below the path. -/
def NoneBelow [DecidableEq N] (t : FileTree N) (p : List N) : Prop :=
  ∀ q ∈ t.entries.keys, p <+: q → q = p

instance [DecidableEq N] (t : FileTree N) (p : List N) : Decidable (t.NoneBelow p) :=
  inferInstanceAs (Decidable (∀ _ ∈ _, _))

/-- The paths from one on are that one and the paths from the next name on. -/
theorem between_cons {above rest : List N} {name : N} :
    above <+: x ∧ x <+: above ++ name :: rest ↔
      x = above ∨ above ++ [name] <+: x ∧ x <+: above ++ [name] ++ rest := by
  constructor
  · rintro ⟨⟨tail, rfl⟩, hle⟩
    rw [List.prefix_append_right_inj] at hle
    cases tail with
    | nil => exact .inl (List.append_nil above)
    | cons first tail =>
      obtain ⟨rfl, htail⟩ := List.cons_prefix_cons.mp hle
      refine .inr ⟨⟨tail, by simp⟩, ?_⟩
      rw [List.append_cons, List.prefix_append_right_inj]
      exact htail
  · rintro (rfl | ⟨hge, hle⟩)
    · exact ⟨List.prefix_rfl, List.prefix_append _ _⟩
    · refine ⟨(List.prefix_append above [name]).trans hge, ?_⟩
      rw [List.append_cons]
      exact hle

/-! ## Cutting and planting -/

/-- One file, or one empty directory. -/
def single (kind : FileKind) : FileTree N where
  entries := ⟨[([], kind)], List.nodup_singleton _⟩
  closed p name kind' h := by
    have heq := List.mem_singleton.mp h
    simp at heq

@[simp] theorem mem_single : (p, kind) ∈ (single kind' : FileTree N) ↔ p = [] ∧ kind = kind' := by
  change (p, kind) ∈ [([], kind')] ↔ _
  simp

variable [DecidableEq N]

/-- Everything but what lies at or below `p`. -/
def prune (p : List N) (t : FileTree N) : FileTree N where
  entries := t.entries.retain fun e => ¬ p <+: e.1
  closed q name kind h := by
    rw [Assoc.mem_retain, decide_eq_true_eq] at h ⊢
    exact ⟨t.closed _ _ _ h.1, fun hle => h.2 (hle.trans (List.prefix_append q [name]))⟩

theorem mem_prune : (x, kind) ∈ t.prune p ↔ (x, kind) ∈ t ∧ ¬ p <+: x := by
  change (x, kind) ∈ t.entries.retain _ ↔ _
  rw [Assoc.mem_retain, decide_eq_true_eq]
  rfl

/-- The entries at or below `p`, with their paths from `p`. -/
def entriesBelow (p : List N) (entries : List (List N × FileKind)) : List (List N × FileKind) :=
  entries.filterMap fun e => if p <+: e.1 then some (e.1.drop p.length, e.2) else none

theorem mem_entriesBelow {entries : List (List N × FileKind)} :
    (x, kind) ∈ entriesBelow p entries ↔ (p ++ x, kind) ∈ entries := by
  unfold entriesBelow
  rw [List.mem_filterMap]
  constructor
  · rintro ⟨⟨y, kind'⟩, hmem, heq⟩
    split at heq
    · next hle =>
      obtain ⟨rest, rfl⟩ := hle
      simp only [List.drop_left, Option.some.injEq, Prod.mk.injEq] at heq
      obtain ⟨rfl, rfl⟩ := heq
      exact hmem
    · cases heq
  · exact fun hmem => ⟨_, hmem, by simp⟩

theorem nodup_entriesBelow {entries : List (List N × FileKind)} (h : (entries.map Prod.fst).Nodup) :
    ((entriesBelow p entries).map Prod.fst).Nodup := by
  unfold entriesBelow
  rw [List.Nodup, List.pairwise_map] at h ⊢
  refine List.pairwise_filterMap.mpr (h.imp fun hne y hy y' hy' heq => hne ?_)
  split at hy
  · next hle =>
    split at hy'
    · next hle' =>
      cases hy
      cases hy'
      obtain ⟨rest, hrest⟩ := hle
      obtain ⟨rest', hrest'⟩ := hle'
      simp only [← hrest, ← hrest', List.drop_left] at heq
      rw [← hrest, ← hrest', heq]
    · cases hy'
  · cases hy

/-- What lies at or below `p`, with its paths from `p`. -/
def subtree (p : List N) (t : FileTree N) : FileTree N where
  entries := ⟨entriesBelow p t.entries.entries, nodup_entriesBelow t.entries.nodup⟩
  closed q name kind h := by
    refine mem_entriesBelow.mpr (t.closed _ name kind ?_)
    rw [List.append_assoc]
    exact mem_entriesBelow.mp h

theorem mem_subtree : (x, kind) ∈ t.subtree p ↔ (p ++ x, kind) ∈ t := mem_entriesBelow

/-- The tree with `sub` at `p`, in place of what was there. -/
def graft (t : FileTree N) (p : List N) (sub : FileTree N) (hparent : t.ParentIsDir p) : FileTree N where
  entries := ⟨(t.prune p).entries.entries ++ sub.entries.entries.map fun e => (p ++ e.1, e.2), by
    rw [List.map_append, List.map_map]
    refine (t.prune p).entries.nodup.append ?_ ?_
    · have hcomp : (Prod.fst ∘ fun e : List N × FileKind => (p ++ e.1, e.2)) =
          (p ++ ·) ∘ Prod.fst := rfl
      rw [hcomp, ← List.map_map]
      exact sub.entries.nodup.map fun _ _ h => List.append_cancel_left h
    · intro y hy hy'
      obtain ⟨e, he, rfl⟩ := List.mem_map.mp hy
      obtain ⟨e', -, heq⟩ := List.mem_map.mp hy'
      exact (mem_prune.mp he).2 (heq ▸ List.prefix_append p _)⟩
  closed q name kind h := by
    rcases List.mem_append.mp h with h | h
    · exact List.mem_append_left _ ((t.prune p).closed _ _ _ h)
    · obtain ⟨⟨rest, kind'⟩, hsub, heq⟩ := List.mem_map.mp h
      obtain ⟨hpath, rfl⟩ := Prod.mk.inj heq
      rcases List.eq_nil_or_concat rest with rfl | ⟨rest, last, rfl⟩
      · -- the top: its parent was a directory and is not below it
        refine List.mem_append_left _ (mem_prune.mpr ?_)
        rw [List.append_nil] at hpath
        subst hpath
        refine ⟨by simpa using hparent.2, fun hle => ?_⟩
        have hlen := hle.length_le
        rw [List.length_append] at hlen
        exact Nat.not_succ_le_self _ hlen
      · rw [List.concat_eq_append, ← List.append_assoc] at hpath
        obtain ⟨rfl, -⟩ := List.append_inj' hpath rfl
        rw [List.concat_eq_append] at hsub
        exact List.mem_append_right _ (List.mem_map.mpr ⟨_, sub.closed _ _ _ hsub, rfl⟩)

theorem mem_graft {hparent : t.ParentIsDir p} : (x, kind) ∈ t.graft p sub hparent ↔
    (x, kind) ∈ t ∧ ¬ p <+: x ∨ ∃ rest, x = p ++ rest ∧ (rest, kind) ∈ sub := by
  rw [← mem_prune]
  change (x, kind) ∈ (t.prune p).entries.entries ++
    sub.entries.entries.map (fun e => (p ++ e.1, e.2)) ↔ _
  rw [List.mem_append, List.mem_map]
  refine or_congr_right ⟨?_, ?_⟩
  · rintro ⟨⟨rest, kind'⟩, hsub, heq⟩
    obtain ⟨rfl, rfl⟩ := Prod.mk.inj heq
    exact ⟨rest, rfl, hsub⟩
  · rintro ⟨rest, rfl, hsub⟩
    exact ⟨_, hsub, rfl⟩

theorem parentIsDir_prune (hparent : t.ParentIsDir q) (hout : ¬ p <+: q) :
    (t.prune p).ParentIsDir q :=
  ⟨hparent.1, mem_prune.mpr ⟨hparent.2, fun hle => hout (hle.trans (List.dropLast_prefix q))⟩⟩

/-! ## Operations -/

/-- A change to the tree. -/
inductive Op (N : Type) where
  /-- Make a directory, or write a file, new or not. -/
  | create (p : List N) (kind : FileKind)
  /-- The same, in a directory that is not watched yet. -/
  | land (p : List N) (kind : FileKind)
  /-- A file or a populated directory arrives from elsewhere. -/
  | moveIn (p : List N) (sub : FileTree N)
  /-- Unlink a file, or remove an empty directory. -/
  | remove (p : List N)
  /-- A file or a populated directory leaves for elsewhere. -/
  | moveOut (p : List N)
  | rename (p q : List N)

namespace Op

/-- Where the change is reported: at the paths themselves, never below them. -/
def tops : Op N → List (List N)
  | .create p _ => [p]
  | .land _ _ => []
  | .moveIn p _ => [p]
  | .remove p => [p]
  | .moveOut p => [p]
  | .rename p q => [p, q]

/-- A name can be made at `p`: its directory is there, and nothing is, or a file that is written
again. -/
def Creatable (t : FileTree N) (p : List N) (kind : FileKind) : Prop :=
  t.ParentIsDir p ∧ (¬ t.Exists p ∨ kind = .file ∧ (p, .file) ∈ t)

instance (t : FileTree N) (p : List N) (kind : FileKind) : Decidable (Creatable t p kind) :=
  inferInstanceAs (Decidable (_ ∧ _))

/-- A rename may take the place of a file by a file, and of an empty directory by a directory, and
does not put a directory into itself. -/
def Renamable (t : FileTree N) (p q : List N) : Prop :=
  t.Exists p ∧ ¬ p <+: q ∧ t.ParentIsDir q ∧
    (¬ t.Exists q ∨ (p, .file) ∈ t ∧ (q, .file) ∈ t ∨
      (p, .dir) ∈ t ∧ (q, .dir) ∈ t ∧ t.NoneBelow q)

instance (t : FileTree N) (p q : List N) : Decidable (Renamable t p q) :=
  inferInstanceAs (Decidable (_ ∧ _))

/-- The tree after the call, or nothing when the call fails. -/
def apply (t : FileTree N) : Op N → Option (FileTree N)
  | .create p kind => if h : Creatable t p kind then some (t.graft p (single kind) h.1) else none
  | .land p kind => if h : Creatable t p kind then some (t.graft p (single kind) h.1) else none
  | .moveIn p sub =>
    if h : t.ParentIsDir p ∧ ¬ t.Exists p then some (t.graft p sub h.1) else none
  | .remove p => if t.Exists p ∧ t.NoneBelow p then some (t.prune p) else none
  | .moveOut p => if t.Exists p then some (t.prune p) else none
  | .rename p q =>
    if h : Renamable t p q then
      some ((t.prune p).graft q (t.subtree p) (parentIsDir_prune h.2.2.1 h.2.1))
    else none

/-- Creating takes nothing away. -/
theorem Creatable.keeps (h : Creatable t p kind') (hmem : (x, kind) ∈ t) :
    (x, kind) ∈ t.graft p (single kind') h.1 := by
  rw [mem_graft]
  by_cases hle : p <+: x
  · rcases h.2 with hnew | ⟨rfl, hfile⟩
    · exact absurd (exists_above hmem hle) hnew
    · rcases eq_or_dir_above hmem hle with rfl | hdir
      · exact .inr ⟨[], by simp, mem_single.mpr ⟨rfl, kind_unique hmem hfile⟩⟩
      · cases kind_unique hdir hfile
  · exact .inl ⟨hmem, hle⟩

theorem prune_lost (hmem : (x, kind) ∈ t) (hlost : (x, kind) ∉ t.prune p) :
    p <+: x ∧ (p, .dir) ∉ t.prune p ∧ (p = x ∨ (p, .dir) ∈ t) := by
  have hle : p <+: x := by
    by_contra hout
    exact hlost (mem_prune.mpr ⟨hmem, hout⟩)
  exact ⟨hle, fun hdir => (mem_prune.mp hdir).2 List.prefix_rfl, eq_or_dir_above hmem hle⟩

/-- What is renamed is not below what it takes the place of. -/
theorem Renamable.not_below (h : Renamable t p q) : ¬ q <+: p := by
  intro hle
  have hne : q ≠ p := fun heq => h.2.1 (heq ▸ List.prefix_rfl)
  obtain ⟨kind, hmem⟩ := exists_iff.mp h.1
  have hdir : (q, .dir) ∈ t := dir_above hle hne hmem
  rcases h.2.2.2 with hnew | ⟨-, hfile⟩ | ⟨-, -, hnone⟩
  · exact hnew (exists_iff.mpr ⟨_, hdir⟩)
  · cases kind_unique hdir hfile
  · exact hne (hnone p h.1 hle).symm

theorem Renamable.lost (h : Renamable t p q) (hmem : (x, kind) ∈ t)
    (hlost : (x, kind) ∉ (t.prune p).graft q (t.subtree p) (parentIsDir_prune h.2.2.1 h.2.1)) :
    p <+: x := by
  by_contra hout
  rw [mem_graft, mem_prune, not_or] at hlost
  have hle : q <+: x := by
    by_contra hle
    exact hlost.1 ⟨⟨hmem, hout⟩, hle⟩
  -- what the rename takes the place of is a file for a file, or a directory for a directory
  refine hlost.2 ⟨[], ?_⟩
  rw [mem_subtree, List.append_nil, List.append_nil]
  rcases h.2.2.2 with hnew | ⟨hp, hq⟩ | ⟨hp, hq, hnone⟩
  · exact absurd (exists_above hmem hle) hnew
  · rcases eq_or_dir_above hmem hle with rfl | hdir
    · exact ⟨rfl, kind_unique hmem hq ▸ hp⟩
    · cases kind_unique hdir hq
  · obtain rfl := hnone x (exists_iff.mpr ⟨kind, hmem⟩) hle
    exact ⟨rfl, kind_unique hmem hq ▸ hp⟩

/-- What an operation takes away lies at or below one of its tops, which is then no directory; and
below it only if it was one. -/
theorem lost {op : Op N} (h : op.apply t = some t') (hmem : (x, kind) ∈ t) (hlost : (x, kind) ∉ t') :
    ∃ top ∈ op.tops, top <+: x ∧ (top, .dir) ∉ t' ∧ (top = x ∨ (top, .dir) ∈ t) := by
  cases op with
  | create p kind' =>
    obtain ⟨hguard, heq⟩ := Option.dite_none_right_eq_some.mp h
    cases heq
    exact absurd (hguard.keeps hmem) hlost
  | land p kind' =>
    obtain ⟨hguard, heq⟩ := Option.dite_none_right_eq_some.mp h
    cases heq
    exact absurd (hguard.keeps hmem) hlost
  | moveIn p sub =>
    obtain ⟨hguard, heq⟩ := Option.dite_none_right_eq_some.mp h
    cases heq
    refine absurd (mem_graft.mpr (.inl ⟨hmem, fun hle => ?_⟩)) hlost
    exact hguard.2 (exists_above hmem hle)
  | remove p =>
    obtain ⟨-, heq⟩ := Option.ite_none_right_eq_some.mp h
    cases heq
    exact ⟨p, List.mem_singleton_self p, prune_lost hmem hlost⟩
  | moveOut p =>
    obtain ⟨-, heq⟩ := Option.ite_none_right_eq_some.mp h
    cases heq
    exact ⟨p, List.mem_singleton_self p, prune_lost hmem hlost⟩
  | rename p q =>
    obtain ⟨hguard, heq⟩ := Option.dite_none_right_eq_some.mp h
    cases heq
    have hle : p <+: x := hguard.lost hmem hlost
    refine ⟨p, List.mem_cons_self, hle, fun hdir => ?_, eq_or_dir_above hmem hle⟩
    rcases mem_graft.mp hdir with ⟨hdir, -⟩ | ⟨rest, heq, -⟩
    · exact (mem_prune.mp hdir).2 List.prefix_rfl
    · exact hguard.not_below ⟨rest, heq.symm⟩

end Op

/-! ## Putting files in place -/

/-- Make the directories on the way from `above` to `above ++ rest`. -/
def createDirAll (above : List N) : List N → FileTree N → Option (FileTree N)
  | [], t => if (above, .dir) ∈ t then some t else none
  | name :: rest, t =>
    if t.Exists (above ++ [name]) then createDirAll (above ++ [name]) rest t
    else ((Op.create (above ++ [name]) .dir).apply t).bind (createDirAll (above ++ [name]) rest)

/-- Make the directories of a file and rename it into its place, over a file that is there. -/
def replaceFile (p : List N) (t : FileTree N) : Option (FileTree N) :=
  (createDirAll [] p.dropLast t).bind (Op.create p .file).apply

/-- A file can be put at `p`: there is no directory, and no file on the way. -/
structure Room (t : FileTree N) (p : List N) : Prop where
  notDir : (p, .dir) ∉ t
  way : ∀ q, q <+: p → q ≠ p → (q, .file) ∉ t

/-- Neither of two paths is the other, or lies below it. -/
def Apart (p q : List N) : Prop := ¬ p <+: q ∧ ¬ q <+: p

instance (p q : List N) : Decidable (Apart p q) := inferInstanceAs (Decidable (_ ∧ _))

theorem mem_of_apply_create (h : (Op.create p kind').apply t = some t') :
    (x, kind) ∈ t' ↔ (x, kind) ∈ t ∨ x = p ∧ kind = kind' := by
  obtain ⟨hguard, heq⟩ := Option.dite_none_right_eq_some.mp h
  cases heq
  refine ⟨fun hmem => ?_, ?_⟩
  · rcases mem_graft.mp hmem with ⟨hmem, -⟩ | ⟨rest, rfl, hrest⟩
    · exact .inl hmem
    · obtain ⟨rfl, rfl⟩ := mem_single.mp hrest
      exact .inr ⟨List.append_nil p, rfl⟩
  · rintro (hmem | ⟨rfl, rfl⟩)
    · exact hguard.keeps hmem
    · exact mem_graft.mpr (.inr ⟨[], (List.append_nil x).symm, mem_single.mpr ⟨rfl, rfl⟩⟩)

/-- The directories are there afterwards, and nothing is lost. -/
theorem createDirAll_keeps {above rest : List N} (h : createDirAll above rest t = some t') :
    (above ++ rest, .dir) ∈ t' ∧ ∀ x kind, (x, kind) ∈ t → (x, kind) ∈ t' := by
  induction rest generalizing above t with
  | nil =>
    obtain ⟨hdir, heq⟩ := Option.ite_none_right_eq_some.mp h
    cases heq
    exact ⟨by simpa using hdir, fun _ _ => id⟩
  | cons name rest ih =>
    rw [List.append_cons]
    unfold createDirAll at h
    split at h
    · exact ih h
    · obtain ⟨made, hmade, hrest⟩ := Option.bind_eq_some_iff.mp h
      obtain ⟨hdir, hkeep⟩ := ih hrest
      exact ⟨hdir, fun x kind hmem => hkeep x kind ((mem_of_apply_create hmade).mpr (.inl hmem))⟩

theorem createDirAll_spec {above : List N} (rest : List N) (habove : (above, .dir) ∈ t)
    (hway : ∀ q, above <+: q → q <+: above ++ rest → (q, .file) ∉ t) :
    ∃ t', createDirAll above rest t = some t' ∧ ∀ x kind, (x, kind) ∈ t' ↔
      (x, kind) ∈ t ∨ kind = .dir ∧ above <+: x ∧ x <+: above ++ rest := by
  induction rest generalizing above t with
  | nil =>
    refine ⟨t, if_pos habove, fun x kind => ⟨.inl, ?_⟩⟩
    rintro (hmem | ⟨rfl, hle, hge⟩)
    · exact hmem
    · rw [List.append_nil] at hge
      rwa [hge.eq_of_length_le hle.length_le]
  | cons name rest ih =>
    have happend : above ++ name :: rest = above ++ [name] ++ rest := by simp
    have hsub : above <+: above ++ [name] := List.prefix_append above [name]
    unfold createDirAll
    split
    · next hexists =>
      obtain ⟨kind, hkind⟩ := exists_iff.mp hexists
      have hdir : (above ++ [name], .dir) ∈ t := by
        cases kind with
        | dir => exact hkind
        | file =>
          refine absurd hkind (hway _ hsub ?_)
          rw [happend]
          exact List.prefix_append _ _
      obtain ⟨t', ht', hmem⟩ := ih hdir fun q hge hle => hway q (hsub.trans hge) (happend ▸ hle)
      refine ⟨t', ht', fun x kind => ?_⟩
      rw [hmem, between_cons]
      constructor
      · rintro (hx | ⟨rfl, hx⟩)
        · exact .inl hx
        · exact .inr ⟨rfl, .inr hx⟩
      · rintro (hx | ⟨rfl, rfl | hx⟩)
        · exact .inl hx
        · exact .inl habove
        · exact .inr ⟨rfl, hx⟩
    · next hnew =>
      have hguard : Op.Creatable t (above ++ [name]) .dir := by
        refine ⟨⟨by simp, ?_⟩, .inl hnew⟩
        rw [List.dropLast_concat]
        exact habove
      obtain ⟨made, hmade⟩ : ∃ made, (Op.create (above ++ [name]) .dir).apply t = some made :=
        ⟨_, dif_pos hguard⟩
      have hmem : ∀ x kind, (x, kind) ∈ made ↔
          (x, kind) ∈ t ∨ x = above ++ [name] ∧ kind = .dir :=
        fun x kind => mem_of_apply_create hmade
      obtain ⟨t', ht', hmem'⟩ := ih ((hmem _ _).mpr (.inr ⟨rfl, rfl⟩)) fun q hge hle hfile => by
        rcases (hmem _ _).mp hfile with hfile | ⟨-, hkind⟩
        · exact hway q (hsub.trans hge) (happend ▸ hle) hfile
        · cases hkind
      refine ⟨t', by rw [hmade]; exact ht', fun x kind => ?_⟩
      rw [hmem', hmem, between_cons]
      constructor
      · rintro ((hx | ⟨rfl, rfl⟩) | ⟨rfl, hx⟩)
        · exact .inl hx
        · exact .inr ⟨rfl, .inr ⟨List.prefix_rfl, List.prefix_append _ _⟩⟩
        · exact .inr ⟨rfl, .inr hx⟩
      · rintro (hx | ⟨rfl, rfl | hx⟩)
        · exact .inl (.inl hx)
        · exact .inl (.inl habove)
        · exact .inr ⟨rfl, hx⟩

/-- Where there is room a file is put in place, with its directories and nothing else. -/
theorem replaceFile_spec (hroot : ([], .dir) ∈ t) (hp : p ≠ []) (hroom : Room t p) :
    ∃ t', replaceFile p t = some t' ∧ ∀ x kind, (x, kind) ∈ t' ↔
      (x, kind) ∈ t ∨ x = p ∧ kind = .file ∨ kind = .dir ∧ x <+: p ∧ x ≠ p := by
  have hlast : p.dropLast ++ [p.getLast hp] = p := List.dropLast_append_getLast hp
  have hbelow : ∀ x, x <+: p.dropLast ↔ x <+: p ∧ x ≠ p := by
    intro x
    constructor
    · intro hle
      refine ⟨hle.trans (List.dropLast_prefix p), ?_⟩
      rintro rfl
      have := hle.length_le
      have := List.length_pos_iff.mpr hp
      rw [List.length_dropLast] at *
      omega
    · rintro ⟨hle, hne⟩
      rw [← hlast, List.prefix_concat_iff] at hle
      exact hle.resolve_left fun heq => hne (heq.trans hlast)
  obtain ⟨t₁, ht₁, hmem₁⟩ := createDirAll_spec p.dropLast hroot fun q _ hle =>
    hroom.way q ((hbelow q).mp hle).1 ((hbelow q).mp hle).2
  have hguard : Op.Creatable t₁ p .file := by
    refine ⟨⟨hp, (hmem₁ _ _).mpr (.inr ⟨rfl, List.nil_prefix, List.prefix_rfl⟩)⟩, ?_⟩
    by_cases hexists : t₁.Exists p
    · obtain ⟨kind, hkind⟩ := exists_iff.mp hexists
      cases kind with
      | file => exact .inr ⟨rfl, hkind⟩
      | dir =>
        rcases (hmem₁ _ _).mp hkind with hdir | ⟨-, -, hle⟩
        · exact absurd hdir hroom.notDir
        · exact absurd rfl ((hbelow p).mp hle).2
    · exact .inl hexists
  obtain ⟨t', ht'⟩ : ∃ t', (Op.create p .file).apply t₁ = some t' := ⟨_, dif_pos hguard⟩
  refine ⟨t', by rw [replaceFile, ht₁]; exact ht', fun x kind => ?_⟩
  rw [mem_of_apply_create ht', hmem₁, List.nil_append, hbelow]
  constructor
  · rintro ((hx | ⟨rfl, -, hx⟩) | hx)
    · exact .inl hx
    · exact .inr (.inr ⟨rfl, hx⟩)
    · exact .inr (.inl hx)
  · rintro (hx | hx | ⟨rfl, hx⟩)
    · exact .inl (.inl hx)
    · exact .inr hx
    · exact .inl (.inr ⟨rfl, List.nil_prefix, hx⟩)

/-- A file is put in place only where there is room. -/
theorem room_of_replaceFile (h : replaceFile p t = some t') : Room t p := by
  obtain ⟨t₁, ht₁, hcreate⟩ := Option.bind_eq_some_iff.mp h
  obtain ⟨hparent, hkeep⟩ := createDirAll_keeps ht₁
  obtain ⟨hguard, -⟩ := Option.dite_none_right_eq_some.mp hcreate
  refine ⟨fun hdir => ?_, fun q hle hne hfile => ?_⟩
  · rcases hguard.2 with hnew | ⟨-, hfile⟩
    · exact hnew (exists_iff.mpr ⟨_, hkeep _ _ hdir⟩)
    · cases kind_unique (hkeep _ _ hdir) hfile
  · have hdir : (q, .dir) ∈ t₁ := by
      rw [List.nil_append] at hparent
      rw [← List.dropLast_append_getLast hguard.1.1, List.prefix_concat_iff,
        List.dropLast_append_getLast] at hle
      rcases eq_or_dir_above hparent (hle.resolve_left hne) with rfl | hdir
      · exact hparent
      · exact hdir
    cases kind_unique hdir (hkeep _ _ hfile)

/-- A file put in place leaves the room of every file apart from it. -/
theorem Room.replaceFile {t₀ : FileTree N} (hroot : ([], .dir) ∈ t₀) (hp : p ≠ [])
    (h : FileTree.replaceFile p t₀ = some t') (hroom : Room t₀ q) (hq : q = p ∨ Apart p q) :
    Room t' q := by
  obtain ⟨t'', heq, hmem⟩ := replaceFile_spec hroot hp (room_of_replaceFile h)
  cases h.symm.trans heq
  refine ⟨fun hdir => ?_, fun r hle hne hfile => ?_⟩
  · rcases (hmem _ _).mp hdir with hdir | ⟨-, hkind⟩ | ⟨-, hle, hne⟩
    · exact hroom.notDir hdir
    · cases hkind
    · rcases hq with rfl | hq
      · exact hne rfl
      · exact hq.2 hle
  · rcases (hmem _ _).mp hfile with hfile | ⟨rfl, -⟩ | ⟨hkind, -⟩
    · exact hroom.way r hle hne hfile
    · rcases hq with rfl | hq
      · exact hne rfl
      · exact hq.1 hle
    · cases hkind

end FileTree
