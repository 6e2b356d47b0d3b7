-- SUMMARY: The system calls on a tree of files: what each leaves of the tree, and the error where it fails.
import NotedThat.Lib.FileTree
import Mathlib.Data.List.MinMax

/-!
# File system calls

A call changes the tree or fails with an error that says why. `mkdir` and the exclusive `open` make
something new; `unlink` takes a file away and `rmdir` an empty directory; a rename puts a file where
nothing is, or a file.
-/

/-- `io::ErrorKind`, as far as the calls give it. -/
inductive Errno where
  | notFound
  | alreadyExists
  | notADirectory
  | isADirectory
  | directoryNotEmpty
deriving DecidableEq

namespace FileTree

variable {N : Type} {t t' : FileTree N} {p q x : List N} {kind kind' : FileKind}

/-- Nothing is below a file. -/
theorem eq_of_below_file (hfile : (p, .file) ∈ t) (hmem : (x, kind) ∈ t) (hle : p <+: x) : p = x := by
  rcases eq_or_dir_above hmem hle with heq | hdir
  · exact heq
  · cases kind_unique hfile hdir

variable [DecidableEq N]

/-- The error where there is nothing at a path: a file on the way to it, or not even that. -/
def lookupError (t : FileTree N) (p : List N) : Errno :=
  if p.inits.any fun q => q ≠ p ∧ (q, .file) ∈ t then .notADirectory else .notFound

/-- `mkdir`, and `open` with `O_CREAT | O_EXCL`. -/
def make (t : FileTree N) (p : List N) (kind : FileKind) : Except Errno (FileTree N) :=
  if h : ¬ t.Exists p ∧ t.ParentIsDir p then .ok (t.graft p (single kind) h.2)
  else if t.Exists p then .error .alreadyExists
  else .error (t.lookupError p)

def unlink (t : FileTree N) (p : List N) : Except Errno (FileTree N) :=
  if (p, .file) ∈ t then .ok (t.prune p)
  else if (p, .dir) ∈ t then .error .isADirectory
  else .error (t.lookupError p)

def rmdir (t : FileTree N) (p : List N) : Except Errno (FileTree N) :=
  if (p, .dir) ∈ t then if t.NoneBelow p then .ok (t.prune p) else .error .directoryNotEmpty
  else if (p, .file) ∈ t then .error .notADirectory
  else .error (t.lookupError p)

/-- `rename` of a file. -/
def renameFile (t : FileTree N) (p q : List N) : Except Errno (FileTree N) :=
  if h : (p, .file) ∈ t ∧ Op.Renamable t p q then
    .ok ((t.prune p).graft q (t.subtree p) (parentIsDir_prune h.2.2.2.1 h.2.2.1))
  else if (q, .dir) ∈ t then .error .isADirectory
  else .error (t.lookupError q)

theorem mem_make (h : t.make p kind' = .ok t') : (x, kind) ∈ t' ↔ (x, kind) ∈ t ∨ x = p ∧ kind = kind' := by
  unfold make at h
  split at h
  · next hguard =>
    obtain rfl := Except.ok.inj h
    have hkeeps : (x, kind) ∈ t → ¬ p <+: x := fun hmem hle => hguard.1 (exists_above hmem hle)
    rw [mem_graft]
    constructor
    · rintro (⟨hmem, -⟩ | ⟨rest, rfl, hrest⟩)
      · exact .inl hmem
      · obtain ⟨rfl, rfl⟩ := mem_single.mp hrest
        exact .inr ⟨List.append_nil p, rfl⟩
    · rintro (hmem | ⟨rfl, rfl⟩)
      · exact .inl ⟨hmem, hkeeps hmem⟩
      · exact .inr ⟨[], (List.append_nil x).symm, mem_single.mpr ⟨rfl, rfl⟩⟩
  · split at h <;> cases h

theorem parent_of_make (h : t.make p kind = .ok t') : (p.dropLast, .dir) ∈ t ∧ ¬ t.Exists p ∧ p ≠ [] := by
  unfold make at h
  split at h
  · next hguard => exact ⟨hguard.2.2, hguard.1, hguard.2.1⟩
  · split at h <;> cases h

/-- Something is there already. -/
theorem exists_of_make (h : t.make p kind = .error .alreadyExists) : t.Exists p := by
  unfold make at h
  split at h
  · cases h
  · split at h
    · assumption
    · unfold lookupError at h
      split at h <;> cases h

/-- The directory that the new name would be in is missing, or a file. -/
theorem no_parent_of_make {e : Errno} (h : t.make p kind = .error e) (hp : p ≠ []) (hne : e ≠ .alreadyExists) :
    (p.dropLast, .dir) ∉ t := by
  intro hdir
  unfold make at h
  split at h
  · cases h
  · next hguard =>
    split at h
    · exact hne (Except.error.inj h).symm
    · next hnew => exact hguard ⟨hnew, hp, hdir⟩

theorem mem_prune_leaf (hleaf : ∀ y kind, (y, kind) ∈ t → p <+: y → y = p) :
    (x, kind) ∈ t.prune p ↔ (x, kind) ∈ t ∧ x ≠ p := by
  rw [mem_prune]
  refine and_congr_right fun hmem => not_congr ⟨fun hle => hleaf x kind hmem hle, ?_⟩
  rintro rfl
  exact List.prefix_rfl

theorem mem_unlink (h : t.unlink p = .ok t') : (x, kind) ∈ t' ↔ (x, kind) ∈ t ∧ x ≠ p := by
  unfold unlink at h
  split at h
  · next hfile =>
    obtain rfl := Except.ok.inj h
    exact mem_prune_leaf fun y kind hmem hle => (eq_of_below_file hfile hmem hle).symm
  · split at h <;> cases h

theorem file_of_unlink (h : t.unlink p = .ok t') : (p, .file) ∈ t := by
  unfold unlink at h
  split at h
  · assumption
  · split at h <;> cases h

/-- Nothing is in the directory. -/
def Empty (t : FileTree N) (p : List N) : Prop := (p, .dir) ∈ t ∧ ∀ y kind, (y, kind) ∈ t → p <+: y → y = p

theorem rmdir_eq_ok (h : t.rmdir p = .ok t') : t.Empty p ∧ ∀ y kind, (y, kind) ∈ t' ↔ (y, kind) ∈ t ∧ y ≠ p := by
  unfold rmdir at h
  split at h
  · next hdir =>
    split at h
    · next hnone =>
      obtain rfl := Except.ok.inj h
      have hleaf : ∀ y kind, (y, kind) ∈ t → p <+: y → y = p :=
        fun y kind hmem hle => hnone y (exists_iff.mpr ⟨kind, hmem⟩) hle
      exact ⟨⟨hdir, hleaf⟩, fun y kind => mem_prune_leaf hleaf⟩
    · cases h
  · split at h <;> cases h

/-- An empty directory can be removed. -/
theorem not_empty_of_rmdir {e : Errno} (h : t.rmdir p = .error e) : ¬ t.Empty p := by
  rintro ⟨hdir, hnone⟩
  rw [rmdir, if_pos hdir, if_pos] at h
  · cases h
  · intro y hmem hle
    obtain ⟨kind, hmem⟩ := exists_iff.mp hmem
    exact hnone y kind hmem hle

theorem mem_renameFile (h : t.renameFile p q = .ok t') :
    (x, kind) ∈ t' ↔ (x, kind) ∈ t ∧ x ≠ p ∧ x ≠ q ∨ x = q ∧ kind = .file := by
  unfold renameFile at h
  split at h
  · next hguard =>
    obtain ⟨hfile, hrename⟩ := hguard
    obtain rfl := Except.ok.inj h
    have hqleaf : ∀ y kind, (y, kind) ∈ t → q <+: y → y = q := by
      intro y kind hmem hle
      rcases hrename.2.2.2 with hnew | ⟨-, hq⟩ | ⟨hp, -⟩
      · exact absurd (exists_above hmem hle) hnew
      · exact (eq_of_below_file hq hmem hle).symm
      · cases kind_unique hfile hp
    rw [mem_graft, mem_prune_leaf fun y kind hmem hle => (eq_of_below_file hfile hmem hle).symm]
    constructor
    · rintro (⟨⟨hmem, hne⟩, hout⟩ | ⟨rest, rfl, hrest⟩)
      · exact .inl ⟨hmem, hne, fun heq => hout (heq ▸ List.prefix_rfl)⟩
      · have hself := eq_of_below_file hfile (mem_subtree.mp hrest) (List.prefix_append p rest)
        obtain rfl := List.self_eq_append_right.mp hself
        rw [mem_subtree, List.append_nil] at hrest
        exact .inr ⟨List.append_nil q, kind_unique hrest hfile⟩
    · rintro (⟨hmem, hne, hneq⟩ | ⟨rfl, rfl⟩)
      · exact .inl ⟨⟨hmem, hne⟩, fun hle => hneq (hqleaf x kind hmem hle)⟩
      · refine .inr ⟨[], (List.append_nil x).symm, ?_⟩
        rw [mem_subtree, List.append_nil]
        exact hfile
  · split at h <;> cases h

/-- What is renamed is a file, in whose place no directory is. -/
theorem file_of_renameFile (h : t.renameFile p q = .ok t') : (p, .file) ∈ t ∧ (q, .dir) ∉ t := by
  unfold renameFile at h
  split at h
  · next hguard =>
    refine ⟨hguard.1, fun hdir => ?_⟩
    rcases hguard.2.2.2.2 with hnew | ⟨-, hq⟩ | ⟨hp, -⟩
    · exact hnew (exists_iff.mpr ⟨_, hdir⟩)
    · cases kind_unique hdir hq
    · cases kind_unique hguard.1 hp
  · split at h <;> cases h

/-- In a tree without an empty directory below the root, the directories are those that files lie in. -/
theorem dir_iff_above_file (hroot : ([], .dir) ∈ t) (hfull : ∀ d, d ≠ [] → ¬ t.Empty d) :
    (p, .dir) ∈ t ↔ p = [] ∨ ∃ f, p <+: f ∧ p ≠ f ∧ (f, .file) ∈ t := by
  constructor
  · intro hdir
    refine or_iff_not_imp_left.mpr fun hp => ?_
    -- of all that is at or below the directory, what lies deepest is a file
    let deepest := (t.entries.entries.filter fun e => p <+: e.1).argmax fun e => e.1.length
    have hmem : (p, FileKind.dir) ∈ t.entries.entries.filter fun e => p <+: e.1 :=
      List.mem_filter.mpr ⟨hdir, decide_eq_true List.prefix_rfl⟩
    obtain ⟨⟨f, kind⟩, hdeepest⟩ : ∃ e, e ∈ deepest := by
      rcases hargmax : deepest with _ | e
      · exact absurd (List.argmax_eq_none.mp hargmax ▸ hmem) List.not_mem_nil
      · exact ⟨e, rfl⟩
    obtain ⟨hf, hle⟩ := List.mem_filter.mp (List.argmax_mem hdeepest)
    have hlongest : ∀ y kind', (y, kind') ∈ t → p <+: y → y.length ≤ f.length := by
      intro y kind' hy hpy
      have hbelow : (y, kind') ∈ t.entries.entries.filter fun e => p <+: e.1 :=
        List.mem_filter.mpr ⟨hy, decide_eq_true hpy⟩
      exact List.le_of_mem_argmax (f := fun e => e.1.length) hbelow hdeepest
    replace hle : p <+: f := of_decide_eq_true hle
    have hempty : ∀ y kind', (y, kind') ∈ t → f <+: y → y = f := fun y kind' hy hfy =>
      (hfy.eq_of_length_le (hlongest y kind' hy (hle.trans hfy))).symm
    have hfne : f ≠ [] := by
      rintro rfl
      exact hp (List.prefix_nil.mp hle)
    cases kind with
    | dir => exact absurd ⟨hf, hempty⟩ (hfull f hfne)
    | file =>
      refine ⟨f, hle, ?_, hf⟩
      rintro rfl
      cases kind_unique hdir hf
  · rintro (rfl | ⟨f, hle, hne, hfile⟩)
    · exact hroot
    · exact dir_above hle hne hfile

end FileTree
