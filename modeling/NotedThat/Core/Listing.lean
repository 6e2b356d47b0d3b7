-- SUMMARY: Listings in key order: how pages follow one another, and how one directory level is rolled up from a flat listing.
import NotedThat.Lib.ByteOrder
import NotedThat.Core.Storage

/-!
# Listings

Storage lists keys in order, page by page, without a delimiter. A page starts behind its cursor,
so following the cursors walks the whole listing once. Directories are synthesised from the keys.
-/

namespace Objects

variable {s : Objects} {kb : KbSlug} {pre : Text} {cursor : Option Text}

/-- Entries in the order of their keys. -/
abbrev KeyLt (e e' : Key × Version) : Prop := e.1.2.val < e'.1.2.val

/-- No two entries of a listing have the same key. -/
theorem matching_key_inj {e e' : Key × Version} (he : e ∈ s.matching kb pre cursor)
    (he' : e' ∈ s.matching kb pre cursor) (h : e.1.2.val = e'.1.2.val) : e = e' := by
  obtain ⟨hmem, hkb, -⟩ := mem_matching.mp he
  obtain ⟨hmem', hkb', -⟩ := mem_matching.mp he'
  exact List.inj_on_of_nodup_map s.nodup hmem hmem'
    (Prod.ext (hkb.trans hkb'.symm) (ObjectPath.ext h))

theorem matching_nodup : (s.matching kb pre cursor).Nodup := by
  refine (List.perm_insertionSort _ _).nodup_iff.mpr (List.Nodup.filter _ ?_)
  exact List.Nodup.of_map _ s.nodup

/-- A listing is strictly sorted by key. -/
theorem matching_sorted : (s.matching kb pre cursor).Pairwise KeyLt := by
  have hle : (s.matching kb pre cursor).Pairwise fun e e' => e.1.2.val ≤ e'.1.2.val :=
    List.pairwise_insertionSort _ _
  refine List.Pairwise.imp_of_mem (fun he he' h => ?_) (hle.and matching_nodup)
  exact (le_iff_lt_or_eq.mp h.1).resolve_right fun heq => h.2 (matching_key_inj he he' heq)

/-- Behind the last key of a page lies what the page left out. -/
theorem matching_after {n : Nat} {e : Key × Version}
    (he : ((s.matching kb pre none).take n).getLast? = some e) :
    s.matching kb pre (some e.1.2.val) = (s.matching kb pre none).drop n := by
  refine List.eq_of_keys_lt matching_sorted ((matching_sorted.sublist (List.drop_sublist n _))) fun e' => ?_
  rw [List.mem_drop_iff_of_keys_lt matching_sorted he, mem_matching, mem_matching]
  simp [and_assoc]

/-- The entries of a listing whose key passes a test depend on the versions at such keys only. -/
theorem matching_filter_congr {s' : Objects} {p : Text → Bool}
    (h : ∀ path : ObjectPath, p path.val = true → s.get (kb, path) = s'.get (kb, path)) :
    (s.matching kb pre cursor).filter (fun e => p e.1.2.val) =
      (s'.matching kb pre cursor).filter fun e => p e.1.2.val := by
  have hsub : ∀ {s s' : Objects},
      (∀ path : ObjectPath, p path.val = true → s.get (kb, path) = s'.get (kb, path)) → ∀ e,
      e ∈ (s.matching kb pre cursor).filter (fun e => p e.1.2.val) →
      e ∈ (s'.matching kb pre cursor).filter fun e => p e.1.2.val := by
    rintro s s' h ⟨⟨kb', path⟩, v⟩ he
    obtain ⟨hmem, hp⟩ := List.mem_filter.mp he
    obtain ⟨hentry, hkb, hrest⟩ := mem_matching.mp hmem
    cases hkb
    have hget := (h path hp).symm.trans (get_eq_some.mpr hentry)
    exact List.mem_filter.mpr ⟨mem_matching.mpr ⟨get_eq_some.mp hget, rfl, hrest⟩, hp⟩
  refine List.eq_of_keys_lt (matching_sorted.filter _) (matching_sorted.filter _) fun e => ?_
  exact ⟨hsub h e, hsub (fun path hp => (h path hp).symm) e⟩

end Objects

/-! ## One directory level -/

/-- The subdirectories and the objects directly under a prefix, both in the order of their
names. -/
structure Rollup where
  folders : List Text
  files : List (Text × ObjectMeta)
deriving DecidableEq

namespace Rollup

/-- Insert into an ordered set of names. -/
def insertFolder (name : Text) (folders : List Text) : List Text :=
  if name ∈ folders then folders else folders.orderedInsert (· ≤ ·) name

/-- Insert into an ordered map, over any entry with the name. -/
def insertFile (name : Text) (objectMeta : ObjectMeta) (files : List (Text × ObjectMeta)) :
    List (Text × ObjectMeta) :=
  (files.filter (·.1 ≠ name)).orderedInsert (·.1 ≤ ·.1) (name, objectMeta)

/-- Take one object of the listing in. -/
def insertObject (pre : Text) (rollup : Rollup) (objectMeta : ObjectMeta) : Rollup :=
  match Text.stripPrefix pre objectMeta.key with
  | none => rollup
  -- an object stored at a directory's own name is no child of it
  | some [] => rollup
  | some relative =>
    match Text.splitOnce '/' relative with
    | some (folder, _) => { rollup with folders := insertFolder folder rollup.folders }
    | none => { rollup with files := insertFile relative objectMeta rollup.files }

end Rollup

/-- Roll a flat listing up into the directory level under `pre`. -/
def rollUp (objects : List ObjectMeta) (pre : Text) : Rollup :=
  objects.foldl (Rollup.insertObject pre) ⟨[], []⟩

namespace Rollup

/-- What the level directly under a prefix is: a folder for every first segment that some key continues
behind, and a file for every key that ends with its first segment. -/
structure LevelOf (rollup : Rollup) (pre : Text) (objects : List ObjectMeta) : Prop where
  foldersSorted : rollup.folders.Pairwise (· < ·)
  filesSorted : rollup.files.Pairwise (·.1 < ·.1)
  mem_folders : ∀ name, name ∈ rollup.folders ↔
    '/' ∉ name ∧ ∃ m ∈ objects, ∃ rest, m.key = pre ++ name ++ '/' :: rest
  mem_files : ∀ name m, (name, m) ∈ rollup.files ↔
    m ∈ objects ∧ m.key = pre ++ name ∧ name ≠ [] ∧ '/' ∉ name

variable {rollup : Rollup} {pre : Text} {seen objects : List ObjectMeta} {m : ObjectMeta}

theorem mem_insertFolder {name other : Text} {folders : List Text} :
    other ∈ insertFolder name folders ↔ other = name ∨ other ∈ folders := by
  unfold insertFolder
  split
  · next hin =>
    refine ⟨Or.inr, ?_⟩
    rintro (rfl | hother)
    · exact hin
    · exact hother
  · exact List.mem_orderedInsert _

theorem insertFolder_sorted {name : Text} {folders : List Text} (h : folders.Pairwise (· < ·)) :
    (insertFolder name folders).Pairwise (· < ·) := by
  unfold insertFolder
  split
  · exact h
  · next hnew =>
    refine @List.pairwise_keys_lt_orderedInsert _ _ _ id _ _ h ?_
    rintro other hother rfl
    exact hnew hother

theorem mem_insertFile {name : Text} {files : List (Text × ObjectMeta)} {file : Text × ObjectMeta} :
    file ∈ insertFile name m files ↔ file = (name, m) ∨ file ∈ files ∧ file.1 ≠ name := by
  unfold insertFile
  rw [List.mem_orderedInsert, List.mem_filter, decide_eq_true_iff]

theorem insertFile_sorted {name : Text} {files : List (Text × ObjectMeta)}
    (h : files.Pairwise (·.1 < ·.1)) : (insertFile name m files).Pairwise (·.1 < ·.1) := by
  refine @List.pairwise_keys_lt_orderedInsert _ _ _ Prod.fst _ _ (h.filter _) fun file hfile => ?_
  exact of_decide_eq_true (List.mem_filter.mp hfile).2

theorem levelOf_nil : LevelOf ⟨[], []⟩ pre [] := ⟨by simp, by simp, by simp, by simp⟩

/-- An object that is no child of the prefix adds nothing. -/
theorem LevelOf.skip (h : rollup.LevelOf pre seen) (hm : ∀ rest, m.key = pre ++ rest → rest = []) :
    rollup.LevelOf pre (seen ++ [m]) where
  foldersSorted := h.foldersSorted
  filesSorted := h.filesSorted
  mem_folders name := by
    rw [h.mem_folders]
    refine and_congr_right fun _ => ⟨fun ⟨m', hm', hkey⟩ => ⟨m', List.mem_append_left _ hm', hkey⟩, ?_⟩
    rintro ⟨m', hm', rest, hkey⟩
    rcases List.mem_append.mp hm' with hm' | hm'
    · exact ⟨m', hm', rest, hkey⟩
    · cases List.mem_singleton.mp hm'
      rw [List.append_assoc] at hkey
      exact absurd (hm _ hkey) (by simp)
  mem_files name m' := by
    rw [h.mem_files, List.mem_append, List.mem_singleton]
    refine ⟨fun ⟨hm', hkey⟩ => ⟨Or.inl hm', hkey⟩, ?_⟩
    rintro ⟨hm' | rfl, hkey, hname⟩
    · exact ⟨hm', hkey, hname⟩
    · exact absurd (hm _ hkey) hname.1

/-- Two ways to split a text at a slash that the first part does not have. -/
theorem append_slash_inj {name name' rest rest' : Text} (h : name ++ '/' :: rest = name' ++ '/' :: rest')
    (hname : '/' ∉ name) (hname' : '/' ∉ name') : name = name' := by
  have hsplit := Text.splitOnce_append hname rest
  rw [h, Text.splitOnce_append hname' rest'] at hsplit
  exact (congrArg Prod.fst (Option.some.inj hsplit)).symm

/-- An object below a segment makes it a folder. -/
theorem LevelOf.folder {name rest : Text} (h : rollup.LevelOf pre seen)
    (hkey : m.key = pre ++ (name ++ '/' :: rest)) (hname : '/' ∉ name) :
    LevelOf { rollup with folders := insertFolder name rollup.folders } pre (seen ++ [m]) where
  foldersSorted := insertFolder_sorted h.foldersSorted
  filesSorted := h.filesSorted
  mem_folders other := by
    rw [mem_insertFolder, h.mem_folders]
    constructor
    · rintro (rfl | ⟨hother, m', hm', hbelow⟩)
      · exact ⟨hname, m, by simp, rest, by rw [hkey, List.append_assoc]⟩
      · exact ⟨hother, m', List.mem_append_left _ hm', hbelow⟩
    · rintro ⟨hother, m', hm', rest', hbelow⟩
      rcases List.mem_append.mp hm' with hm' | hm'
      · exact Or.inr ⟨hother, m', hm', rest', hbelow⟩
      · cases List.mem_singleton.mp hm'
        rw [hkey, List.append_assoc] at hbelow
        exact Or.inl (append_slash_inj (List.append_cancel_left hbelow) hname hother).symm
  mem_files other m' := by
    rw [h.mem_files, List.mem_append, List.mem_singleton]
    refine ⟨fun ⟨hm', hfile⟩ => ⟨Or.inl hm', hfile⟩, ?_⟩
    rintro ⟨hm' | rfl, hfile, hother⟩
    · exact ⟨hm', hfile, hother⟩
    · rw [hkey] at hfile
      rw [← List.append_cancel_left hfile] at hother
      exact absurd (by simp) hother.2

/-- An object that ends with its first segment is a file. -/
theorem LevelOf.file {name : Text} (h : rollup.LevelOf pre seen) (hkey : m.key = pre ++ name)
    (hne : name ≠ []) (hname : '/' ∉ name) (hnew : ∀ m' ∈ seen, m'.key ≠ m.key) :
    LevelOf { rollup with files := insertFile name m rollup.files } pre (seen ++ [m]) where
  foldersSorted := h.foldersSorted
  filesSorted := insertFile_sorted h.filesSorted
  mem_folders other := by
    rw [h.mem_folders]
    refine and_congr_right fun _ => ⟨fun ⟨m', hm', hbelow⟩ => ⟨m', List.mem_append_left _ hm', hbelow⟩, ?_⟩
    rintro ⟨m', hm', rest, hbelow⟩
    rcases List.mem_append.mp hm' with hm' | hm'
    · exact ⟨m', hm', rest, hbelow⟩
    · cases List.mem_singleton.mp hm'
      rw [hkey, List.append_assoc] at hbelow
      rw [List.append_cancel_left hbelow] at hname
      exact absurd (by simp) hname
  mem_files other m' := by
    rw [mem_insertFile, h.mem_files, List.mem_append, List.mem_singleton, Prod.mk.injEq]
    constructor
    · rintro (⟨rfl, rfl⟩ | ⟨⟨hm', hfile⟩, -⟩)
      · exact ⟨Or.inr rfl, hkey, hne, hname⟩
      · exact ⟨Or.inl hm', hfile⟩
    · rintro ⟨hm' | rfl, hfile, hother⟩
      · refine Or.inr ⟨⟨hm', hfile, hother⟩, ?_⟩
        rintro rfl
        exact hnew m' hm' (hfile.trans hkey.symm)
      · rw [hkey] at hfile
        exact Or.inl ⟨(List.append_cancel_left hfile).symm, rfl⟩

/-- Every child of the prefix is one file, or is below one folder. -/
theorem LevelOf.contributes (h : rollup.LevelOf pre objects) (hm : m ∈ objects) {relative : Text}
    (hkey : m.key = pre ++ relative) (hne : relative ≠ []) :
    ∃! name, '/' ∉ name ∧ ((name, m) ∈ rollup.files ∨
      name ∈ rollup.folders ∧ ∃ rest, m.key = pre ++ name ++ '/' :: rest) := by
  have hfiles : ∀ {name}, (name, m) ∈ rollup.files → relative = name := fun {name} hfile =>
    List.append_cancel_left (hkey.symm.trans ((h.mem_files name m).mp hfile).2.1)
  have hbelow : ∀ {name rest}, m.key = pre ++ name ++ '/' :: rest → relative = name ++ '/' :: rest := by
    intro name rest hbelow
    rw [List.append_assoc] at hbelow
    exact List.append_cancel_left (hkey.symm.trans hbelow)
  cases hsplit : Text.splitOnce '/' relative with
  | none =>
    have hname := Text.splitOnce_eq_none.mp hsplit
    refine ⟨relative, ⟨hname, Or.inl ((h.mem_files relative m).mpr ⟨hm, hkey, hne, hname⟩)⟩, ?_⟩
    rintro other ⟨hother, hfile | ⟨-, rest, hrest⟩⟩
    · exact (hfiles hfile).symm
    · rw [hbelow hrest] at hname
      exact absurd (by simp) hname
  | some split =>
    obtain ⟨name, rest⟩ := split
    obtain ⟨hrelative, hname⟩ := Text.splitOnce_eq_some.mp hsplit
    have hkey' : m.key = pre ++ name ++ '/' :: rest := by rw [hkey, hrelative, List.append_assoc]
    refine ⟨name, ⟨hname, Or.inr ⟨(h.mem_folders name).mpr ⟨hname, m, hm, rest, hkey'⟩, rest, hkey'⟩⟩, ?_⟩
    rintro other ⟨hother, hfile | ⟨-, rest', hrest⟩⟩
    · rw [← hfiles hfile, hrelative] at hother
      exact absurd (by simp) hother
    · exact append_slash_inj ((hbelow hrest).symm.trans hrelative) hother hname

theorem LevelOf.insertObject (h : rollup.LevelOf pre seen) (hnew : ∀ m' ∈ seen, m'.key ≠ m.key) :
    (rollup.insertObject pre m).LevelOf pre (seen ++ [m]) := by
  unfold Rollup.insertObject
  split
  · next hstrip =>
    refine h.skip fun rest hkey => ?_
    rw [hkey, Text.stripPrefix_append] at hstrip
    cases hstrip
  · next hstrip =>
    refine h.skip fun rest hkey => ?_
    rw [hkey, Text.stripPrefix_append] at hstrip
    exact Option.some.inj hstrip
  · next relative hne hstrip =>
    have hkey := Text.stripPrefix_eq_some.mp hstrip
    split
    · next folder rest hsplit =>
      obtain ⟨rfl, hfolder⟩ := Text.splitOnce_eq_some.mp hsplit
      exact h.folder hkey hfolder
    · next hsplit => exact h.file hkey hne (Text.splitOnce_eq_none.mp hsplit) hnew

theorem LevelOf.foldl (h : rollup.LevelOf pre seen)
    (hsorted : (seen ++ objects).Pairwise fun m m' => m.key < m'.key) :
    (objects.foldl (Rollup.insertObject pre) rollup).LevelOf pre (seen ++ objects) := by
  induction objects generalizing rollup seen with
  | nil => simpa using h
  | cons m rest ih =>
    have hnew : ∀ m' ∈ seen, m'.key ≠ m.key := fun m' hm' =>
      ((List.pairwise_append.mp hsorted).2.2 m' hm' m List.mem_cons_self).ne
    rw [List.append_cons] at hsorted ⊢
    exact ih (h.insertObject hnew) hsorted

end Rollup

/-- A sorted listing is rolled up into the level directly under the prefix. -/
theorem rollUp_levelOf {objects : List ObjectMeta} (pre : Text)
    (hsorted : objects.Pairwise fun m m' => m.key < m'.key) : (rollUp objects pre).LevelOf pre objects :=
  Rollup.levelOf_nil.foldl hsorted
