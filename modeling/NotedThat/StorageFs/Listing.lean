-- SUMMARY: Listing a knowledge base's directory: a lazy depth-first walk in key order, and its pages.
import NotedThat.Lib.ByteOrder
import NotedThat.Core.Storage
import NotedThat.StorageFs.Layout
import Mathlib.Algebra.BigOperators.Group.List.Basic
import Mathlib.Algebra.Order.BigOperators.Group.List
import Mathlib.Data.Prod.Lex

/-!
# Listings of the filesystem store

A directory is read when the walk reaches it, and its entries are visited in the order of their
names, a directory as its name with `/` appended. So `a-b` comes before what is in `a`, as the keys
do. A page resumes behind its cursor and leaves out subtrees that cannot match. Symbolic links and
other special files are skipped like files that do not exist, so a tree has none.
-/

namespace StorageFs

/-- What `lstat` tells of a file. -/
structure FileStat where
  size : Nat
  modified : Option Int

/-- A tree of the storage root that is held still. No name is empty, and none has a slash. -/
structure StillTree where
  tree : FileTree Bytes
  plainNames : ∀ path ∈ tree.entries.keys, ∀ name ∈ path, name ≠ [] ∧ 0x2F ∉ name
  stat : FsPath → FileStat

/-- One file found by the walk. -/
structure Found where
  key : Text
  size : Nat
  lastModified : Option Int
deriving DecidableEq

structure Entry where
  path : FsPath
  key : Text
  isDir : Bool

/-! ## The walk -/

/-- What a directory entry is to the walk, with the text it is sorted by. -/
def readEntry (bucketDir dir : FsPath) : FsPath × FileKind → Option (Text × Entry)
  | (path, kind) =>
    match path.getLast? with
    | none => none
    | some name =>
      if path.dropLast = dir then
        match Utf8.decode? name with
        | none => none
        | some name =>
          if tempPrefix <+: name then none
          else
            match keyFromPath bucketDir path with
            | none => none
            | some key =>
              some (if kind = .dir then name ++ ['/'] else name, ⟨path, key, kind = .dir⟩)
      else none

/-- The entries of one directory, sorted. -/
def sortedLevel (disk : StillTree) (bucketDir dir : FsPath) : List (Text × Entry) :=
  (disk.tree.entries.entries.filterMap (readEntry bucketDir dir)).mergeSort fun a b => a.1 ≤ b.1

/-- One directory, in the order its entries are visited. -/
def readLevel (disk : StillTree) (bucketDir dir : FsPath) : List Entry :=
  (sortedLevel disk bucketDir dir).map Prod.snd

/-- Could any key under the directory `dirKey` still match? -/
def subtreeMayMatch (dirKey : Text) (after pre : Option Text) : Bool :=
  let stem := dirKey ++ ['/']
  if pre.any fun pre => ¬ pre <+: stem ∧ ¬ stem <+: pre then false
  else if after.any fun after => stem ≤ after ∧ ¬ stem <+: after then false
  else true

/-- How much lies at or below a path. -/
def StillTree.below (disk : StillTree) (path : FsPath) : Nat :=
  disk.tree.entries.keys.countP fun other => path <+: other

/-- What is left to visit. Reading a directory takes from the first part; an entry or a level that is
done, from the second. -/
def StillTree.weight (disk : StillTree) (stack : List (List Entry)) : Nat × Nat :=
  ((stack.flatten.map fun entry => disk.below entry.path).sum,
    2 * stack.flatten.length + stack.length)

theorem mem_readEntry {bucketDir dir : FsPath} {e : FsPath × FileKind} {sorted : Text × Entry} :
    readEntry bucketDir dir e = some sorted ↔
      ∃ name text key, e.1 = dir ++ [name] ∧ Utf8.decode? name = some text ∧ ¬ tempPrefix <+: text ∧
        keyFromPath bucketDir e.1 = some key ∧
        sorted = (if e.2 = .dir then text ++ ['/'] else text, ⟨e.1, key, e.2 = .dir⟩) := by
  obtain ⟨path, kind⟩ := e
  unfold readEntry
  rcases List.eq_nil_or_concat path with rfl | ⟨above, name, rfl⟩
  · simp
  simp only [List.concat_eq_append, List.getLast?_concat, List.dropLast_concat]
  by_cases hdir : above = dir
  · subst hdir
    cases htext : Utf8.decode? name with
    | none => simp [htext]
    | some text =>
      cases hkey : keyFromPath bucketDir (above ++ [name]) with
      | none => simp
      | some key =>
        by_cases htemp : tempPrefix <+: text
        · simp [htemp, htext]
        · simp [htemp, htext, eq_comm]
  · simp [hdir]

section

variable {disk : StillTree} {bucketDir dir : FsPath} {sorted : Text × Entry} {entry : Entry}

theorem mem_sortedLevel : sorted ∈ sortedLevel disk bucketDir dir ↔
    ∃ name text kind, (dir ++ [name], kind) ∈ disk.tree ∧ Utf8.decode? name = some text ∧
      ¬ tempPrefix <+: text ∧ keyFromPath bucketDir (dir ++ [name]) = some sorted.2.key ∧
      sorted.2.path = dir ++ [name] ∧ sorted.2.isDir = decide (kind = .dir) ∧
      sorted.1 = if kind = .dir then text ++ ['/'] else text := by
  unfold sortedLevel
  rw [List.mem_mergeSort, List.mem_filterMap]
  constructor
  · rintro ⟨⟨path, kind⟩, hmem, h⟩
    obtain ⟨name, text, key, rfl, htext, htemp, hkey, rfl⟩ := mem_readEntry.mp h
    exact ⟨name, text, kind, hmem, htext, htemp, hkey, rfl, rfl, rfl⟩
  · rintro ⟨name, text, kind, hmem, htext, htemp, hkey, hpath, hdir, htextkey⟩
    refine ⟨_, hmem, mem_readEntry.mpr ⟨name, text, sorted.2.key, rfl, htext, htemp, hkey, ?_⟩⟩
    obtain ⟨sortKey, path, key, isDir⟩ := sorted
    simp only at hpath hdir htextkey
    rw [hpath, hdir, htextkey]

theorem sortedLevel_sorted : (sortedLevel disk bucketDir dir).Pairwise fun a b => a.1 ≤ b.1 := by
  refine (List.pairwise_mergeSort ?_ ?_ _).imp of_decide_eq_true
  · intro a b c hab hbc
    exact decide_eq_true (le_trans (of_decide_eq_true hab) (of_decide_eq_true hbc))
  · intro a b
    rw [Bool.or_eq_true, decide_eq_true_eq, decide_eq_true_eq]
    exact le_total _ _

theorem sortedLevel_paths_nodup :
    ((sortedLevel disk bucketDir dir).map fun sorted => sorted.2.path).Nodup := by
  unfold sortedLevel
  refine ((List.mergeSort_perm _ _).map _).nodup_iff.mpr ?_
  rw [List.Nodup, List.pairwise_map, List.pairwise_filterMap]
  have hkeys := disk.tree.entries.nodup
  rw [List.Nodup, List.pairwise_map] at hkeys
  refine hkeys.imp fun hne a ha b hb heq => hne ?_
  obtain ⟨_, _, _, -, -, -, -, rfl⟩ := mem_readEntry.mp ha
  obtain ⟨_, _, _, -, -, -, -, rfl⟩ := mem_readEntry.mp hb
  exact heq

/-! ## The walk ends -/

/-- Of the names in one directory, at most one is on the way to a path below it. -/
theorem countP_children_le {paths : List FsPath} (hnodup : paths.Nodup)
    (hchild : ∀ path ∈ paths, ∃ name, path = dir ++ [name]) (other : FsPath) :
    paths.countP (fun path => path <+: other) ≤ if dir <+: other ∧ other ≠ dir then 1 else 0 := by
  by_cases hon : ∃ path ∈ paths, path <+: other
  · obtain ⟨path, hpath, hle⟩ := hon
    obtain ⟨name, rfl⟩ := hchild path hpath
    have hbelow : dir <+: other ∧ other ≠ dir := by
      refine ⟨(List.prefix_append dir [name]).trans hle, ?_⟩
      rintro rfl
      have hlen := hle.length_le
      rw [List.length_append, List.length_singleton] at hlen
      omega
    rw [if_pos hbelow]
    refine Nat.le_trans (List.countP_mono_left fun path' hpath' hle' => ?_)
      (List.nodup_iff_count_le_one.mp hnodup (dir ++ [name]))
    obtain ⟨name', rfl⟩ := hchild path' hpath'
    have hle' := List.prefix_of_prefix_length_le (of_decide_eq_true hle') hle (by simp)
    exact beq_iff_eq.mpr (hle'.eq_of_length (by simp))
  · rw [List.countP_eq_zero.mpr fun path hpath hle => hon ⟨path, hpath, of_decide_eq_true hle⟩]
    exact Nat.zero_le _

theorem sum_countP_cons (paths keys : List FsPath) (other : FsPath) :
    (paths.map fun path => (other :: keys).countP fun key => path <+: key).sum =
      (paths.map fun path => keys.countP fun key => path <+: key).sum +
        paths.countP fun path => path <+: other := by
  induction paths with
  | nil => rfl
  | cons path paths ih =>
    rw [List.map_cons, List.sum_cons, ih, List.map_cons, List.sum_cons, List.countP_cons,
      List.countP_cons]
    omega

theorem sum_below_children_le {paths : List FsPath} (hnodup : paths.Nodup)
    (hchild : ∀ path ∈ paths, ∃ name, path = dir ++ [name]) (keys : List FsPath) :
    (paths.map fun path => keys.countP fun key => path <+: key).sum ≤
      keys.countP fun key => dir <+: key ∧ key ≠ dir := by
  induction keys with
  | nil => simp
  | cons other keys ih =>
    rw [sum_countP_cons, List.countP_cons]
    refine Nat.add_le_add ih ?_
    simpa using countP_children_le hnodup hchild other

/-- Less lies below the entries of a directory than at or below it, unless it has none. -/
theorem sum_below_readLevel (h : readLevel disk bucketDir dir ≠ []) :
    ((readLevel disk bucketDir dir).map fun entry => disk.below entry.path).sum < disk.below dir := by
  have hchild : ∀ path ∈ (sortedLevel disk bucketDir dir).map fun sorted => sorted.2.path,
      ∃ name, path = dir ++ [name] := by
    intro path hpath
    obtain ⟨sorted, hsorted, rfl⟩ := List.mem_map.mp hpath
    obtain ⟨name, -, -, -, -, -, -, hpath, -⟩ := mem_sortedLevel.mp hsorted
    exact ⟨name, hpath⟩
  have hsum := sum_below_children_le sortedLevel_paths_nodup hchild disk.tree.entries.keys
  have hdir : dir ∈ disk.tree.entries.keys := by
    obtain ⟨entry, hentry⟩ := List.exists_mem_of_ne_nil _ h
    obtain ⟨sorted, hsorted, -⟩ := List.mem_map.mp hentry
    obtain ⟨name, -, kind, hmem, -⟩ := mem_sortedLevel.mp hsorted
    exact FileTree.exists_iff.mpr ⟨_, disk.tree.closed _ _ _ hmem⟩
  have hstrict : (disk.tree.entries.keys.countP fun key => dir <+: key ∧ key ≠ dir) <
      disk.below dir := by
    obtain ⟨before, after, heq⟩ := List.append_of_mem hdir
    have hmono : ∀ keys : List FsPath, (keys.countP fun key => dir <+: key ∧ key ≠ dir) ≤
        keys.countP fun key => dir <+: key := fun keys =>
      List.countP_mono_left fun key _ h => decide_eq_true (of_decide_eq_true h).1
    have hbefore := hmono before
    have hafter := hmono after
    unfold StillTree.below
    rw [heq, List.countP_append, List.countP_append, List.countP_cons, List.countP_cons,
      if_neg (by simp), if_pos (by simp)]
    omega
  refine Nat.lt_of_le_of_lt ?_ hstrict
  rw [List.map_map] at hsum
  rw [readLevel, List.map_map]
  exact hsum

end

namespace StillTree

variable (disk : StillTree) (entry : Entry) (level : List Entry) (stack : List (List Entry))

/-- A level that is done. -/
theorem weight_pop : Prod.Lex (· < ·) (· < ·) (disk.weight stack) (disk.weight ([] :: stack)) :=
  .right _ (by simp)

/-- An entry that is passed. -/
theorem weight_skip :
    Prod.Lex (· < ·) (· < ·) (disk.weight (level :: stack)) (disk.weight ((entry :: level) :: stack)) := by
  unfold weight
  simp only [List.flatten_cons, List.cons_append, List.map_cons, List.sum_cons, List.length_cons]
  rcases Nat.eq_zero_or_pos (disk.below entry.path) with hzero | hpos
  · rw [hzero, Nat.zero_add]
    exact .right _ (by omega)
  · exact .left _ _ (by omega)

/-- A directory that is read. -/
theorem weight_push (bucketDir : FsPath) : Prod.Lex (· < ·) (· < ·)
    (disk.weight (readLevel disk bucketDir entry.path :: level :: stack))
    (disk.weight ((entry :: level) :: stack)) := by
  by_cases hempty : readLevel disk bucketDir entry.path = []
  · rw [hempty]
    unfold weight
    simp only [List.flatten_cons, List.nil_append, List.cons_append, List.map_cons, List.sum_cons,
      List.length_cons]
    rcases Nat.eq_zero_or_pos (disk.below entry.path) with hzero | hpos
    · rw [hzero, Nat.zero_add]
      exact .right _ (by omega)
    · exact .left _ _ (by omega)
  · have hsum := sum_below_readLevel hempty
    unfold weight
    simp only [List.flatten_cons, List.cons_append, List.map_append, List.sum_append, List.map_cons,
      List.sum_cons]
    exact .left _ _ (by omega)

end StillTree

/-- Advance to the next file whose key is greater than `after` and starts with `pre`, skipping
subtrees that cannot contain a match. The innermost level comes first. -/
def nextMatch (disk : StillTree) (bucketDir : FsPath) (after pre : Option Text) :
    List (List Entry) → Option (Found × List (List Entry))
  | [] => none
  | [] :: stack => nextMatch disk bucketDir after pre stack
  | (entry :: level) :: stack =>
    if entry.isDir then
      if subtreeMayMatch entry.key after pre then
        nextMatch disk bucketDir after pre
          (readLevel disk bucketDir entry.path :: level :: stack)
      else nextMatch disk bucketDir after pre (level :: stack)
    else if after.any fun after => entry.key ≤ after then
      nextMatch disk bucketDir after pre (level :: stack)
    else if pre.any fun pre => ¬ pre <+: entry.key then
      nextMatch disk bucketDir after pre (level :: stack)
    else
      let stat := disk.stat entry.path
      some (⟨entry.key, stat.size, stat.modified⟩, level :: stack)
termination_by stack => disk.weight stack
decreasing_by
  · exact disk.weight_pop stack
  · exact disk.weight_push entry level stack bucketDir
  · exact disk.weight_skip entry level stack
  · exact disk.weight_skip entry level stack
  · exact disk.weight_skip entry level stack

/-! ## Objects -/

/-- The names are UTF-8, and none is that of a file that is still being written. -/
def Segments (rel : FsPath) (segments : List Text) : Prop :=
  rel.mapM Utf8.decode? = some segments ∧ ∀ segment ∈ segments, ¬ tempPrefix <+: segment

theorem segments_nil {segments : List Text} : Segments [] segments ↔ segments = [] := by
  constructor
  · rintro ⟨h, -⟩
    exact (Option.some.inj h).symm
  · rintro rfl
    exact ⟨rfl, fun _ h => absurd h List.not_mem_nil⟩

theorem segments_append {rel rest : FsPath} {segments : List Text} : Segments (rel ++ rest) segments ↔
    ∃ above below, segments = above ++ below ∧ Segments rel above ∧ Segments rest below := by
  unfold Segments
  rw [List.mapM_append]
  constructor
  · rintro ⟨h, htemp⟩
    obtain ⟨above, habove, below, hbelow, rfl⟩ : ∃ above, rel.mapM Utf8.decode? = some above ∧
        ∃ below, rest.mapM Utf8.decode? = some below ∧ above ++ below = segments := by
      simpa [Option.bind_eq_some_iff] using h
    exact ⟨above, below, rfl, ⟨habove, fun s hs => htemp s (List.mem_append_left _ hs)⟩,
      ⟨hbelow, fun s hs => htemp s (List.mem_append_right _ hs)⟩⟩
  · rintro ⟨above, below, rfl, ⟨habove, htemp⟩, hbelow, htemp'⟩
    refine ⟨by simp [habove, hbelow], fun s hs => ?_⟩
    exact (List.mem_append.mp hs).elim (htemp s) (htemp' s)

theorem segments_singleton {name : Bytes} {segments : List Text} : Segments [name] segments ↔
    ∃ text, segments = [text] ∧ Utf8.decode? name = some text ∧ ¬ tempPrefix <+: text := by
  unfold Segments
  cases htext : Utf8.decode? name with
  | none => simp [htext]
  | some text =>
    simp only [List.mapM_cons, htext, List.mapM_nil]
    constructor
    · rintro ⟨h, htemp⟩
      obtain rfl : [text] = segments := Option.some.inj h
      exact ⟨text, rfl, rfl, htemp text List.mem_cons_self⟩
    · rintro ⟨_, rfl, heq, htemp⟩
      cases heq
      refine ⟨rfl, fun s hs => ?_⟩
      rwa [List.mem_singleton.mp hs]

theorem Segments.ne_nil {rel : FsPath} {segments : List Text} (h : Segments rel segments)
    (hrel : rel ≠ []) : segments ≠ [] := by
  rintro rfl
  obtain ⟨name, rest, rfl⟩ := List.exists_cons_of_ne_nil hrel
  rw [← List.singleton_append] at h
  obtain ⟨above, below, heq, habove, -⟩ := segments_append.mp h
  obtain ⟨text, rfl, -⟩ := segments_singleton.mp habove
  simp at heq

section

variable (disk : StillTree) (bucketDir : FsPath)

/-- A file of the bucket that is an object, and its key. -/
def IsObject (path : FsPath) (key : Text) : Prop :=
  (path, .file) ∈ disk.tree ∧ ∃ rel segments, path = bucketDir ++ rel ∧ Segments rel segments ∧
    segments ≠ [] ∧ key = ['/'].intercalate segments

/-- The entry says what is at its path. -/
def Entry.Sound (entry : Entry) : Prop :=
  ∃ rel segments kind, entry.path = bucketDir ++ rel ∧ (entry.path, kind) ∈ disk.tree ∧
    Segments rel segments ∧ segments ≠ [] ∧ entry.key = ['/'].intercalate segments ∧
    entry.isDir = decide (kind = .dir)

/-- The object is at the entry, or below it. -/
def Entry.Holds (entry : Entry) (path : FsPath) (key : Text) : Prop :=
  IsObject disk bucketDir path key ∧ entry.path <+: path

/-- The keys of the first entry all come before those of the second. -/
def Entry.Before (entry entry' : Entry) : Prop :=
  ∀ path key path' key', entry.Holds disk bucketDir path key → entry'.Holds disk bucketDir path' key' →
    key < key'

end

section

variable {disk : StillTree} {bucketDir : FsPath} {entry : Entry} {path rel : FsPath} {key : Text}
variable {segments : List Text}

theorem Entry.Sound.holds_file (h : entry.Sound disk bucketDir) (hfile : entry.isDir = false) :
    entry.Holds disk bucketDir path key ↔ path = entry.path ∧ key = entry.key := by
  obtain ⟨rel, segments, kind, hpath, hmem, hsegments, hne, hkey, hdir⟩ := h
  rw [hdir, decide_eq_false_iff_not] at hfile
  constructor
  · rintro ⟨⟨hobject, rel', segments', rfl, hsegments', -, rfl⟩, hle⟩
    rcases FileTree.eq_or_dir_above hobject hle with heq | hdir
    · rw [hpath] at heq
      obtain rfl := List.append_cancel_left heq
      obtain rfl : segments = segments' := Option.some.inj (hsegments.1.symm.trans hsegments'.1)
      exact ⟨hpath.symm, hkey.symm⟩
    · exact absurd (FileTree.kind_unique hmem hdir) hfile
  · rintro ⟨rfl, rfl⟩
    have hkind : kind = .file := by
      cases kind with
      | file => rfl
      | dir => exact absurd rfl hfile
    exact ⟨⟨hkind ▸ hmem, rel, segments, hpath, hsegments, hne, hkey⟩, List.prefix_rfl⟩

/-- A directory holds only keys that extend its own with `/`. -/
theorem Entry.Sound.holds_dir (h : entry.Sound disk bucketDir) (hdir : entry.isDir = true)
    (hholds : entry.Holds disk bucketDir path key) : path ≠ entry.path ∧ entry.key ++ ['/'] <+: key := by
  obtain ⟨rel, segments, kind, hpath, hmem, hsegments, hne, hkey, hkind⟩ := h
  obtain ⟨⟨hobject, rel', segments', rfl, hsegments', -, rfl⟩, hle⟩ := hholds
  rw [hkind, decide_eq_true_eq] at hdir
  subst hdir
  have hstrict : bucketDir ++ rel' ≠ entry.path := by
    intro heq
    rw [heq] at hobject
    cases FileTree.kind_unique hobject hmem
  refine ⟨hstrict, ?_⟩
  rw [hpath] at hle hstrict
  obtain ⟨rest, rfl⟩ := (List.prefix_append_right_inj bucketDir).mp hle
  have hrest : rest ≠ [] := by
    rintro rfl
    simp at hstrict
  obtain ⟨above, below, rfl, habove, hbelow⟩ := segments_append.mp hsegments'
  obtain rfl : segments = above := Option.some.inj (hsegments.1.symm.trans habove.1)
  rw [hkey, Text.intercalate_append hne (hbelow.ne_nil hrest)]
  exact List.prefix_append _ _

/-- What an entry of a directory is, and by which text it is sorted. -/
theorem mem_level (h : Segments rel segments) {sorted : Text × Entry}
    (hmem : sorted ∈ sortedLevel disk bucketDir (bucketDir ++ rel)) :
    ∃ text kind, sorted.2.path = bucketDir ++ (rel ++ [Utf8.encode text]) ∧
      (sorted.2.path, kind) ∈ disk.tree ∧
      Segments (rel ++ [Utf8.encode text]) (segments ++ [text]) ∧ '/' ∉ text ∧
      sorted.2.key = ['/'].intercalate (segments ++ [text]) ∧ sorted.2.isDir = decide (kind = .dir) ∧
      sorted.1 = if kind = .dir then text ++ ['/'] else text := by
  obtain ⟨name, text, kind, hmem, htext, htemp, hkey, hpath, hdir, hsort⟩ := mem_sortedLevel.mp hmem
  obtain rfl := Utf8.decode?_eq_some.mp htext
  have hsegments : Segments (rel ++ [Utf8.encode text]) (segments ++ [text]) :=
    segments_append.mpr ⟨_, _, rfl, h, segments_singleton.mpr ⟨text, rfl, htext, htemp⟩⟩
  refine ⟨text, kind, by rw [hpath, List.append_assoc], hpath ▸ hmem, hsegments, ?_, ?_, hdir, hsort⟩
  · intro hslash
    have hplain := disk.plainNames _ (FileTree.exists_iff.mpr ⟨_, hmem⟩) (Utf8.encode text) (by simp)
    refine hplain.2 (List.mem_flatMap.mpr ⟨'/', hslash, ?_⟩)
    decide
  · rw [List.append_assoc] at hkey
    obtain ⟨segments', hsegments', -, hkey⟩ := keyFromPath_append.mp hkey
    rw [hkey, Option.some.inj (hsegments.1.symm.trans hsegments')]

theorem sound_readLevel (h : Segments rel segments)
    (hmem : entry ∈ readLevel disk bucketDir (bucketDir ++ rel)) : entry.Sound disk bucketDir := by
  obtain ⟨sorted, hsorted, rfl⟩ := List.mem_map.mp hmem
  obtain ⟨text, kind, hpath, hmem, hsegments, -, hkey, hdir, -⟩ := mem_level h hsorted
  exact ⟨_, _, kind, hpath, hmem, hsegments, by simp, hkey, hdir⟩

/-- The entries of a directory hold what is below it. -/
theorem holds_readLevel (h : Segments rel segments) :
    (∃ entry ∈ readLevel disk bucketDir (bucketDir ++ rel), entry.Holds disk bucketDir path key) ↔
      IsObject disk bucketDir path key ∧ bucketDir ++ rel <+: path ∧ path ≠ bucketDir ++ rel := by
  constructor
  · rintro ⟨entry, hmem, hobject, hle⟩
    obtain ⟨sorted, hsorted, rfl⟩ := List.mem_map.mp hmem
    obtain ⟨text, kind, hpath, -⟩ := mem_level h hsorted
    rw [hpath, ← List.append_assoc] at hle
    refine ⟨hobject, (List.prefix_append _ _).trans hle, ?_⟩
    rintro rfl
    have hlen := hle.length_le
    simp at hlen
  · rintro ⟨hobject, ⟨rest, rfl⟩, hne⟩
    have hrest : rest ≠ [] := by
      rintro rfl
      simp at hne
    obtain ⟨name, rest, rfl⟩ := List.exists_cons_of_ne_nil hrest
    obtain ⟨hfile, rel', segments', heq, hsegments', hne', rfl⟩ := id hobject
    rw [List.append_assoc] at heq
    obtain rfl := List.append_cancel_left heq
    rw [← List.singleton_append, ← List.append_assoc] at hsegments'
    obtain ⟨above, below, rfl, habove, hbelow⟩ := segments_append.mp hsegments'
    obtain ⟨segments'', names, rfl, hsegments'', hname⟩ := segments_append.mp habove
    obtain rfl : segments = segments'' := Option.some.inj (h.1.symm.trans hsegments''.1)
    obtain ⟨text, rfl, htext, htemp⟩ := segments_singleton.mp hname
    have hle : bucketDir ++ rel ++ [name] <+: bucketDir ++ rel ++ name :: rest := ⟨rest, by simp⟩
    obtain ⟨kind, hkind⟩ := FileTree.exists_iff.mp (FileTree.exists_above hfile hle)
    have hkey : keyFromPath bucketDir (bucketDir ++ rel ++ [name]) =
        some (['/'].intercalate (segments ++ [text])) := by
      rw [List.append_assoc]
      exact keyFromPath_append.mpr ⟨_, habove.1, by simp, rfl⟩
    refine ⟨⟨bucketDir ++ rel ++ [name], ['/'].intercalate (segments ++ [text]), kind = .dir⟩,
      List.mem_map.mpr ⟨(if kind = .dir then text ++ ['/'] else text, _),
        mem_sortedLevel.mpr ⟨name, text, kind, hkind, htext, htemp, hkey, rfl, rfl, rfl⟩, rfl⟩,
      hobject, hle⟩

/-- How every key in a directory begins. -/
def stem (segments : List Text) : Text :=
  if segments = [] then [] else ['/'].intercalate segments ++ ['/']

theorem intercalate_stem (segments : List Text) (text : Text) (rest : List Text) :
    ['/'].intercalate (segments ++ text :: rest) =
      stem segments ++ (text ++ if rest = [] then [] else '/' :: ['/'].intercalate rest) := by
  have htail : ['/'].intercalate (text :: rest) =
      text ++ if rest = [] then [] else '/' :: ['/'].intercalate rest := by
    split
    · next h => simp [h]
    · next h => simp [List.intercalate_cons_of_ne_nil h]
  unfold stem
  split
  · next h => rw [h, List.nil_append, List.nil_append, htail]
  · next h => rw [Text.intercalate_append h (List.cons_ne_nil _ _), htail]

/-- A key at or below an entry continues the text the entry is sorted by. -/
theorem key_of_holds (h : Segments rel segments) {sorted : Text × Entry}
    (hmem : sorted ∈ sortedLevel disk bucketDir (bucketDir ++ rel))
    (hholds : sorted.2.Holds disk bucketDir path key) :
    ∃ rest, key = stem segments ++ (sorted.1 ++ rest) ∧ (sorted.2.isDir = false → rest = []) := by
  have hsound : sorted.2.Sound disk bucketDir :=
    sound_readLevel h (List.mem_map.mpr ⟨sorted, hmem, rfl⟩)
  obtain ⟨text, kind, -, -, -, -, hkey, hdir, hsort⟩ := mem_level h hmem
  have hstem : sorted.2.key = stem segments ++ text := by
    rw [hkey, intercalate_stem, if_pos rfl, List.append_nil]
  cases kind with
  | file =>
    have hfile : sorted.2.isDir = false := hdir
    obtain ⟨-, rfl⟩ := (hsound.holds_file hfile).mp hholds
    exact ⟨[], by rw [hstem, hsort, List.append_nil, if_neg (by decide)], fun _ => rfl⟩
  | dir =>
    obtain ⟨-, rest, rfl⟩ := hsound.holds_dir hdir hholds
    refine ⟨rest, by rw [hstem, hsort, if_pos rfl]; simp, fun hfile => ?_⟩
    rw [hdir] at hfile
    cases hfile

/-- The texts that two entries of a directory are sorted by decide the order of all their keys. -/
theorem before_of_lt (h : Segments rel segments) {sorted sorted' : Text × Entry}
    (hmem : sorted ∈ sortedLevel disk bucketDir (bucketDir ++ rel))
    (hmem' : sorted' ∈ sortedLevel disk bucketDir (bucketDir ++ rel)) (hlt : sorted.1 < sorted'.1) :
    sorted.2.Before disk bucketDir sorted'.2 := by
  intro path key path' key' hholds hholds'
  obtain ⟨rest, rfl, hfile⟩ := key_of_holds h hmem hholds
  obtain ⟨rest', rfl, -⟩ := key_of_holds h hmem' hholds'
  refine List.append_left_lt ?_
  by_cases hpre : sorted.1 <+: sorted'.1
  · -- only a file's text can begin another's: a directory's ends in the one slash
    obtain ⟨more, hmore⟩ := hpre
    have hne : more ≠ [] := by
      rintro rfl
      rw [List.append_nil] at hmore
      exact absurd hlt (hmore ▸ List.lt_irrefl _)
    have hfile' : sorted.2.isDir = false := by
      obtain ⟨text, kind, -, -, -, -, -, hdir, hsort⟩ := mem_level h hmem
      obtain ⟨text', kind', -, -, -, hslash, -, -, hsort'⟩ := mem_level h hmem'
      cases kind with
      | file => exact hdir
      | dir =>
        obtain ⟨init, last, rfl⟩ := (List.eq_nil_or_concat more).resolve_left hne
        rw [hsort, hsort', if_pos rfl] at hmore
        refine absurd ?_ hslash
        split at hmore
        · rw [List.concat_eq_append, ← List.append_assoc] at hmore
          rw [← (List.append_inj' hmore rfl).1]
          simp
        · rw [← hmore]
          simp
    rw [hfile hfile', List.append_nil, ← hmore, List.append_assoc]
    exact List.lt_append_of_ne_nil (List.append_ne_nil_of_left_ne_nil hne _)
  · exact List.append_lt_append_of_not_prefix hlt hpre

theorem path_of_sort_eq (h : Segments rel segments) {sorted sorted' : Text × Entry}
    (hmem : sorted ∈ sortedLevel disk bucketDir (bucketDir ++ rel))
    (hmem' : sorted' ∈ sortedLevel disk bucketDir (bucketDir ++ rel)) (heq : sorted.1 = sorted'.1) :
    sorted.2.path = sorted'.2.path := by
  obtain ⟨text, kind, hpath, -, -, hslash, -, -, hsort⟩ := mem_level h hmem
  obtain ⟨text', kind', hpath', -, -, hslash', -, -, hsort'⟩ := mem_level h hmem'
  rw [hsort, hsort'] at heq
  have htext : text = text' := by
    split at heq
    · split at heq
      · exact (List.append_inj' heq rfl).1
      · exact absurd (heq ▸ by simp) hslash'
    · split at heq
      · exact absurd (heq ▸ by simp) hslash
      · exact heq
  rw [hpath, hpath', htext]

theorem readLevel_before (h : Segments rel segments) :
    (readLevel disk bucketDir (bucketDir ++ rel)).Pairwise (Entry.Before disk bucketDir) := by
  have hpaths : ((sortedLevel disk bucketDir (bucketDir ++ rel)).map fun sorted =>
      sorted.2.path).Nodup := sortedLevel_paths_nodup
  rw [List.Nodup, List.pairwise_map] at hpaths
  rw [readLevel, List.pairwise_map]
  refine (sortedLevel_sorted.and hpaths).imp_of_mem fun hmem hmem' hle => ?_
  refine before_of_lt h hmem hmem' (lt_of_le_of_ne hle.1 fun heq => hle.2 ?_)
  exact path_of_sort_eq h hmem hmem' heq

/-! ## What the walk finds -/

/-- The key lies behind the cursor and starts with the prefix. -/
def Matches (after pre : Option Text) (key : Text) : Prop :=
  (∀ a ∈ after, a < key) ∧ ∀ p ∈ pre, p <+: key

variable {after pre : Option Text} {level : List Entry} {stack stack' : List (List Entry)}

/-- A key matches when neither test of the walk passes it by. -/
theorem matches_iff : Matches after pre key ↔ ¬ (after.any fun a => key ≤ a) = true ∧
    ¬ (pre.any fun p => ¬ p <+: key) = true := by
  unfold Matches
  refine and_congr ?_ ?_
  · cases after with
    | none => simp
    | some a => simp
  · cases pre with
    | none => simp
    | some p => simp

/-- No directory is passed by that holds a key which matches. -/
theorem subtreeMayMatch_of_matches {dirKey : Text} (hkey : dirKey ++ ['/'] <+: key)
    (h : Matches after pre key) : subtreeMayMatch dirKey after pre = true := by
  have hpre : ¬ (pre.any fun p => ¬ p <+: dirKey ++ ['/'] ∧ ¬ dirKey ++ ['/'] <+: p) = true := by
    cases pre with
    | none => exact Bool.false_ne_true
    | some p =>
      rw [Option.any_some, decide_eq_true_eq]
      rintro ⟨hout, hout'⟩
      exact (List.prefix_or_prefix_of_prefix (h.2 p rfl) hkey).elim hout hout'
  have hafter : ¬ (after.any fun a => dirKey ++ ['/'] ≤ a ∧ ¬ dirKey ++ ['/'] <+: a) = true := by
    cases after with
    | none => exact Bool.false_ne_true
    | some a =>
      rw [Option.any_some, decide_eq_true_eq]
      rintro ⟨hle, hout⟩
      -- the cursor is behind the stem and not in the subtree, so behind all of it
      have hlt : dirKey ++ ['/'] < a := lt_of_le_of_ne hle fun heq => hout (heq ▸ List.prefix_rfl)
      obtain ⟨rest, rfl⟩ := hkey
      have hbehind := List.append_lt_append_of_not_prefix (x := rest) (y := []) hlt hout
      rw [List.append_nil] at hbehind
      exact lt_asymm hbehind (h.1 a rfl)
  unfold subtreeMayMatch
  dsimp only
  rw [if_neg hpre, if_neg hafter]

/-- The object is still to be visited. -/
def Left (disk : StillTree) (bucketDir : FsPath) (stack : List (List Entry)) (path : FsPath)
    (key : Text) : Prop := ∃ entry ∈ stack.flatten, entry.Holds disk bucketDir path key

/-- What is still to be visited is there, and in the order of its keys. -/
structure WalkOk (disk : StillTree) (bucketDir : FsPath) (stack : List (List Entry)) : Prop where
  sound : ∀ entry ∈ stack.flatten, entry.Sound disk bucketDir
  ordered : stack.flatten.Pairwise (Entry.Before disk bucketDir)

theorem WalkOk.skip (h : WalkOk disk bucketDir ((entry :: level) :: stack)) :
    WalkOk disk bucketDir (level :: stack) :=
  ⟨fun other hother => h.sound other (List.mem_cons_of_mem _ hother), h.ordered.of_cons⟩

/-- Reading a directory leaves the same to be visited. -/
theorem WalkOk.push (h : WalkOk disk bucketDir ((entry :: level) :: stack))
    (hdir : entry.isDir = true) :
    WalkOk disk bucketDir (readLevel disk bucketDir entry.path :: level :: stack) ∧
      ∀ path key, Left disk bucketDir (readLevel disk bucketDir entry.path :: level :: stack) path key ↔
        Left disk bucketDir ((entry :: level) :: stack) path key := by
  have hsound : entry.Sound disk bucketDir := h.sound entry List.mem_cons_self
  obtain ⟨rel, segments, kind, hpath, -, hsegments, -⟩ := id hsound
  have hholds : ∀ path key, (∃ child ∈ readLevel disk bucketDir entry.path,
      child.Holds disk bucketDir path key) ↔ entry.Holds disk bucketDir path key := by
    intro path key
    rw [hpath, holds_readLevel hsegments, ← hpath]
    exact ⟨fun h => ⟨h.1, h.2.1⟩, fun h => ⟨h.1, h.2, (hsound.holds_dir hdir h).1⟩⟩
  refine ⟨⟨fun other hother => ?_, ?_⟩, fun path key => ?_⟩
  · rcases List.mem_append.mp hother with hother | hother
    · exact sound_readLevel hsegments (hpath ▸ hother)
    · exact h.sound other (List.mem_cons_of_mem _ hother)
  · refine List.pairwise_append.mpr ⟨hpath ▸ readLevel_before hsegments, h.ordered.of_cons, ?_⟩
    intro child hchild other hother path key path' key' hheld hheld'
    exact List.rel_of_pairwise_cons h.ordered hother path key path' key'
      ((hholds path key).mp ⟨child, hchild, hheld⟩) hheld'
  · unfold Left
    rw [List.flatten_cons, List.flatten_cons]
    change (∃ other ∈ _ ++ _, _) ↔ ∃ other ∈ entry :: (level ++ stack.flatten), _
    simp only [List.mem_append, List.mem_cons, or_and_right, exists_or, exists_eq_left, hholds]

/-- What `nextMatch` answers: that nothing which is left matches, or the first object that does, with
what is left behind it. -/
inductive Finds (disk : StillTree) (bucketDir : FsPath) (after pre : Option Text)
    (stack : List (List Entry)) : Option (Found × List (List Entry)) → Prop where
  | exhausted (h : ∀ path key, Left disk bucketDir stack path key → ¬ Matches after pre key) :
      Finds disk bucketDir after pre stack none
  | found {found : Found} {stack' : List (List Entry)} {path : FsPath}
      (hok : WalkOk disk bucketDir stack') (hobject : IsObject disk bucketDir path found.key)
      (hsize : found.size = (disk.stat path).size)
      (hmodified : found.lastModified = (disk.stat path).modified)
      (hmatches : Matches after pre found.key)
      (hleft : ∀ path' key, Matches after pre key → (Left disk bucketDir stack path' key ↔
        path' = path ∧ key = found.key ∨ Left disk bucketDir stack' path' key))
      (hbehind : ∀ path' key, Left disk bucketDir stack' path' key → found.key < key) :
      Finds disk bucketDir after pre stack (some (found, stack'))

theorem Finds.of_left {found : Option (Found × List (List Entry))}
    (h : Finds disk bucketDir after pre stack' found)
    (hleft : ∀ path key, Matches after pre key →
      (Left disk bucketDir stack path key ↔ Left disk bucketDir stack' path key)) :
    Finds disk bucketDir after pre stack found := by
  cases h with
  | exhausted h =>
    refine .exhausted fun path key hmem hmatches => ?_
    exact h path key ((hleft path key hmatches).mp hmem) hmatches
  | found hok hobject hsize hmodified hmatches hleft' hbehind =>
    refine .found hok hobject hsize hmodified hmatches (fun path' key h => ?_) hbehind
    exact (hleft path' key h).trans (hleft' path' key h)

theorem left_cons (path : FsPath) (key : Text) :
    Left disk bucketDir ((entry :: level) :: stack) path key ↔
      entry.Holds disk bucketDir path key ∨ Left disk bucketDir (level :: stack) path key := by
  change (∃ other ∈ entry :: (level ++ stack.flatten), _) ↔ _ ∨ ∃ other ∈ level ++ stack.flatten, _
  simp only [List.mem_cons, or_and_right, exists_or, exists_eq_left]

/-- Passing an entry by that holds no match. -/
theorem left_skip (h : ∀ path key, entry.Holds disk bucketDir path key → ¬ Matches after pre key)
    (path : FsPath) (key : Text) (hmatches : Matches after pre key) :
    Left disk bucketDir ((entry :: level) :: stack) path key ↔
      Left disk bucketDir (level :: stack) path key := by
  rw [left_cons]
  exact or_iff_right fun hholds => h path key hholds hmatches

theorem nextMatch_finds (hs : WalkOk disk bucketDir stack) :
    Finds disk bucketDir after pre stack (nextMatch disk bucketDir after pre stack) := by
  fun_induction nextMatch disk bucketDir after pre stack with
  | case1 =>
    refine .exhausted ?_
    rintro path key ⟨entry, hentry, -⟩
    exact absurd hentry List.not_mem_nil
  | case2 stack ih => exact (ih ⟨hs.sound, hs.ordered⟩).of_left fun _ _ _ => Iff.rfl
  | case3 entry level stack hdir hmay ih =>
    obtain ⟨hok, hleft⟩ := hs.push hdir
    exact (ih hok).of_left fun path key _ => (hleft path key).symm
  | case4 entry level stack hdir hmay ih =>
    refine (ih hs.skip).of_left (left_skip fun path key hholds hmatches => hmay ?_)
    have hsound := hs.sound entry List.mem_cons_self
    exact subtreeMayMatch_of_matches (hsound.holds_dir hdir hholds).2 hmatches
  | case5 entry level stack hfile hafter ih =>
    refine (ih hs.skip).of_left (left_skip fun path key hholds hmatches => ?_)
    have hsound := hs.sound entry List.mem_cons_self
    obtain ⟨-, rfl⟩ := (hsound.holds_file (Bool.eq_false_of_not_eq_true hfile)).mp hholds
    exact (matches_iff.mp hmatches).1 hafter
  | case6 entry level stack hfile hafter hpre ih =>
    refine (ih hs.skip).of_left (left_skip fun path key hholds hmatches => ?_)
    have hsound := hs.sound entry List.mem_cons_self
    obtain ⟨-, rfl⟩ := (hsound.holds_file (Bool.eq_false_of_not_eq_true hfile)).mp hholds
    exact (matches_iff.mp hmatches).2 hpre
  | case7 entry level stack hfile hafter hpre stat =>
    have hsound := hs.sound entry List.mem_cons_self
    have hholds : ∀ path key, entry.Holds disk bucketDir path key ↔
        path = entry.path ∧ key = entry.key := fun path key =>
      hsound.holds_file (Bool.eq_false_of_not_eq_true hfile)
    have hself : entry.Holds disk bucketDir entry.path entry.key := (hholds _ _).mpr ⟨rfl, rfl⟩
    refine .found hs.skip hself.1 rfl rfl (matches_iff.mpr ⟨hafter, hpre⟩) ?_ ?_
    · intro path key _
      rw [left_cons, hholds]
    · rintro path key ⟨other, hother, hheld⟩
      exact List.rel_of_pairwise_cons hs.ordered hother _ _ _ _ hself hheld

theorem nextMatch_weight {found : Found} (h : nextMatch disk bucketDir after pre stack = some (found, stack')) :
    Prod.Lex (· < ·) (· < ·) (disk.weight stack') (disk.weight stack) := by
  fun_induction nextMatch disk bucketDir after pre stack with
  | case1 => cases h
  | case2 stack ih => exact Prod.Lex.trans (ih h) (disk.weight_pop stack)
  | case3 entry level stack hdir hmay ih =>
    exact Prod.Lex.trans (ih h) (disk.weight_push entry level stack bucketDir)
  | case4 entry level stack hdir hmay ih =>
    exact Prod.Lex.trans (ih h) (disk.weight_skip entry level stack)
  | case5 entry level stack hfile hafter ih =>
    exact Prod.Lex.trans (ih h) (disk.weight_skip entry level stack)
  | case6 entry level stack hfile hafter hpre ih =>
    exact Prod.Lex.trans (ih h) (disk.weight_skip entry level stack)
  | case7 entry level stack hfile hafter hpre stat =>
    cases h
    exact disk.weight_skip entry level stack

end

/-- Everything the walk finds. -/
def listing (disk : StillTree) (bucketDir : FsPath) (after pre : Option Text)
    (stack : List (List Entry)) : List Found :=
  match _h : nextMatch disk bucketDir after pre stack with
  | none => []
  | some (found, stack') => found :: listing disk bucketDir after pre stack'
termination_by disk.weight stack
decreasing_by exact nextMatch_weight _h

/-- The walk from the directory of a knowledge base. -/
def orderedWalk (disk : StillTree) (bucketDir : FsPath) : List (List Entry) :=
  [readLevel disk bucketDir bucketDir]

/-- The loop of `list_objects`: objects up to the limit, and whether there is one past it. -/
def collect (disk : StillTree) (bucketDir : FsPath) (after pre : Option Text) :
    Nat → List (List Entry) → List Found × Bool
  | room, stack =>
    match nextMatch disk bucketDir after pre stack, room with
    | none, _ => ([], false)
    | some _, 0 => ([], true)
    | some (found, stack), room + 1 =>
      let (objects, truncated) := collect disk bucketDir after pre room stack
      (found :: objects, truncated)

section

variable {disk : StillTree} {bucketDir : FsPath} {after pre : Option Text} {found : Found}
variable {stack stack' : List (List Entry)}

theorem listing_of_none (h : nextMatch disk bucketDir after pre stack = none) :
    listing disk bucketDir after pre stack = [] := by
  rw [listing]
  split
  · rfl
  · next heq =>
    rw [h] at heq
    cases heq

theorem listing_of_some (h : nextMatch disk bucketDir after pre stack = some (found, stack')) :
    listing disk bucketDir after pre stack = found :: listing disk bucketDir after pre stack' := by
  rw [listing]
  split
  · next heq =>
    rw [h] at heq
    cases heq
  · next heq =>
    rw [h] at heq
    cases heq
    rfl

/-- What is found at a path: the object there, and what `lstat` tells of it. -/
def FoundAt (disk : StillTree) (path : FsPath) (found : Found) : Prop :=
  found.size = (disk.stat path).size ∧ found.lastModified = (disk.stat path).modified

/-- The walk finds what is left and matches, in the order of the keys. -/
theorem listing_spec (hs : WalkOk disk bucketDir stack) :
    (∀ found, found ∈ listing disk bucketDir after pre stack ↔ Matches after pre found.key ∧
      ∃ path, Left disk bucketDir stack path found.key ∧ FoundAt disk path found) ∧
    (listing disk bucketDir after pre stack).Pairwise fun a b => a.key < b.key := by
  fun_induction listing disk bucketDir after pre stack with
  | case1 stack hnext =>
    have hfinds : Finds disk bucketDir after pre stack _ := nextMatch_finds hs
    rw [hnext] at hfinds
    cases hfinds with
    | exhausted h =>
      refine ⟨fun found => ⟨fun h => absurd h List.not_mem_nil, ?_⟩, .nil⟩
      rintro ⟨hmatches, path, hleft, -⟩
      exact absurd hmatches (h path _ hleft)
  | case2 stack found stack' hnext ih =>
    have hfinds : Finds disk bucketDir after pre stack _ := nextMatch_finds hs
    rw [hnext] at hfinds
    cases hfinds with
    | found hok hobject hsize hmodified hmatches hleft hbehind =>
      obtain ⟨hmem, hsorted⟩ := ih hok
      refine ⟨fun other => ?_, List.pairwise_cons.mpr ⟨fun other hother => ?_, hsorted⟩⟩
      · rw [List.mem_cons, hmem]
        constructor
        · rintro (rfl | ⟨hmatches', path', hleft', hat⟩)
          · exact ⟨hmatches, _, (hleft _ _ hmatches).mpr (.inl ⟨rfl, rfl⟩), hsize, hmodified⟩
          · exact ⟨hmatches', path', (hleft _ _ hmatches').mpr (.inr hleft'), hat⟩
        · rintro ⟨hmatches', path', hleft', hat⟩
          rcases (hleft path' other.key hmatches').mp hleft' with ⟨rfl, hkey⟩ | hleft'
          · left
            obtain ⟨key, size, lastModified⟩ := other
            obtain ⟨key', size', lastModified'⟩ := found
            simp only [FoundAt] at hkey hat hsize hmodified
            rw [hkey, hat.1, hat.2, hsize, hmodified]
          · exact .inr ⟨hmatches', path', hleft', hat⟩
      · obtain ⟨-, path', hleft', -⟩ := (hmem other).mp hother
        exact hbehind path' _ hleft'

/-- A page is the front of the listing, and is cut off when there is more. -/
theorem collect_eq (room : Nat) : collect disk bucketDir after pre room stack =
    ((listing disk bucketDir after pre stack).take room,
      decide (room < (listing disk bucketDir after pre stack).length)) := by
  induction room generalizing stack with
  | zero =>
    unfold collect
    cases hnext : nextMatch disk bucketDir after pre stack with
    | none => simp [listing_of_none hnext]
    | some next => simp [listing_of_some hnext]
  | succ room ih =>
    unfold collect
    cases hnext : nextMatch disk bucketDir after pre stack with
    | none => simp [listing_of_none hnext]
    | some next => simp [listing_of_some hnext, ih]

theorem walkOk_orderedWalk (disk : StillTree) (bucketDir : FsPath) :
    WalkOk disk bucketDir (orderedWalk disk bucketDir) := by
  have hlevel : (orderedWalk disk bucketDir).flatten = readLevel disk bucketDir (bucketDir ++ []) := by
    simp [orderedWalk]
  refine ⟨fun entry hentry => ?_, ?_⟩
  · rw [hlevel] at hentry
    exact sound_readLevel (segments_nil.mpr rfl) hentry
  · rw [hlevel]
    exact readLevel_before (segments_nil.mpr rfl)

/-- At the start every object is left. -/
theorem left_orderedWalk {path : FsPath} {key : Text} :
    Left disk bucketDir (orderedWalk disk bucketDir) path key ↔ IsObject disk bucketDir path key := by
  have hlevel : (orderedWalk disk bucketDir).flatten = readLevel disk bucketDir (bucketDir ++ []) := by
    simp [orderedWalk]
  unfold Left
  rw [hlevel, holds_readLevel (segments_nil.mpr rfl), List.append_nil]
  refine and_iff_left_of_imp ?_
  rintro ⟨hfile, rel, segments, rfl, hsegments, hne, -⟩
  refine ⟨List.prefix_append _ _, fun heq => hne ?_⟩
  obtain rfl : rel = [] := by simpa using heq
  exact segments_nil.mp hsegments

variable (disk bucketDir) in
/-- The objects behind a cursor that start with a prefix, in the order of their keys. -/
def objectsFrom (after pre : Option Text) : List Found :=
  listing disk bucketDir after pre (orderedWalk disk bucketDir)

theorem mem_objectsFrom : found ∈ objectsFrom disk bucketDir after pre ↔ Matches after pre found.key ∧
    ∃ path, IsObject disk bucketDir path found.key ∧ FoundAt disk path found := by
  simp only [objectsFrom, (listing_spec (walkOk_orderedWalk disk bucketDir)).1, left_orderedWalk]

theorem objectsFrom_sorted :
    (objectsFrom disk bucketDir after pre).Pairwise fun a b => a.key < b.key :=
  (listing_spec (walkOk_orderedWalk disk bucketDir)).2

/-- Behind the last key of a page lies what the page left out. -/
theorem objectsFrom_behind {n : Nat}
    (h : ((objectsFrom disk bucketDir after pre).take n).getLast? = some found) :
    objectsFrom disk bucketDir (some found.key) pre = (objectsFrom disk bucketDir after pre).drop n := by
  have hmem : found ∈ objectsFrom disk bucketDir after pre :=
    List.mem_of_mem_take (List.mem_of_getLast? h)
  have hmatches : Matches after pre found.key := (mem_objectsFrom.mp hmem).1
  refine List.eq_of_keys_lt objectsFrom_sorted
    (objectsFrom_sorted.sublist (List.drop_sublist n _)) fun other => ?_
  rw [List.mem_drop_iff_of_keys_lt objectsFrom_sorted h, mem_objectsFrom, mem_objectsFrom]
  constructor
  · rintro ⟨⟨hbehind, hpre⟩, hobject⟩
    have hlt : found.key < other.key := hbehind _ rfl
    exact ⟨⟨⟨fun a ha => lt_trans (hmatches.1 a ha) hlt, hpre⟩, hobject⟩, hlt⟩
  · rintro ⟨⟨⟨-, hpre⟩, hobject⟩, hlt⟩
    refine ⟨⟨fun a ha => ?_, hpre⟩, hobject⟩
    rwa [← Option.some.inj ha]

end

/-! ## Pages -/

/-- A pagination cursor: the key the page before ended with, and the prefix it was listed under. -/
structure Cursor where
  v : Nat
  after : Text
  pre : Option Text
deriving DecidableEq

/-- How a cursor is written: as JSON, in URL-safe base64. -/
structure CursorCodec where
  encode : Cursor → Text
  decode : Text → Option Cursor

def encodeCursor (codec : CursorCodec) (after : Text) (pre : Option Text) : Text :=
  codec.encode ⟨1, after, pre⟩

def decodeCursor (codec : CursorCodec) (token : Text) (pre : Option Text) : Except StorageError Text :=
  match codec.decode token with
  | none => .error (.backendUnavailable "invalid or expired cursor")
  | some cursor =>
    if cursor.v ≠ 1 ∨ cursor.pre ≠ pre then .error (.backendUnavailable "invalid or expired cursor")
    else .ok cursor.after

/-- What a listing says of an object; it resolves no content type and no entity tag. -/
def Found.objectMeta (found : Found) : ObjectMeta :=
  ⟨found.key, found.size, found.lastModified, none, none⟩

/-- The page behind `after`: up to the limit, and one further look for whether it is the last. -/
def pageBehind (codec : CursorCodec) (disk : StillTree) (bucketDir : FsPath) (pre : Option Text)
    (limit : Nat) (after : Option Text) : ListResponse :=
  let capped := min limit StorageOp.maxListLimit
  let (found, truncated) := collect disk bucketDir after pre capped (orderedWalk disk bucketDir)
  let objects := found.map Found.objectMeta
  let nextCursor :=
    if truncated then objects.getLast?.map fun object => encodeCursor codec object.key pre else none
  ⟨objects, nextCursor.isSome, nextCursor⟩

def listObjects (codec : CursorCodec) (disk : StillTree) (tenant : TenantSlug) (kb : KbSlug)
    (pre : Option Text) (limit : Nat) (cursor : Option Text) : Except StorageError ListResponse := do
  let after ← match cursor with
    | some token => (decodeCursor codec token pre).map some
    | none => .ok none
  if (bucketDir tenant kb, .dir) ∈ disk.tree then
    .ok (pageBehind codec disk (bucketDir tenant kb) pre limit after)
  else .error (.bucketNotFound (deriveBucketName tenant kb))

/-- Following the cursors of the pages from one of them until there is none gives the objects. -/
inductive Pages (list : Option Text → Except StorageError ListResponse) :
    Option Text → List ObjectMeta → Prop where
  | last {cursor : Option Text} {page : ListResponse} (hpage : list cursor = .ok page)
      (hnone : page.nextCursor = none) : Pages list cursor page.objects
  | next {cursor : Option Text} {page : ListResponse} {token : Text} {rest : List ObjectMeta}
      (hpage : list cursor = .ok page) (hsome : page.nextCursor = some token)
      (hrest : Pages list (some token) rest) : Pages list cursor (page.objects ++ rest)

theorem Pages.unique {list : Option Text → Except StorageError ListResponse} {cursor : Option Text}
    {objects objects' : List ObjectMeta} (h : Pages list cursor objects)
    (h' : Pages list cursor objects') : objects = objects' := by
  induction h generalizing objects' with
  | last hpage hnone =>
    cases h' with
    | last hpage' hnone' =>
      rw [hpage] at hpage'
      cases hpage'
      rfl
    | next hpage' hsome' hrest' =>
      rw [hpage] at hpage'
      cases hpage'
      rw [hnone] at hsome'
      cases hsome'
  | next hpage hsome hrest ih =>
    cases h' with
    | last hpage' hnone' =>
      rw [hpage] at hpage'
      cases hpage'
      rw [hsome] at hnone'
      cases hnone'
    | next hpage' hsome' hrest' =>
      rw [hpage] at hpage'
      cases hpage'
      rw [hsome] at hsome'
      cases hsome'
      rw [ih hrest']

section

variable {codec : CursorCodec} {disk : StillTree} {tenant : TenantSlug} {kb : KbSlug}
variable {pre after cursor : Option Text} {limit : Nat}

/-- Where a page resumes. -/
inductive Resumes (codec : CursorCodec) (pre : Option Text) : Option Text → Option Text → Prop where
  | start : Resumes codec pre none none
  | behind {token key : Text} (h : decodeCursor codec token pre = .ok key) :
      Resumes codec pre (some token) (some key)

theorem listObjects_of_resumes (h : Resumes codec pre cursor after) :
    listObjects codec disk tenant kb pre limit cursor =
      if (bucketDir tenant kb, .dir) ∈ disk.tree then
        .ok (pageBehind codec disk (bucketDir tenant kb) pre limit after)
      else .error (.bucketNotFound (deriveBucketName tenant kb)) := by
  cases h with
  | start => rfl
  | behind h =>
    simp only [listObjects, h]
    rfl

theorem resumes_of_ok {page : ListResponse}
    (h : listObjects codec disk tenant kb pre limit cursor = .ok page) :
    ∃ after, Resumes codec pre cursor after := by
  cases cursor with
  | none => exact ⟨none, .start⟩
  | some token =>
    cases hdecode : decodeCursor codec token pre with
    | ok key => exact ⟨some key, .behind hdecode⟩
    | error e =>
      simp only [listObjects, hdecode] at h
      cases h

theorem pageBehind_objects {bucketDir : FsPath} :
    (pageBehind codec disk bucketDir pre limit after).objects =
      ((objectsFrom disk bucketDir after pre).take (min limit StorageOp.maxListLimit)).map
        Found.objectMeta := by
  simp [pageBehind, collect_eq, objectsFrom]

theorem pageBehind_nextCursor {bucketDir : FsPath} :
    (pageBehind codec disk bucketDir pre limit after).nextCursor =
      if min limit StorageOp.maxListLimit < (objectsFrom disk bucketDir after pre).length then
        ((objectsFrom disk bucketDir after pre).take (min limit StorageOp.maxListLimit)).getLast?.map
          fun last => encodeCursor codec last.key pre
      else none := by
  unfold pageBehind objectsFrom
  simp only [collect_eq, decide_eq_true_eq, List.getLast?_map, Option.map_map]
  rfl

theorem truncated_eq_isSome {page : ListResponse}
    (h : listObjects codec disk tenant kb pre limit cursor = .ok page) :
    page.truncated = page.nextCursor.isSome := by
  obtain ⟨after, hresumes⟩ := resumes_of_ok h
  rw [listObjects_of_resumes hresumes] at h
  split at h
  · cases h
    rfl
  · cases h

/-- The cursor of a page leads behind it. -/
theorem resumes_encodeCursor {key : Text}
    (h : codec.decode (codec.encode ⟨1, key, pre⟩) = some ⟨1, key, pre⟩) :
    Resumes codec pre (some (encodeCursor codec key pre)) (some key) := by
  refine .behind ?_
  simp [decodeCursor, encodeCursor, h]

/-- The pages from one of them, by induction on how many objects are left. -/
theorem pages_of_resumes (hbucket : (bucketDir tenant kb, .dir) ∈ disk.tree) (hlimit : 1 ≤ limit)
    (hcodec : ∀ path key, IsObject disk (bucketDir tenant kb) path key →
      codec.decode (codec.encode ⟨1, key, pre⟩) = some ⟨1, key, pre⟩)
    (h : Resumes codec pre cursor after) :
    Pages (listObjects codec disk tenant kb pre limit) cursor
      ((objectsFrom disk (bucketDir tenant kb) after pre).map Found.objectMeta) := by
  induction hlen : (objectsFrom disk (bucketDir tenant kb) after pre).length using
    Nat.strong_induction_on generalizing cursor after with
  | _ n ih =>
    subst hlen
    set found := objectsFrom disk (bucketDir tenant kb) after pre with hfound
    set capped := min limit StorageOp.maxListLimit with hcapped
    have hroom : 0 < capped := by
      rw [hcapped]
      exact Nat.lt_min.mpr ⟨hlimit, by decide⟩
    have hpage : listObjects codec disk tenant kb pre limit cursor =
        .ok (pageBehind codec disk (bucketDir tenant kb) pre limit after) := by
      rw [listObjects_of_resumes h, if_pos hbucket]
    by_cases hmore : capped < found.length
    · have hne : found.take capped ≠ [] := by
        rw [Ne, List.take_eq_nil_iff, not_or]
        exact ⟨Nat.ne_of_gt hroom, List.length_pos_iff.mp (Nat.lt_trans hroom hmore)⟩
      have hlast : (found.take capped).getLast? = some ((found.take capped).getLast hne) :=
        List.getLast?_eq_getLast_of_ne_nil hne
      have hobject := (mem_objectsFrom.mp (List.mem_of_mem_take (List.getLast_mem hne))).2
      obtain ⟨path, hobject, -⟩ := hobject
      have hcursor : (pageBehind codec disk (bucketDir tenant kb) pre limit after).nextCursor =
          some (encodeCursor codec ((found.take capped).getLast hne).key pre) := by
        rw [pageBehind_nextCursor, if_pos hmore, ← hfound, ← hcapped, hlast]
        rfl
      have hrest := ih _ ?_ (resumes_encodeCursor (hcodec path _ hobject)) rfl
      · have hpages := Pages.next hpage hcursor hrest
        rw [pageBehind_objects, objectsFrom_behind hlast, ← List.map_append,
          List.take_append_drop] at hpages
        exact hpages
      · rw [objectsFrom_behind hlast, List.length_drop]
        exact Nat.sub_lt (Nat.lt_trans hroom hmore) hroom
    · have hcursor : (pageBehind codec disk (bucketDir tenant kb) pre limit after).nextCursor = none := by
        rw [pageBehind_nextCursor, if_neg hmore]
      have hpages := Pages.last hpage hcursor
      rw [pageBehind_objects, List.take_of_length_le (Nat.le_of_not_lt hmore)] at hpages
      exact hpages

end

/-- A tree held still. Following the cursors from the first page until there is none, with any limit
above zero, lists exactly the objects whose key starts with the prefix, in the byte order of their
keys. A page is truncated when it has a cursor. And no directory is passed by that holds a key which
matches. -/
theorem pages_list_every_object (codec : CursorCodec) (disk : StillTree) (tenant : TenantSlug)
    (kb : KbSlug) (pre : Option Text) (hbucket : (bucketDir tenant kb, .dir) ∈ disk.tree)
    (hcodec : ∀ path key, IsObject disk (bucketDir tenant kb) path key →
      codec.decode (codec.encode ⟨1, key, pre⟩) = some ⟨1, key, pre⟩) :
    (∃ objects : List ObjectMeta,
      (∀ key, key ∈ objects.map ObjectMeta.key ↔
        (∃ path, IsObject disk (bucketDir tenant kb) path key) ∧ ∀ p ∈ pre, p <+: key) ∧
      (objects.map fun object => Utf8.encode object.key).Pairwise (· < ·) ∧
      ∀ limit ≥ 1, Pages (listObjects codec disk tenant kb pre limit) none objects ∧
        ∀ objects', Pages (listObjects codec disk tenant kb pre limit) none objects' →
          objects' = objects) ∧
    (∀ limit cursor page, listObjects codec disk tenant kb pre limit cursor = .ok page →
      page.truncated = page.nextCursor.isSome) ∧
    ∀ dirKey after key, dirKey ++ ['/'] <+: key → Matches after pre key →
      subtreeMayMatch dirKey after pre = true := by
  refine ⟨⟨(objectsFrom disk (bucketDir tenant kb) none pre).map Found.objectMeta, ?_, ?_, ?_⟩,
    fun limit cursor page => truncated_eq_isSome, fun dirKey after key => subtreeMayMatch_of_matches⟩
  · intro key
    rw [List.map_map, List.mem_map]
    constructor
    · rintro ⟨found, hfound, rfl⟩
      obtain ⟨⟨-, hpre⟩, path, hobject, -⟩ := mem_objectsFrom.mp hfound
      exact ⟨⟨path, hobject⟩, hpre⟩
    · rintro ⟨⟨path, hobject⟩, hpre⟩
      refine ⟨⟨key, (disk.stat path).size, (disk.stat path).modified⟩, mem_objectsFrom.mpr ?_, rfl⟩
      exact ⟨⟨fun a ha => (nomatch ha), hpre⟩, path, hobject, rfl, rfl⟩
  · rw [List.map_map, List.pairwise_map]
    exact objectsFrom_sorted.imp Utf8.encode_lt
  · intro limit hlimit
    have hpages : Pages (listObjects codec disk tenant kb pre limit) none _ :=
      pages_of_resumes hbucket hlimit hcodec .start
    exact ⟨hpages, fun objects' h => h.unique hpages⟩

/-- The objects `a-b` and `a/c`, each of one byte. -/
def siblings : StillTree where
  tree :=
    (((emptyNotes.graft (inNotes ["a"]) (.single .dir) (by decide)).graft
      (inNotes ["a", "c"]) (.single .file) (by decide)).graft
      (inNotes ["a-b"]) (.single .file) (by decide))
  plainNames := by decide
  stat _ := ⟨1, some 0⟩

/-- The cursors that listing them can give, as they are written. -/
def siblingCursors : List (Cursor × Text) :=
  [(⟨1, "a-b".toList, none⟩, "eyJ2IjoxLCJhZnRlciI6ImEtYiJ9".toList),
   (⟨1, "a/c".toList, none⟩, "eyJ2IjoxLCJhZnRlciI6ImEvYyJ9".toList)]

def siblingCodec : CursorCodec where
  encode cursor := (siblingCursors.lookup cursor).getD []
  decode token := (siblingCursors.find? fun e => e.2 = token).map Prod.fst

theorem pages_list_every_object_siblings : ∃ objects : List ObjectMeta,
    Pages (listObjects siblingCodec siblings .default .notes none 1) none objects := by
  have hcodec : ∀ e ∈ siblings.tree.entries.entries, ∀ key ∈ keyFromPath notesDir e.1,
      e.2 = .file → siblingCodec.decode (siblingCodec.encode ⟨1, key, none⟩) = some ⟨1, key, none⟩ := by
    decide
  have hobject : ∀ path key, IsObject siblings (bucketDir .default .notes) path key →
      siblingCodec.decode (siblingCodec.encode ⟨1, key, none⟩) = some ⟨1, key, none⟩ := by
    rintro path key ⟨hfile, rel, segments, rfl, hsegments, hne, rfl⟩
    exact hcodec _ hfile _ (keyFromPath_append.mpr ⟨segments, hsegments.1, hne, rfl⟩) rfl
  obtain ⟨⟨objects, -, -, hpages⟩, -⟩ :=
    pages_list_every_object siblingCodec siblings .default .notes none (by decide) hobject
  exact ⟨objects, (hpages 1 (Nat.le_refl 1)).1⟩

end StorageFs
