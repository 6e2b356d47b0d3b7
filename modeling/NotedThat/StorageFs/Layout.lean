-- SUMMARY: Object keys and the paths of the files that hold them, under the directory of a knowledge base.
import NotedThat.Lib.FileTree
import NotedThat.Core.Names

/-!
# Layout

An object is the file at its key, below the directory of its knowledge base. A name is the bytes the
filesystem has for it; one that is not UTF-8 belongs to no key.
-/

/-- A path below the storage root: the names on the way, each the bytes the filesystem has. -/
abbrev FsPath := List Bytes

namespace StorageFs

/-- How the names of files that are still being written begin. -/
def tempPrefix : Text := ".notedthat-tmp-".toList

/-- The directory of the objects of one knowledge base. -/
def bucketDir (tenant : TenantSlug) (kb : KbSlug) : FsPath := [Utf8.encode (deriveBucketName tenant kb)]

/-- The object key of a path below a bucket directory, none when a name of it is not UTF-8. -/
def keyFromPath (dir path : FsPath) : Option Text :=
  if dir <+: path then
    match (path.drop dir.length).mapM Utf8.decode? with
    | none | some [] => none
    | some segments => some (['/'].intercalate segments)
  else none

theorem keyFromPath_append {dir rel : FsPath} {key : Text} : keyFromPath dir (dir ++ rel) = some key ↔
    ∃ segments, rel.mapM Utf8.decode? = some segments ∧ segments ≠ [] ∧
      key = ['/'].intercalate segments := by
  unfold keyFromPath
  rw [if_pos (List.prefix_append dir rel), List.drop_left]
  rcases rel.mapM Utf8.decode? with _ | _ | ⟨segment, segments⟩
  · simp
  · simp
  · simp [eq_comm]

/-- The key of what is in a directory is under the key of the directory. -/
theorem keyFromPath_below {dir rel rest : FsPath} {key : Text} (hrel : rel ≠ []) (hrest : rest ≠ [])
    (h : keyFromPath dir (dir ++ (rel ++ rest)) = some key) :
    ∃ key', keyFromPath dir (dir ++ rel) = some key' ∧ key' ++ ['/'] <+: key := by
  obtain ⟨segments, hsegments, -, rfl⟩ := keyFromPath_append.mp h
  rw [List.mapM_append] at hsegments
  obtain ⟨above, habove, below, hbelow, rfl⟩ : ∃ above, rel.mapM Utf8.decode? = some above ∧
      ∃ below, rest.mapM Utf8.decode? = some below ∧ above ++ below = segments := by
    simpa [Option.bind_eq_some_iff] using hsegments
  have hne : ∀ {names : FsPath} {texts}, names.mapM Utf8.decode? = some texts → names ≠ [] →
      texts ≠ [] := by
    rintro (_ | ⟨name, names⟩) texts htexts hnames rfl
    · exact hnames rfl
    · simp [Option.bind_eq_some_iff] at htexts
  refine ⟨_, keyFromPath_append.mpr ⟨above, habove, hne habove hrel, rfl⟩, ?_⟩
  rw [Text.intercalate_append (hne habove hrel) (hne hbelow hrest)]
  exact List.prefix_append _ _

/-- The directory of the knowledge base `notes`. -/
def notesDir : FsPath := bucketDir .default .notes

/-- A path in it. -/
def inNotes (names : List String) : FsPath := notesDir ++ names.map fun name => Utf8.encode name.toList

/-- The storage root with nothing but this directory. -/
def emptyNotes : FileTree Bytes :=
  (FileTree.single .dir).graft notesDir (FileTree.single .dir) (by decide)

end StorageFs
