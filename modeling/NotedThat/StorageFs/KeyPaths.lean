-- SUMMARY: The file of a key: it lies in the bucket, the key is read back from it, and it is nothing of the store's own.
import NotedThat.Lib.Utf8Slices
import NotedThat.StorageFs.SidecarPaths

/-!
# The path of a key

A key becomes a path one name at a time. Every name has to be a plain one, which is what makes the path one
below the bucket and the key the only one with this path.
-/

namespace StorageFs

/-- The file that claims the root for one process. -/
def lockFile : Text := ".notedthat.lock".toList

/-- A name of one file: it is not empty, is no way to another directory, and has no separator and no NUL. -/
structure IsName (name : Bytes) : Prop where
  text : ∃ segment, name = Utf8.encode segment ∧ '/' ∉ segment ∧ '\\' ∉ segment ∧ '\x00' ∉ segment
  notEmpty : name ≠ []
  notHere : name ≠ Utf8.encode ['.']
  notAbove : name ≠ Utf8.encode ['.', '.']

section Paths

variable {tenant tenant' : TenantSlug} {k k' : Key} {path : FsPath} {segment key : Text}

theorem validateSegment_plain (h : validateSegment segment key = .ok ()) :
    isPlainName segment = true ∧ ¬ Utf8.encode tempPrefix <+: Utf8.encode segment := by
  unfold validateSegment at h
  dsimp only at h
  split_ifs at h with hlong htemp hplain
  refine ⟨hplain, ?_⟩
  rintro ⟨rest, hrest⟩
  obtain ⟨rest, rfl, -⟩ := Utf8.encode_append_eq hrest
  exact htemp (List.isPrefixOf_iff_prefix.mpr (List.prefix_append _ _))

theorem val_chars (p : ObjectPath) : '\\' ∉ p.val ∧ '\x00' ∉ p.val := by
  have hvalid := p.valid
  unfold checkPath at hvalid
  split_ifs at hvalid with _ hbackslash hnul
  exact ⟨hbackslash, hnul⟩

theorem isName_of_segment {p : ObjectPath} (hsegment : segment ∈ p.val.splitOn '/')
    (h : validateSegment segment key = .ok ()) : IsName (Utf8.encode segment) := by
  have hne : ∀ {t : Text}, segment ≠ t → Utf8.encode segment ≠ Utf8.encode t := fun hne heq =>
    hne (Utf8.encode_injective heq)
  obtain ⟨hplain, -⟩ := validateSegment_plain h
  simp only [isPlainName, Bool.and_eq_true, Bool.not_eq_true', List.isEmpty_eq_false_iff, decide_eq_true_eq] at hplain
  obtain ⟨⟨⟨hempty, hhere⟩, habove⟩, hseparator⟩ := hplain
  obtain ⟨hbackslash, hnul⟩ := val_chars p
  refine ⟨⟨segment, rfl, hseparator, fun hmem => hbackslash ?_, fun hmem => hnul ?_⟩, hne hempty, hne hhere, hne habove⟩
  · exact Text.mem_of_mem_splitOn hsegment hmem
  · exact Text.mem_of_mem_splitOn hsegment hmem

theorem objectPath_eq_ok : objectPath tenant k = .ok path ↔
    (∀ segment ∈ k.2.val.splitOn '/', validateSegment segment k.2.val = .ok ()) ∧
      path = bucketDir tenant k.1 ++ (k.2.val.splitOn '/').map Utf8.encode := pushKey_eq_ok

theorem mapM_decode_encode (segments : List Text) :
    (segments.map Utf8.encode).mapM Utf8.decode? = some segments := by
  induction segments with
  | nil => rfl
  | cons segment segments ih => simp [ih]

theorem keyFromPath_objectPath (h : objectPath tenant k = .ok path) :
    keyFromPath (bucketDir tenant k.1) path = some k.2.val := by
  obtain ⟨-, rfl⟩ := objectPath_eq_ok.mp h
  refine keyFromPath_append.mpr ⟨k.2.val.splitOn '/', mapM_decode_encode _, List.splitOn_ne_nil _ _, ?_⟩
  exact (List.intercalate_splitOn '/').symm

/-- Neither two keys nor two tenants have an object at one path. -/
theorem objectPath_inj (h : objectPath tenant k = .ok path) (h' : objectPath tenant' k' = .ok path) :
    tenant = tenant' ∧ k = k' := by
  obtain ⟨-, hpath⟩ := objectPath_eq_ok.mp h
  obtain ⟨-, hpath'⟩ := objectPath_eq_ok.mp h'
  have hbucket := (List.cons.inj (hpath.symm.trans hpath')).1
  obtain ⟨rfl, hkb⟩ := deriveBucketName_inj (Utf8.encode_injective hbucket)
  have hkey := keyFromPath_objectPath h
  rw [hkb, keyFromPath_objectPath h'] at hkey
  exact ⟨rfl, Prod.ext hkb (ObjectPath.ext (Option.some.inj hkey).symm)⟩

theorem objectPath_head (h : objectPath tenant k = .ok path) :
    path.head? = some (Utf8.encode (deriveBucketName tenant k.1)) := by
  obtain ⟨-, rfl⟩ := objectPath_eq_ok.mp h
  rfl

/-- No bucket has a name that begins with a dot. -/
theorem deriveBucketName_ne (kb : KbSlug) {name : Text} (h : name.head? = some '.') :
    Utf8.encode (deriveBucketName tenant kb) ≠ Utf8.encode name := by
  intro heq
  rw [← Utf8.encode_injective heq] at h
  cases h

end Paths

/-- The path of an object that is accepted lies below its bucket, with names that lead nowhere else. Its key is
read back from it, and no other object has it. None of its names begins like that of a temporary file, and it is
neither in the records nor the lock of the root. -/
theorem objectPath_exact (tenant : TenantSlug) (k : Key) (path : FsPath) (h : objectPath tenant k = .ok path) :
    (∃ names, names ≠ [] ∧ path = bucketDir tenant k.1 ++ names ∧
      ∀ name ∈ names, IsName name ∧ ¬ Utf8.encode tempPrefix <+: name) ∧
      keyFromPath (bucketDir tenant k.1) path = some k.2.val ∧
      (∀ (tenant' : TenantSlug) (k' : Key), objectPath tenant' k' = .ok path → tenant' = tenant ∧ k' = k) ∧
      (∀ segment ∈ k.2.val.splitOn '/', ¬ tempPrefix <+: segment) ∧
      ¬ [Utf8.encode metaDir] <+: path ∧ ¬ [Utf8.encode lockFile] <+: path := by
  obtain ⟨hvalid, hpath⟩ := objectPath_eq_ok.mp h
  have hroot : ∀ {name : Text}, name.head? = some '.' → ¬ [Utf8.encode name] <+: path := by
    rintro name hname ⟨rest, hrest⟩
    have hhead := objectPath_head h
    rw [← hrest] at hhead
    exact deriveBucketName_ne k.1 hname (Option.some.inj hhead).symm
  refine ⟨⟨_, ?_, hpath, ?_⟩, keyFromPath_objectPath h, ?_, ?_, hroot (by decide), hroot (by decide)⟩
  · rw [Ne, List.map_eq_nil_iff]
    exact List.splitOn_ne_nil _ _
  · intro name hname
    obtain ⟨segment, hsegment, rfl⟩ := List.mem_map.mp hname
    exact ⟨isName_of_segment hsegment (hvalid segment hsegment), (validateSegment_plain (hvalid segment hsegment)).2⟩
  · intro tenant' k' h'
    exact objectPath_inj h' h
  · intro segment hsegment hbegins
    obtain ⟨rest, rfl⟩ := hbegins
    refine (validateSegment_plain (hvalid _ hsegment)).2 ?_
    rw [Utf8.encode_append]
    exact List.prefix_append _ _

/-- The object `a.md` of the knowledge base `notes`. -/
theorem objectPath_exact_aMd : keyFromPath notesDir (inNotes ["a.md"]) = some "a.md".toList :=
  (objectPath_exact .default (.notes, .aMd) (inNotes ["a.md"]) (by decide)).2.1

end StorageFs
