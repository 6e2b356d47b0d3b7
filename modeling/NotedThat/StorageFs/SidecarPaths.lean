-- SUMMARY: Where the filesystem store puts an object and its record, and which objects have records that get in each other's way.
import NotedThat.Core.BucketNames
import NotedThat.Core.Storage
import NotedThat.StorageFs.Layout
import Mathlib.Data.List.Pairwise

/-!
# The files of an object

An object is the file at its key. Its record is a file of the same name with a suffix, in a tree of
records beside the buckets. An object is put in place before its record is written, and writes of
different keys interleave, so a history is any sequence of the two.
-/

namespace StorageFs

/-! ## Paths -/

/-- The directory of the records, under the root. -/
def metaDir : Text := ".notedthat-meta".toList

def sidecarSuffix : Text := ".ntmeta".toList

/-- The longest name the filesystem takes. -/
def nameMax : Nat := 255

/-- The suffix has to fit beside the last name of a key. -/
def maxSegmentBytes : Nat := nameMax - (Utf8.encode sidecarSuffix).length

/-- A key that this filesystem cannot represent. -/
def unsupportedKey (message : String) : StorageError := .other message

/-- Whether a segment is a path of one component, which is a name and the whole segment. -/
def isPlainName (segment : Text) : Bool :=
  !segment.isEmpty && segment ≠ ['.'] && segment ≠ ['.', '.'] && '/' ∉ segment

def validateSegment (segment key : Text) : Except StorageError Unit :=
  let len := (Utf8.encode segment).length
  if len > maxSegmentBytes then
    .error (unsupportedKey ("path segment '" ++ String.ofList segment ++ "' of key '" ++
      String.ofList key ++ "' is " ++ toString len ++ " bytes, over the " ++
      toString maxSegmentBytes ++ "-byte filesystem limit"))
  else if tempPrefix.isPrefixOf segment then
    .error (unsupportedKey ("key '" ++ String.ofList key ++ "' uses the reserved '" ++
      String.ofList tempPrefix ++ "' prefix"))
  else if isPlainName segment then .ok ()
  else
    .error (unsupportedKey ("path segment '" ++ String.ofList segment ++ "' of key '" ++
      String.ofList key ++ "' is not a plain filename"))

/-- Append the segments of a key, one at a time. -/
def pushSegments (key : Text) : FsPath → List Text → Except StorageError FsPath
  | path, [] => .ok path
  | path, segment :: rest => do
    validateSegment segment key
    pushSegments key (path ++ [Utf8.encode segment]) rest

def pushKey (base : FsPath) (key : Text) : Except StorageError FsPath :=
  pushSegments key base (key.splitOn '/')

/-- The directory of the records of one knowledge base. -/
def metaBucketDir (tenant : TenantSlug) (kb : KbSlug) : FsPath :=
  [Utf8.encode metaDir, Utf8.encode (deriveBucketName tenant kb)]

def objectPath (tenant : TenantSlug) (k : Key) : Except StorageError FsPath :=
  pushKey (bucketDir tenant k.1) k.2.val

def sidecarPath (tenant : TenantSlug) (k : Key) : Except StorageError FsPath := do
  let path ← pushKey (metaBucketDir tenant k.1) k.2.val
  return path.dropLast ++ [path.getLast?.getD [] ++ Utf8.encode sidecarSuffix]

/-! ## Writing -/

/-- The two files of an object. -/
inductive Part where
  | object
  | record
deriving DecidableEq

/-- One step of a `store`: a file of a key is put in place. -/
structure FileWrite where
  part : Part
  key : Key

namespace FileWrite

def path (tenant : TenantSlug) (w : FileWrite) : Except StorageError FsPath :=
  match w.part with
  | .object => objectPath tenant w.key
  | .record => sidecarPath tenant w.key

/-- The tree after the write, or nothing when it fails, which changes nothing. -/
def apply (tenant : TenantSlug) (w : FileWrite) (t : FileTree Bytes) : Option (FileTree Bytes) :=
  match w.path tenant with
  | .error _ => none
  | .ok path => if ∀ name ∈ path, name.length ≤ nameMax then t.replaceFile path else none

end FileWrite

/-- What a history of writes leaves, those that fail included. -/
def afterWrites (tenant : TenantSlug) (t : FileTree Bytes) (history : List FileWrite) : FileTree Bytes :=
  history.foldl (fun t w => (w.apply tenant t).getD t) t

/-- What storing an object writes. -/
def store (k : Key) : List FileWrite := [⟨.object, k⟩, ⟨.record, k⟩]

/-- A root whose buckets hold nothing yet. -/
structure Fresh (tenant : TenantSlug) (t : FileTree Bytes) : Prop where
  root : ([], .dir) ∈ t
  buckets : ∀ kb x kind, (x, kind) ∈ t → bucketDir tenant kb <+: x →
    x = bucketDir tenant kb ∧ kind = .dir
  records : ∀ x kind, (x, kind) ∈ t → [Utf8.encode metaDir] <+: x → x.length ≤ 2 ∧ kind = .dir

/-- No write of a record fails in the history. -/
def RecordsWritten (tenant : TenantSlug) (t : FileTree Bytes) (history : List FileWrite) : Prop :=
  ∀ front k rest, history = front ++ ⟨.record, k⟩ :: rest →
    ((⟨.record, k⟩ : FileWrite).apply tenant (afterWrites tenant t front)).isSome = true

/-- Both objects have a record, neither record lies at or below the other, and however the two
objects are stored in fresh buckets, their records can be written. -/
def SidecarsApart (tenant : TenantSlug) (k k' : Key) : Prop :=
  (∃ s s', sidecarPath tenant k = .ok s ∧ sidecarPath tenant k' = .ok s' ∧ FileTree.Apart s s') ∧
    ∀ t history, Fresh tenant t → (∀ w ∈ history, w.key = k ∨ w.key = k') →
      RecordsWritten tenant t history

/-- The key lies in a directory of the name that the other's record has. -/
def UnderSidecar (k k' : Key) : Prop :=
  k.1 = k'.1 ∧ k.2.val ++ sidecarSuffix ++ ['/'] <+: k'.2.val

instance (k k' : Key) : Decidable (UnderSidecar k k') := inferInstanceAs (Decidable (_ ∧ _))

/-! ## What the paths are -/

section Paths

variable {tenant : TenantSlug} {k k' : Key} {p s : FsPath}

theorem pushSegments_eq_ok {key : Text} {base : FsPath} {segments : List Text} :
    pushSegments key base segments = .ok p ↔
      (∀ segment ∈ segments, validateSegment segment key = .ok ()) ∧
        p = base ++ segments.map Utf8.encode := by
  induction segments generalizing base with
  | nil => simp [pushSegments, eq_comm]
  | cons segment rest ih =>
    cases hvalid : validateSegment segment key with
    | error e => simp [pushSegments, hvalid, bind, Except.bind]
    | ok _ => simp [pushSegments, hvalid, bind, Except.bind, ih]

theorem pushKey_eq_ok {base : FsPath} {key : Text} : pushKey base key = .ok p ↔
    (∀ segment ∈ key.splitOn '/', validateSegment segment key = .ok ()) ∧
      p = base ++ (key.splitOn '/').map Utf8.encode := pushSegments_eq_ok

theorem length_le_of_validateSegment {segment key : Text}
    (h : validateSegment segment key = .ok ()) :
    (Utf8.encode segment).length ≤ maxSegmentBytes := by
  unfold validateSegment at h
  dsimp only at h
  split at h
  · cases h
  · next hlen => exact Nat.le_of_not_lt hlen

/-- The names of a record's path. -/
def sidecarNames (k : Key) : FsPath := ((k.2.val ++ sidecarSuffix).splitOn '/').map Utf8.encode

/-- The path of a record is the path that its key with the suffix would have. -/
theorem sidecarPath_eq (h : objectPath tenant k = .ok p) :
    sidecarPath tenant k = .ok (metaBucketDir tenant k.1 ++ sidecarNames k) := by
  obtain ⟨hvalid, -⟩ := pushKey_eq_ok.mp h
  have hpush := pushKey_eq_ok.mpr
    ⟨hvalid, (rfl : metaBucketDir tenant k.1 ++ _ = metaBucketDir tenant k.1 ++ _)⟩
  unfold sidecarPath sidecarNames
  rw [hpush, Text.splitOn_append_of_not_mem (by decide)]
  rcases List.eq_nil_or_concat (k.2.val.splitOn '/') with hnil | ⟨front, last, hsegments⟩
  · exact absurd hnil (List.splitOn_ne_nil '/' k.2.val)
  · rw [List.concat_eq_append] at hsegments
    simp only [hsegments, List.map_append, List.map_cons, List.map_nil, ← List.append_assoc,
      List.dropLast_concat, List.getLast?_concat, Option.getD_some, Utf8.encode_append, bind,
      Except.bind, pure, Except.pure]

/-- One record lies at or below the other exactly if its key lies under the other's record. -/
theorem sidecarNames_prefix_iff (hne : k.2 ≠ k'.2) :
    sidecarNames k <+: sidecarNames k' ↔
      k.2.val ++ sidecarSuffix ++ ['/'] <+: k'.2.val := by
  have hval : k.2.val ++ sidecarSuffix ≠ k'.2.val ++ sidecarSuffix := fun heq =>
    hne (ObjectPath.ext (List.append_cancel_right heq))
  unfold sidecarNames
  rw [List.prefix_map_iff_of_injective Utf8.encode_injective]
  constructor
  · intro hle
    have hslash := Text.append_sep_prefix_iff.mpr ⟨hle, hval⟩
    -- the separator is not part of the suffix, so it lies within the key
    obtain ⟨rest, hrest⟩ := hslash
    rcases List.append_eq_append_iff.mp hrest with ⟨more, hmore, -⟩ | ⟨more, hmore, hsuffix⟩
    · exact ⟨more, hmore.symm⟩
    · rcases List.eq_nil_or_concat more with rfl | ⟨front, last, rfl⟩
      · rw [List.append_nil] at hmore
        rw [hmore]
      · rw [List.concat_eq_append] at hmore hsuffix
        have hlast : last = '/' := by
          have := congrArg List.getLast? hmore
          simpa [← List.append_assoc, eq_comm] using this
        have hmem : '/' ∈ sidecarSuffix := by
          rw [hsuffix, hlast]
          simp
        exact absurd hmem (by decide)
  · intro hle
    exact (Text.append_sep_prefix_iff.mp (hle.trans (List.prefix_append _ _))).1

/-- Records of different buckets are apart. -/
theorem kb_eq_of_below {x x' : FsPath}
    (h : metaBucketDir tenant k.1 ++ x <+: metaBucketDir tenant k'.1 ++ x') : k.1 = k'.1 := by
  unfold metaBucketDir at h
  simp only [List.cons_append, List.nil_append, List.cons_prefix_cons] at h
  exact (deriveBucketName_inj (Utf8.encode_injective h.2.1)).2

theorem sidecarPath_prefix_iff (hne : k ≠ k') :
    metaBucketDir tenant k.1 ++ sidecarNames k <+: metaBucketDir tenant k'.1 ++ sidecarNames k' ↔
      UnderSidecar k k' := by
  by_cases hkb : k.1 = k'.1
  · have hpath : k.2 ≠ k'.2 := fun heq => hne (Prod.ext hkb heq)
    rw [hkb, List.prefix_append_right_inj, sidecarNames_prefix_iff hpath, UnderSidecar]
    exact (and_iff_right hkb).symm
  · exact iff_of_false (fun h => hkb (kb_eq_of_below h)) fun h => hkb h.1

end Paths

/-! ## Histories -/

section Histories

variable {tenant : TenantSlug} {t : FileTree Bytes} {P : FsPath → Prop}

/-- A path that a write may be of: its names fit, and it is not the root. -/
structure Writable (path : FsPath) : Prop where
  ne_nil : path ≠ []
  fits : ∀ name ∈ path, name.length ≤ nameMax

/-- What stays as it is while files are put at paths of `P`: all of them still have room. -/
structure Roomy (P : FsPath → Prop) (t : FileTree Bytes) : Prop where
  root : ([], .dir) ∈ t
  room : ∀ path, P path → t.Room path

theorem apply_isSome {w : FileWrite} {path : FsPath} (hpath : w.path tenant = .ok path)
    (hwritable : Writable path) (hroot : ([], .dir) ∈ t) (hroom : t.Room path) :
    (w.apply tenant t).isSome = true := by
  obtain ⟨t', ht', -⟩ := FileTree.replaceFile_spec hroot hwritable.ne_nil hroom
  simp only [FileWrite.apply, hpath, if_pos hwritable.fits, ht', Option.isSome_some]

/-- One write, at a path of `P`, among paths that are apart. -/
theorem Roomy.write (hP : ∀ path path', P path → P path' → path' = path ∨ FileTree.Apart path path')
    (h : Roomy P t) {w : FileWrite} (hw : ∀ path, w.path tenant = .ok path → P path ∧ Writable path) :
    Roomy P ((w.apply tenant t).getD t) := by
  cases happly : w.apply tenant t with
  | none => exact h
  | some t' =>
    unfold FileWrite.apply at happly
    split at happly
    · cases happly
    · next path hpath =>
      obtain ⟨hmem, hwritable⟩ := hw path hpath
      obtain ⟨-, hreplace⟩ := Option.ite_none_right_eq_some.mp happly
      refine ⟨?_, fun path' hpath' => ?_⟩
      · obtain ⟨t'', heq, hspec⟩ :=
          FileTree.replaceFile_spec h.root hwritable.ne_nil (h.room path hmem)
        cases hreplace.symm.trans heq
        exact (hspec _ _).mpr (.inl h.root)
      · exact (h.room path' hpath').replaceFile h.root hwritable.ne_nil hreplace (hP _ _ hmem hpath')

theorem Roomy.writes (hP : ∀ path path', P path → P path' → path' = path ∨ FileTree.Apart path path')
    {history : List FileWrite}
    (hw : ∀ w ∈ history, ∀ path, w.path tenant = .ok path → P path ∧ Writable path)
    (h : Roomy P t) : Roomy P (afterWrites tenant t history) := by
  induction history generalizing t with
  | nil => exact h
  | cons w history ih =>
    obtain ⟨hfirst, hrest⟩ := List.forall_mem_cons.mp hw
    exact ih hrest (h.write hP hfirst)

end Histories

section Store

variable {tenant : TenantSlug} {t : FileTree Bytes} {k k' : Key} {p p' : FsPath}

theorem length_encode_le {s : Text} {n : Nat} (h : validateSlug s n = .ok ()) :
    (Utf8.encode s).length ≤ n := by
  unfold validateSlug at h
  split_ifs at h with _ hlen
  exact Nat.le_of_not_lt hlen

theorem bucketName_fits (tenant : TenantSlug) (kb : KbSlug) :
    (Utf8.encode (deriveBucketName tenant kb)).length ≤ nameMax := by
  have htenant := length_encode_le tenant.valid
  have hkb := length_encode_le kb.valid
  have hfirst : (Utf8.encode bucketNamePrefix).length = 3 := by decide
  have hhyphen : (String.utf8EncodeChar '-').length = 1 := by decide
  simp only [deriveBucketName, Utf8.encode_append, Utf8.encode_cons, List.length_append, nameMax]
  omega

theorem writable_object (h : objectPath tenant k = .ok p) : Writable p := by
  obtain ⟨hvalid, rfl⟩ := pushKey_eq_ok.mp h
  refine ⟨by simp [bucketDir], fun name hname => ?_⟩
  rcases List.mem_append.mp hname with hname | hname
  · cases List.mem_singleton.mp hname
    exact bucketName_fits tenant k.1
  · obtain ⟨segment, hsegment, rfl⟩ := List.mem_map.mp hname
    exact (length_le_of_validateSegment (hvalid segment hsegment)).trans (Nat.sub_le _ _)

/-- The suffix fits beside the last name of every key that is accepted. -/
theorem writable_sidecar (h : objectPath tenant k = .ok p) :
    Writable (metaBucketDir tenant k.1 ++ sidecarNames k) := by
  obtain ⟨hvalid, -⟩ := pushKey_eq_ok.mp h
  refine ⟨by simp [metaBucketDir], fun name hname => ?_⟩
  have hlen : ∀ segment ∈ k.2.val.splitOn '/',
      (Utf8.encode segment).length + (Utf8.encode sidecarSuffix).length ≤ nameMax := by
    intro segment hsegment
    have hle := length_le_of_validateSegment (hvalid segment hsegment)
    have hsuffix : (Utf8.encode sidecarSuffix).length ≤ nameMax := by decide
    unfold maxSegmentBytes at hle
    omega
  rcases List.mem_append.mp hname with hname | hname
  · rw [metaBucketDir, List.mem_cons, List.mem_singleton] at hname
    rcases hname with rfl | rfl
    · decide
    · exact bucketName_fits tenant k.1
  · obtain ⟨segment, hsegment, rfl⟩ := List.mem_map.mp hname
    rw [Text.splitOn_append_of_not_mem (by decide)] at hsegment
    rcases List.mem_append.mp hsegment with hsegment | hsegment
    · exact (Nat.le_add_right _ _).trans (hlen segment (List.mem_of_mem_dropLast hsegment))
    · cases List.mem_singleton.mp hsegment
      rcases List.eq_nil_or_concat (k.2.val.splitOn '/') with hnil | ⟨front, last, hlast⟩
      · exact absurd hnil (List.splitOn_ne_nil '/' k.2.val)
      · rw [List.concat_eq_append] at hlast
        have hle := hlen last (by simp [hlast])
        simpa [hlast] using hle

/-- Nothing is on the way to a path below a bucket that holds nothing. -/
theorem Fresh.room_object (h : Fresh tenant t) (hp : objectPath tenant k = .ok p) : t.Room p := by
  obtain ⟨-, rfl⟩ := pushKey_eq_ok.mp hp
  have hnames : (k.2.val.splitOn '/').map Utf8.encode ≠ [] := by
    simp [List.splitOn_ne_nil]
  refine ⟨fun hdir => ?_, fun q hle hne hfile => ?_⟩
  · have heq := (h.buckets k.1 _ _ hdir (List.prefix_append _ _)).1
    exact hnames (List.append_right_eq_self.mp heq)
  · rcases List.prefix_or_prefix_of_prefix hle (List.prefix_append (bucketDir tenant k.1) _) with
      hq | hq
    · rcases List.eq_nil_or_concat q with rfl | ⟨front, last, rfl⟩
      · cases FileTree.kind_unique h.root hfile
      · have heq : front.concat last = bucketDir tenant k.1 := by
          refine hq.eq_of_length_le ?_
          simp [bucketDir]
        rw [heq] at hfile
        cases (h.buckets k.1 _ _ hfile List.prefix_rfl).2
    · cases (h.buckets k.1 _ _ hfile hq).2

theorem Fresh.room_sidecar (h : Fresh tenant t) (k : Key) :
    t.Room (metaBucketDir tenant k.1 ++ sidecarNames k) := by
  have hnames : sidecarNames k ≠ [] := by
    simp [sidecarNames, List.splitOn_ne_nil]
  have htop : [Utf8.encode metaDir] <+: metaBucketDir tenant k.1 ++ sidecarNames k :=
    ⟨_, rfl⟩
  refine ⟨fun hdir => ?_, fun q hle hne hfile => ?_⟩
  · have hlen := (h.records _ _ hdir htop).1
    have hpos := List.length_pos_iff.mpr hnames
    simp only [metaBucketDir, List.length_append, List.length_cons, List.length_nil] at hlen
    omega
  · rcases List.prefix_or_prefix_of_prefix hle htop with hq | hq
    · rcases List.eq_nil_or_concat q with rfl | ⟨front, last, rfl⟩
      · cases FileTree.kind_unique h.root hfile
      · have heq : front.concat last = [Utf8.encode metaDir] := by
          refine hq.eq_of_length_le ?_
          simp
        rw [heq] at hfile
        cases (h.records _ _ hfile List.prefix_rfl).2
    · cases (h.records _ _ hfile hq).2

theorem deriveBucketName_ne_metaDir (tenant : TenantSlug) (kb : KbSlug) :
    deriveBucketName tenant kb ≠ metaDir := by
  have hbucket : bucketNamePrefix.head? = some 'n' := by decide
  have hmeta : metaDir.head? = some '.' := by decide
  intro heq
  rw [← heq, deriveBucketName, List.append_assoc, List.head?_append, hbucket] at hmeta
  cases hmeta

/-- An object and a record are apart. -/
theorem apart_object_sidecar (hp : objectPath tenant k = .ok p) :
    FileTree.Apart p (metaBucketDir tenant k'.1 ++ sidecarNames k') := by
  obtain ⟨-, rfl⟩ := pushKey_eq_ok.mp hp
  have hne : Utf8.encode (deriveBucketName tenant k.1) ≠ Utf8.encode metaDir := fun heq =>
    deriveBucketName_ne_metaDir tenant k.1 (Utf8.encode_injective heq)
  unfold FileTree.Apart bucketDir metaBucketDir
  simp only [List.cons_append, List.nil_append, List.cons_prefix_cons]
  exact ⟨fun hle => hne hle.1, fun hle => hne hle.1.symm⟩

/-- The two objects are accepted and can both be there. -/
structure Coexist (tenant : TenantSlug) (k k' : Key) (p p' : FsPath) : Prop where
  ne : k ≠ k'
  first : objectPath tenant k = .ok p
  second : objectPath tenant k' = .ok p'
  apart : FileTree.Apart p p'

/-- The path of a record. -/
def sidecarFile (tenant : TenantSlug) (k : Key) : FsPath :=
  metaBucketDir tenant k.1 ++ sidecarNames k

namespace Coexist

/-- The files of both objects. -/
def files (_ : Coexist tenant k k' p p') : List FsPath :=
  [p, p', sidecarFile tenant k, sidecarFile tenant k']

theorem mem_files (h : Coexist tenant k k' p p') {w : FileWrite} {path : FsPath}
    (hkey : w.key = k ∨ w.key = k') (hpath : w.path tenant = .ok path) : path ∈ h.files := by
  obtain ⟨part, key⟩ := w
  have heq : ∀ {path'}, FileWrite.path tenant ⟨part, key⟩ = .ok path' → path = path' :=
    fun h' => Except.ok.inj (hpath.symm.trans h')
  cases part with
  | object =>
    rcases hkey with rfl | rfl
    · simp [files, heq h.first]
    · simp [files, heq h.second]
  | record =>
    rcases hkey with rfl | rfl
    · simp [files, heq (sidecarPath_eq h.first), sidecarFile]
    · simp [files, heq (sidecarPath_eq h.second), sidecarFile]

theorem writable (h : Coexist tenant k k' p p') : ∀ path ∈ h.files, Writable path := by
  simp only [files, List.forall_mem_cons]
  exact ⟨writable_object h.first, writable_object h.second, writable_sidecar h.first,
    writable_sidecar h.second, List.forall_mem_nil _⟩

theorem roomy (h : Coexist tenant k k' p p') (hfresh : Fresh tenant t) :
    Roomy (· ∈ h.files) t := by
  refine ⟨hfresh.root, ?_⟩
  simp only [files, List.forall_mem_cons]
  exact ⟨hfresh.room_object h.first, hfresh.room_object h.second, hfresh.room_sidecar k,
    hfresh.room_sidecar k', List.forall_mem_nil _⟩

/-- If the two records are apart, so are all four files. -/
theorem files_apart (h : Coexist tenant k k' p p')
    (hrecords : FileTree.Apart (sidecarFile tenant k) (sidecarFile tenant k')) (path path' : FsPath)
    (hpath : path ∈ h.files) (hpath' : path' ∈ h.files) :
    path' = path ∨ FileTree.Apart path path' := by
  have hsymm : Std.Symm fun path path' : FsPath => path' = path ∨ FileTree.Apart path path' := by
    refine ⟨?_⟩
    rintro x y (rfl | hxy)
    · exact .inl rfl
    · exact .inr ⟨hxy.2, hxy.1⟩
  have hpairwise : h.files.Pairwise fun path path' => path' = path ∨ FileTree.Apart path path' := by
    simp only [files, List.pairwise_cons, List.forall_mem_cons]
    refine ⟨⟨.inr h.apart, .inr (apart_object_sidecar h.first),
      .inr (apart_object_sidecar h.first), List.forall_mem_nil _⟩,
      ⟨.inr (apart_object_sidecar h.second), .inr (apart_object_sidecar h.second),
      List.forall_mem_nil _⟩, ⟨.inr hrecords, List.forall_mem_nil _⟩, List.forall_mem_nil _, .nil⟩
  exact hpairwise.forall_of_forall (fun _ _ => .inl rfl) hpath hpath'

/-- If the two records are apart, both can always be written. -/
theorem recordsWritten (h : Coexist tenant k k' p p')
    (hrecords : FileTree.Apart (sidecarFile tenant k) (sidecarFile tenant k'))
    (hfresh : Fresh tenant t) {history : List FileWrite}
    (hkeys : ∀ w ∈ history, w.key = k ∨ w.key = k') : RecordsWritten tenant t history := by
  rintro front key rest rfl
  obtain ⟨hfront, hkey, -⟩ := List.forall_mem_append.mp hkeys |>.imp id List.forall_mem_cons.mp
  have hroomy := (h.roomy hfresh).writes (h.files_apart hrecords) fun w hw path hpath =>
    ⟨h.mem_files (hfront w hw) hpath, h.writable path (h.mem_files (hfront w hw) hpath)⟩
  obtain ⟨path, hpath⟩ : ∃ path, FileWrite.path tenant ⟨.record, key⟩ = .ok path := by
    rcases hkey with rfl | rfl
    · exact ⟨_, sidecarPath_eq h.first⟩
    · exact ⟨_, sidecarPath_eq h.second⟩
  have hmem := h.mem_files hkey hpath
  exact apply_isSome hpath (h.writable path hmem) hroomy.root (hroomy.room path hmem)

end Coexist

end Store

/-! ## When records are apart -/

/-- Two objects that can both be there have records apart, and can both be stored, exactly if neither
key lies in a directory named like the other's record. -/
theorem sidecars_apart_iff (tenant : TenantSlug) (k k' : Key) (p p' : FsPath)
    (h : Coexist tenant k k' p p') :
    SidecarsApart tenant k k' ↔ ¬ UnderSidecar k k' ∧ ¬ UnderSidecar k' k := by
  have hiff : FileTree.Apart (sidecarFile tenant k) (sidecarFile tenant k') ↔
      ¬ UnderSidecar k k' ∧ ¬ UnderSidecar k' k :=
    and_congr (not_congr (sidecarPath_prefix_iff h.ne)) (not_congr (sidecarPath_prefix_iff h.ne.symm))
  have hfirst := sidecarPath_eq h.first
  have hsecond := sidecarPath_eq h.second
  rw [← hiff]
  constructor
  · rintro ⟨⟨s, s', hs, hs', hapart⟩, -⟩
    cases hfirst.symm.trans hs
    cases hsecond.symm.trans hs'
    exact hapart
  · intro hapart
    refine ⟨⟨_, _, hfirst, hsecond, hapart⟩, fun t history hfresh hkeys => ?_⟩
    exact h.recordsWritten hapart hfresh hkeys

/-- The key `a.ntmeta/b`. -/
def inSidecarDir : ObjectPath := ⟨"a.ntmeta/b".toList, by decide⟩

theorem coexist_aMd_bMd : Coexist .default (.notes, .aMd) (.notes, .bMd) (inNotes ["a.md"])
    (inNotes ["b.md"]) where
  ne := by decide
  first := by rfl
  second := by rfl
  apart := by decide

theorem sidecars_apart_aMd_bMd : SidecarsApart .default (.notes, .aMd) (.notes, .bMd) :=
  (sidecars_apart_iff _ _ _ _ _ coexist_aMd_bMd).mpr (by decide)

theorem fresh_emptyNotes : Fresh .default emptyNotes := by
  have hentries : ∀ x kind, (x, kind) ∈ emptyNotes → (x = [] ∨ x = notesDir) ∧ kind = .dir := by
    intro x kind hmem
    rcases FileTree.mem_graft.mp hmem with ⟨hroot, -⟩ | ⟨rest, rfl, hrest⟩
    · obtain ⟨rfl, rfl⟩ := FileTree.mem_single.mp hroot
      exact ⟨.inl rfl, rfl⟩
    · obtain ⟨rfl, rfl⟩ := FileTree.mem_single.mp hrest
      exact ⟨.inr (List.append_nil _), rfl⟩
  refine ⟨by decide, fun kb x kind hmem hle => ?_, fun x kind hmem hle => ?_⟩
  · obtain ⟨rfl | rfl, rfl⟩ := hentries x kind hmem
    · cases List.prefix_nil.mp hle
    · exact ⟨(hle.eq_of_length rfl).symm, rfl⟩
  · obtain ⟨rfl | rfl, rfl⟩ := hentries x kind hmem
    · exact ⟨Nat.zero_le _, rfl⟩
    · exact ⟨by decide, rfl⟩

/-- The object `a.ntmeta/b` is put in place beside `a`, but the record of `a` is in the way of its
record: the write fails half done. -/
theorem sidecar_in_the_way :
    ∃ p p', Coexist .default (.notes, .a) (.notes, inSidecarDir) p p' ∧
      ¬ SidecarsApart .default (.notes, .a) (.notes, inSidecarDir) ∧
      Fresh .default emptyNotes ∧
      (p', .file) ∈ afterWrites .default emptyNotes
        (store (.notes, .a) ++ [⟨.object, (.notes, inSidecarDir)⟩]) ∧
      ¬ RecordsWritten .default emptyNotes (store (.notes, .a) ++ store (.notes, inSidecarDir)) := by
  refine ⟨inNotes ["a"], inNotes ["a.ntmeta", "b"], ⟨by decide, by rfl, by rfl, by decide⟩,
    ?_, fresh_emptyNotes, by decide, ?_⟩
  · rintro ⟨⟨s, s', hs, hs', hapart⟩, -⟩
    cases hs
    cases hs'
    revert hapart
    decide
  · intro hall
    have hsome := hall _ _ [] (List.append_assoc _ [_] _).symm
    revert hsome
    decide

end StorageFs
