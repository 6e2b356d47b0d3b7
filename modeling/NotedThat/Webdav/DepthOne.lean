-- SUMMARY: A PROPFIND of a collection with its members: what it shows, when it is too large, and when every member it shows may be asked for itself.
import NotedThat.Webdav.Lookups

/-!
# Depth 1

A collection of a knowledge base is listed before dav-server runs, and the adapter answers it with the
members of that listing. A member is there because of the keys below it that the caller may list. Asking
for the member itself is authorized by its own path, taken as a key.
-/

namespace Webdav

open Api (StoredListing visible)

-- ---------------------------------------------------------------------------
-- The request
-- ---------------------------------------------------------------------------

/-- Why a request for the members of a collection is not answered. -/
inductive Refused where
  | forbidden
  | listing (e : ListingError)
  | fs (e : FsError)
deriving DecidableEq

/-- What `read_dir` does for a target. -/
def WebDavStorage.readCollection (fs : WebDavStorage) :
    DavTarget → Program (Except FsError (List DavDirEntry))
  | .root => .ok (rootEntries fs.state fs.principal)
  | .kbRoot kb => listEntries fs.state kb none fs.propfindListing fs.principal
  | .object kb path =>
    listEntries fs.state kb (some (folderPrefix path)) fs.propfindListing fs.principal
  | .nonDeclaredKb => .error .forbidden

theorem readDir_eq_readCollection {fs : WebDavStorage} {path : Bytes} {target : DavTarget}
    (h : parseDavPath path fs.state.declaredKbs = .ok target) :
    fs.readDir path = fs.readCollection target := by
  unfold WebDavStorage.readDir
  rw [h]
  cases target <;> rfl

/-- The members of a target: authorization, the listing the interceptor prepares, and what the adapter
makes of it. -/
def depthOne (state : WebDavState) (principal : Principal) (target : DavTarget) :
    Program (Except Refused (List DavDirEntry)) :=
  if isAuthorized state target principal (verbsForMethod "PROPFIND") then do
    match ← preparePropfindListing state target principal with
    | .error e => .error (.listing e)
    | .ok listing =>
      match ← (WebDavStorage.mk state listing principal).readCollection target with
      | .error e => .error (.fs e)
      | .ok entries => .ok entries
  else .error .forbidden

-- ---------------------------------------------------------------------------
-- Storage that does not change
-- ---------------------------------------------------------------------------

/-- Storage whose answers depend on the operation only, and that paginates a knowledge base correctly. -/
structure Unchanging (kb : KbSlug) where
  listing : StoredListing
  answer : (o : Op) → o.Res
  lists : ∀ pre limit cursor,
    answer (.storage (.list kb pre limit cursor)) = listing.listObjects pre limit cursor

namespace Unchanging

variable {kb : KbSlug} (storage : Unchanging kb)

def answerOf {α : Type} (program : Program α) : α := (program.run (fun o s => (storage.answer o, s)) ()).1

/-- The collections of the knowledge base, with the prefix of their keys. A path with an object of its own
is none. -/
inductive CollectionAt : DavTarget → Option Text → Prop where
  | root : CollectionAt (.kbRoot kb) none
  | folder (path : ObjectPath) (e : StorageError)
      (hhead : storage.answer (.storage (.head kb path {})) = .error e) (he : e.isNotFound = true) :
      CollectionAt (.object kb path) (some (folderPrefix path))

/-- The objects under a prefix that a principal may list. -/
def allowed (state : WebDavState) (principal : Principal) (pre : Option Text) : List ObjectMeta :=
  storage.listing.stored.filter fun m =>
    (pre.getD []).isPrefixOf m.key && (state.policyFor kb).allows principal .list m.key

/-- More objects than a listing shows, or looks at. -/
def TooLarge (state : WebDavState) (principal : Principal) (pre : Option Text) : Prop :=
  propfindMaxEntries < (storage.allowed state principal pre).length ∨
    propfindMaxScanned < (storage.listing.stored.filter fun m => (pre.getD []).isPrefixOf m.key).length

end Unchanging

-- ---------------------------------------------------------------------------
-- Members
-- ---------------------------------------------------------------------------

/-- The key starts with the prefix, and goes on with this segment. -/
def FirstSegment (pre key name : Text) : Prop :=
  '/' ∉ name ∧ (key = pre ++ name ∧ name ≠ [] ∨ ∃ rest, key = pre ++ name ++ '/' :: rest)

/-- One entry for each first segment of the keys of some objects: a folder if a key continues behind it,
and else the file. -/
structure MembersOf (entries : List DavDirEntry) (pre : Text) (objects : List ObjectMeta) : Prop where
  nodup : (entries.map DavDirEntry.name).Nodup
  names : ∀ name, name ∈ entries.map DavDirEntry.name ↔ ∃ m ∈ objects, FirstSegment pre m.key name
  folders : ∀ e ∈ entries, e.isDir = true ↔ ∃ m ∈ objects, ∃ rest, m.key = pre ++ e.name ++ '/' :: rest
  files : ∀ e ∈ entries, e.isDir = false → ∃ m ∈ objects, m.key = pre ++ e.name ∧ e = .ofObject e.name m

/-- The entries of a rolled up level. -/
theorem mem_entriesFromObjects {objects : List ObjectMeta} {pre : Option Text} {e : DavDirEntry}
    (h : (rollUp objects (pre.getD [])).LevelOf (pre.getD []) objects) :
    e ∈ entriesFromObjects objects pre ↔
      ('/' ∉ e.name ∧ (∃ m ∈ objects, ∃ rest, m.key = pre.getD [] ++ e.name ++ '/' :: rest) ∧
        e = .ofVirtual e.name) ∨
      ('/' ∉ e.name ∧ (¬ ∃ m ∈ objects, ∃ rest, m.key = pre.getD [] ++ e.name ++ '/' :: rest) ∧
        e.name ≠ [] ∧ ∃ m ∈ objects, m.key = pre.getD [] ++ e.name ∧ e = .ofObject e.name m) := by
  unfold entriesFromObjects
  rw [List.mem_append, List.mem_map, List.mem_map]
  refine or_congr ?_ ?_
  · constructor
    · rintro ⟨name, hname, rfl⟩
      obtain ⟨hslash, hbelow⟩ := (h.mem_folders name).mp hname
      exact ⟨hslash, hbelow, rfl⟩
    · rintro ⟨hslash, hbelow, he⟩
      exact ⟨e.name, (h.mem_folders e.name).mpr ⟨hslash, hbelow⟩, he.symm⟩
  · constructor
    · rintro ⟨⟨name, m⟩, hfile, rfl⟩
      obtain ⟨hfile, hshadow⟩ := List.mem_filter.mp hfile
      obtain ⟨hm, hkey, hne, hslash⟩ := (h.mem_files name m).mp hfile
      refine ⟨hslash, fun hbelow => ?_, hne, m, hm, hkey, rfl⟩
      exact of_decide_eq_true hshadow ((h.mem_folders name).mpr ⟨hslash, hbelow⟩)
    · rintro ⟨hslash, halone, hne, m, hm, hkey, he⟩
      refine ⟨(e.name, m), List.mem_filter.mpr ⟨(h.mem_files e.name m).mpr ⟨hm, hkey, hne, hslash⟩, ?_⟩,
        he.symm⟩
      exact decide_eq_true fun hfolder => halone ((h.mem_folders e.name).mp hfolder).2

theorem entriesFromObjects_nodup {objects : List ObjectMeta} {pre : Option Text}
    (h : (rollUp objects (pre.getD [])).LevelOf (pre.getD []) objects) :
    ((entriesFromObjects objects pre).map DavDirEntry.name).Nodup := by
  have hfolders : ((rollUp objects (pre.getD [])).folders.map (DavDirEntry.name ∘ .ofVirtual)).Nodup := by
    have hid : (DavDirEntry.name ∘ .ofVirtual) = id := rfl
    rw [hid, List.map_id]
    exact h.foldersSorted.imp ne_of_lt
  have hfiles : (((rollUp objects (pre.getD [])).files.filter fun e =>
      e.1 ∉ (rollUp objects (pre.getD [])).folders).map Prod.fst).Nodup :=
    List.pairwise_map.mpr ((h.filesSorted.filter _).imp ne_of_lt)
  unfold entriesFromObjects
  rw [List.map_append, List.map_map, List.map_map]
  refine hfolders.append hfiles ?_
  intro name hfolder hfile
  obtain ⟨folder, hfolder, hname⟩ := List.mem_map.mp hfolder
  obtain ⟨file, hfile, hname'⟩ := List.mem_map.mp hfile
  have hsame : file.1 = folder := hname'.trans hname.symm
  have hshadow := of_decide_eq_true (List.mem_filter.mp hfile).2
  rw [hsame] at hshadow
  exact hshadow hfolder

/-- A sorted listing becomes the members of the level directly under the prefix. -/
theorem entriesFromObjects_membersOf {objects : List ObjectMeta} (pre : Option Text)
    (hsorted : objects.Pairwise fun m m' => m.key < m'.key) :
    MembersOf (entriesFromObjects objects pre) (pre.getD []) objects := by
  have hlevel := rollUp_levelOf (pre.getD []) hsorted
  refine ⟨entriesFromObjects_nodup hlevel, fun name => ?_, fun e he => ?_, fun e he hfile => ?_⟩
  · rw [List.mem_map]
    constructor
    · rintro ⟨e, he, rfl⟩
      rcases (mem_entriesFromObjects hlevel).mp he with
        ⟨hslash, ⟨m, hm, hbelow⟩, -⟩ | ⟨hslash, -, hne, m, hm, hkey, -⟩
      · exact ⟨m, hm, hslash, Or.inr hbelow⟩
      · exact ⟨m, hm, hslash, Or.inl ⟨hkey, hne⟩⟩
    · rintro ⟨m, hm, hslash, hsegment⟩
      by_cases hfolder : ∃ m ∈ objects, ∃ rest, m.key = pre.getD [] ++ name ++ '/' :: rest
      · exact ⟨.ofVirtual name, (mem_entriesFromObjects hlevel).mpr (Or.inl ⟨hslash, hfolder, rfl⟩), rfl⟩
      · rcases hsegment with ⟨hkey, hne⟩ | hbelow
        · exact ⟨.ofObject name m,
            (mem_entriesFromObjects hlevel).mpr (Or.inr ⟨hslash, hfolder, hne, m, hm, hkey, rfl⟩), rfl⟩
        · exact absurd ⟨m, hm, hbelow⟩ hfolder
  · rcases (mem_entriesFromObjects hlevel).mp he with ⟨-, hbelow, heq⟩ | ⟨-, halone, -, m, -, -, heq⟩
    · rw [heq]
      exact ⟨fun _ => hbelow, fun _ => rfl⟩
    · refine ⟨fun hdir => ?_, fun hbelow => absurd hbelow halone⟩
      rw [heq] at hdir
      cases hdir
  · rcases (mem_entriesFromObjects hlevel).mp he with ⟨-, -, heq⟩ | ⟨-, -, -, hentry⟩
    · rw [heq] at hfile
      cases hfile
    · exact hentry

-- ---------------------------------------------------------------------------
-- What is answered
-- ---------------------------------------------------------------------------

section Answers

variable {kb : KbSlug} {storage : Unchanging kb} {state : WebDavState} {principal : Principal}
variable {target : DavTarget} {pre : Option Text}

theorem Unchanging.allowed_eq (storage : Unchanging kb) (state : WebDavState) (principal : Principal)
    (pre : Option Text) : storage.allowed state principal pre =
      visible ((state.policyFor kb).keyFilter principal .list) (storage.listing.rows pre) := by
  unfold Unchanging.allowed visible StoredListing.rows Api.rowsOf
  rw [List.filter_filter]
  exact List.filter_congr fun m _ => Bool.and_comm ..

theorem Unchanging.mem_allowed {m : ObjectMeta} : m ∈ storage.allowed state principal pre ↔
    m ∈ storage.listing.stored ∧ pre.getD [] <+: m.key ∧
      (state.policyFor kb).allows principal .list m.key = true := by
  rw [allowed, List.mem_filter, Bool.and_eq_true, List.isPrefixOf_iff_prefix]

theorem cappedListing_eq : cappedListing storage.listing ((state.policyFor kb).keyFilter principal .list) pre =
    if (storage.listing.rows pre).length ≤ propfindMaxScanned ∧
        (storage.allowed state principal pre).length ≤ propfindMaxEntries then
      .ok (storage.allowed state principal pre)
    else .error .tooLarge := by
  rw [storage.allowed_eq]
  rfl

theorem preparePropfindListing_answerOf (hat : storage.CollectionAt target pre) :
    storage.answerOf (preparePropfindListing state target principal) =
      (cappedListing storage.listing ((state.policyFor kb).keyFilter principal .list) pre).map
        fun objects => some ⟨kb, pre, objects⟩ := by
  have hcollect : ∀ pre, (collectPropfindObjects state kb pre principal).run
      (fun o s => (storage.answer o, s)) () =
        (cappedListing storage.listing ((state.policyFor kb).keyFilter principal .list) pre, ()) :=
    fun pre => collectPropfindObjects_run_listing fun pre limit cursor =>
      congrArg (·, ()) (storage.lists pre limit cursor)
  unfold Unchanging.answerOf
  cases hat with
  | root =>
    simp only [preparePropfindListing, Prog.bind_eq, Prog.run_bind, hcollect]
    cases cappedListing storage.listing ((state.policyFor kb).keyFilter principal .list) none <;> rfl
  | folder path e hhead he =>
    unfold preparePropfindListing
    dsimp only
    rw [Program.run_storage, hhead]
    simp only [he, if_true, Prog.bind_eq, Prog.run_bind, hcollect]
    cases cappedListing storage.listing ((state.policyFor kb).keyFilter principal .list)
      (some (folderPrefix path)) <;> rfl

theorem listEntries_prepared {objects : List ObjectMeta} :
    listEntries state kb pre (some ⟨kb, pre, objects⟩) principal =
      .ok (entriesFromObjects (objects.filter fun object =>
        ((state.policyFor kb).keyFilter principal .list).allows object.key) pre) := by
  have hfor : (some (PropfindListing.mk kb pre objects)).filter (fun listing =>
      listing.kb = kb ∧ listing.pre = pre) = some ⟨kb, pre, objects⟩ := by simp [Option.filter]
  unfold listEntries
  rw [hfor]

/-- The adapter shows the listing that was prepared. -/
theorem readCollection_prepared (hat : storage.CollectionAt target pre) :
    (WebDavStorage.mk state (some ⟨kb, pre, storage.allowed state principal pre⟩) principal).readCollection
        target = .ok (entriesFromObjects (storage.allowed state principal pre) pre) := by
  have hkept : (storage.allowed state principal pre).filter (fun object =>
      ((state.policyFor kb).keyFilter principal .list).allows object.key) =
      storage.allowed state principal pre :=
    List.filter_eq_self.mpr fun m hm => (Unchanging.mem_allowed.mp hm).2.2
  cases hat with
  | root => exact listEntries_prepared.trans (by rw [hkept])
  | folder path e hhead he => exact listEntries_prepared.trans (by rw [hkept])

theorem not_tooLarge_iff : ¬ storage.TooLarge state principal pre ↔
    (storage.listing.rows pre).length ≤ propfindMaxScanned ∧
      (storage.allowed state principal pre).length ≤ propfindMaxEntries := by
  rw [Unchanging.TooLarge, not_or, Nat.not_lt, Nat.not_lt, and_comm]
  exact Iff.rfl

theorem depthOne_forbidden (hauth : isAuthorized state target principal (verbsForMethod "PROPFIND") = false) :
    storage.answerOf (depthOne state principal target) = .error .forbidden := by
  unfold depthOne
  rw [hauth]
  rfl

theorem depthOne_tooLarge (hat : storage.CollectionAt target pre)
    (hauth : isAuthorized state target principal (verbsForMethod "PROPFIND") = true)
    (hlarge : storage.TooLarge state principal pre) :
    storage.answerOf (depthOne state principal target) = .error (.listing .tooLarge) := by
  have hprepare := @preparePropfindListing_answerOf kb storage state principal target pre hat
  rw [cappedListing_eq, if_neg fun hfits => not_tooLarge_iff.mpr hfits hlarge] at hprepare
  unfold Unchanging.answerOf at hprepare ⊢
  unfold depthOne
  rw [if_pos hauth, Prog.bind_eq, Prog.run_bind, hprepare]
  rfl

theorem depthOne_answered (hat : storage.CollectionAt target pre)
    (hauth : isAuthorized state target principal (verbsForMethod "PROPFIND") = true)
    (hfits : ¬ storage.TooLarge state principal pre) :
    storage.answerOf (depthOne state principal target) =
      .ok (entriesFromObjects (storage.allowed state principal pre) pre) := by
  have hprepare := @preparePropfindListing_answerOf kb storage state principal target pre hat
  rw [cappedListing_eq, if_pos (not_tooLarge_iff.mp hfits)] at hprepare
  unfold Unchanging.answerOf at hprepare ⊢
  unfold depthOne
  rw [if_pos hauth, Prog.bind_eq, Prog.run_bind, hprepare]
  dsimp only [Except.map]
  rw [readCollection_prepared hat]
  rfl

/-- What is promised of a request for the members of a collection. -/
structure Kept (storage : Unchanging kb) (state : WebDavState) (principal : Principal) (target : DavTarget)
    (pre : Option Text) : Prop where
  members : ∀ entries, storage.answerOf (depthOne state principal target) = .ok entries →
    MembersOf entries (pre.getD []) (storage.allowed state principal pre)
  refused : storage.answerOf (depthOne state principal target) = .error (.listing .tooLarge) ↔
    isAuthorized state target principal (verbsForMethod "PROPFIND") = true ∧
      storage.TooLarge state principal pre
  /-- Every member is a target that the principal may ask for. -/
  targets : ∀ entries, storage.answerOf (depthOne state principal target) = .ok entries →
    ∀ e ∈ entries, ∃ path : ObjectPath, path.val = pre.getD [] ++ e.name ∧
      isAuthorized state (.object kb path) principal (verbsForMethod "PROPFIND") = true

theorem isAuthorized_object {path : ObjectPath} :
    isAuthorized state (.object kb path) principal (verbsForMethod "PROPFIND") =
      (state.policyFor kb).allows principal .list path.val := by
  simp [isAuthorized, verbsForMethod, allows]

theorem answered_members (hat : storage.CollectionAt target pre) {entries : List DavDirEntry}
    (h : storage.answerOf (depthOne state principal target) = .ok entries) :
    isAuthorized state target principal (verbsForMethod "PROPFIND") = true ∧
      ¬ storage.TooLarge state principal pre ∧
      MembersOf entries (pre.getD []) (storage.allowed state principal pre) := by
  cases hauth : isAuthorized state target principal (verbsForMethod "PROPFIND") with
  | false =>
    rw [depthOne_forbidden hauth] at h
    cases h
  | true =>
    by_cases hlarge : storage.TooLarge state principal pre
    · rw [depthOne_tooLarge hat hauth hlarge] at h
      cases h
    · rw [depthOne_answered hat hauth hlarge] at h
      cases h
      exact ⟨rfl, hlarge, entriesFromObjects_membersOf pre (storage.listing.sorted.filter _)⟩

theorem refused_tooLarge_iff (hat : storage.CollectionAt target pre) :
    storage.answerOf (depthOne state principal target) = .error (.listing .tooLarge) ↔
      isAuthorized state target principal (verbsForMethod "PROPFIND") = true ∧
        storage.TooLarge state principal pre := by
  cases hauth : isAuthorized state target principal (verbsForMethod "PROPFIND") with
  | false =>
    rw [depthOne_forbidden hauth]
    simp
  | true =>
    by_cases hlarge : storage.TooLarge state principal pre
    · simp [depthOne_tooLarge hat hauth hlarge, hlarge]
    · simp [depthOne_answered hat hauth hlarge, hlarge]

/-- For every policy, principal, collection and unchanging storage: the members are shown completely, or
refused as too large exactly if they are. All that is shown may be asked for if and only if the collection
is refused, or the first segment of each allowed key gives a valid path, which is allowed itself where the
key continues behind it. -/
theorem depthOne_kept_iff (storage : Unchanging kb) (state : WebDavState) (principal : Principal)
    (hat : storage.CollectionAt target pre) :
    Kept storage state principal target pre ↔
      isAuthorized state target principal (verbsForMethod "PROPFIND") = false ∨
      storage.TooLarge state principal pre ∨
      ∀ m ∈ storage.allowed state principal pre, ∀ name, FirstSegment (pre.getD []) m.key name →
        (∃ path : ObjectPath, path.val = pre.getD [] ++ name) ∧
          ((∃ rest, m.key = pre.getD [] ++ name ++ '/' :: rest) →
            (state.policyFor kb).allows principal .list (pre.getD [] ++ name) = true) := by
  constructor
  · intro h
    cases hauth : isAuthorized state target principal (verbsForMethod "PROPFIND") with
    | false => exact Or.inl rfl
    | true =>
      by_cases hlarge : storage.TooLarge state principal pre
      · exact Or.inr (Or.inl hlarge)
      · refine Or.inr (Or.inr fun m hm name hname => ?_)
        have hanswered := depthOne_answered hat hauth hlarge
        obtain ⟨e, he, rfl⟩ := List.mem_map.mp (((h.members _ hanswered).names name).mpr ⟨m, hm, hname⟩)
        obtain ⟨path, hpath, hmay⟩ := h.targets _ hanswered e he
        rw [isAuthorized_object, hpath] at hmay
        exact ⟨⟨path, hpath⟩, fun _ => hmay⟩
  · intro hcondition
    refine ⟨fun entries h => (answered_members hat h).2.2, refused_tooLarge_iff hat, fun entries h e he => ?_⟩
    obtain ⟨hauth, hfits, hmembers⟩ := answered_members hat h
    have hsegments := (hcondition.resolve_left (by simp [hauth])).resolve_left hfits
    obtain ⟨m, hm, hsegment⟩ := (hmembers.names e.name).mp (List.mem_map_of_mem he)
    obtain ⟨⟨path, hpath⟩, hfolder⟩ := hsegments m hm e.name hsegment
    refine ⟨path, hpath, ?_⟩
    rw [isAuthorized_object, hpath]
    rcases hsegment.2 with ⟨hkey, -⟩ | hbelow
    · rw [← hkey]
      exact (Unchanging.mem_allowed.mp hm).2.2
    · exact hfolder hbelow

end Answers

/-- What the storage model answers while nothing changes it. -/
def Unchanging.ofWorld (w : World) (kb : KbSlug) : Unchanging kb where
  listing := Api.objectsListing w.store.objects kb
  answer o := (World.alone (fun _ => .error "invalid HTTP-date") ⟨ETag.ofInner ['c'] (by decide), 1⟩ o w).1
  lists _ _ _ := congrArg Prod.fst World.alone_list

/-- A note in a folder. -/
def docsNote : Unchanging .notes :=
  .ofWorld (World.empty.apply (.stored (.notes, ⟨"docs/a.md".toList, by decide⟩) (.tagged 's' []))) .notes

def docsState (policy : AccessPolicy) : WebDavState where
  declaredKbs := [("notes".toList, .notes)]
  accessPolicies := [("notes".toList, policy)]
  events := false
  json := ⟨fun _ => .error "expected value at line 1 column 1", fun _ => []⟩
  parseUri := fun _ => none

def ann : Principal := .signedIn (.user ⟨"ann".toList, []⟩)

/-- With a grant for everything, the folder may be asked for as well. -/
theorem depthOne_kept_docs :
    Kept docsNote (docsState ⟨[AccessRule.new .signedIn [.list]]⟩) ann (.kbRoot .notes) none := by
  refine (depthOne_kept_iff docsNote _ ann .root).mpr (Or.inr (Or.inr ?_))
  intro m hm name ⟨hslash, hsegment⟩
  have hkeys : (docsNote.allowed (docsState ⟨[AccessRule.new .signedIn [.list]]⟩) ann none).map
      ObjectMeta.key = ["docs/a.md".toList] := by decide
  have hkey : m.key = "docs/a.md".toList := by
    have hmem := List.mem_map_of_mem (f := ObjectMeta.key) hm
    rwa [hkeys, List.mem_singleton] at hmem
  have hname : name = "docs".toList := by
    rw [hkey] at hsegment
    rcases hsegment with ⟨hwhole, -⟩ | ⟨rest, hbelow⟩
    · rw [Option.getD_none, List.nil_append] at hwhole
      rw [← hwhole] at hslash
      exact absurd (by decide) hslash
    · exact @Rollup.append_slash_inj name "docs".toList rest "a.md".toList hbelow.symm hslash (by decide)
  rw [hname]
  exact ⟨⟨⟨"docs".toList, by decide⟩, rfl⟩, fun _ => by decide⟩

/-- Everyone signed in may list the Markdown files directly in `docs`. -/
def docsPolicy : AccessPolicy :=
  ⟨[⟨.signedIn, .allow, [.list],
    [⟨"docs/*.md".toList, [[.literal "docs".toList, .wild [.star, .literal ".md".toList]]], by decide⟩]⟩]⟩

/-- The folder that is shown is refused. -/
theorem folder_shown_and_refused :
    docsNote.answerOf (depthOne (docsState docsPolicy) ann (.kbRoot .notes)) =
      .ok [.ofVirtual "docs".toList] ∧
    docsNote.answerOf (depthOne (docsState docsPolicy) ann (.object .notes ⟨"docs".toList, by decide⟩)) =
      .error .forbidden ∧
    ¬ Kept docsNote (docsState docsPolicy) ann (.kbRoot .notes) none := by
  have hshown : docsNote.answerOf (depthOne (docsState docsPolicy) ann (.kbRoot .notes)) =
      .ok [.ofVirtual "docs".toList] := by decide
  refine ⟨hshown, by decide, fun hkept => ?_⟩
  obtain ⟨path, hpath, hmay⟩ := hkept.targets _ hshown _ List.mem_cons_self
  have hval : path.val = "docs".toList := hpath
  rw [isAuthorized_object, hval] at hmay
  revert hmay
  decide

end Webdav
