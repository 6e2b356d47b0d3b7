-- SUMMARY: The lookups of the WebDAV surface tell which objects there are and touch nothing else.
import NotedThat.Api.FilteredListing
import NotedThat.Core.Alone
import NotedThat.Webdav.Router

/-!
# Lookups

Deciding whether a path is an object or a folder, and listing a folder, are HEAD requests and
listings only, whatever storage answers.
-/

namespace Webdav

open Prog (Only)
open World (Looks)

theorem collectPages_looks {filter : KeyFilter} {kb : KbSlug} {pre : Option Text} {fuel : Nat}
    {scanned : Nat} {allObjects : List ObjectMeta} {cursor : Option Text} :
    (collectPages filter kb pre fuel scanned allObjects cursor).Only Looks fun _ => True := by
  induction fuel generalizing scanned allObjects cursor with
  | zero => trivial
  | succ fuel ih =>
    refine Only.call trivial fun r => ?_
    cases r with
    | error e => trivial
    | ok response =>
      dsimp only
      split
      · trivial
      · split
        · trivial
        · exact ih

theorem collectPropfindObjects_looks {state : WebDavState} {kb : KbSlug} {pre : Option Text}
    {principal : Principal} :
    (collectPropfindObjects state kb pre principal).Only Looks fun _ => True :=
  collectPages_looks

theorem listEntries_looks {state : WebDavState} {kb : KbSlug} {pre : Option Text}
    {listing : Option PropfindListing} {principal : Principal} :
    (listEntries state kb pre listing principal).Only Looks fun _ => True := by
  unfold listEntries
  split
  · trivial
  · refine Only.andThen collectPropfindObjects_looks fun r => ?_
    cases r <;> trivial


theorem metadataForObjectOrPrefix_looks {kb : KbSlug} {path : ObjectPath} :
    (metadataForObjectOrPrefix kb path).Only Looks fun _ => True := by
  refine Only.call trivial fun r => ?_
  cases r with
  | ok m => trivial
  | error e =>
    dsimp only
    split
    · refine Only.call trivial fun r => ?_
      cases r with
      | error e => trivial
      | ok response =>
        dsimp only
        split <;> trivial
    · trivial

theorem isVirtualFolder_looks {kb : KbSlug} {path : ObjectPath} :
    (isVirtualFolder kb path).Only Looks fun _ => True := by
  refine Only.call trivial fun r => ?_
  cases r with
  | ok m => trivial
  | error e =>
    dsimp only
    split
    · refine Only.call trivial fun r => ?_
      cases r <;> trivial
    · trivial

theorem proppatchEtag_looks {target : DavTarget} :
    (proppatchEtag target).Only Looks fun _ => True := by
  cases target with
  | object kb path =>
    refine Only.call trivial fun r => ?_
    cases r with
    | ok m => trivial
    | error e =>
      dsimp only
      split
      · refine Only.call trivial fun r => ?_
        cases r with
        | error e => trivial
        | ok response =>
          dsimp only
          split <;> trivial
      · trivial
  | _ => trivial

theorem preparePropfindListing_looks {state : WebDavState} {target : DavTarget}
    {principal : Principal} :
    (preparePropfindListing state target principal).Only Looks fun _ => True := by
  cases target with
  | kbRoot kb =>
    refine Only.andThen collectPropfindObjects_looks fun r => ?_
    cases r <;> trivial
  | object kb path =>
    refine Only.call trivial fun r => ?_
    cases r with
    | ok m => trivial
    | error e =>
      dsimp only
      split
      · refine Only.andThen collectPropfindObjects_looks fun r => ?_
        cases r <;> trivial
      · trivial
  | _ => trivial

namespace WebDavStorage

variable {fs : WebDavStorage} {path : Bytes}

theorem readDir_looks : (fs.readDir path).Only Looks fun _ => True := by
  unfold readDir
  split
  · trivial
  · trivial
  · exact listEntries_looks
  · exact listEntries_looks
  · trivial

theorem metadata_looks : (fs.metadata path).Only Looks fun _ => True := by
  unfold metadata
  split
  · trivial
  · trivial
  · trivial
  · split
    · exact metadataForObjectOrPrefix_looks
    · trivial
  · trivial

end WebDavStorage

/-! ## What a listing collects -/

section Listing

variable {filter : KeyFilter} {scanned : Nat} {allObjects objects : List ObjectMeta}

theorem takePage_eq (hscanned : scanned ≤ propfindMaxScanned)
    (hentries : allObjects.length ≤ propfindMaxEntries) :
    takePage filter scanned allObjects objects =
      if scanned + objects.length ≤ propfindMaxScanned ∧
          (allObjects ++ objects.filter (filter.allows ·.key)).length ≤ propfindMaxEntries then
        .ok (scanned + objects.length, allObjects ++ objects.filter (filter.allows ·.key))
      else .error .tooLarge := by
  induction objects generalizing scanned allObjects with
  | nil => simp [takePage, hscanned, hentries]
  | cons object objects ih =>
    simp only [takePage, List.length_cons]
    split
    · rw [if_neg]
      omega
    · next hle =>
      have hnext : scanned + 1 ≤ propfindMaxScanned := by omega
      have hcount : scanned + 1 + objects.length = scanned + (objects.length + 1) := by omega
      split
      · next hhidden =>
        have hfilter : (object :: objects).filter (filter.allows ·.key) =
            objects.filter (filter.allows ·.key) := List.filter_cons_of_neg (by simpa using hhidden)
        rw [ih hnext hentries, hfilter, hcount]
      · next hshown =>
        have hfilter : (object :: objects).filter (filter.allows ·.key) =
            object :: objects.filter (filter.allows ·.key) :=
          List.filter_cons_of_pos (by simpa using hshown)
        split
        · next hfull =>
          rw [if_neg]
          rintro ⟨-, hlen⟩
          rw [hfilter, List.length_append, List.length_cons] at hlen
          omega
        · next hroom =>
          have hentries' : (allObjects ++ [object]).length ≤ propfindMaxEntries := by
            rw [List.length_append, List.length_singleton]
            omega
          rw [ih hnext hentries', hfilter, hcount, List.append_assoc, List.singleton_append]

variable {kb : KbSlug} {pre : Option Text}

open Api (StoredListing visible)

/-- A listing as the caps leave it: whole, or refused. -/
def cappedListing (l : StoredListing) (filter : KeyFilter) (pre : Option Text) :
    Except ListingError (List ObjectMeta) :=
  if (l.rows pre).length ≤ propfindMaxScanned ∧
      (visible filter (l.rows pre)).length ≤ propfindMaxEntries then
    .ok (visible filter (l.rows pre))
  else .error .tooLarge

/-- The loop from any page on, on storage that answers as a listing does. The first `scanned` rows
are behind it, and the fuel is enough for those the scan cap leaves. -/
theorem collectPages_run {σ : Type} {step : (o : Op) → σ → o.Res × σ} {s : σ} {l : StoredListing}
    (hlist : ∀ pre limit cursor, step (.storage (.list kb pre limit cursor)) s =
      (l.listObjects pre limit cursor, s)) {fuel : Nat} {cursor : Option Text}
    (hstands : l.StandsAt pre cursor scanned)
    (hall : allObjects = visible filter ((l.rows pre).take scanned))
    (hscanned : scanned ≤ propfindMaxScanned) (hentries : allObjects.length ≤ propfindMaxEntries)
    (hfuel : propfindMaxScanned < fuel + scanned) :
    (collectPages filter kb pre fuel scanned allObjects cursor).run step s =
      (cappedListing l filter pre, s) := by
  induction fuel generalizing scanned allObjects cursor with
  | zero => omega
  | succ fuel ih =>
    set limit := min (propfindMaxEntries - allObjects.length + 1) 1000 with hlimit
    have hpos : 0 < limit := by omega
    obtain ⟨nextCursor, hpage, hnone, hsome⟩ := StoredListing.listObjects_reads hpos hstands
    -- the rows up to the end of this page
    have hshown : allObjects ++ visible filter (((l.rows pre).drop scanned).take (l.size pre scanned limit)) =
        visible filter ((l.rows pre).take (scanned + l.size pre scanned limit)) := by
      rw [List.take_add, StoredListing.visible_append, hall]
    have hprefix : visible filter ((l.rows pre).take (scanned + l.size pre scanned limit)) <+:
        visible filter (l.rows pre) := (List.take_prefix _ _).filter _
    unfold collectPages
    dsimp only
    rw [Program.run_storage, ← hlimit, hlist, hpage]
    dsimp only
    rw [takePage_eq hscanned hentries, StoredListing.length_page, ← visible, hshown]
    split
    · next e hcapped =>
      split at hcapped
      · cases hcapped
      · next hcaps =>
        cases hcapped
        refine congrArg (·, s) (if_neg fun hok => hcaps ⟨?_, hprefix.length_le.trans hok.2⟩).symm
        have hwithin := l.size_within pre scanned limit
        have hrows : (l.rows pre).length ≤ propfindMaxScanned := hok.1
        have hle : scanned + ((l.rows pre).length - scanned) ≤ propfindMaxScanned := by omega
        exact (Nat.add_le_add_left hwithin scanned).trans hle
    · next scanned' allObjects' htaken =>
      split at htaken
      · next hcaps =>
        cases htaken
        cases nextCursor with
        | none =>
          have hwhole := List.take_of_length_le (hnone rfl)
          rw [hwhole] at hcaps ⊢
          exact congrArg (·, s) (if_pos ⟨(hnone rfl).trans hcaps.1, hcaps.2⟩).symm
        | some next =>
          obtain ⟨hposition, hless⟩ := hsome next rfl
          have hmoved := l.size_pos pre scanned limit hpos (Nat.lt_of_le_of_lt (Nat.le_add_right _ _) hless)
          exact ih hposition rfl hcaps.1 hcaps.2 (by omega)
      · cases htaken

theorem collectPropfindObjects_run_listing {σ : Type} {step : (o : Op) → σ → o.Res × σ} {s : σ}
    {l : StoredListing} (hlist : ∀ pre limit cursor, step (.storage (.list kb pre limit cursor)) s =
      (l.listObjects pre limit cursor, s)) {state : WebDavState} {principal : Principal} :
    (collectPropfindObjects state kb pre principal).run step s =
      (cappedListing l ((state.policyFor kb).keyFilter principal .list) pre, s) :=
  collectPages_run hlist rfl (by simp [visible]) (Nat.zero_le _) (Nat.zero_le _) (Nat.lt_succ_self _)

/-! ### On the storage model -/

variable {parseHttpDate : Text → Except String Nat} {stamp : Stamp} {w : World}

/-- What a listing shows of an entry. -/
def listed (e : Key × Version) : ObjectMeta :=
  { e.2.objectMeta e.1.2 e.2.size with contentType := none, etag := none }

theorem listPage_objects {s : Objects} {limit : Nat} {cursor : Option Text}
    (hlimit : limit ≤ StorageOp.maxListLimit) :
    (StorageOp.listPage s kb pre limit cursor).objects =
      ((s.matching kb (pre.getD []) cursor).take limit).map listed := by
  simp only [StorageOp.listPage, min_eq_left hlimit]
  rfl

/-- The objects of a listing that the filter allows. -/
def visibleObjects (filter : KeyFilter) (kb : KbSlug) (pre : Option Text) (w : World) :
    List ObjectMeta :=
  ((w.store.objects.matching kb (pre.getD []) none).map listed).filter (filter.allows ·.key)

/-- A listing of the model as the caps leave it. -/
def visibleListing (filter : KeyFilter) (kb : KbSlug) (pre : Option Text) (w : World) :
    Except ListingError (List ObjectMeta) :=
  if (w.store.objects.matching kb (pre.getD []) none).length ≤ propfindMaxScanned ∧
      (visibleObjects filter kb pre w).length ≤ propfindMaxEntries then
    .ok (visibleObjects filter kb pre w)
  else .error .tooLarge

theorem cappedListing_objects :
    cappedListing (Api.objectsListing w.store.objects kb) filter pre = visibleListing filter kb pre w := by
  have hrows : (Api.objectsListing w.store.objects kb).rows pre =
      (w.store.objects.matching kb (pre.getD []) none).map listed := Api.rowsOf_listed ..
  unfold cappedListing visibleListing visibleObjects visible
  rw [hrows, List.length_map]

theorem collectPropfindObjects_run {state : WebDavState} {principal : Principal} :
    (collectPropfindObjects state kb pre principal).run (World.alone parseHttpDate stamp) w =
      (visibleListing ((state.policyFor kb).keyFilter principal .list) kb pre w, w) := by
  rw [← cappedListing_objects]
  exact collectPropfindObjects_run_listing fun _ _ _ => World.alone_list

end Listing

/-! ## What the lookups answer a request that runs alone -/

section Alone

variable {parseHttpDate : Text → Except String Nat} {stamp : Stamp} {w : World}
variable {kb : KbSlug} {path : ObjectPath}

open World (alone)

/-- Something is stored beneath the path. -/
def hasBelow (w : World) (kb : KbSlug) (path : ObjectPath) : Bool :=
  !(w.store.objects.matching kb (folderPrefix path) none).isEmpty

theorem listOne_isEmpty :
    (StorageOp.listPage w.store.objects kb (some (folderPrefix path)) 1 none).objects.isEmpty =
      !hasBelow w kb path := by
  rw [listPage_objects (by decide), hasBelow, Option.getD_some]
  cases w.store.objects.matching kb (folderPrefix path) none with
  | nil => simp
  | cons e found => simp

theorem isVirtualFolder_run :
    (isVirtualFolder kb path).run (alone parseHttpDate stamp) w =
      ((w.get (kb, path)).isNone && hasBelow w kb path, w) := by
  unfold isVirtualFolder
  rw [Program.run_storage]
  cases hv : w.get (kb, path) with
  | some v =>
    rw [World.alone_head_some hv]
    rfl
  | none =>
    rw [World.alone_head_none hv]
    simp only [StorageError.isNotFound, if_true]
    rw [Program.run_storage, World.alone_list]
    simp [listOne_isEmpty]

/-- What the adapter knows of a path. -/
def lookedUp (w : World) (kb : KbSlug) (path : ObjectPath) : Except FsError WebDavMetaData :=
  match w.get (kb, path) with
  | some v => .ok (.object (v.objectMeta path v.size))
  | none =>
    if hasBelow w kb path then .ok (.kb ("virtual-".toList ++ path.val) virtualMtime)
    else .error .notFound

theorem metadataForObjectOrPrefix_run :
    (metadataForObjectOrPrefix kb path).run (alone parseHttpDate stamp) w =
      (lookedUp w kb path, w) := by
  unfold metadataForObjectOrPrefix lookedUp
  rw [Program.run_storage]
  cases hv : w.get (kb, path) with
  | some v =>
    rw [World.alone_head_some hv]
    rfl
  | none =>
    rw [World.alone_head_none hv]
    simp only [StorageError.isNotFound, if_true]
    rw [Program.run_storage, World.alone_list]
    simp only [listOne_isEmpty]
    cases hasBelow w kb path <;> rfl

/-- The listing the interceptor prepares. -/
def preparedListing (state : WebDavState) (target : DavTarget) (principal : Principal)
    (w : World) : Except ListingError (Option PropfindListing) :=
  match target with
  | .root => .ok none
  | .nonDeclaredKb => .ok none
  | .kbRoot kb =>
    (visibleListing ((state.policyFor kb).keyFilter principal .list) kb none w).map
      fun objects => some ⟨kb, none, objects⟩
  | .object kb path =>
    if (w.get (kb, path)).isSome then .ok none
    else
      (visibleListing ((state.policyFor kb).keyFilter principal .list) kb
        (some (folderPrefix path)) w).map
        fun objects => some ⟨kb, some (folderPrefix path), objects⟩

theorem preparePropfindListing_run {state : WebDavState} {target : DavTarget}
    {principal : Principal} :
    (preparePropfindListing state target principal).run (alone parseHttpDate stamp) w =
      (preparedListing state target principal w, w) := by
  cases target with
  | root => rfl
  | nonDeclaredKb => rfl
  | kbRoot kb =>
    simp only [preparePropfindListing, preparedListing, Prog.bind_eq, Prog.run_bind,
      collectPropfindObjects_run]
    cases visibleListing ((state.policyFor kb).keyFilter principal .list) kb none w <;> rfl
  | object kb path =>
    unfold preparePropfindListing preparedListing
    dsimp only
    rw [Program.run_storage]
    cases hv : w.get (kb, path) with
    | some v =>
      rw [World.alone_head_some hv]
      rfl
    | none =>
      rw [World.alone_head_none hv]
      simp only [StorageError.isNotFound, if_true, Prog.bind_eq, Prog.run_bind,
        collectPropfindObjects_run]
      cases visibleListing ((state.policyFor kb).keyFilter principal .list) kb
        (some (folderPrefix path)) w <;> rfl

end Alone

end Webdav
