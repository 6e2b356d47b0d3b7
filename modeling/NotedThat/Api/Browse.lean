-- SUMMARY: The directory pages of the HTTP API: one level read out of flat storage under the caller's access rules, and what a capped read still shows.
import NotedThat.Api.Errors
import NotedThat.Api.FilteredListing

/-!
# Browsing

A directory page enumerates the keys under its prefix, drops what the caller may not see, and then rolls
up. The read is narrowed to the grant and stops at a cap, which counts what is scanned, seen or not.
-/

namespace Api.Browse

/-- Rows a browse page reads from storage before it stops and says so. -/
def browseMaxKeys : Nat := 10000

/-- Rows fetched per storage call. -/
def scanPage : Nat := 1000

/-- One directory level, and whether the read was complete. -/
structure DirectoryListing where
  rollup : Rollup
  truncated : Bool
  lastKey : Option Text
deriving DecidableEq

/-- Whether a stored key may appear on a browse page at all. -/
def isVisible (key : Text) (filter : KeyFilter) : Bool :=
  -- the internal namespace is filtered for every principal, the service token too
  if isInternalPath key then false
  else
    match ObjectPath.tryObjectKey key with
    | .error _ => false
    | .ok _ => filter.allows key

/-- The variables of the loop of `read_directory`. -/
structure Progress where
  visible : List ObjectMeta
  scanned : Nat
  truncated : Bool
  lastKey : Option Text

/-- The loop over the rows of a page, which breaks at the cap. -/
def takeRows (filter : KeyFilter) : List ObjectMeta → Progress → Progress
  | [], progress => progress
  | object :: rest, progress =>
    let scanned := progress.scanned + 1
    if browseMaxKeys < scanned then { progress with scanned, truncated := true }
    else
      let visible :=
        if isVisible object.key filter then progress.visible ++ [object] else progress.visible
      takeRows filter rest ⟨visible, scanned, progress.truncated, some object.key⟩

/-- The loop over the pages, with how many it may still ask for. -/
def scanLoop (listObjects : ListObjects) (filter : KeyFilter) (scanPrefix : Option Text) :
    Nat → Option Text → Progress → Option (Except StorageError Progress)
  | 0, _, _ => none
  | calls + 1, cursor, progress =>
    match listObjects scanPrefix scanPage cursor with
    | .error e => some (.error e)
    | .ok page =>
      let progress := takeRows filter page.objects progress
      if progress.truncated then some (.ok progress)
      else
        match page.nextCursor with
        | none => some (.ok progress)
        | some next =>
          if cursor = some next then
            some (.error (.backendUnavailable "storage returned a non-advancing cursor"))
          else scanLoop listObjects filter scanPrefix calls (some next) progress

def requested (pre : Text) : Option Text := if pre.isEmpty then none else some pre

/-- Where the read of a directory starts. -/
def scanScope (pre : Text) (access : KbAccess) : ScanScope :=
  effectivePrefix (requested pre) (access.filter .list).literalPrefixHint

/-- Read the directory level directly under `pre`; `none` where it asks for more than `calls` pages. -/
def readDirectory (listObjects : ListObjects) (pre : Text) (access : KbAccess) (calls : Nat) :
    Option (Except StorageError DirectoryListing) :=
  let filter := access.filter .list
  match scanScope pre access with
  -- the prefix and the grant cannot overlap, so storage need not be asked
  | .disjoint => some (.ok ⟨rollUp [] pre, false, none⟩)
  | .from scanPrefix =>
    (scanLoop listObjects filter scanPrefix calls none ⟨[], 0, false, none⟩).map fun result =>
      result.map fun progress => ⟨rollUp progress.visible pre, progress.truncated, progress.lastKey⟩

-- ---------------------------------------------------------------------------
-- One page
-- ---------------------------------------------------------------------------

variable {filter : KeyFilter} {l : StoredListing}

/-- How the loop stands behind some rows, capped. -/
def scannedTo (filter : KeyFilter) (rows : List ObjectMeta) : Progress :=
  ⟨(rows.take browseMaxKeys).filter fun m => isVisible m.key filter, min rows.length (browseMaxKeys + 1),
    decide (browseMaxKeys < rows.length), (rows.take browseMaxKeys).getLast?.map ObjectMeta.key⟩

theorem takeRows_scannedTo (rows : List ObjectMeta) {before : List ObjectMeta}
    (h : before.length ≤ browseMaxKeys) :
    takeRows filter rows (scannedTo filter before) = scannedTo filter (before ++ rows) := by
  induction rows generalizing before with
  | nil => rw [List.append_nil, takeRows]
  | cons object rest ih =>
    have hscanned : (scannedTo filter before).scanned = before.length := Nat.min_eq_left (by omega)
    rw [takeRows, hscanned]
    dsimp only
    split
    · next hcap =>
      have hlength : before.length = browseMaxKeys := by omega
      have htake : (before ++ object :: rest).take browseMaxKeys = before.take browseMaxKeys := by
        rw [List.take_append_of_le_length (Nat.le_of_eq hlength.symm)]
      simp only [scannedTo, htake, Progress.mk.injEq, true_and, and_true]
      simp only [List.length_append, List.length_cons]
      constructor
      · omega
      · symm
        rw [decide_eq_true_iff]
        omega
    · next hroom =>
      have hstep : (⟨if isVisible object.key filter then (scannedTo filter before).visible ++ [object]
            else (scannedTo filter before).visible, before.length + 1, (scannedTo filter before).truncated,
            some object.key⟩ : Progress) = scannedTo filter (before ++ [object]) := by
        have hshort : (before ++ [object]).take browseMaxKeys = before ++ [object] :=
          List.take_of_length_le (by simpa using Nat.not_lt.mp hroom)
        simp only [scannedTo, hshort, List.take_of_length_le h, List.filter_append, List.getLast?_concat,
          Option.map_some, Progress.mk.injEq, List.length_append, List.length_singleton, and_true]
        refine ⟨?_, by omega, ?_⟩
        · split
          · next hvisible => simp [hvisible]
          · next hhidden => simp [hhidden]
        · rw [decide_eq_decide]
          omega
      have hlength : (before ++ [object]).length ≤ browseMaxKeys := by simpa using Nat.not_lt.mp hroom
      rw [hstep, ih hlength, ← List.append_cons]

/-- What comes behind the cap and one more row does not matter. -/
theorem scannedTo_take {rows : List ObjectMeta} {n : Nat} (h : browseMaxKeys < (rows.take n).length) :
    scannedTo filter (rows.take n) = scannedTo filter rows := by
  rw [List.length_take] at h
  have htake : (rows.take n).take browseMaxKeys = rows.take browseMaxKeys := by
    rw [List.take_take, Nat.min_eq_left (by omega)]
  simp only [scannedTo, htake, Progress.mk.injEq, true_and, and_true, List.length_take]
  refine ⟨by omega, ?_⟩
  rw [decide_eq_decide]
  omega

-- ---------------------------------------------------------------------------
-- All pages
-- ---------------------------------------------------------------------------

/-- Where the loop has read the rows up to a position, it goes on to the end or to the cap. Every page
brings a row at least, which bounds how many are asked for. -/
theorem scanLoop_eq {scanPrefix cursor : Option Text} {pos calls : Nat} (hpos : pos ≤ browseMaxKeys)
    (hstands : l.StandsAt scanPrefix cursor pos) (hcalls : browseMaxKeys < pos + calls) :
    scanLoop l.listObjects filter scanPrefix calls cursor (scannedTo filter ((l.rows scanPrefix).take pos)) =
      some (.ok (scannedTo filter (l.rows scanPrefix))) := by
  induction calls generalizing cursor pos with
  | zero => omega
  | succ calls ih =>
    obtain ⟨nextCursor, hlist, hnone, hsome⟩ :=
      StoredListing.listObjects_reads (show 0 < scanPage by decide) hstands
    have hlength : ((l.rows scanPrefix).take pos).length ≤ browseMaxKeys :=
      (List.length_take_le _ _).trans hpos
    rw [scanLoop, hlist]
    dsimp only
    rw [takeRows_scannedTo _ hlength, ← List.take_add]
    split
    · next htruncated =>
      have hcap : browseMaxKeys < ((l.rows scanPrefix).take (pos + l.size scanPrefix pos scanPage)).length :=
        of_decide_eq_true htruncated
      rw [scannedTo_take hcap]
    · next hroom =>
      cases nextCursor with
      | none => rw [List.take_of_length_le (hnone rfl)]
      | some next =>
        obtain ⟨hposition, hless⟩ := hsome next rfl
        have hmoved := l.size_pos scanPrefix pos scanPage (by decide)
          (Nat.lt_of_le_of_lt (Nat.le_add_right _ _) hless)
        have hadvance : cursor ≠ some next := by
          rintro rfl
          have hsame : some pos = some (pos + l.size scanPrefix pos scanPage) := hstands.symm.trans hposition
          have heq := Option.some.inj hsame
          omega
        have hroom' : pos + l.size scanPrefix pos scanPage ≤ browseMaxKeys := by
          have hle := Nat.not_lt.mp fun hcap => hroom (decide_eq_true hcap)
          rwa [List.length_take, Nat.min_eq_left (Nat.le_of_lt hless)] at hle
        dsimp only
        rw [if_neg hadvance]
        exact ih hroom' hposition (by omega)

-- ---------------------------------------------------------------------------
-- What a page shows
-- ---------------------------------------------------------------------------

/-- A key of the directory that a caller may see. -/
def Shown (access : KbAccess) (pre key : Text) : Prop :=
  pre <+: key ∧ isInternalPath key = false ∧ (∃ path, ObjectPath.tryObjectKey key = .ok path) ∧
    access.allows .list key = true

/-- What storage holds in the range a read scans. -/
def scanRange (l : StoredListing) (pre : Text) (access : KbAccess) : List ObjectMeta :=
  match scanScope pre access with
  | .from scanPrefix => l.rows scanPrefix
  | .disjoint => []

variable {pre key : Text} {access : KbAccess}

theorem isVisible_iff : isVisible key filter = true ↔ isInternalPath key = false ∧
    (∃ path, ObjectPath.tryObjectKey key = .ok path) ∧ filter.allows key = true := by
  unfold isVisible
  split
  · next hinternal => simp [hinternal]
  · next hinternal =>
    split
    · next e herror => simp [herror]
    · next path hpath => simp [hinternal, hpath]

theorem requested_getD (pre : Text) : (requested pre).getD [] = pre := by
  cases pre <;> rfl

/-- Every key that may be seen is in the range that is scanned. -/
theorem mem_scanRange {m : ObjectMeta} (hm : m ∈ l.stored) (hshown : Shown access pre m.key) :
    m ∈ scanRange l pre access := by
  obtain ⟨hpre, hinternal, -, hallows⟩ := hshown
  have hunder : (requested pre).getD [] <+: m.key := by rwa [requested_getD]
  unfold scanRange scanScope
  cases hhint : (access.filter .list).literalPrefixHint with
  | none =>
    have hscope : effectivePrefix (requested pre) none = .from (requested pre) := by
      cases requested pre <;> rfl
    rw [hscope]
    exact StoredListing.mem_rows.mpr ⟨hm, hunder⟩
  | some hint =>
    have hin := StoredListing.inScope_of_allows hhint hunder hinternal hallows
    rcases StoredListing.effectivePrefix_hint (requested pre) hint with
      ⟨-, heq⟩ | ⟨houtside, -, heq⟩ | ⟨houtside, hapart, heq⟩
    · rw [heq]
      exact StoredListing.mem_rows.mpr ⟨hm, hunder⟩
    · rw [heq]
      exact StoredListing.mem_rows.mpr ⟨hm, (hin.resolve_left houtside).2⟩
    · rcases hin with hinside | ⟨habove, -⟩
      · exact absurd hinside houtside
      · exact absurd habove hapart

theorem scanRange_sorted (l : StoredListing) (pre : Text) (access : KbAccess) :
    (scanRange l pre access).Pairwise fun m m' => m.key < m'.key := by
  unfold scanRange
  split
  · exact l.sorted.filter _
  · exact List.Pairwise.nil

theorem mem_stored_of_scanRange {m : ObjectMeta} (hm : m ∈ scanRange l pre access) : m ∈ l.stored := by
  unfold scanRange at hm
  split at hm
  · exact (StoredListing.mem_rows.mp hm).1
  · cases hm

theorem prefix_of_scanRange {m : ObjectMeta} (hm : m ∈ scanRange l pre access) : pre <+: m.key := by
  rw [← requested_getD pre]
  unfold scanRange scanScope at hm
  cases hhint : (access.filter .list).literalPrefixHint with
  | none =>
    have hscope : effectivePrefix (requested pre) none = .from (requested pre) := by
      cases requested pre <;> rfl
    rw [hhint, hscope] at hm
    exact (StoredListing.mem_rows.mp hm).2
  | some hint =>
    rw [hhint] at hm
    rcases StoredListing.effectivePrefix_hint (requested pre) hint with
      ⟨-, heq⟩ | ⟨-, habove, heq⟩ | ⟨-, -, heq⟩
    · rw [heq] at hm
      exact (StoredListing.mem_rows.mp hm).2
    · rw [heq] at hm
      exact habove.trans (StoredListing.mem_rows.mp hm).2
    · rw [heq] at hm
      cases hm

/-- With a page for every key up to the cap, and one more, the read comes to its end. -/
theorem readDirectory_eq (l : StoredListing) (pre : Text) (access : KbAccess) {calls : Nat}
    (hcalls : browseMaxKeys < calls) :
    let progress := scannedTo (access.filter .list) (scanRange l pre access)
    readDirectory l.listObjects pre access calls =
      some (.ok ⟨rollUp progress.visible pre, progress.truncated, progress.lastKey⟩) := by
  unfold readDirectory scanRange
  cases scanScope pre access with
  | disjoint => rfl
  | «from» scanPrefix =>
    have hloop := @scanLoop_eq (access.filter .list) l scanPrefix none 0 calls (Nat.zero_le _) rfl (by omega)
    dsimp only
    rw [List.take_zero] at hloop
    rw [show (⟨[], 0, false, none⟩ : Progress) = scannedTo (access.filter .list) [] from rfl, hloop]
    rfl

/-- What is shown of the rows that were read. -/
theorem mem_visible_iff {rows : List ObjectMeta} (hrows : ∀ m ∈ rows, m ∈ scanRange l pre access)
    {m : ObjectMeta} : m ∈ rows.filter (fun m => isVisible m.key (access.filter .list)) ↔
      m ∈ rows ∧ Shown access pre m.key := by
  rw [List.mem_filter, isVisible_iff]
  exact and_congr_right fun hm => ⟨fun h => ⟨prefix_of_scanRange (hrows m hm), h⟩, fun h => h.2⟩

/-- A key that is shown lies below the prefix, if that is a directory. -/
theorem Shown.relative (hpre : pre = [] ∨ ∃ folder, pre = folder ++ ['/']) (h : Shown access pre key) :
    ∃ relative, key = pre ++ relative ∧ relative ≠ [] := by
  obtain ⟨⟨relative, rfl⟩, -, ⟨path, hpath⟩, -⟩ := h
  refine ⟨relative, rfl, ?_⟩
  rintro rfl
  rw [List.append_nil] at hpath
  obtain ⟨-, hval⟩ := ObjectPath.tryObjectKey_eq_ok hpath
  rcases hpre with rfl | ⟨folder, rfl⟩
  · rcases hval with hval | hval
    · exact path.val_ne_nil hval.symm
    · cases hval
  · rcases hval with hval | hval
    · exact path.val_ne_append_slash folder hval.symm
    · cases folder with
      | nil => exact path.val_ne_nil (List.cons.inj hval).2.symm
      | cons c folder => exact path.val_ne_append_slash folder (List.cons.inj hval).2.symm

/-- For every policy, principal, listing and directory: a read comes to an end, and is cut short if and only
if storage holds more keys in the scanned range than the cap. What it rolls up are exactly the keys of
the directory that the caller may see, up to the last key it reports if it was cut short, and each of them
contributes one file or one folder. -/
theorem readDirectory_exact (l : StoredListing) (access : KbAccess) (pre : Text)
    (hpre : pre = [] ∨ ∃ folder, pre = folder ++ ['/']) :
    ∃ listing objects,
      (∀ calls, browseMaxKeys < calls → readDirectory l.listObjects pre access calls = some (.ok listing)) ∧
      (listing.truncated = true ↔ browseMaxKeys < (scanRange l pre access).length) ∧
      (listing.truncated = false → ∀ m, m ∈ objects ↔ m ∈ l.stored ∧ Shown access pre m.key) ∧
      (listing.truncated = true → ∃ lastKey, listing.lastKey = some lastKey ∧
        ∀ m, m ∈ objects ↔ m ∈ l.stored ∧ Shown access pre m.key ∧ m.key ≤ lastKey) ∧
      listing.rollup.LevelOf pre objects ∧
      ∀ m ∈ objects, ∃! name, '/' ∉ name ∧ ((name, m) ∈ listing.rollup.files ∨
        name ∈ listing.rollup.folders ∧ ∃ rest, m.key = pre ++ name ++ '/' :: rest) := by
  have hmem := fun m =>
    @mem_visible_iff l pre access _ (fun m hm => List.mem_of_mem_take (i := browseMaxKeys) hm) m
  have hsorted := scanRange_sorted l pre access
  have hlevel := rollUp_levelOf pre ((hsorted.sublist (List.take_sublist browseMaxKeys _)).filter
    fun m => isVisible m.key (access.filter .list))
  refine ⟨_, _, fun calls hcalls => readDirectory_eq l pre access hcalls, ?_, ?_, ?_, hlevel, ?_⟩
  · exact decide_eq_true_iff
  · intro hwhole m
    have hle : (scanRange l pre access).length ≤ browseMaxKeys :=
      Nat.not_lt.mp (of_decide_eq_false hwhole)
    rw [hmem, List.take_of_length_le hle]
    exact and_congr_left fun hshown =>
      ⟨mem_stored_of_scanRange, fun hm => mem_scanRange hm hshown⟩
  · intro hcut
    have hlt : browseMaxKeys < (scanRange l pre access).length := of_decide_eq_true hcut
    have hne : (scanRange l pre access).take browseMaxKeys ≠ [] := by
      rw [ne_eq, List.take_eq_nil_iff, ← List.length_eq_zero_iff]
      have hpos : 0 < browseMaxKeys := by decide
      omega
    obtain ⟨last, hlast⟩ := Option.ne_none_iff_exists'.mp (mt List.getLast?_eq_none_iff.mp hne)
    refine ⟨last.key, congrArg (Option.map ObjectMeta.key) hlast, fun m => ?_⟩
    rw [hmem, List.mem_take_iff_of_keys_lt hsorted hlast]
    constructor
    · rintro ⟨⟨hm, hle⟩, hshown⟩
      exact ⟨mem_stored_of_scanRange hm, hshown, hle⟩
    · rintro ⟨hm, hshown, hle⟩
      exact ⟨⟨mem_scanRange hm hshown, hle⟩, hshown⟩
  · intro m hm
    obtain ⟨relative, hkey, hne⟩ := ((hmem m).mp hm).2.relative hpre
    exact hlevel.contributes hm hkey hne

/-- The root of the knowledge base with a note below `public`, for a user who may list that: a folder,
and neither the note nor the manifest. -/
theorem readDirectory_exact_public :
    ∃ listing objects, (∀ calls, browseMaxKeys < calls →
        readDirectory (objectsListing publicNotes .notes).listObjects [] ⟨.notes, alice, publicOnly⟩ calls =
          some (.ok listing)) ∧
      listing.rollup.LevelOf [] objects ∧ listing.truncated = false ∧
      listing.rollup.folders = ["public".toList] ∧ listing.rollup.files = [] := by
  obtain ⟨listing, objects, hread, -, -, -, hlevel, -⟩ :=
    readDirectory_exact (objectsListing publicNotes .notes) ⟨.notes, alice, publicOnly⟩ [] (Or.inl rfl)
  have hlisted := (hread _ (Nat.lt_succ_self _)).symm.trans
    (readDirectory_eq (objectsListing publicNotes .notes) [] ⟨.notes, alice, publicOnly⟩
      (Nat.lt_succ_self _))
  refine ⟨listing, objects, hread, hlevel, ?_⟩
  cases hlisted
  exact ⟨by decide, by decide, by decide⟩

end Api.Browse
