-- SUMMARY: Object listings filtered by access rules: the scan over backend pages, and that following its cursors yields the visible objects, unless the service token's own are out of the scan's scope.
import NotedThat.Core.Decisions
import NotedThat.Core.Listing
import NotedThat.Lib.Paging

/-!
# Filtered listings

Storage lists without regard to the rules, so a page for a caller is filled from several backend pages,
and its cursor is asked for once more where it ends inside one of them. The scan is narrowed to the
prefix that the grants share. What the rules do not grant, but the service token is always allowed, may
lie outside of it.
-/

namespace Api

-- ---------------------------------------------------------------------------
-- The scan
-- ---------------------------------------------------------------------------

def listScanPage : Nat := 1000

def listScanMaxCalls : Nat := 20

/-- `Storage::list_objects` of one knowledge base: by prefix, limit and cursor. -/
abbrev ListObjects := Option Text → Nat → Option Text → Except StorageError ListResponse

/-- Where a filtered listing should ask storage to start. -/
inductive ScanScope where
  | from (pre : Option Text)
  | disjoint
deriving DecidableEq

/-- The overlap of the caller's prefix and the segment the grants share. -/
def effectivePrefix (requested hint : Option Text) : ScanScope :=
  match requested, hint with
  | none, none => .from none
  | some pre, none => .from (some pre)
  | none, some hint => .from (some hint)
  | some pre, some hint =>
    if (hint ++ ['/']).isPrefixOf pre then .from (some pre)
    else if pre.isPrefixOf hint then .from (some hint)
    else .disjoint

/-- What a page has been filled to. -/
structure Filled where
  consumed : Nat
  objects : List ObjectMeta
  filled : Bool

/-- Take the visible rows of a backend page, until there are as many as asked for. -/
def fill (filter : KeyFilter) (limit : Nat) : List ObjectMeta → List ObjectMeta → Filled
  | [], objects => ⟨0, objects, false⟩
  | object :: rest, objects =>
    if filter.allows object.key then
      let objects := objects ++ [object]
      if limit ≤ objects.length then ⟨1, objects, true⟩
      else
        let more := fill filter limit rest objects
        { more with consumed := more.consumed + 1 }
    else
      let more := fill filter limit rest objects
      { more with consumed := more.consumed + 1 }

/-- The response once there are as many objects as asked for. The cursor of the backend's page would skip
the rows behind the last one consumed, so exactly those rows are asked for again. -/
def respondFilled (listObjects : ListObjects) (scanPrefix pageCursor : Option Text) (page : ListResponse)
    (taken : Filled) : Except StorageError ListResponse :=
  if taken.consumed < page.objects.length then do
    let limit := if taken.consumed < 2 ^ 32 then taken.consumed else listScanPage
    let exactPage ← listObjects scanPrefix limit pageCursor
    return ⟨taken.objects, exactPage.truncated, exactPage.nextCursor⟩
  else return ⟨taken.objects, page.truncated, page.nextCursor⟩

/-- The loop of `list_filtered_objects`, with how many calls it may still make. -/
def scan (listObjects : ListObjects) (filter : KeyFilter) (limit : Nat) (scanPrefix : Option Text) :
    Nat → List ObjectMeta → Option Text → Except StorageError ListResponse
  | 0, objects, pageCursor => .ok ⟨objects, true, pageCursor⟩
  | calls + 1, objects, pageCursor => do
    let page ← listObjects scanPrefix listScanPage pageCursor
    let taken := fill filter limit page.objects objects
    if taken.filled then respondFilled listObjects scanPrefix pageCursor page taken
    else
      match page.nextCursor with
      | none => .ok ⟨taken.objects, false, none⟩
      | some nextCursor =>
        if pageCursor = some nextCursor then
          .error (.backendUnavailable "storage returned a non-advancing cursor")
        else scan listObjects filter limit scanPrefix calls taken.objects (some nextCursor)

def emptyPage : ListResponse := ⟨[], false, none⟩

def listFilteredObjects (listObjects : ListObjects) (pre : Option Text) (limit : Nat)
    (cursor : Option Text) (filter : KeyFilter) : Except StorageError ListResponse :=
  if filter.isAllowAll then listObjects pre limit cursor
  else if filter.isDenyAll then .ok emptyPage
  else
    match effectivePrefix pre filter.literalPrefixHint with
    | .disjoint => .ok emptyPage
    | .from scanPrefix => scan listObjects filter limit scanPrefix listScanMaxCalls [] cursor

-- ---------------------------------------------------------------------------
-- Listings
-- ---------------------------------------------------------------------------

/-- The objects whose keys start with a prefix. -/
def rowsOf (stored : List ObjectMeta) (pre : Option Text) : List ObjectMeta :=
  stored.filter fun m => (pre.getD []).isPrefixOf m.key

/-- The objects a filter lets through. -/
def visible (filter : KeyFilter) (objects : List ObjectMeta) : List ObjectMeta :=
  objects.filter fun m => filter.allows m.key

/-- A listing that does not change, sorted and correctly paginated. A cursor stands for a position in
the rows of its prefix, and a page has as many rows from there on as `size` says: some if there are any,
and exactly as many as asked for if that is fewer than it has for a greater limit. -/
structure StoredListing where
  stored : List ObjectMeta
  listObjects : ListObjects
  position : Option Text → Text → Option Nat
  size : Option Text → Nat → Nat → Nat
  sorted : stored.Pairwise fun m m' => m.key < m'.key
  size_le : ∀ pre pos limit, size pre pos limit ≤ limit
  size_within : ∀ pre pos limit, size pre pos limit ≤ (rowsOf stored pre).length - pos
  size_pos : ∀ pre pos limit, 0 < limit → pos < (rowsOf stored pre).length → 0 < size pre pos limit
  size_fewer : ∀ pre pos limit n, n ≤ size pre pos limit → size pre pos n = n
  answers : ∀ pre limit cursor pos, 0 < limit → cursor.elim (some 0) (position pre) = some pos →
    ∃ nextCursor,
      listObjects pre limit cursor = .ok
        ⟨((rowsOf stored pre).drop pos).take (size pre pos limit), nextCursor.isSome, nextCursor⟩ ∧
      (nextCursor = none ↔ (rowsOf stored pre).length ≤ pos + size pre pos limit) ∧
      ∀ c ∈ nextCursor, position pre c = some (pos + size pre pos limit)

namespace StoredListing

def rows (l : StoredListing) (pre : Option Text) : List ObjectMeta := rowsOf l.stored pre

/-- The client's page at a cursor. -/
def ask (l : StoredListing) (pre : Option Text) (limit : Nat) (filter : KeyFilter) (cursor : Option Text) :
    Option (Paging.Page ObjectMeta Text) :=
  match listFilteredObjects l.listObjects pre limit cursor filter with
  | .ok response => some ⟨response.objects, response.nextCursor⟩
  | .error _ => none

/-- The cursor stands for this position in the rows of a prefix. -/
def StandsAt (l : StoredListing) (pre : Option Text) (cursor : Option Text) (pos : Nat) : Prop :=
  cursor.elim (some 0) (l.position pre) = some pos

variable {l : StoredListing} {pre : Option Text} {filter : KeyFilter} {limit : Nat}

theorem visible_cons (filter : KeyFilter) (object : ObjectMeta) (rest : List ObjectMeta) :
    visible filter (object :: rest) =
      if filter.allows object.key then object :: visible filter rest else visible filter rest :=
  List.filter_cons

/-- What a filled page has consumed. -/
theorem fill_spec (filter : KeyFilter) {limit : Nat} (rows : List ObjectMeta) {objects : List ObjectMeta}
    (hroom : objects.length < limit) :
    (fill filter limit rows objects).consumed ≤ rows.length ∧
    (fill filter limit rows objects).objects = objects ++
      visible filter (rows.take (fill filter limit rows objects).consumed) ∧
    ((fill filter limit rows objects).filled = true → 0 < (fill filter limit rows objects).consumed) ∧
    ((fill filter limit rows objects).filled = false →
      (fill filter limit rows objects).consumed = rows.length ∧
      (fill filter limit rows objects).objects.length < limit) := by
  induction rows generalizing objects with
  | nil => simp [fill, hroom, visible]
  | cons object rest ih =>
    unfold fill
    split
    · next hallowed =>
      dsimp only
      split
      · simp [hallowed, visible]
      · next hless =>
        obtain ⟨hle, hobjects, hfilled, hunfilled⟩ := ih (Nat.not_le.mp hless)
        refine ⟨Nat.succ_le_succ hle, ?_, fun _ => Nat.succ_pos _, fun hnot => ?_⟩
        · rw [hobjects, List.take_succ_cons, visible_cons, if_pos hallowed, List.append_assoc]
          rfl
        · obtain ⟨hall, hshort⟩ := hunfilled hnot
          exact ⟨congrArg (· + 1) hall, hshort⟩
    · next hhidden =>
      obtain ⟨hle, hobjects, hfilled, hunfilled⟩ := ih hroom
      refine ⟨Nat.succ_le_succ hle, ?_, fun _ => Nat.succ_pos _, fun hnot => ?_⟩
      · rw [List.take_succ_cons, visible_cons, if_neg hhidden]
        exact hobjects
      · obtain ⟨hall, hshort⟩ := hunfilled hnot
        exact ⟨congrArg (· + 1) hall, hshort⟩

theorem visible_append (filter : KeyFilter) (objects more : List ObjectMeta) :
    visible filter (objects ++ more) = visible filter objects ++ visible filter more :=
  List.filter_append ..

/-- A response that has read `count` rows from a position on, behind what was there before: what is
visible of them, and a cursor for the position behind them exactly if there are more. -/
structure Reads (l : StoredListing) (pre : Option Text) (filter : KeyFilter) (pos count : Nat)
    (before : List ObjectMeta) (response : ListResponse) : Prop where
  objects : response.objects = before ++ visible filter (((l.rows pre).drop pos).take count)
  done : response.nextCursor = none → (l.rows pre).length ≤ pos + count
  goesOn : ∀ c ∈ response.nextCursor, l.position pre c = some (pos + count) ∧
    pos + count < (l.rows pre).length

/-- One call to storage. -/
theorem listObjects_reads {cursor : Option Text} {pos : Nat} (hlimit : 0 < limit)
    (hstands : l.StandsAt pre cursor pos) : ∃ nextCursor,
      l.listObjects pre limit cursor = .ok ⟨((l.rows pre).drop pos).take (l.size pre pos limit),
        nextCursor.isSome, nextCursor⟩ ∧
      (nextCursor = none → (l.rows pre).length ≤ pos + l.size pre pos limit) ∧
      ∀ c ∈ nextCursor, l.position pre c = some (pos + l.size pre pos limit) ∧
        pos + l.size pre pos limit < (l.rows pre).length := by
  obtain ⟨nextCursor, hlist, hnone, hsome⟩ := l.answers pre limit cursor pos hlimit hstands
  refine ⟨nextCursor, hlist, hnone.mp, fun c hc => ⟨hsome c hc, Nat.not_le.mp fun hle => ?_⟩⟩
  rw [hnone.mpr hle] at hc
  cases hc

/-- The rows of a page are as many as its size. -/
theorem length_page (l : StoredListing) (pre : Option Text) (pos limit : Nat) :
    (((l.rows pre).drop pos).take (l.size pre pos limit)).length = l.size pre pos limit := by
  rw [List.length_take, List.length_drop]
  exact Nat.min_eq_left (l.size_within pre pos limit)

/-- Once filled, the response has read exactly the rows that were consumed. -/
theorem respondFilled_reads {cursor : Option Text} {pos : Nat} (hstands : l.StandsAt pre cursor pos)
    {before : List ObjectMeta} {page : ListResponse} {taken : Filled}
    (hpage : l.listObjects pre listScanPage cursor = .ok page) (hle : taken.consumed ≤ page.objects.length)
    (hobjects : taken.objects = before ++ visible filter (page.objects.take taken.consumed))
    (hpos : 0 < taken.consumed) :
    ∃ response, respondFilled l.listObjects pre cursor page taken = .ok response ∧
      l.Reads pre filter pos taken.consumed before response := by
  obtain ⟨nextCursor, hlist, hnone, hsome⟩ := listObjects_reads (show 0 < listScanPage by decide) hstands
  rw [hpage] at hlist
  cases hlist
  rw [length_page] at hle
  rw [List.take_take, Nat.min_eq_left hle] at hobjects
  have hscan := l.size_le pre pos listScanPage
  unfold respondFilled
  rw [length_page]
  split
  · next hless =>
    have hexact : l.size pre pos taken.consumed = taken.consumed := l.size_fewer pre pos listScanPage _ hle
    have hlimit : (if taken.consumed < 2 ^ 32 then taken.consumed else listScanPage) = taken.consumed := by
      refine if_pos (Nat.lt_of_le_of_lt (hle.trans hscan) ?_)
      decide
    obtain ⟨nextCursor', hlist', hnone', hsome'⟩ := listObjects_reads hpos hstands
    rw [hexact] at hlist' hnone' hsome'
    refine ⟨⟨taken.objects, nextCursor'.isSome, nextCursor'⟩, ?_, hobjects, hnone', hsome'⟩
    rw [hlimit]
    dsimp only
    rw [hlist']
    rfl
  · next hall =>
    have hsize : taken.consumed = l.size pre pos listScanPage := Nat.le_antisymm hle (Nat.not_lt.mp hall)
    rw [← hsize] at hnone hsome
    exact ⟨⟨taken.objects, nextCursor.isSome, nextCursor⟩, rfl, hobjects, hnone, hsome⟩

/-- A scan reads some of the rows from its cursor on, and one at least if it goes on behind them. -/
theorem scan_reads {calls : Nat} {before : List ObjectMeta} {cursor : Option Text}
    {pos : Nat} (hroom : before.length < limit) (hstands : l.StandsAt pre cursor pos)
    (hspent : calls = 0 → cursor ≠ none ∧ pos < (l.rows pre).length) :
    ∃ response count, scan l.listObjects filter limit pre calls before cursor = .ok response ∧
      l.Reads pre filter pos count before response ∧
      (0 < calls → response.nextCursor ≠ none → 0 < count) := by
  induction calls generalizing before cursor pos with
  | zero =>
    obtain ⟨hcursor, hless⟩ := hspent rfl
    refine ⟨⟨before, true, cursor⟩, 0, rfl, ⟨by simp [visible], fun hnone => absurd hnone hcursor, ?_⟩, nofun⟩
    intro c hc
    have hposition : l.position pre c = some pos := by
      rw [show cursor = some c from hc] at hstands
      exact hstands
    exact ⟨hposition, hless⟩
  | succ calls ih =>
    obtain ⟨nextCursor, hlist, hnone, hsome⟩ := listObjects_reads (show 0 < listScanPage by decide) hstands
    obtain ⟨hle, hobjects, hfilled, hunfilled⟩ :=
      fill_spec filter (((l.rows pre).drop pos).take (l.size pre pos listScanPage)) hroom
    rw [scan, hlist]
    simp only [bind, Except.bind]
    split
    · next hfull =>
      obtain ⟨response, hresponse, hreads⟩ :=
        respondFilled_reads hstands hlist hle hobjects (hfilled hfull)
      exact ⟨response, _, hresponse, hreads, fun _ _ => hfilled hfull⟩
    · next hshort =>
      obtain ⟨hall, hroom'⟩ := hunfilled (Bool.eq_false_iff.mpr hshort)
      rw [hall, List.take_length] at hobjects
      cases nextCursor with
      | none =>
        refine ⟨_, l.size pre pos listScanPage, rfl, ⟨hobjects, fun _ => hnone rfl, nofun⟩, ?_⟩
        intro _ hnext
        exact absurd rfl hnext
      | some next =>
        obtain ⟨hposition, hless⟩ := hsome next rfl
        have hmoved := l.size_pos pre pos listScanPage (by decide) (Nat.lt_of_le_of_lt (Nat.le_add_right _ _) hless)
        have hadvance : cursor ≠ some next := by
          rintro rfl
          have hsame : some pos = some (pos + l.size pre pos listScanPage) := hstands.symm.trans hposition
          have heq := Option.some.inj hsame
          omega
        dsimp only
        rw [if_neg hadvance]
        obtain ⟨response, count, hscan, ⟨hmore, hdone, hgoesOn⟩, -⟩ :=
          @ih _ (some next) _ hroom' hposition fun _ => ⟨nofun, hless⟩
        rw [Nat.add_assoc] at hdone hgoesOn
        refine ⟨response, l.size pre pos listScanPage + count, hscan, ⟨?_, hdone, hgoesOn⟩,
          fun _ _ => Nat.lt_of_lt_of_le hmoved (Nat.le_add_right _ _)⟩
        rw [hmore, hobjects, List.append_assoc, ← visible_append, ← List.drop_drop, ← List.take_add]

-- ---------------------------------------------------------------------------
-- Following the cursors
-- ---------------------------------------------------------------------------

/-- Where every page reads some rows further, following the cursors yields what is visible. -/
theorem yields_of_reads (scanPrefix : Option Text)
    (hask : ∀ cursor pos, l.StandsAt scanPrefix cursor pos → ∃ response count,
      listFilteredObjects l.listObjects pre limit cursor filter = .ok response ∧
        l.Reads scanPrefix filter pos count [] response ∧ (response.nextCursor ≠ none → 0 < count)) :
    Paging.Yields (l.ask pre limit filter) (visible filter (l.rows scanPrefix)) := by
  let Left (cursor : Option Text) (n : Nat) (left : List ObjectMeta) : Prop :=
    ∃ pos, l.StandsAt scanPrefix cursor pos ∧ n = (l.rows scanPrefix).length - pos ∧
      left = visible filter ((l.rows scanPrefix).drop pos)
  refine ⟨_, @Paging.follow_of_left _ _ _ Left ?_ none _ _ ⟨0, rfl, rfl, rfl⟩⟩
  rintro cursor n left ⟨pos, hstands, rfl, rfl⟩
  obtain ⟨response, count, hresponse, ⟨hobjects, hdone, hgoesOn⟩, hmoved⟩ := hask cursor pos hstands
  have hsplit : visible filter ((l.rows scanPrefix).drop pos) =
      response.objects ++ visible filter ((l.rows scanPrefix).drop (pos + count)) := by
    rw [hobjects, List.nil_append, ← visible_append, ← List.drop_drop, List.take_append_drop]
  refine ⟨⟨response.objects, response.nextCursor⟩, by simp [ask, hresponse], ?_⟩
  cases hnext : response.nextCursor with
  | none =>
    refine Or.inl ⟨rfl, ?_⟩
    rw [hsplit, List.drop_of_length_le (hdone hnext)]
    simp [visible]
  | some next =>
    obtain ⟨hposition, hless⟩ := hgoesOn next hnext
    have hcount := hmoved (by simp [hnext])
    exact Or.inr ⟨next, _, _, rfl, hsplit, by omega, pos + count, hposition, rfl, rfl⟩

theorem yields_allowAll (hlimit : 0 < limit) (h : filter.isAllowAll = true) :
    Paging.Yields (l.ask pre limit filter) (visible filter (l.rows pre)) := by
  refine yields_of_reads pre fun cursor pos hstands => ?_
  obtain ⟨nextCursor, hlist, hnone, hsome⟩ := listObjects_reads hlimit hstands
  have hvisible : ∀ objects, visible filter objects = objects := fun objects =>
    List.filter_eq_self.mpr fun m _ => KeyFilter.allows_of_isAllowAll h
  refine ⟨_, l.size pre pos limit, by rw [listFilteredObjects, if_pos h, hlist], ⟨?_, hnone, hsome⟩, ?_⟩
  · rw [hvisible, List.nil_append]
  · intro hnext
    obtain ⟨c, hc⟩ := Option.ne_none_iff_exists'.mp hnext
    have hless : pos < (l.rows pre).length := Nat.lt_of_le_of_lt (Nat.le_add_right _ _) (hsome c hc).2
    exact l.size_pos pre pos limit hlimit hless

theorem yields_scan (hlimit : 0 < limit) (hall : filter.isAllowAll = false) (hdeny : filter.isDenyAll = false)
    {scanPrefix : Option Text} (hscope : effectivePrefix pre filter.literalPrefixHint = .from scanPrefix) :
    Paging.Yields (l.ask pre limit filter) (visible filter (l.rows scanPrefix)) := by
  refine yields_of_reads scanPrefix fun cursor pos hstands => ?_
  obtain ⟨response, count, hscan, hreads, hmoved⟩ :=
    @scan_reads l scanPrefix filter limit listScanMaxCalls [] cursor pos hlimit hstands nofun
  refine ⟨response, count, ?_, hreads, hmoved (by decide)⟩
  simp [listFilteredObjects, hall, hdeny, hscope, hscan]

theorem yields_nothing (hall : filter.isAllowAll = false)
    (h : filter.isDenyAll = true ∨ effectivePrefix pre filter.literalPrefixHint = .disjoint) :
    Paging.Yields (l.ask pre limit filter) [] := by
  have hempty : listFilteredObjects l.listObjects pre limit none filter = .ok emptyPage := by
    unfold listFilteredObjects
    rw [if_neg (by simp [hall])]
    split
    · rfl
    · next hdeny => rw [h.resolve_left hdeny]
  exact ⟨1, by simp [Paging.follow, ask, hempty, emptyPage]⟩

-- ---------------------------------------------------------------------------
-- The scope
-- ---------------------------------------------------------------------------

/-- A key of the requested prefix that the narrowed scan comes to, where the grants share a segment. -/
def InScope (pre : Option Text) (hint key : Text) : Prop :=
  hint ++ ['/'] <+: pre.getD [] ∨ pre.getD [] <+: hint ∧ hint <+: key

theorem effectivePrefix_hint (pre : Option Text) (hint : Text) :
    (hint ++ ['/'] <+: pre.getD [] ∧ effectivePrefix pre (some hint) = .from pre) ∨
    (¬ hint ++ ['/'] <+: pre.getD [] ∧ pre.getD [] <+: hint ∧
      effectivePrefix pre (some hint) = .from (some hint)) ∨
    (¬ hint ++ ['/'] <+: pre.getD [] ∧ ¬ pre.getD [] <+: hint ∧
      effectivePrefix pre (some hint) = .disjoint) := by
  cases pre with
  | none =>
    refine Or.inr (Or.inl ⟨fun h => ?_, List.nil_prefix, rfl⟩)
    simp at h
  | some pre =>
    simp only [effectivePrefix, List.isPrefixOf_iff_prefix, Option.getD_some]
    split
    · next hinside => exact Or.inl ⟨hinside, rfl⟩
    · next houtside =>
      split
      · next habove => exact Or.inr (Or.inl ⟨houtside, habove, rfl⟩)
      · next hapart => exact Or.inr (Or.inr ⟨houtside, hapart, rfl⟩)

/-- What the grants let through of the requested prefix is in the scope. -/
theorem inScope_of_allows {hint key : Text} (hhint : filter.literalPrefixHint = some hint)
    (hpre : pre.getD [] <+: key) (hkey : isInternalPath key = false) (hallows : filter.allows key = true) :
    InScope pre hint key := by
  rcases KeyFilter.prefix_of_literalPrefixHint hhint hkey hallows with rfl | hbelow
  · exact Or.inr ⟨hpre, List.prefix_rfl⟩
  · rcases List.prefix_or_prefix_of_prefix hpre hbelow with habove | hinside
    · -- the requested prefix ends before the slash, or with it
      rcases List.prefix_concat_iff.mp habove with heq | hhigher
      · exact Or.inl (heq ▸ List.prefix_rfl)
      · exact Or.inr ⟨hhigher, (List.prefix_append hint ['/']).trans hbelow⟩
    · exact Or.inl hinside

/-- The scan is narrowed past no key of the service token's own. -/
def Covered (l : StoredListing) (pre : Option Text) (filter : KeyFilter) : Prop :=
  filter.reach = .serviceToken → filter.isAllowAll = false →
    ∀ hint, filter.literalPrefixHint = some hint →
      ∀ m ∈ l.rows pre, isInternalPath m.key = true → InScope pre hint m.key

theorem mem_rows {m : ObjectMeta} : m ∈ l.rows pre ↔ m ∈ l.stored ∧ pre.getD [] <+: m.key := by
  rw [rows, rowsOf, List.mem_filter, List.isPrefixOf_iff_prefix]

/-- Every visible row is in the scope, if that holds of the service token's own. -/
theorem inScope_of_visible {hint : Text} (hall : filter.isAllowAll = false)
    (hhint : filter.literalPrefixHint = some hint) (hcovered : l.Covered pre filter) {m : ObjectMeta}
    (hm : m ∈ l.rows pre) (hallows : filter.allows m.key = true) : InScope pre hint m.key := by
  cases hkey : isInternalPath m.key with
  | false => exact inScope_of_allows hhint (mem_rows.mp hm).2 hkey hallows
  | true =>
    have hreach : filter.reach = .serviceToken := by
      rw [KeyFilter.allows, if_pos hkey] at hallows
      exact of_decide_eq_true hallows
    exact hcovered hreach hall hint hhint m hm hkey

/-- Two prefixes with the same visible rows. -/
theorem visible_rows_congr {pre' : Option Text}
    (h : ∀ m ∈ l.stored, filter.allows m.key = true → (pre.getD [] <+: m.key ↔ pre'.getD [] <+: m.key)) :
    visible filter (l.rows pre) = visible filter (l.rows pre') := by
  unfold visible rows rowsOf
  rw [List.filter_filter, List.filter_filter]
  refine List.filter_congr fun m hm => ?_
  cases hallows : filter.allows m.key with
  | false => rfl
  | true =>
    rw [Bool.true_and, Bool.true_and, Bool.eq_iff_iff, List.isPrefixOf_iff_prefix, List.isPrefixOf_iff_prefix]
    exact h m hm hallows

theorem yields_of_covered (hlimit : 0 < limit) (hcovered : l.Covered pre filter) :
    Paging.Yields (l.ask pre limit filter) (visible filter (l.rows pre)) := by
  cases hall : filter.isAllowAll with
  | true => exact yields_allowAll hlimit hall
  | false =>
    cases hdeny : filter.isDenyAll with
    | true =>
      have hnone : visible filter (l.rows pre) = [] := by
        refine List.filter_eq_nil_iff.mpr fun m _ => ?_
        simp [KeyFilter.allows_of_isDenyAll hdeny]
      rw [hnone]
      exact yields_nothing hall (Or.inl hdeny)
    | false =>
      cases hhint : filter.literalPrefixHint with
      | none =>
        refine yields_scan hlimit hall hdeny ?_
        rw [hhint]
        cases pre <;> rfl
      | some hint =>
        have hscope := fun {m} hm hallows => @inScope_of_visible l pre filter hint hall hhint hcovered m hm hallows
        rcases effectivePrefix_hint pre hint with ⟨-, heq⟩ | ⟨houtside, habove, heq⟩ | ⟨houtside, hapart, heq⟩
        · exact yields_scan hlimit hall hdeny (hhint ▸ heq)
        · have hsame : visible filter (l.rows pre) = visible filter (l.rows (some hint)) := by
            refine visible_rows_congr fun m hm hallows => ⟨fun hpre => ?_, fun hbelow => habove.trans hbelow⟩
            exact ((hscope (mem_rows.mpr ⟨hm, hpre⟩) hallows).resolve_left houtside).2
          rw [hsame]
          exact yields_scan hlimit hall hdeny (hhint ▸ heq)
        · have hnone : visible filter (l.rows pre) = [] := by
            refine List.filter_eq_nil_iff.mpr fun m hm hallows => ?_
            rcases hscope hm hallows with hinside | ⟨habove, -⟩
            · exact houtside hinside
            · exact hapart habove
          rw [hnone]
          exact yields_nothing hall (Or.inr (hhint ▸ heq))

theorem covered_of_yields (hlimit : 0 < limit)
    (h : Paging.Yields (l.ask pre limit filter) (visible filter (l.rows pre))) : l.Covered pre filter := by
  intro hreach hall hint hhint m hm hkey
  have hallows : filter.allows m.key = true := by
    rw [KeyFilter.allows, if_pos hkey, hreach]
    rfl
  have hvisible : m ∈ visible filter (l.rows pre) := List.mem_filter.mpr ⟨hm, hallows⟩
  have hdeny : filter.isDenyAll = false := by simp [KeyFilter.isDenyAll, hreach]
  rcases effectivePrefix_hint pre hint with ⟨hinside, -⟩ | ⟨-, habove, heq⟩ | ⟨-, -, heq⟩
  · exact Or.inl hinside
  · have hscope : effectivePrefix pre filter.literalPrefixHint = .from (some hint) := by rw [hhint, heq]
    rw [h.unique (yields_scan hlimit hall hdeny hscope)] at hvisible
    exact Or.inr ⟨habove, (mem_rows.mp (List.mem_filter.mp hvisible).1).2⟩
  · have hscope : effectivePrefix pre filter.literalPrefixHint = .disjoint := by rw [hhint, heq]
    rw [h.unique (yields_nothing hall (Or.inr hscope))] at hvisible
    cases hvisible

end StoredListing

-- ---------------------------------------------------------------------------
-- The listing of the storage model
-- ---------------------------------------------------------------------------

section Objects

variable (s : Objects) (kb : KbSlug)

/-- An object as a page shows it. -/
def listed (e : Key × Version) : ObjectMeta :=
  { e.2.objectMeta e.1.2 e.2.size with contentType := none, etag := none }

theorem rowsOf_listed (pre : Option Text) :
    rowsOf ((s.matching kb [] none).map listed) pre = (s.matching kb (pre.getD []) none).map listed := by
  have hfilter : (s.matching kb [] none).filter (fun e => (pre.getD []).isPrefixOf e.1.2.val) =
      s.matching kb (pre.getD []) none := by
    refine List.eq_of_keys_lt (Objects.matching_sorted.filter _) Objects.matching_sorted fun e => ?_
    rw [List.mem_filter, Objects.mem_matching, Objects.mem_matching]
    simp [and_assoc]
  rw [← hfilter, rowsOf, List.filter_map]
  rfl

/-- Which row a cursor is behind. -/
def positionOf (pre : Option Text) (c : Text) : Option Nat :=
  ((s.matching kb (pre.getD []) none).findIdx? fun e => e.1.2.val = c).map (· + 1)

variable {s kb}

theorem matching_behind {pre cursor : Option Text} {pos : Nat}
    (h : cursor.elim (some 0) (positionOf s kb pre) = some pos) :
    s.matching kb (pre.getD []) cursor = (s.matching kb (pre.getD []) none).drop pos := by
  cases cursor with
  | none =>
    cases h
    rfl
  | some c =>
    obtain ⟨i, hfind, rfl⟩ := Option.map_eq_some_iff.mp h
    obtain ⟨hi, hkey, -⟩ := List.findIdx?_eq_some_iff_getElem.mp hfind
    have hlast : ((s.matching kb (pre.getD []) none).take (i + 1)).getLast? =
        some (s.matching kb (pre.getD []) none)[i] := by
      rw [List.take_succ_eq_append_getElem hi, List.getLast?_concat]
    rw [← Objects.matching_after hlast, of_decide_eq_true hkey]

/-- The cursor behind the last of some rows stands for how many there are. -/
theorem positionOf_last {pre : Option Text} {n : Nat} {e : Key × Version}
    (h : ((s.matching kb (pre.getD []) none).take n).getLast? = some e)
    (hle : n ≤ (s.matching kb (pre.getD []) none).length) : positionOf s kb pre e.1.2.val = some n := by
  obtain ⟨i, rfl⟩ : ∃ i, n = i + 1 := by
    cases n with
    | zero => simp at h
    | succ i => exact ⟨i, rfl⟩
  rw [List.take_succ_eq_append_getElem hle, List.getLast?_concat] at h
  cases h
  refine Option.map_eq_some_iff.mpr ⟨i, List.findIdx?_eq_some_iff_getElem.mpr ⟨hle, by simp, ?_⟩, rfl⟩
  intro j hj
  have hlt := List.pairwise_iff_getElem.mp Objects.matching_sorted j i (hj.trans hle) hle hj
  simpa using hlt.ne

theorem listPage_answers {pre cursor : Option Text} {limit pos : Nat} (hlimit : 0 < limit)
    (hstands : cursor.elim (some 0) (positionOf s kb pre) = some pos) :
    let rows := s.matching kb (pre.getD []) none
    let size := min (min limit StorageOp.maxListLimit) (rows.length - pos)
    ∃ nextCursor, StorageOp.listPage s kb pre limit cursor =
        ⟨((rows.map listed).drop pos).take size, nextCursor.isSome, nextCursor⟩ ∧
      (nextCursor = none ↔ rows.length ≤ pos + size) ∧
      ∀ c ∈ nextCursor, positionOf s kb pre c = some (pos + size) := by
  intro rows size
  have hmax : 0 < StorageOp.maxListLimit := by decide
  have hpage : ((rows.drop pos).take (min limit StorageOp.maxListLimit)) = (rows.drop pos).take size := by
    rw [List.take_eq_take_iff, List.length_drop]
    omega
  have hlisted : ((rows.drop pos).take size).map listed = ((rows.map listed).drop pos).take size := by
    rw [List.map_take, List.map_drop]
  unfold StorageOp.listPage
  dsimp only
  rw [matching_behind hstands, hpage, List.length_drop]
  split
  · next hmore =>
    have hmore' : min limit StorageOp.maxListLimit < rows.length - pos := hmore
    have hsize : size = min limit StorageOp.maxListLimit := Nat.min_eq_left (Nat.le_of_lt hmore')
    have hne : (rows.drop pos).take size ≠ [] := by
      rw [ne_eq, List.take_eq_nil_iff, List.drop_eq_nil_iff]
      omega
    obtain ⟨e, he⟩ := Option.ne_none_iff_exists'.mp (mt List.getLast?_eq_none_iff.mp hne)
    refine ⟨some e.1.2.val, ?_, ?_, ?_⟩
    · rw [he, ← hlisted]
      rfl
    · refine ⟨nofun, fun hle => ?_⟩
      have hle' : rows.length ≤ pos + size := hle
      omega
    · rintro c hc
      cases hc
      have hwithin : pos + size ≤ rows.length := by omega
      refine positionOf_last ?_ hwithin
      rw [List.take_add, List.getLast?_append, he]
      rfl
  · next hlast =>
    refine ⟨none, ?_, ?_, nofun⟩
    · rw [← hlisted]
      rfl
    · refine ⟨fun _ => ?_, fun _ => rfl⟩
      have hlast' : rows.length - pos ≤ min limit StorageOp.maxListLimit := Nat.not_lt.mp hlast
      omega

variable (s kb)

/-- The storage model lists correctly. -/
def objectsListing : StoredListing where
  stored := (s.matching kb [] none).map listed
  listObjects pre limit cursor := .ok (StorageOp.listPage s kb pre limit cursor)
  position := positionOf s kb
  size pre pos limit :=
    min (min limit StorageOp.maxListLimit) ((s.matching kb (pre.getD []) none).length - pos)
  sorted := List.pairwise_map.mpr Objects.matching_sorted
  size_le _ _ _ := (Nat.min_le_left _ _).trans (Nat.min_le_left _ _)
  size_within pre _ _ := by
    rw [rowsOf_listed, List.length_map]
    exact Nat.min_le_right _ _
  size_pos pre pos limit hlimit hpos := by
    rw [rowsOf_listed, List.length_map] at hpos
    have hmax : 0 < StorageOp.maxListLimit := by decide
    omega
  size_fewer _ _ _ _ hn := by omega
  answers pre limit cursor pos hlimit hstands := by
    obtain ⟨nextCursor, hpage, hnone, hsome⟩ := listPage_answers hlimit hstands
    rw [rowsOf_listed, List.length_map]
    exact ⟨nextCursor, congrArg _ hpage, hnone, hsome⟩

end Objects

/-- For every listing, policy, principal, verb, prefix and page limit: following the cursors to the end
yields exactly the stored objects of the prefix that the filter allows, in order, if and only if the scan
is not narrowed past a key that only the service token is allowed. -/
theorem listing_yields_visible_iff (l : StoredListing) (policy : AccessPolicy) (principal : Principal)
    (verb : Verb) (pre : Option Text) {limit : Nat} (hlimit : 0 < limit) :
    Paging.Yields (l.ask pre limit (policy.keyFilter principal verb))
      ((l.stored.filter fun m => (pre.getD []).isPrefixOf m.key).filter fun m =>
        (policy.keyFilter principal verb).allows m.key) ↔
    l.Covered pre (policy.keyFilter principal verb) :=
  ⟨StoredListing.covered_of_yields hlimit, StoredListing.yields_of_covered hlimit⟩

/-- The manifest and a note below `public`. -/
def publicNotes : Objects :=
  (Objects.empty.put (.notes, KbManifest.path) (.tagged 'm' [1])).put
    (.notes, ⟨"public/a.md".toList, by decide⟩) (.tagged 'a' [2])

/-- Everyone signed in may list what is below `public`. -/
def publicOnly : AccessPolicy :=
  ⟨[⟨.signedIn, .allow, [.list],
    [⟨"public/**".toList, [[.literal "public".toList, .doubleStar]], by decide⟩]⟩]⟩

def alice : Principal := .signedIn (.user ⟨"alice".toList, []⟩)

/-- A user is shown the note, one object a page. -/
theorem listing_yields_visible_iff_alice :
    ∃ shown, Paging.Yields
        ((objectsListing publicNotes .notes).ask none 1 (publicOnly.keyFilter alice .list)) shown ∧
      shown.map ObjectMeta.key = ["public/a.md".toList] := by
  refine ⟨_, (listing_yields_visible_iff (objectsListing publicNotes .notes) publicOnly alice .list none
    (show 0 < 1 by decide)).mpr ?_, by decide⟩
  intro hreach
  cases hreach

/-- The service token is allowed the manifest, which is stored, and is shown only the note. -/
theorem manifest_not_listed :
    (publicOnly.keyFilter (.signedIn .serviceToken) .list).allows KbManifest.key = true ∧
    KbManifest.key ∈ (objectsListing publicNotes .notes).stored.map ObjectMeta.key ∧
    ¬ Paging.Yields
      ((objectsListing publicNotes .notes).ask none 100 (publicOnly.keyFilter (.signedIn .serviceToken) .list))
      (((objectsListing publicNotes .notes).stored.filter fun m => List.isPrefixOf [] m.key).filter fun m =>
        (publicOnly.keyFilter (.signedIn .serviceToken) .list).allows m.key) := by
  have hshown : ∃ shown, Paging.Yields
      ((objectsListing publicNotes .notes).ask none 100 (publicOnly.keyFilter (.signedIn .serviceToken) .list))
        shown ∧ shown.map ObjectMeta.key = ["public/a.md".toList] := ⟨_, ⟨1, rfl⟩, by decide⟩
  obtain ⟨shown, hyields, hkeys⟩ := hshown
  refine ⟨by decide, by decide, fun hall => ?_⟩
  rw [hyields.unique hall] at hkeys
  revert hkeys
  decide

end Api
