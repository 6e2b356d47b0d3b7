-- SUMMARY: The hybrid searcher: the window it asks the vector store for, the hits it makes of the points, and the order and the cut of a page.
import NotedThat.Indexer.Pipeline
import NotedThat.Lib.ByteOrder
import Mathlib.Data.Prod.Lex
import Mathlib.Order.Compare

/-!
# The hybrid searcher

The vector store fuses two rankings and answers with scored points, in any order among equal scores.
The searcher makes hits of them, drops those whose key the request or the caller's grant refuses,
orders the rest and cuts the page. A score is the bits of a float: it is compared, never computed.
-/

namespace Searcher

/-! ## Requests -/

/-- Filters of a search, all of which a hit has to pass. -/
structure SearchFilter where
  objectKeyPrefix : Option Text := none
  mime : Option Text := none
  conceptType : Option Text := none
  headingPathPrefix : List Text := []
  updatedAfter : Option Int := none
  updatedBefore : Option Int := none
  tags : List Text := []
deriving DecidableEq

structure ValidatedRequest where
  query : Text
  filter : Option SearchFilter
  limit : Nat
deriving DecidableEq

inductive SearchError where
  | invalidInput (message : String)
  | unknownKb (slug : Text)
  | backendUnavailable (message : String)
  | internal (message : String)
deriving DecidableEq

/-- A condition the vector store checks itself. The bounds of a range are floats there; they are the
whole seconds they were made of here. -/
inductive Condition where
  | keyword (field value : Text)
  | keywords (field : Text) (values : List Text)
  | range (field : Text) (gte lte : Option Int)
deriving DecidableEq

/-- Conditions the searcher checks on each hit. -/
structure PostFilter where
  objectKeyPrefix : Option Text := none
deriving DecidableEq

namespace PostFilter

def isEmpty (post : PostFilter) : Bool := post.objectKeyPrefix.isNone

def matchesKey (post : PostFilter) (objectKey : Text) : Bool :=
  match post.objectKeyPrefix with
  | some start => start.isPrefixOf objectKey
  | none => true

end PostFilter

structure TranslatedFilter where
  qdrant : Option (List Condition) := none
  post : PostFilter := {}
deriving DecidableEq

/-- What the media type of a filter asks for: its essence, or also the value as it stands, which
chunks indexed long ago may hold. -/
def mimeCondition (mime : Text) : Condition :=
  let normalised := Indexer.essence mime
  if normalised = mime then .keyword "mime".toList normalised
  else .keywords "mime".toList [normalised, mime]

/-- Split a filter into what the vector store checks and what is left to the searcher. -/
def translateFilter (filter : SearchFilter) : TranslatedFilter :=
  let conditions : List Condition :=
    filter.mime.toList.map mimeCondition ++
    filter.conceptType.toList.map (.keyword "okf.type".toList) ++
    filter.headingPathPrefix.mapIdx (fun i segment =>
      .keyword ("heading_path[".toList ++ Nat.toDigits 10 i ++ [']']) segment) ++
    filter.updatedAfter.toList.map (fun after => .range "mtime".toList (some after) none) ++
    filter.updatedBefore.toList.map (fun before => .range "mtime".toList none (some before)) ++
    (if filter.tags.isEmpty then [] else [.keywords "tags".toList filter.tags])
  ⟨if conditions.isEmpty then none else some conditions, ⟨filter.objectKeyPrefix⟩⟩

/-! ## The window -/

def prefetchFloor : Nat := 20

def filteredPrefetchFloor : Nat := 100

def postFilterOverFetchMultiplier : Nat := 10

def prefetchCap : Nat := 250

/-- How deep the vector store looks for one request. -/
structure FetchWindow where
  prefetchLimit : Nat
  limit : Nat
deriving DecidableEq

def fetchWindow (limit : Nat) (nativeFilter postFilter : Bool) : FetchWindow :=
  let wanted := if postFilter then limit * postFilterOverFetchMultiplier else limit
  let floor := if nativeFilter then filteredPrefetchFloor else prefetchFloor
  let prefetchLimit := min (max wanted floor) prefetchCap
  ⟨prefetchLimit, prefetchLimit * 2⟩

structure HybridQuery where
  text : Text
  dense : List UInt32
  filter : Option SearchFilter
  prefetchLimit : Nat
  limit : Nat
deriving DecidableEq

/-! ## Points -/

/-- A value of a payload; a float is its bits. -/
inductive Value where
  | null
  | bool (b : Bool)
  | integer (n : Int)
  | double (bits : UInt64)
  | string (s : Text)
  | list (values : List Value)
  | struct (fields : List (Text × Value))

structure ScoredPoint where
  payload : List (Text × Value)
  score : BitVec 32

def checkObjectKey (s : Text) : Except Error Unit :=
  if s.isEmpty then .error (.invalidInput "object key must not be empty")
  else if s.head? = some '/' then .error (.invalidInput "object key must not start with '/'")
  else if '\x00' ∈ s then .error (.invalidInput "object key must not contain NUL bytes")
  else
    match (s.splitOn '/').find? fun segment => segment = ['.', '.'] || segment = ['.'] with
    | some segment => .error (.invalidInput ("object key contains invalid path segment: '" ++
        String.ofList segment ++ "'"))
    | none => .ok ()

/-- The key of a hit: like an object path, but with fewer checks. -/
@[ext] structure ObjectKey where
  val : Text
  valid : checkObjectKey val = .ok ()
deriving DecidableEq

def ObjectKey.tryNew (s : Text) : Except Error ObjectKey :=
  match h : checkObjectKey s with
  | .ok () => .ok ⟨s, h⟩
  | .error e => .error e

structure SearchHit where
  objectKey : ObjectKey
  byteStart : Nat
  byteEnd : Nat
  headingPath : List Text
  score : BitVec 32
  preview : Text
  okf : Option ConceptMetadata
deriving DecidableEq

def previewMaxChars : Nat := 500

/-- How far back from the cut a preview looks for the end of a word. -/
def wordBackoffChars : Nat := 50

/-- The text up to its last whitespace, looked for among the last `wordBackoffChars`. -/
def wordBoundary (front : Text) : Option Text :=
  ((front.reverse.take wordBackoffChars).findIdx? Text.isWhitespace).map fun i =>
    front.take (front.length - 1 - i)

/-- At most `maxChars` characters of a text, ending with a word where there is one to end with. -/
def truncatePreview (text : Text) (maxChars : Nat) : Text :=
  if maxChars = 0 then []
  else
    let text := Text.trimEndMatches Text.isWhitespace text
    match text.drop (maxChars - 1) with
    | [] => text
    | [_] => text
    | c :: _ =>
      let front := text.take (maxChars - 1)
      let boundary := if Text.isWhitespace c then some front else wordBoundary front
      ((boundary.map (Text.trimEndMatches Text.isWhitespace)).filter (!·.isEmpty)).getD front ++ ['…']

/-- An offset of a payload, zero when it is missing or no offset. -/
def offsetOf (payload : List (Text × Value)) (field : Text) : Nat :=
  match payload.lookup field with
  | some (.integer n) => n.toNat
  | _ => 0

def stringOf : Value → Option Text
  | .string s => some s
  | _ => none

section Search

-- the decoder of concept metadata belongs to a library
variable (okfFromValue : Value → Except String ConceptMetadata)

def pointToHit (point : ScoredPoint) : Except SearchError SearchHit :=
  match (point.payload.lookup "object_key".toList).bind stringOf with
  | none => .error (.internal "hit missing object_key")
  | some key =>
    match ObjectKey.tryNew key with
    | .error e => .error (.internal ("invalid object_key: " ++ e.display))
    | .ok objectKey =>
      let headingPath := match point.payload.lookup "heading_path".toList with
        | some (.list values) => values.filterMap stringOf
        | _ => []
      let text := ((point.payload.lookup "text".toList).bind stringOf).getD []
      let hit : Option ConceptMetadata → SearchHit := fun okf =>
        ⟨objectKey, offsetOf point.payload "byte_start".toList,
          offsetOf point.payload "byte_end".toList, headingPath, point.score,
          truncatePreview text previewMaxChars, okf⟩
      match point.payload.lookup "okf".toList with
      | none => .ok (hit none)
      | some value =>
        match okfFromValue value with
        | .error e => .error (.internal ("invalid OKF metadata: " ++ e))
        | .ok okf => .ok (hit (some okf))

/-! ## Order -/

/-- `f32::total_cmp` compares these. -/
def totalOrder (score : BitVec 32) : Int := (score ^^^ (score.sshiftRight 31 >>> 1)).toInt

/-- `Ord::cmp`. -/
def ordCmp {α : Type} [LinearOrder α] (a b : α) : Ordering := cmp a b

/-- Score descending, then key and offset ascending. -/
def compareHits (a b : SearchHit) : Ordering :=
  (ordCmp (totalOrder b.score) (totalOrder a.score)).then
    ((ordCmp a.objectKey.val b.objectKey.val).then (ordCmp a.byteStart b.byteStart))

def sortHits (hits : List SearchHit) : List SearchHit :=
  hits.mergeSort fun a b => (compareHits a b).isLE

/-! ## The search -/

/-- Whether a hit may be on the page. -/
def acceptable (post : PostFilter) (keyFilter : Option (Text → Bool)) (hit : SearchHit) : Bool :=
  post.matchesKey hit.objectKey.val && keyFilter.all (· hit.objectKey.val)

/-- The page made of the points of the vector store. -/
def pageOf (post : PostFilter) (keyFilter : Option (Text → Bool)) (limit : Nat)
    (points : List ScoredPoint) : Except SearchError (List SearchHit) := do
  let hits ← points.mapM (pointToHit okfFromValue)
  return (sortHits (hits.filter (acceptable post keyFilter))).take limit

inductive VectorStoreError where
  | collectionNotFound (kb : Text)
  | backend (message : String)
deriving DecidableEq

def searchErrorFromStore : VectorStoreError → SearchError
  | .collectionNotFound kb => .unknownKb kb
  | .backend message => .backendUnavailable message

/-- The filter of a request, translated. -/
def translated (request : ValidatedRequest) : TranslatedFilter :=
  (request.filter.map translateFilter).getD {}

/-- What the vector store is asked. -/
def queryOf (request : ValidatedRequest) (keyFilter : Option (Text → Bool)) (dense : List UInt32) :
    HybridQuery :=
  let window := fetchWindow request.limit (translated request).qdrant.isSome
    (!(translated request).post.isEmpty || keyFilter.isSome)
  ⟨request.query, dense, request.filter, window.prefetchLimit, window.limit⟩

variable (embed : List Text → Except String (List (List UInt32)))
variable (hybridSearch : KbSlug → HybridQuery → Except VectorStoreError (List ScoredPoint))

/-- The search of one knowledge base: the query is embedded, the points are fetched, and the page is
made of them. -/
def search (kb : KbSlug) (request : ValidatedRequest) (keyFilter : Option (Text → Bool)) :
    Except SearchError (List SearchHit) :=
  match embed [request.query] with
  | .error e => .error (.backendUnavailable e)
  | .ok [dense] =>
    match hybridSearch kb (queryOf request keyFilter dense) with
    | .error e => .error (searchErrorFromStore e)
    | .ok points =>
      pageOf okfFromValue (translated request).post keyFilter request.limit points
  | .ok _ => .error (.internal "embedder returned wrong number of vectors")

end Search

/-! ## The order is total on chunks -/

section Order

/-- Where a hit stands: what `compareHits` compares, one after the other. -/
def standing (hit : SearchHit) : Intᵒᵈ ×ₗ Text ×ₗ Nat :=
  toLex (OrderDual.toDual (totalOrder hit.score), toLex (hit.objectKey.val, hit.byteStart))

/-- The chunk a hit is. -/
def place (hit : SearchHit) : Text × Nat := (hit.objectKey.val, hit.byteStart)

/-- Comparing one after the other is comparing pairs. -/
theorem then_cmp {α β : Type} [LinearOrder α] [LinearOrder β] (a a' : α) (b b' : β) :
    (ordCmp a a').then (ordCmp b b') = ordCmp (toLex (a, b)) (toLex (a', b')) := by
  unfold ordCmp
  rcases lt_trichotomy a a' with h | rfl | h
  · have hlex : toLex (a, b) < toLex (a', b') := Prod.Lex.toLex_lt_toLex.mpr (.inl h)
    rw [(cmp_eq_lt_iff _ _).mpr h, (cmp_eq_lt_iff _ _).mpr hlex]
    rfl
  · rw [cmp_self_eq_eq]
    rcases lt_trichotomy b b' with h | rfl | h
    · have hlex : toLex (a, b) < toLex (a, b') := Prod.Lex.toLex_lt_toLex.mpr (.inr ⟨rfl, h⟩)
      rw [(cmp_eq_lt_iff _ _).mpr h, (cmp_eq_lt_iff _ _).mpr hlex]
      rfl
    · rw [cmp_self_eq_eq, cmp_self_eq_eq]
      rfl
    · have hlex : toLex (a, b') < toLex (a, b) := Prod.Lex.toLex_lt_toLex.mpr (.inr ⟨rfl, h⟩)
      rw [(cmp_eq_gt_iff _ _).mpr h, (cmp_eq_gt_iff _ _).mpr hlex]
      rfl
  · have hlex : toLex (a', b') < toLex (a, b) := Prod.Lex.toLex_lt_toLex.mpr (.inl h)
    rw [(cmp_eq_gt_iff _ _).mpr h, (cmp_eq_gt_iff _ _).mpr hlex]
    rfl

theorem compareHits_eq (a b : SearchHit) : compareHits a b = ordCmp (standing a) (standing b) := by
  have hscore : ordCmp (totalOrder b.score) (totalOrder a.score) =
      ordCmp (OrderDual.toDual (totalOrder a.score)) (OrderDual.toDual (totalOrder b.score)) :=
    (cmp_toDual _ _).symm
  unfold compareHits standing
  rw [hscore, then_cmp, then_cmp]

theorem compareHits_isLE {a b : SearchHit} :
    (compareHits a b).isLE = true ↔ standing a ≤ standing b := by
  rw [compareHits_eq, ordCmp]
  rcases lt_trichotomy (standing a) (standing b) with h | h | h
  · rw [(cmp_eq_lt_iff _ _).mpr h]
    exact iff_of_true rfl h.le
  · rw [(cmp_eq_eq_iff _ _).mpr h]
    exact iff_of_true rfl h.le
  · rw [(cmp_eq_gt_iff _ _).mpr h]
    exact iff_of_false Bool.false_ne_true (not_le_of_gt h)

/-- Hits that stand at one place are the same chunk. -/
theorem place_eq_of_standing_eq {a b : SearchHit} (h : standing a = standing b) :
    place a = place b := by
  have hpair := congrArg (fun s => ofLex (ofLex s).2) h
  exact hpair

theorem sortHits_sorted (hits : List SearchHit) :
    (sortHits hits).Pairwise fun a b => standing a ≤ standing b := by
  have hsorted : (sortHits hits).Pairwise fun a b => (compareHits a b).isLE = true := by
    refine List.pairwise_mergeSort (fun a b c hab hbc => ?_) (fun a b => ?_) hits
    · exact compareHits_isLE.mpr ((compareHits_isLE.mp hab).trans (compareHits_isLE.mp hbc))
    · rw [Bool.or_eq_true, compareHits_isLE, compareHits_isLE]
      exact le_total _ _
  exact hsorted.imp compareHits_isLE.mp

/-- Hits of different chunks have one order. -/
theorem sortHits_strict {hits : List SearchHit} (h : (hits.map place).Nodup) :
    (sortHits hits).Pairwise fun a b => standing a < standing b := by
  have hperm : (sortHits hits).Perm hits := List.mergeSort_perm hits _
  have hnodup : ((sortHits hits).map place).Nodup := (hperm.map place).nodup_iff.mpr h
  rw [List.Nodup, List.pairwise_map] at hnodup
  refine ((sortHits_sorted hits).and hnodup).imp fun {a b} hab => ?_
  exact lt_of_le_of_ne hab.1 fun heq => hab.2 (place_eq_of_standing_eq heq)

end Order

/-! ## Every order of the points gives the page -/

section Pages

variable {okfFromValue : Value → Except String ConceptMetadata} {points points' : List ScoredPoint}
variable {post : PostFilter} {keyFilter : Option (Text → Bool)} {limit : Nat} {hits : List SearchHit}

/-- No two points are the same chunk. -/
def Distinct (okfFromValue : Value → Except String ConceptMetadata) (points : List ScoredPoint) :
    Prop :=
  points.Pairwise fun point point' => ∀ hit hit', pointToHit okfFromValue point = .ok hit →
    pointToHit okfFromValue point' = .ok hit' → place hit ≠ place hit'

/-- All points become hits, or the search fails. -/
theorem mapM_pointToHit : points.mapM (pointToHit okfFromValue) = .ok hits ↔
    List.Forall₂ (fun point hit => pointToHit okfFromValue point = .ok hit) points hits := by
  induction points generalizing hits with
  | nil => simp [pure, Except.pure, eq_comm]
  | cons point points ih =>
    rw [List.mapM_cons, List.forall₂_cons_left_iff]
    cases hpoint : pointToHit okfFromValue point with
    | error e => simp [bind, Except.bind]
    | ok hit =>
      cases hrest : points.mapM (pointToHit okfFromValue) with
      | error e =>
        refine iff_of_false (by simp [bind, Except.bind]) ?_
        rintro ⟨hit', rest, -, hforall, -⟩
        rw [ih.mpr hforall] at hrest
        cases hrest
      | ok rest =>
        have hforall := ih.mp hrest
        simp only [bind, Except.bind, pure, Except.pure, Except.ok.injEq]
        constructor
        · rintro rfl
          exact ⟨hit, rest, rfl, hforall, rfl⟩
        · rintro ⟨hit', rest', rfl, hforall', rfl⟩
          cases (ih.mpr hforall').symm.trans hrest
          rfl

theorem pageOf_eq_ok {page : List SearchHit} :
    pageOf okfFromValue post keyFilter limit points = .ok page ↔
      ∃ hits, List.Forall₂ (fun point hit => pointToHit okfFromValue point = .ok hit) points hits ∧
        page = (sortHits (hits.filter (acceptable post keyFilter))).take limit := by
  unfold pageOf
  cases hmap : points.mapM (pointToHit okfFromValue) with
  | error e =>
    refine iff_of_false (by simp [bind, Except.bind]) ?_
    rintro ⟨hits, hforall, -⟩
    rw [mapM_pointToHit.mpr hforall] at hmap
    cases hmap
  | ok hits =>
    simp only [bind, Except.bind, pure, Except.pure, Except.ok.injEq]
    constructor
    · rintro rfl
      exact ⟨hits, mapM_pointToHit.mp hmap, rfl⟩
    · rintro ⟨hits', hforall, rfl⟩
      cases (mapM_pointToHit.mpr hforall).symm.trans hmap
      rfl

/-- Hits of points that are different chunks are different chunks. -/
theorem nodup_place (h : Distinct okfFromValue points)
    (hhits : List.Forall₂ (fun point hit => pointToHit okfFromValue point = .ok hit) points hits) :
    (hits.map place).Nodup := by
  rw [List.Nodup, List.pairwise_map]
  induction hhits with
  | nil => exact .nil
  | @cons point hit points hits hpoint hrest ih =>
    obtain ⟨hfirst, hdistinct⟩ := List.pairwise_cons.mp h
    refine List.pairwise_cons.mpr ⟨fun hit' hmem => ?_, ih hdistinct⟩
    obtain ⟨point', hmem', hpoint'⟩ : ∃ point' ∈ points, pointToHit okfFromValue point' = .ok hit' := by
      obtain ⟨i, hi, rfl⟩ := List.getElem_of_mem hmem
      have hlen := hrest.length_eq
      exact ⟨points[i], List.getElem_mem _, (List.forall₂_iff_get.mp hrest).2 i (hlen ▸ hi) hi⟩
    exact hfirst point' hmem' hit hit' hpoint hpoint'

/-- The same page, whatever order the points come in. -/
theorem sortHits_perm {hits hits' : List SearchHit} (hperm : hits.Perm hits')
    (h : (hits.map place).Nodup) : sortHits hits = sortHits hits' := by
  have hnodup' : (hits'.map place).Nodup := (hperm.map place).nodup_iff.mp h
  refine List.eq_of_keys_lt (sortHits_strict h) (sortHits_strict hnodup') fun hit => ?_
  unfold sortHits
  rw [List.mem_mergeSort, List.mem_mergeSort]
  exact hperm.mem_iff

theorem pageOf_perm (hperm : points.Perm points') (h : Distinct okfFromValue points)
    {page : List SearchHit} (hpage : pageOf okfFromValue post keyFilter limit points = .ok page) :
    pageOf okfFromValue post keyFilter limit points' = .ok page := by
  obtain ⟨hits, hforall, rfl⟩ := pageOf_eq_ok.mp hpage
  obtain ⟨hits', hforall', hhits⟩ := List.perm_comp_forall₂ hperm.symm hforall
  refine pageOf_eq_ok.mpr ⟨hits', hforall', ?_⟩
  have hkeep : (hits.filter (acceptable post keyFilter)).Perm
      (hits'.filter (acceptable post keyFilter)) := hhits.symm.filter _
  rw [sortHits_perm hkeep ((nodup_place h hforall).sublist (List.Sublist.map _ List.filter_sublist))]

/-! ## What a page is -/

/-- The documented order: score descending, then key and offset ascending. -/
def Precedes (a b : SearchHit) : Prop :=
  totalOrder b.score < totalOrder a.score ∨ totalOrder a.score = totalOrder b.score ∧
    (a.objectKey.val < b.objectKey.val ∨
      a.objectKey.val = b.objectKey.val ∧ a.byteStart < b.byteStart)

/-- The request and the caller's grant both take the key. -/
def Accepts (request : ValidatedRequest) (keyFilter : Option (Text → Bool)) (key : Text) : Prop :=
  (∀ filter ∈ request.filter, ∀ start ∈ filter.objectKeyPrefix, start <+: key) ∧
    ∀ allows ∈ keyFilter, allows key = true

/-- The page is the first hits of those accepted, in the documented order. -/
def IsPage (request : ValidatedRequest) (keyFilter : Option (Text → Bool))
    (hits page : List SearchHit) : Prop :=
  ∃ ordered : List SearchHit,
    (∀ hit, hit ∈ ordered ↔ hit ∈ hits ∧ Accepts request keyFilter hit.objectKey.val) ∧
    ordered.Pairwise Precedes ∧ page = ordered.take request.limit

/-- Two answers of the vector store that differ only in the order of their points, which are
different chunks. -/
inductive Reordered (okfFromValue : Value → Except String ConceptMetadata) :
    Except VectorStoreError (List ScoredPoint) → Except VectorStoreError (List ScoredPoint) → Prop where
  | error (e : VectorStoreError) : Reordered okfFromValue (.error e) (.error e)
  | ok {points points' : List ScoredPoint} : points.Perm points' → Distinct okfFromValue points →
      Reordered okfFromValue (.ok points) (.ok points')

theorem standing_lt_iff {a b : SearchHit} : standing a < standing b ↔ Precedes a b := by
  unfold standing Precedes
  rw [Prod.Lex.toLex_lt_toLex, Prod.Lex.toLex_lt_toLex]
  rfl

theorem acceptable_iff {request : ValidatedRequest} {hit : SearchHit} :
    acceptable (translated request).post keyFilter hit = true ↔
      Accepts request keyFilter hit.objectKey.val := by
  unfold acceptable Accepts
  rw [Bool.and_eq_true]
  refine and_congr ?_ ?_
  · unfold translated PostFilter.matchesKey
    cases request.filter with
    | none => simp
    | some filter =>
      cases hstart : filter.objectKeyPrefix with
      | none => simp [translateFilter, hstart]
      | some start => simp [translateFilter, hstart]
  · cases keyFilter with
    | none => simp
    | some allows => simp

theorem isPage_pageOf (request : ValidatedRequest) (keyFilter : Option (Text → Bool))
    (h : (hits.map place).Nodup) :
    IsPage request keyFilter hits
      ((sortHits (hits.filter (acceptable (translated request).post keyFilter))).take
        request.limit) := by
  refine ⟨_, fun hit => ?_, ?_, rfl⟩
  · unfold sortHits
    rw [List.mem_mergeSort, List.mem_filter, acceptable_iff]
  · refine (sortHits_strict ?_).imp standing_lt_iff.mp
    exact h.sublist (List.Sublist.map _ List.filter_sublist)

/-- Accepted hits have one order. -/
theorem IsPage.unique {request : ValidatedRequest} {page page' : List SearchHit}
    (h : IsPage request keyFilter hits page) (h' : IsPage request keyFilter hits page') : page = page' := by
  obtain ⟨ordered, hmem, hsorted, rfl⟩ := h
  obtain ⟨ordered', hmem', hsorted', rfl⟩ := h'
  have heq : ordered = ordered' := by
    refine List.eq_of_keys_lt (hsorted.imp standing_lt_iff.mpr) (hsorted'.imp standing_lt_iff.mpr) fun hit => ?_
    rw [hmem, hmem']
  rw [heq]

theorem IsPage.accepts {request : ValidatedRequest} {page : List SearchHit}
    (h : IsPage request keyFilter hits page) {hit : SearchHit} (hmem : hit ∈ page) :
    Accepts request keyFilter hit.objectKey.val := by
  obtain ⟨ordered, hordered, -, rfl⟩ := h
  exact ((hordered hit).mp (List.mem_of_mem_take hmem)).2

theorem Distinct.perm (h : Distinct okfFromValue points) (hperm : points.Perm points') :
    Distinct okfFromValue points' := by
  refine (hperm.pairwise_iff fun {point point'} hne hit hit' hhit hhit' heq => ?_).mp h
  exact hne hit' hit hhit' hhit heq.symm

theorem Reordered.distinct {a b : Except VectorStoreError (List ScoredPoint)} (h : Reordered okfFromValue a b)
    (hpoints : a = .ok points) : Distinct okfFromValue points := by
  cases h with
  | error e => cases hpoints
  | ok hperm hdistinct =>
    cases hpoints
    exact hdistinct

/-- The points that can all be converted give one page. -/
theorem pageOf_eq_ok_iff (request : ValidatedRequest) (h : Distinct okfFromValue points) {page : List SearchHit} :
    pageOf okfFromValue (translated request).post keyFilter request.limit points = .ok page ↔
      ∃ hits, List.Forall₂ (fun point hit => pointToHit okfFromValue point = .ok hit) points hits ∧
        IsPage request keyFilter hits page := by
  rw [pageOf_eq_ok]
  refine exists_congr fun hits => and_congr_right fun hforall => ?_
  have hpage := isPage_pageOf request keyFilter (nodup_place h hforall)
  exact ⟨fun heq => heq ▸ hpage, fun hisPage => hisPage.unique hpage⟩

theorem pageOf_perm_iff (hperm : points.Perm points') (h : Distinct okfFromValue points) {page : List SearchHit} :
    pageOf okfFromValue post keyFilter limit points' = .ok page ↔
      pageOf okfFromValue post keyFilter limit points = .ok page :=
  ⟨pageOf_perm hperm.symm (h.perm hperm), pageOf_perm hperm h⟩

end Pages

section Runs

variable {okfFromValue : Value → Except String ConceptMetadata}
variable {embed : List Text → Except String (List (List UInt32))}
variable {hybridSearch hybridSearch' : KbSlug → HybridQuery → Except VectorStoreError (List ScoredPoint)}
variable {kb : KbSlug} {request : ValidatedRequest} {keyFilter : Option (Text → Bool)} {page : List SearchHit}

/-- The search answers hits when the query has one vector and the vector store has points for it. -/
theorem search_eq_ok : search okfFromValue embed hybridSearch kb request keyFilter = .ok page ↔
    ∃ dense points, embed [request.query] = .ok [dense] ∧
      hybridSearch kb (queryOf request keyFilter dense) = .ok points ∧
      pageOf okfFromValue (translated request).post keyFilter request.limit points = .ok page := by
  unfold search
  cases embed [request.query] with
  | error e => exact iff_of_false nofun (by rintro ⟨_, _, ⟨⟩, _⟩)
  | ok vectors =>
    rcases vectors with _ | ⟨dense, _ | ⟨dense', rest⟩⟩
    · exact iff_of_false nofun (by rintro ⟨_, _, ⟨⟩, _⟩)
    · cases hpoints : hybridSearch kb (queryOf request keyFilter dense) with
      | error e =>
        refine iff_of_false (by simp [hpoints]) ?_
        rintro ⟨_, points, ⟨⟩, hpoints', -⟩
        exact nomatch hpoints.symm.trans hpoints'
      | ok points =>
        simp only [hpoints]
        constructor
        · intro hpage
          exact ⟨dense, points, rfl, hpoints, hpage⟩
        · rintro ⟨_, points', ⟨⟩, hpoints', hpage⟩
          cases hpoints.symm.trans hpoints'
          exact hpage
    · exact iff_of_false nofun (by rintro ⟨_, _, ⟨⟩, _⟩)

/-- What the vector store answers to a query, in the one order or the other. -/
theorem Reordered.ok_iff {a b : Except VectorStoreError (List ScoredPoint)} (h : Reordered okfFromValue a b) :
    (∃ points, a = .ok points ∧
        pageOf okfFromValue (translated request).post keyFilter request.limit points = .ok page) ↔
      ∃ points, b = .ok points ∧
        pageOf okfFromValue (translated request).post keyFilter request.limit points = .ok page := by
  cases h with
  | error e => exact Iff.rfl
  | @ok points points' hperm hdistinct =>
    constructor
    · rintro ⟨_, ⟨⟩, hpage⟩
      exact ⟨points', rfl, (pageOf_perm_iff hperm hdistinct).mpr hpage⟩
    · rintro ⟨_, ⟨⟩, hpage⟩
      exact ⟨points, rfl, (pageOf_perm_iff hperm hdistinct).mp hpage⟩

theorem search_reordered (h : ∀ query, Reordered okfFromValue (hybridSearch kb query) (hybridSearch' kb query)) :
    search okfFromValue embed hybridSearch kb request keyFilter = .ok page ↔
      search okfFromValue embed hybridSearch' kb request keyFilter = .ok page := by
  rw [search_eq_ok, search_eq_ok]
  refine exists_congr fun dense => ?_
  rw [exists_and_left, exists_and_left]
  exact and_congr_right fun _ => (h (queryOf request keyFilter dense)).ok_iff

end Runs

/-- A search gives the same hits in whatever order the vector store answers: it answers exactly when the query
has one vector and every point fused for that vector is a hit, and then with the first of those hits that the
request and the grant accept, in the documented order. -/
theorem search_order_independent (okfFromValue : Value → Except String ConceptMetadata)
    (embed : List Text → Except String (List (List UInt32)))
    (hybridSearch hybridSearch' : KbSlug → HybridQuery → Except VectorStoreError (List ScoredPoint))
    (kb : KbSlug) (request : ValidatedRequest) (keyFilter : Option (Text → Bool))
    (h : ∀ query, Reordered okfFromValue (hybridSearch kb query) (hybridSearch' kb query)) :
    (∀ page, search okfFromValue embed hybridSearch kb request keyFilter = .ok page ↔
        search okfFromValue embed hybridSearch' kb request keyFilter = .ok page) ∧
      (∀ page, search okfFromValue embed hybridSearch kb request keyFilter = .ok page ↔
        ∃ dense points hits, embed [request.query] = .ok [dense] ∧
          hybridSearch kb (queryOf request keyFilter dense) = .ok points ∧
          List.Forall₂ (fun point hit => pointToHit okfFromValue point = .ok hit) points hits ∧
          IsPage request keyFilter hits page) ∧
      (∀ dense points hits, embed [request.query] = .ok [dense] →
        hybridSearch kb (queryOf request keyFilter dense) = .ok points →
        List.Forall₂ (fun point hit => pointToHit okfFromValue point = .ok hit) points hits →
        ∃ page, search okfFromValue embed hybridSearch kb request keyFilter = .ok page ∧
          search okfFromValue embed hybridSearch' kb request keyFilter = .ok page ∧
          IsPage request keyFilter hits page) ∧
      ∀ page, search okfFromValue embed hybridSearch kb request keyFilter = .ok page →
        ∀ hit ∈ page, Accepts request keyFilter hit.objectKey.val := by
  have hanswer : ∀ page, search okfFromValue embed hybridSearch kb request keyFilter = .ok page ↔
      ∃ dense points hits, embed [request.query] = .ok [dense] ∧
        hybridSearch kb (queryOf request keyFilter dense) = .ok points ∧
        List.Forall₂ (fun point hit => pointToHit okfFromValue point = .ok hit) points hits ∧
        IsPage request keyFilter hits page := by
    intro page
    rw [search_eq_ok]
    refine exists_congr fun dense => exists_congr fun points => ?_
    rw [exists_and_left, exists_and_left]
    refine and_congr_right fun _ => and_congr_right fun hpoints => ?_
    exact pageOf_eq_ok_iff request ((h _).distinct hpoints)
  refine ⟨fun page => search_reordered h, hanswer, fun dense points hits hembed hpoints hforall => ?_, ?_⟩
  · have hpage := isPage_pageOf request keyFilter (nodup_place ((h _).distinct hpoints) hforall)
    have hok := (hanswer _).mpr ⟨dense, points, hits, hembed, hpoints, hforall, hpage⟩
    exact ⟨_, hok, (search_reordered h).mp hok, hpage⟩
  · intro page hok hit hmem
    obtain ⟨_, _, _, -, -, -, hpage⟩ := (hanswer page).mp hok
    exact hpage.accepts hmem

section Ties

/-- A point that is the start of an object, with a score. -/
def startOf (key : String) (score : BitVec 32) : ScoredPoint :=
  ⟨[("object_key".toList, .string key.toList), ("byte_start".toList, .integer 0)], score⟩

/-- No point here has concept metadata. -/
def noOkf : Value → Except String ConceptMetadata := fun _ => .error "missing field `concept_id`"

theorem reordered_starts (score : BitVec 32) : Reordered noOkf
    (.ok [startOf "a.md" score, startOf "b.md" score])
    (.ok [startOf "b.md" score, startOf "a.md" score]) := by
  refine .ok (.swap _ _ _) ?_
  refine List.pairwise_pair.mpr fun hit hit' hhit hhit' => ?_
  have hplace : (pointToHit noOkf (startOf "a.md" score)).map place = .ok ("a.md".toList, 0) := rfl
  have hplace' : (pointToHit noOkf (startOf "b.md" score)).map place = .ok ("b.md".toList, 0) := rfl
  rw [hhit] at hplace
  rw [hhit'] at hplace'
  intro heq
  rw [Except.map, Except.ok.injEq] at hplace hplace'
  rw [hplace, hplace'] at heq
  revert heq
  decide

/-- The hit that the start of an object is. -/
def startHit (objectKey : ObjectKey) (score : BitVec 32) : SearchHit := ⟨objectKey, 0, 0, [], score, [], none⟩

def aMd : ObjectKey := ⟨"a.md".toList, by decide⟩

def bMd : ObjectKey := ⟨"b.md".toList, by decide⟩

theorem starts_hits (score : BitVec 32) :
    List.Forall₂ (fun point hit => pointToHit noOkf point = .ok hit)
      [startOf "a.md" score, startOf "b.md" score] [startHit aMd score, startHit bMd score] :=
  .cons rfl (.cons rfl .nil)

/-- Among equal scores the lesser key is first. -/
theorem isPage_starts (score : BitVec 32) :
    IsPage ⟨['q'], none, 1⟩ none [startHit aMd score, startHit bMd score] [startHit aMd score] := by
  refine ⟨[startHit aMd score, startHit bMd score], fun hit => ?_, ?_, rfl⟩
  · exact ⟨fun hmem => ⟨hmem, nofun, nofun⟩, And.left⟩
  · have hkeys : aMd.val < bMd.val := by decide
    exact List.pairwise_pair.mpr (.inr ⟨rfl, .inl hkeys⟩)

/-- Two points with one score: the page of one hit has the lesser key, also when its point comes last. -/
theorem search_order_independent_tie :
    search noOkf (fun _ => .ok [[0]]) (fun _ _ => .ok [startOf "a.md" 1, startOf "b.md" 1]) .notes
        ⟨['q'], none, 1⟩ none = .ok [startHit aMd 1] ∧
      search noOkf (fun _ => .ok [[0]]) (fun _ _ => .ok [startOf "b.md" 1, startOf "a.md" 1]) .notes
        ⟨['q'], none, 1⟩ none = .ok [startHit aMd 1] := by
  have h := search_order_independent noOkf (fun _ => .ok [[0]])
    (fun _ _ => .ok [startOf "a.md" 1, startOf "b.md" 1]) (fun _ _ => .ok [startOf "b.md" 1, startOf "a.md" 1])
    .notes ⟨['q'], none, 1⟩ none fun _ => reordered_starts 1
  have hfirst := (h.2.1 _).mpr ⟨[0], _, _, rfl, rfl, starts_hits 1, isPage_starts 1⟩
  exact ⟨hfirst, (h.1 _).mp hfirst⟩

end Ties

end Searcher
