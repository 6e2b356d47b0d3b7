-- SUMMARY: What is indexed: the tags of all objects from one walk over the chunks, and that asking for one object agrees with it.
import NotedThat.Core.Points
import NotedThat.Lib.OrdMap
import NotedThat.Lib.Paging
import Mathlib.Data.List.Lex

/-!
# Indexed objects

A database of chunks is asked which objects it holds, and from which version each was indexed. An object whose
chunks disagree has the empty tag. The walk over all chunks and the question for one object must give the same.
-/

namespace Indexer

/-- The fields a chunk is asked for, where they are strings. -/
structure ChunkRecord where
  objectKey : Option Text
  etag : Option Text
deriving DecidableEq

structure IndexedObject where
  objectKey : Text
  etag : Text
deriving DecidableEq

/-- The first chunk sets the tag of its object, and one with another tag clears it. -/
def mergeEtag (etag : Text) : Option Text → Text
  | none => etag
  | some held => if held ≠ etag then [] else held

def mergeChunkEtag (byKey : OrdMap Text Text) (objectKey : Text) (etag : Option Text) : OrdMap Text Text :=
  byKey.alter objectKey (mergeEtag (etag.getD []))

/-- The client of the database. `scroll` asks for chunks, of one object or of all, and `count` for how many of
an object do not carry a tag. -/
structure QdrantClient where
  Offset : Type
  Error : Type
  scroll : Option Text → Nat → Option Offset → Except Error (Paging.Page ChunkRecord Offset)
  count : Text → Text → Except Error (Option Nat)

def scrollPage : Nat := 1024

namespace QdrantClient

variable (client : QdrantClient) (pre : Option Text)

def indexedEtag (objectKey : Text) : Except client.Error (Option Text) := do
  let response ← client.scroll (some objectKey) 1 none
  match response.rows.head?.bind (·.etag) with
  | none => return none
  | some etag =>
    let count ← client.count objectKey etag
    let consistent := count.any (· = 0)
    return if consistent then some etag else none

/-- Merge a chunk into what is known, unless it is to be left out. -/
def mergePoint (pre : Option Text) (byKey : OrdMap Text Text) (point : ChunkRecord) : OrdMap Text Text :=
  match point.objectKey with
  | none => byKey
  | some objectKey =>
    if pre.any fun pre => !pre.isPrefixOf objectKey then byKey else mergeChunkEtag byKey objectKey point.etag

/-- The walk from an offset on, within a number of pages. -/
def indexedObjectsFrom : Nat → Option client.Offset → OrdMap Text Text →
    Option (Except client.Error (List IndexedObject))
  | 0, _, _ => none
  | pages + 1, offset, byKey =>
    match client.scroll none scrollPage offset with
    | .error e => some (.error e)
    | .ok response =>
      let byKey := response.rows.foldl (mergePoint pre) byKey
      match response.next with
      | some next => indexedObjectsFrom pages (some next) byKey
      | none => some (.ok (byKey.entries.map fun e => ⟨e.1, e.2⟩))

def indexedObjects (pages : Nat) : Option (Except client.Error (List IndexedObject)) :=
  indexedObjectsFrom client pre pages none .empty

/-! ## Merging -/

variable {pre} {records : List ChunkRecord} {byKey : OrdMap Text Text} {key e : Text}

/-- The objects asked for are those whose keys begin with the prefix. -/
def Under (pre : Option Text) (key : Text) : Prop := ∀ p ∈ pre, p <+: key

def Held (records : List ChunkRecord) (key : Text) : Prop := ∃ r ∈ records, r.objectKey = some key

/-- The chunks of an object all carry this tag. -/
def AllCarry (records : List ChunkRecord) (key e : Text) : Prop :=
  ∀ r ∈ records, r.objectKey = some key → r.etag = some e

/-- The tag all chunks of an object carry, or the empty one if they carry none or it is empty. -/
def Common (records : List ChunkRecord) (key e : Text) : Prop :=
  e ≠ [] ∧ AllCarry records key e ∨ e = [] ∧ ∀ e', e' ≠ [] → ¬ AllCarry records key e'

/-- The tags of an object, empty for a chunk without. -/
def etagsOf (records : List ChunkRecord) (key : Text) : List Text :=
  (records.filter fun r => r.objectKey = some key).map fun r => r.etag.getD []

instance : Decidable (Under pre key) := by
  unfold Under
  infer_instance

theorem get?_foldl_mergePoint (records : List ChunkRecord) (byKey : OrdMap Text Text) :
    (records.foldl (mergePoint pre) byKey).get? key =
      if Under pre key then (etagsOf records key).foldl (fun held etag => some (mergeEtag etag held)) (byKey.get? key)
      else byKey.get? key := by
  induction records generalizing byKey with
  | nil => simp [etagsOf]
  | cons r records ih =>
    have hstep : (mergePoint pre byKey r).get? key =
        if r.objectKey = some key ∧ Under pre key then some (mergeEtag (r.etag.getD []) (byKey.get? key))
        else byKey.get? key := by
      unfold mergePoint
      cases hkey : r.objectKey with
      | none => simp
      | some objectKey =>
        have hunder : (pre.any fun p => !p.isPrefixOf objectKey) = true ↔ ¬ Under pre objectKey := by
          cases pre <;> simp [Under, ← List.isPrefixOf_iff_prefix]
        dsimp only
        by_cases hpre : Under pre objectKey
        · rw [if_neg (fun h => hunder.mp h hpre), mergeChunkEtag, OrdMap.get?_alter]
          by_cases heq : key = objectKey
          · rw [if_pos heq, if_pos ⟨congrArg some heq.symm, heq ▸ hpre⟩, heq]
          · rw [if_neg heq, if_neg fun h => heq (Option.some.inj h.1).symm]
        · rw [if_pos (hunder.mpr hpre), if_neg]
          rintro ⟨heq, hkey⟩
          exact hpre (Option.some.inj heq ▸ hkey)
    rw [List.foldl_cons, ih, hstep]
    by_cases hkey : r.objectKey = some key
    · by_cases hpre : Under pre key
      · simp [etagsOf, hkey, hpre]
      · simp [hpre]
    · simp [etagsOf, hkey]

/-- Tags other than the first one clear it for good. -/
theorem foldl_mergeEtag (etags : List Text) (e : Text) :
    etags.foldl (fun held etag => some (mergeEtag etag held)) (some e) =
      some (if ∀ etag ∈ etags, etag = e then e else []) := by
  induction etags generalizing e with
  | nil => simp
  | cons etag etags ih =>
    rw [List.foldl_cons, ih, mergeEtag]
    by_cases heq : e = etag
    · subst heq
      simp
    · simp [heq, Ne.symm heq]

theorem mem_etagsOf {etag : Text} :
    etag ∈ etagsOf records key ↔ ∃ r ∈ records, r.objectKey = some key ∧ r.etag.getD [] = etag := by
  simp [etagsOf, and_assoc]

/-- A chunk without a tag counts as one with the empty tag, which no other is equal to. -/
theorem forall_etagsOf (he : e ≠ []) : (∀ etag ∈ etagsOf records key, etag = e) ↔ AllCarry records key e := by
  constructor
  · intro h r hr hkey
    have hetag := h _ (mem_etagsOf.mpr ⟨r, hr, hkey, rfl⟩)
    cases hr' : r.etag with
    | none => exact absurd (by rw [← hetag, hr']; rfl) he
    | some etag => rw [← hetag, hr']; rfl
  · intro h etag hetag
    obtain ⟨r, hr, hkey, rfl⟩ := mem_etagsOf.mp hetag
    rw [h r hr hkey]
    rfl

/-- What the walk holds of an object is the tag its chunks have in common. -/
theorem get?_merged : (records.foldl (mergePoint pre) .empty).get? key = some e ↔
    Under pre key ∧ Held records key ∧ Common records key e := by
  rw [get?_foldl_mergePoint, OrdMap.get?_empty]
  by_cases hpre : Under pre key
  · rw [if_pos hpre]
    have hall : ∀ e, e ≠ [] → ((∀ etag ∈ etagsOf records key, etag = e) ↔ AllCarry records key e) :=
      fun _ he => forall_etagsOf he
    cases hetags : etagsOf records key with
    | nil =>
      refine iff_of_false nofun ?_
      rintro ⟨-, ⟨r, hr, hkey⟩, -⟩
      have hnone := mem_etagsOf.mpr ⟨r, hr, hkey, rfl⟩
      rw [hetags] at hnone
      cases hnone
    | cons first etags =>
      have hheld : Held records key := by
        obtain ⟨r, hr, hkey, -⟩ := mem_etagsOf.mp (hetags ▸ List.mem_cons_self : first ∈ etagsOf records key)
        exact ⟨r, hr, hkey⟩
      rw [hetags] at hall
      rw [List.foldl_cons, mergeEtag, foldl_mergeEtag, Option.some.injEq, Common]
      have hfirst : (∀ etag ∈ etags, etag = first) ↔ ∀ etag ∈ first :: etags, etag = first := by simp
      have hagree : ∀ e, (∀ etag ∈ first :: etags, etag = e) → first = e := fun e h => h first List.mem_cons_self
      simp only [hpre, hheld, true_and]
      split
      · next hsame =>
        rw [hfirst] at hsame
        constructor
        · rintro rfl
          by_cases hempty : first = []
          · refine .inr ⟨hempty, fun e' he' h => he' ?_⟩
            rw [← hagree e' ((hall e' he').mpr h), hempty]
          · exact .inl ⟨hempty, (hall _ hempty).mp hsame⟩
        · rintro (⟨he, h⟩ | ⟨rfl, h⟩)
          · exact hagree e ((hall e he).mpr h)
          · by_contra hempty
            exact h first hempty ((hall first hempty).mp hsame)
      · next hdiffer =>
        rw [hfirst] at hdiffer
        have hno : ∀ e', e' ≠ [] → ¬ AllCarry records key e' := by
          intro e' he' h
          have hsame := (hall e' he').mpr h
          rw [← hagree e' hsame] at hsame
          exact hdiffer hsame
        constructor
        · rintro rfl
          exact .inr ⟨rfl, hno⟩
        · rintro (⟨he, h⟩ | ⟨rfl, -⟩)
          · exact absurd h (hno e he)
          · rfl
  · rw [if_neg hpre]
    exact iff_of_false nofun fun h => hpre h.1

/-! ## A database that holds chunks -/

/-- The database holds these chunks: the pages of a walk have each of them once, in any order; of an object one
chunk is found if there is any; and chunks are counted exactly. -/
structure Serves (client : QdrantClient) (records : List ChunkRecord) : Prop where
  pages : ∃ rows, Paging.Yields (fun offset => (client.scroll none scrollPage offset).toOption) rows ∧
    rows.Perm records
  first : ∀ key, ∃ page, client.scroll (some key) 1 none = .ok page ∧ page.rows.length ≤ 1 ∧
    (∀ r ∈ page.rows, r ∈ records ∧ r.objectKey = some key) ∧ (page.rows = [] → ¬ Held records key)
  counts : ∀ key e, client.count key e =
    .ok (some (records.countP fun r => r.objectKey = some key ∧ r.etag ≠ some e))

variable {client}

/-- One object is said to be indexed from the version whose tag all its chunks carry, also if it is empty. -/
theorem Serves.indexedEtag (h : client.Serves records) (key : Text) : ∃ answer,
    client.indexedEtag key = .ok answer ∧ ∀ e, answer = some e ↔ Held records key ∧ AllCarry records key e := by
  obtain ⟨page, hpage, hone, hrows, hnone⟩ := h.first key
  unfold QdrantClient.indexedEtag
  rw [hpage]
  cases hfirst : page.rows.head?.bind (·.etag) with
  | none =>
    refine ⟨none, by simp [bind, Except.bind, hfirst, pure, Except.pure], fun e => iff_of_false nofun ?_⟩
    rintro ⟨hheld, hall⟩
    cases hpageRows : page.rows with
    | nil => exact hnone hpageRows hheld
    | cons r rest =>
      obtain ⟨hr, hkey⟩ := hrows r (hpageRows ▸ List.mem_cons_self)
      rw [hpageRows, List.head?_cons, Option.bind_some, hall r hr hkey] at hfirst
      cases hfirst
  | some etag =>
    obtain ⟨r, hhead, hetag⟩ := Option.bind_eq_some_iff.mp hfirst
    obtain ⟨hr, hkey⟩ := hrows r (List.mem_of_head? hhead)
    have hcount := h.counts key etag
    refine ⟨if (records.countP fun r => r.objectKey = some key ∧ r.etag ≠ some etag) = 0 then some etag else none, ?_,
      fun e => ?_⟩
    · simp [bind, Except.bind, hfirst, hcount, pure, Except.pure]
    · have hzero : (records.countP fun r => r.objectKey = some key ∧ r.etag ≠ some etag) = 0 ↔
          AllCarry records key etag := by
        rw [List.countP_eq_zero]
        simp [AllCarry]
      rw [Option.ite_none_right_eq_some, hzero, Option.some.injEq]
      constructor
      · rintro ⟨hall, rfl⟩
        exact ⟨⟨r, hr, hkey⟩, hall⟩
      · rintro ⟨-, hall⟩
        have heq := (hall r hr hkey).symm.trans hetag
        obtain rfl := Option.some.inj heq
        exact ⟨hall, rfl⟩

/-- Whatever the pages are, their chunks are merged in the order in which they come. -/
theorem indexedObjectsFrom_follow {pages : Nat} {offset : Option client.Offset} {rows : List ChunkRecord}
    (h : Paging.follow (fun offset => (client.scroll none scrollPage offset).toOption) pages offset = some rows) :
    client.indexedObjectsFrom pre pages offset byKey =
      some (.ok ((rows.foldl (mergePoint pre) byKey).entries.map fun e => ⟨e.1, e.2⟩)) := by
  induction pages generalizing offset rows byKey with
  | zero => cases h
  | succ pages ih =>
    simp only [Paging.follow, Option.bind_eq_bind, Option.bind_eq_some_iff] at h
    obtain ⟨page, hpage, h⟩ := h
    unfold indexedObjectsFrom
    cases hscroll : client.scroll none scrollPage offset with
    | error e =>
      rw [hscroll] at hpage
      cases hpage
    | ok response =>
      rw [hscroll] at hpage
      obtain rfl := Option.some.inj hpage
      cases hnext : response.next with
      | none =>
        rw [hnext] at h
        cases h
        simp only [hnext]
      | some next =>
        rw [hnext] at h
        obtain ⟨rest, hrest, rfl⟩ := Option.map_eq_some_iff.mp h
        simp only [hnext]
        rw [ih hrest, List.foldl_append]

/-- The merged tags do not depend on the order of the chunks. -/
theorem merged_perm {rows : List ChunkRecord} (h : rows.Perm records) :
    rows.foldl (mergePoint pre) .empty = records.foldl (mergePoint pre) .empty := by
  have hheld : ∀ key, Held rows key ↔ Held records key := fun key => by simp only [Held, h.mem_iff]
  have hall : ∀ key e, AllCarry rows key e ↔ AllCarry records key e := fun key e => by simp only [AllCarry, h.mem_iff]
  refine OrdMap.ext_get? fun key => Option.ext fun e => ?_
  rw [get?_merged, get?_merged, hheld, Common, Common, hall]
  simp only [hall]

theorem Serves.indexedObjects (h : client.Serves records) (pre : Option Text) : ∃ pages,
    client.indexedObjects pre pages =
      some (.ok ((records.foldl (mergePoint pre) .empty).entries.map fun e => ⟨e.1, e.2⟩)) := by
  obtain ⟨rows, ⟨pages, hfollow⟩, hperm⟩ := h.pages
  refine ⟨pages, ?_⟩
  rw [QdrantClient.indexedObjects, indexedObjectsFrom_follow hfollow, merged_perm hperm]

end QdrantClient

open QdrantClient

/-- The walk over the chunks lists the objects under a prefix in the order of their keys, each with the tag its
chunks have in common. It has a tag that is not empty if and only if that is what asking for the object answers.
The list is the same for every order and every paging of the chunks. -/
theorem indexedObjects_exact (client : QdrantClient) (records : List ChunkRecord) (hclient : client.Serves records)
    (pre : Option Text) :
    ∃ objects, (∃ pages, client.indexedObjects pre pages = some (.ok objects)) ∧
      (objects.Pairwise fun a b => a.objectKey < b.objectKey) ∧
      (∀ key e, (⟨key, e⟩ : IndexedObject) ∈ objects ↔
        Under pre key ∧ Held records key ∧ Common records key e) ∧
      (∀ key e, e ≠ [] → ((⟨key, e⟩ : IndexedObject) ∈ objects ↔
        Under pre key ∧ client.indexedEtag key = .ok (some e))) ∧
      (∀ key e, client.indexedEtag key = .ok (some e) ↔ Held records key ∧ AllCarry records key e) ∧
      ∀ (client' : QdrantClient) (records' : List ChunkRecord), client'.Serves records' → records'.Perm records →
        ∃ pages, client'.indexedObjects pre pages = some (.ok objects) := by
  have hetag : ∀ key e, client.indexedEtag key = .ok (some e) ↔ Held records key ∧ AllCarry records key e := by
    intro key e
    obtain ⟨answer, hanswer, hiff⟩ := hclient.indexedEtag key
    rw [hanswer, Except.ok.injEq, hiff]
  have hmem : ∀ key e, (⟨key, e⟩ : IndexedObject) ∈
      ((records.foldl (mergePoint pre) .empty).entries.map fun e => (⟨e.1, e.2⟩ : IndexedObject)) ↔
        Under pre key ∧ Held records key ∧ Common records key e := by
    intro key e
    rw [← get?_merged, OrdMap.get?_eq_some, List.mem_map]
    constructor
    · rintro ⟨entry, hentry, heq⟩
      cases heq
      exact hentry
    · intro hentry
      exact ⟨_, hentry, rfl⟩
  refine ⟨_, hclient.indexedObjects pre, ?_, hmem, ?_, hetag, ?_⟩
  · rw [List.pairwise_map]
    exact (records.foldl (mergePoint pre) .empty).sorted
  · intro key e he
    rw [hmem, hetag]
    refine and_congr_right fun _ => and_congr_right fun _ => ?_
    exact ⟨fun h => (h.resolve_right fun hempty => he hempty.1).2, fun h => .inl ⟨he, h⟩⟩
  · intro client' records' hclient' hperm
    rw [← merged_perm hperm]
    exact hclient'.indexedObjects pre

/-! ## A database -/

/-- A database that holds a list of chunks and answers in its order. -/
def QdrantClient.listing (records : List ChunkRecord) : QdrantClient where
  Offset := Nat
  Error := Empty
  scroll objectKey limit offset :=
    let matching := records.filter fun r => objectKey.all fun key => r.objectKey = some key
    let start := offset.getD 0
    .ok ⟨(matching.drop start).take limit, if start + limit < matching.length then some (start + limit) else none⟩
  count key e := .ok (some (records.countP fun r => r.objectKey = some key ∧ r.etag ≠ some e))

theorem QdrantClient.listing_serves (records : List ChunkRecord) : (QdrantClient.listing records).Serves records where
  pages := by
    let left : Option Nat → Nat → List ChunkRecord → Prop :=
      fun cursor n rows => rows = records.drop (cursor.getD 0) ∧ n = rows.length
    refine ⟨records, ⟨_, @Paging.follow_of_left _ _ _ left ?_ _ _ _ ⟨rfl, rfl⟩⟩, .refl _⟩
    rintro cursor n rows ⟨rfl, rfl⟩
    refine ⟨⟨(records.drop (cursor.getD 0)).take scrollPage, _⟩, by simp [QdrantClient.listing, Except.toOption]; rfl, ?_⟩
    by_cases hmore : cursor.getD 0 + scrollPage < records.length
    · refine .inr ⟨cursor.getD 0 + scrollPage, _, _, if_pos hmore, ?_, ?_, rfl, rfl⟩
      · rw [Option.getD_some, ← List.drop_drop, List.take_append_drop]
      · rw [Option.getD_some, List.length_drop, List.length_drop]
        have hpos : 0 < scrollPage := by decide
        omega
    · refine .inl ⟨if_neg hmore, List.take_of_length_le ?_⟩
      rw [List.length_drop]
      omega
  first key := by
    let matching := records.filter fun r => (some key).all fun key => r.objectKey = some key
    have hmatch : ∀ r, r ∈ matching ↔ r ∈ records ∧ r.objectKey = some key := by
      intro r
      simp [matching]
    refine ⟨_, rfl, List.length_take_le _ _, fun r hr => ?_, ?_⟩
    · exact (hmatch r).mp (List.mem_of_mem_take hr)
    · rintro hnil ⟨r, hr, hkey⟩
      obtain ⟨first, rest, hcons⟩ := List.exists_cons_of_ne_nil (List.ne_nil_of_mem ((hmatch r).mpr ⟨hr, hkey⟩))
      have hone : matching.take 1 = [] := hnil
      rw [hcons] at hone
      cases hone
  counts _ _ := rfl

/-- One object with two chunks of the same tag, and one half of whose chunks have been written again. -/
theorem indexedObjects_exact_mixed :
    let a := "a.md".toList
    let b := "b.md".toList
    let client := QdrantClient.listing
      [⟨some b, some "2".toList⟩, ⟨some a, some "1".toList⟩, ⟨some b, none⟩, ⟨some a, some "1".toList⟩]
    ∃ objects pages, client.indexedObjects none pages = some (.ok objects) ∧
      (⟨a, "1".toList⟩ : IndexedObject) ∈ objects ∧ (⟨b, []⟩ : IndexedObject) ∈ objects := by
  intro a b client
  obtain ⟨objects, ⟨pages, hpages⟩, -, hmem, -⟩ :=
    indexedObjects_exact client _ (QdrantClient.listing_serves _) none
  refine ⟨objects, pages, hpages, (hmem _ _).mpr ⟨nofun, ⟨⟨some a, some "1".toList⟩, by simp, rfl⟩, .inl ⟨by decide, ?_⟩⟩,
    (hmem _ _).mpr ⟨nofun, ⟨⟨some b, none⟩, by simp, rfl⟩, .inr ⟨rfl, fun e he hall => ?_⟩⟩⟩
  · simp [AllCarry, a, b]
  · have hnone := hall ⟨some b, none⟩ (by simp) rfl
    cases hnone

/-- The points that are held for an object answer what the database does. -/
theorem indexedEtag_points {client : QdrantClient} {records : List ChunkRecord} (hclient : client.Serves records)
    {key : Text} {s : PointSet}
    (h : ∀ r, r ∈ records ∧ r.objectKey = some key ↔ ∃ p ∈ s, r = ⟨some key, some p.etag⟩) :
    client.indexedEtag key = .ok s.indexedEtag := by
  obtain ⟨answer, hanswer, hiff⟩ := hclient.indexedEtag key
  rw [hanswer]
  congr 1
  refine Option.ext fun e => ?_
  rw [hiff, PointSet.mem_indexedEtag]
  constructor
  · rintro ⟨⟨r, hr, hkey⟩, hall⟩
    obtain ⟨p, hp, -⟩ := (h r).mp ⟨hr, hkey⟩
    refine ⟨⟨p, hp⟩, fun q hq => ?_⟩
    obtain ⟨hmem, hkey'⟩ := (h _).mpr ⟨q, hq, rfl⟩
    exact Option.some.inj (hall _ hmem hkey')
  · rintro ⟨⟨p, hp⟩, hall⟩
    obtain ⟨hmem, hkey⟩ := (h _).mpr ⟨p, hp, rfl⟩
    refine ⟨⟨_, hmem, hkey⟩, fun r hr hrkey => ?_⟩
    obtain ⟨q, hq, rfl⟩ := (h r).mp ⟨hr, hrkey⟩
    exact congrArg some (hall q hq)

end Indexer
