-- SUMMARY: The vector store: the points held for each object, how calls change them, and the entity tag they agree on.
import NotedThat.Core.Storage
import Mathlib.Logic.Function.Basic

/-!
# The vector store

A point holds one chunk of one object. `point_id` hashes the object's key and the chunk index; a
point is identified by the two here, so ids never collide. Vectors are left out: nothing decides
by them.
-/

/-- A piece of a document. -/
structure Chunk where
  text : Text
  byteStart : Nat
  byteEnd : Nat
  headingPath : List Text
deriving DecidableEq

/-- What the frontmatter of a concept document says. -/
structure ConceptMetadata where
  conceptId : Text
  conceptType : Text
  title : Option Text
  description : Option Text
  resource : Option Text
  tags : List Text
deriving DecidableEq

/-- A point with its payload. -/
structure Point where
  objectKey : ObjectPath
  chunkIndex : Nat
  chunk : Chunk
  etag : Text
  mime : Text
  mtime : Int
  metadata : Option ConceptMetadata
  contentHash : Text
deriving DecidableEq

inductive PointSelector where
  | object (objectKey : ObjectPath)
  | objectChunksFrom (objectKey : ObjectPath) (fromChunkIndex : Nat)
deriving DecidableEq

/-- The points of one object, at most one for each chunk index. -/
structure PointSet where
  points : List Point
  distinct : (points.map (·.chunkIndex)).Nodup

namespace PointSet

instance : Membership Point PointSet := ⟨fun s p => p ∈ s.points⟩

instance (s : PointSet) (p : Point) : Decidable (p ∈ s) := inferInstanceAs (Decidable (p ∈ s.points))

def empty : PointSet := ⟨[], List.nodup_nil⟩

def filter (s : PointSet) (keep : Point → Bool) : PointSet where
  points := s.points.filter keep
  distinct := (List.filter_sublist.map _).nodup s.distinct

/-- Store a point over the one with its index. -/
def upsert (s : PointSet) (p : Point) : PointSet where
  points := s.points.filter (·.chunkIndex ≠ p.chunkIndex) ++ [p]
  distinct := by
    rw [List.map_append]
    refine List.nodup_append.mpr ⟨(List.filter_sublist.map _).nodup s.distinct, by simp, ?_⟩
    intro i hi j hj
    obtain ⟨q, hq, rfl⟩ := List.mem_map.mp hi
    obtain rfl : j = p.chunkIndex := by simpa using hj
    simpa using (List.mem_filter.mp hq).2

/-- The `ETag` every point carries, if they all agree on one. -/
def indexedEtag (s : PointSet) : Option Text :=
  match s.points with
  | [] => none
  | p :: ps => if ps.all (·.etag = p.etag) then some p.etag else none

variable {s : PointSet} {p q : Point}

@[simp] theorem not_mem_empty : p ∉ empty := List.not_mem_nil

@[simp] theorem mem_filter {keep : Point → Bool} : p ∈ s.filter keep ↔ p ∈ s ∧ keep p = true :=
  List.mem_filter

@[simp] theorem mem_upsert :
    q ∈ s.upsert p ↔ (q ∈ s ∧ q.chunkIndex ≠ p.chunkIndex) ∨ q = p := by
  show q ∈ s.points.filter _ ++ [p] ↔ _
  rw [List.mem_append, List.mem_filter, List.mem_singleton]
  simp only [decide_eq_true_eq]
  rfl

theorem mem_indexedEtag {e : Text} :
    s.indexedEtag = some e ↔ (∃ p, p ∈ s) ∧ ∀ p ∈ s, p.etag = e := by
  obtain ⟨points, distinct⟩ := s
  show indexedEtag ⟨points, distinct⟩ = some e ↔ (∃ p, p ∈ points) ∧ ∀ p ∈ points, p.etag = e
  cases points with
  | nil => simp [indexedEtag]
  | cons p ps =>
    simp only [indexedEtag, List.all_eq_true, decide_eq_true_eq, List.forall_mem_cons]
    constructor
    · intro h
      split at h
      · next hall =>
        cases h
        exact ⟨⟨p, List.mem_cons_self⟩, rfl, hall⟩
      · cases h
    · rintro ⟨-, rfl, hall⟩
      rw [if_pos hall]

end PointSet

/-- The points held for each object. -/
abbrev Points := Key → PointSet

namespace Points

variable (points : Points) (kb : KbSlug)

def upsert (p : Point) : Points :=
  Function.update points (kb, p.objectKey) ((points (kb, p.objectKey)).upsert p)

def upsertAll (ps : List Point) : Points := ps.foldl (fun points p => points.upsert kb p) points

def delete : PointSelector → Points
  | .object objectKey => Function.update points (kb, objectKey) .empty
  | .objectChunksFrom objectKey fromChunkIndex =>
    Function.update points (kb, objectKey)
      ((points (kb, objectKey)).filter (·.chunkIndex < fromChunkIndex))

variable {points kb} {objectKey : ObjectPath} {ps : List Point} {q : Point}

/-- An upsert of one object's points leaves the other objects alone. -/
theorem upsertAll_of_ne {k : Key} (hps : ∀ p ∈ ps, p.objectKey = objectKey)
    (hk : k ≠ (kb, objectKey)) : points.upsertAll kb ps k = points k := by
  induction ps generalizing points with
  | nil => rfl
  | cons p ps ih =>
    obtain ⟨hp, hps⟩ := List.forall_mem_cons.mp hps
    have hne : k ≠ (kb, p.objectKey) := hp ▸ hk
    exact (ih hps).trans (Function.update_of_ne hne _ _)

/-- Upserted points replace those with their indices. -/
theorem mem_upsertAll (hps : ∀ p ∈ ps, p.objectKey = objectKey)
    (hdistinct : (ps.map (·.chunkIndex)).Nodup) :
    q ∈ points.upsertAll kb ps (kb, objectKey) ↔
      q ∈ ps ∨ (q ∈ points (kb, objectKey) ∧ q.chunkIndex ∉ ps.map (·.chunkIndex)) := by
  induction ps generalizing points with
  | nil => simp [upsertAll]
  | cons p ps ih =>
    obtain ⟨hp, hps⟩ := List.forall_mem_cons.mp hps
    obtain ⟨hfresh, hdistinct⟩ := List.nodup_cons.mp hdistinct
    rw [show points.upsertAll kb (p :: ps) = (points.upsert kb p).upsertAll kb ps from rfl,
      ih hps hdistinct]
    simp only [upsert, hp, Function.update_self, PointSet.mem_upsert, List.map_cons,
      List.mem_cons, not_or]
    constructor
    · rintro (hq | ⟨⟨hq, hne⟩ | rfl, hlater⟩)
      · exact .inl (.inr hq)
      · exact .inr ⟨hq, hne, hlater⟩
      · exact .inl (.inl rfl)
    · rintro ((rfl | hq) | ⟨hq, hne, hlater⟩)
      · exact .inr ⟨.inr rfl, hfresh⟩
      · exact .inl hq
      · exact .inr ⟨.inl ⟨hq, hne⟩, hlater⟩

end Points
