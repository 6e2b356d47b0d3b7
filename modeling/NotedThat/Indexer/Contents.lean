-- SUMMARY: The chunks of a document, the points they become, and what a partly written index holds.
import NotedThat.Indexer.Pipeline

/-!
# What the index holds of a document

The pipeline writes the chunks of a version over the points of the version before, batch by
batch, and removes what is left of the old version last. `Written` says what the index holds in
between.
-/

namespace Indexer

/-! ## The chunks of a document -/

/-- What the chunk iterator of a document yields, unless the document is not read that far. -/
def chunkStream (worker : IndexerWorker) (objectKey : ObjectPath) (bytes : Bytes) :
    Except String (List (Except String Chunk)) :=
  match inspect worker objectKey bytes with
  | .error e => .error e
  | .ok (_, _, bodyStart) =>
    match openChunkCursor worker bytes bodyStart with
    | .error e => .error e
    | .ok cursor => .ok cursor.chunks

/-- The document is split into `chunks`, and the pipeline takes them: the embedder accepts input
at all and each of the chunks, and their number fits its type. -/
structure Yields (worker : IndexerWorker) (objectKey : ObjectPath) (bytes : Bytes)
    (chunks : List Chunk) : Prop where
  limit : worker.maxInputTokens ≠ 0
  stream : chunkStream worker objectKey bytes = .ok (chunks.map .ok)
  bound : ∀ chunk ∈ chunks, utf8Length chunk.text ≤ worker.maxInputTokens
  count : chunks.length < 2 ^ 32

theorem Yields.unique {worker : IndexerWorker} {objectKey : ObjectPath} {bytes : Bytes}
    {chunks chunks' : List Chunk} (h : Yields worker objectKey bytes chunks)
    (h' : Yields worker objectKey bytes chunks') : chunks = chunks' := by
  have heq := h.stream.symm.trans h'.stream
  exact List.map_injective_iff.mpr (fun _ _ h => Except.ok.inj h) (Except.ok.inj heq)

/-- The index holds `chunks` and nothing else, all under one entity tag. -/
def IsChunkSet (s : PointSet) (chunks : List Chunk) (etag : Text) : Prop :=
  (s.points.map fun p => (p.chunkIndex, p.chunk)).Perm (chunks.zipIdx.map Prod.swap) ∧
    ∀ p ∈ s, p.etag = etag

theorem isChunkSet_iff {s : PointSet} {chunks : List Chunk} {etag : Text} :
    IsChunkSet s chunks etag ↔
      (∀ p ∈ s, p.etag = etag ∧ chunks[p.chunkIndex]? = some p.chunk) ∧
        ∀ i < chunks.length, ∃ p ∈ s, p.chunkIndex = i := by
  have hleft : (s.points.map fun p => (p.chunkIndex, p.chunk)).Nodup := by
    refine List.Nodup.of_map Prod.fst ?_
    rw [List.map_map]
    exact s.distinct
  have hright : (chunks.zipIdx.map Prod.swap).Nodup := by
    refine List.Nodup.of_map Prod.fst ?_
    simpa [Function.comp_def, List.zipIdx_map_snd] using List.nodup_range'
  simp only [IsChunkSet, List.perm_ext_iff_of_nodup hleft hright, Prod.forall, List.mem_map,
    Prod.mk.injEq, Prod.exists, Prod.swap_prod_mk, List.mem_zipIdx_iff_getElem?]
  constructor
  · rintro ⟨hmem, hetag⟩
    refine ⟨fun p hp => ⟨hetag p hp, ?_⟩, fun i hi => ?_⟩
    · obtain ⟨c, i, hc, rfl, rfl⟩ := (hmem p.chunkIndex p.chunk).mp ⟨p, hp, rfl, rfl⟩
      exact hc
    · obtain ⟨p, hp, rfl, -⟩ := (hmem i chunks[i]).mpr ⟨_, _, List.getElem?_eq_getElem hi, rfl, rfl⟩
      exact ⟨p, hp, rfl⟩
  · rintro ⟨hpoint, hall⟩
    refine ⟨fun i c => ⟨?_, ?_⟩, fun p hp => (hpoint p hp).1⟩
    · rintro ⟨p, hp, rfl, rfl⟩
      exact ⟨p.chunk, p.chunkIndex, (hpoint p hp).2, rfl, rfl⟩
    · rintro ⟨c, i, hc, rfl, rfl⟩
      obtain ⟨p, hp, rfl⟩ := hall i (List.getElem?_eq_some_iff.mp hc).1
      rw [(hpoint p hp).2] at hc
      cases hc
      exact ⟨p, hp, rfl, rfl⟩

/-! ## Batches -/

theorem takeChunkBatch_ok {cursor cursor' : ChunkCursor} {n : Nat} {batch : List (Nat × Chunk)}
    (h : takeChunkBatch cursor n = .ok (cursor', batch)) :
    ∃ taken : List Chunk, cursor.chunks = taken.map .ok ++ cursor'.chunks ∧
      batch = (taken.zipIdx cursor.nextIndex).map Prod.swap ∧
      cursor'.nextIndex = cursor.nextIndex + taken.length ∧
      (taken = [] → n = 0 ∨ cursor.chunks = []) := by
  induction n generalizing cursor cursor' batch with
  | zero =>
    cases h
    exact ⟨[], by simp⟩
  | succ n ih =>
    rw [takeChunkBatch] at h
    split at h
    · next hnil =>
      cases h
      exact ⟨[], by simp [hnil]⟩
    · cases h
    · next chunk chunks hcons =>
      split at h
      · cases h
      · next cursor₁ batch₁ htake =>
        cases h
        obtain ⟨taken, hsplit, rfl, hnext, -⟩ := ih htake
        refine ⟨chunk :: taken, ?_, by simp, ?_, by simp⟩
        · rw [hcons, List.map_cons, List.cons_append]
          exact congrArg _ hsplit
        · rw [hnext, List.length_cons]
          dsimp only
          omega

theorem takeChunkBatch_error {cursor : ChunkCursor} {n : Nat} {e : String}
    (h : takeChunkBatch cursor n = .error e) : ∃ e', .error e' ∈ cursor.chunks := by
  induction n generalizing cursor with
  | zero => cases h
  | succ n ih =>
    rw [takeChunkBatch] at h
    split at h
    · cases h
    · next e' chunks hcons => exact ⟨e', by simp [hcons]⟩
    · next chunk chunks hcons =>
      split at h
      · next e₁ htake =>
        cases h
        obtain ⟨e', he'⟩ := ih htake
        exact ⟨e', by simp [hcons, he']⟩
      · cases h

theorem validateChunkByteBound_error {batch : List (Nat × Chunk)} {maximum : Nat} {e : String}
    (h : validateChunkByteBound batch maximum = .error e) :
    ∃ entry ∈ batch, maximum < utf8Length entry.2.text := by
  unfold validateChunkByteBound at h
  split at h
  · next index chunk hfind =>
    exact ⟨_, List.mem_of_find?_eq_some hfind, by simpa using List.find?_some hfind⟩
  · cases h

theorem validateChunkByteBound_ok {batch : List (Nat × Chunk)} {maximum : Nat}
    (h : validateChunkByteBound batch maximum = .ok ()) :
    ∀ entry ∈ batch, utf8Length entry.2.text ≤ maximum := by
  unfold validateChunkByteBound at h
  split at h
  · cases h
  · next hfind =>
    intro entry hentry
    simpa using List.find?_eq_none.mp hfind entry hentry

/-! ## A partly written index -/

/-- The index held `pre`, and the first `m` chunks of a stream were written over it. -/
def Written (objectKey : ObjectPath) (snapshot : PreparedSnapshot)
    (items : List (Except String Chunk)) (pre : PointSet) (m : Nat) (s : PointSet) : Prop :=
  ∀ q, q ∈ s ↔ (q ∈ pre ∧ m ≤ q.chunkIndex) ∨
    (q.chunkIndex < m ∧ ∃ c, items[q.chunkIndex]? = some (.ok c) ∧
      q = chunkPoint objectKey snapshot q.chunkIndex c)

namespace Written

variable {objectKey : ObjectPath} {snapshot : PreparedSnapshot}
variable {items : List (Except String Chunk)} {pre s : PointSet} {m : Nat}

theorem zero : Written objectKey snapshot items pre 0 pre := by
  intro q
  simp

/-- One more batch. -/
theorem batch {kb : KbSlug} {points : Points} {done rest : List (Except String Chunk)}
    {taken : List Chunk} (hs : Written objectKey snapshot items pre m (points (kb, objectKey)))
    (hitems : items = done ++ (taken.map .ok ++ rest)) (hm : done.length = m) :
    Written objectKey snapshot items pre (m + taken.length)
      (points.upsertAll kb (((taken.zipIdx m).map Prod.swap).map fun entry =>
        chunkPoint objectKey snapshot entry.1 entry.2) (kb, objectKey)) := by
  have hindex : ((((taken.zipIdx m).map Prod.swap).map fun entry =>
      chunkPoint objectKey snapshot entry.1 entry.2).map (·.chunkIndex)) =
      List.range' m taken.length := by
    simp [Function.comp_def, chunkPoint, List.zipIdx_map_snd]
  have hkeys : ∀ p ∈ ((taken.zipIdx m).map Prod.swap).map fun entry =>
      chunkPoint objectKey snapshot entry.1 entry.2, p.objectKey = objectKey := by
    intro p hp
    obtain ⟨entry, -, rfl⟩ := List.mem_map.mp hp
    rfl
  -- the stream at the indices of the batch
  have hget : ∀ i, m ≤ i → i < m + taken.length →
      items[i]? = (taken[i - m]?).map Except.ok := by
    intro i hle hlt
    rw [hitems, List.getElem?_append_right (by omega), hm,
      List.getElem?_append_left (by simp; omega), List.getElem?_map]
  intro q
  rw [Points.mem_upsertAll hkeys (hindex ▸ List.nodup_range'), hindex, List.mem_range'_1, hs q]
  simp only [List.mem_map, Prod.exists, Prod.swap_prod_mk, Prod.mk.injEq,
    List.mem_zipIdx_iff_le_and_getElem?_sub]
  constructor
  · rintro (⟨i, c, ⟨c', i', ⟨hle, hc⟩, rfl, rfl⟩, rfl⟩ | ⟨⟨hq, hle⟩ | ⟨hlt, c, hc, hq⟩, hout⟩)
    · have hlt : i' < m + taken.length := by
        have := (List.getElem?_eq_some_iff.mp hc).1
        omega
      refine .inr ⟨hlt, c', ?_, rfl⟩
      rw [show (chunkPoint objectKey snapshot i' c').chunkIndex = i' from rfl, hget i' hle hlt, hc]
      rfl
    · exact .inl ⟨hq, by omega⟩
    · exact .inr ⟨by omega, c, hc, hq⟩
  · rintro (⟨hq, hle⟩ | ⟨hlt, c, hc, hq⟩)
    · exact .inr ⟨.inl ⟨hq, by omega⟩, by omega⟩
    · by_cases hle : m ≤ q.chunkIndex
      · rw [hget _ hle hlt] at hc
        obtain ⟨c', hc', heq⟩ := Option.map_eq_some_iff.mp hc
        cases heq
        exact .inl ⟨_, _, ⟨_, _, ⟨hle, hc'⟩, rfl, rfl⟩, hq.symm⟩
      · exact .inr ⟨.inr ⟨by omega, c, hc, hq⟩, by omega⟩

variable {chunks : List Chunk}

/-- A point written of a stream of chunks. -/
theorem chunk_eq {q : Point} {c : Chunk} (hc : (chunks.map Except.ok)[q.chunkIndex]? =
    some (.ok c : Except String Chunk)) (hq : q = chunkPoint objectKey snapshot q.chunkIndex c) :
    chunks[q.chunkIndex]? = some q.chunk := by
  rw [List.getElem?_map] at hc
  obtain ⟨c', hc', heq⟩ := Option.map_eq_some_iff.mp hc
  cases heq
  rw [hc', hq]
  rfl

/-- Everything is written, and what the old version left behind is removed. -/
theorem cleanup {etag : Text}
    (hs : Written objectKey snapshot (chunks.map .ok) pre chunks.length s)
    (hetag : snapshot.objectMeta.etag = some etag) :
    IsChunkSet (s.filter (·.chunkIndex < chunks.length)) chunks etag := by
  have hmem : ∀ q, q ∈ s.filter (·.chunkIndex < chunks.length) ↔
      q.chunkIndex < chunks.length ∧ ∃ c, (chunks.map Except.ok)[q.chunkIndex]? =
        some (.ok c : Except String Chunk) ∧
        q = chunkPoint objectKey snapshot q.chunkIndex c := by
    intro q
    rw [PointSet.mem_filter, hs q, decide_eq_true_eq]
    constructor
    · rintro ⟨⟨-, hle⟩ | h, hlt⟩
      · omega
      · exact h
    · intro h
      exact ⟨.inr h, h.1⟩
  refine isChunkSet_iff.mpr ⟨fun q hq => ?_, fun i hi => ?_⟩
  · obtain ⟨-, c, hc, hq⟩ := (hmem q).mp hq
    refine ⟨?_, chunk_eq hc hq⟩
    rw [hq]
    simp [chunkPoint, hetag]
  · exact ⟨chunkPoint objectKey snapshot i chunks[i], (hmem _).mpr ⟨hi, chunks[i], by
      simp [chunkPoint, hi], rfl⟩, rfl⟩

end Written

/-! ## Documents of letters -/

/-- Documents that are a few ASCII letters, without a frontmatter, at one character a chunk. -/
def letters : Documents where
  sha256 bytes :=
    if bytes = Utf8.encode ['a'] then
      "ca978112ca1bbdcafac231b39a23dc4da786eff8147c4e72b9807785afee48bb".toList
    else "fb8e20fc2e4c3f248c60c39bd652f3c1347298bb977b8b4d5903b85055620603".toList
  utf8Error _ := "staging index snapshot failed: reading request body failed: storage error: " ++
    "invalid utf-8 sequence of 1 bytes from index 0"
  conceptPrefix _ _ := none
  streamChunks body _ base :=
    .ok (((Utf8.decode? body).getD []).mapIdx fun i c => .ok ⟨[c], base + i, base + i + 1, []⟩)

/-- A worker whose embedder takes four bytes, so that a chunk is one character. -/
def lettersWorker (events : Bool) : IndexerWorker where
  documents := letters
  maxInputTokens := 4
  batchSize := 1
  events := events

end Indexer
