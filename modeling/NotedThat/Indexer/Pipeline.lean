-- SUMMARY: The indexing pipeline of one event: HEAD, staged read, chunking, batched upserts, cleanup, and the outcome it reports.
import NotedThat.Core.World
import NotedThat.Write.Commit

/-!
# The indexing pipeline

What the worker does with one event of the index queue. A panic of the pipeline, which the worker
turns into a failure, and the health view are left out.
-/

namespace Indexer

/-! ## Media types -/

/-- The media type of a `Content-Type` value: parameters dropped, trimmed, in lower case. -/
def essence (mime : Text) : Text :=
  Text.toAsciiLowercase (Text.trim ((mime.splitOn ';').headD []))

/-- Whether the content type is one the index holds. -/
def isIndexable (mime : Text) : Bool :=
  essence mime = "text/markdown".toList ∨ essence mime = "text/plain".toList

/-- The indexable type a key's extension names, for an object stored without one. -/
def contentTypeFromKey (key : Text) : Option Text :=
  if '.' ∉ key then none
  else
    let extension := Text.toAsciiLowercase ((key.splitOn '.').getLastD [])
    if extension = "md".toList ∨ extension = "markdown".toList then some "text/markdown".toList
    else if extension = "txt".toList then some "text/plain".toList
    else none

/-- The type an object is judged by: the declared one, unless it names no media type. -/
def resolveMime (declared : Option Text) (objectKey : ObjectPath) : Text :=
  match declared.filter (essence · ≠ []) with
  | some declared => Text.trim declared
  | none => (contentTypeFromKey objectKey.val).getD []

/-! ## The worker -/

/-- How documents are read. The chunker and the recogniser of concept frontmatter are functions
of the document; the hash and the text of a decoding error come from libraries. A chunk iterator
is the list of what it yields. -/
structure Documents where
  sha256 : Bytes → Text
  utf8Error : Bytes → String
  conceptPrefix : Text → Text → Option (ConceptMetadata × Nat)
  streamChunks : Bytes → Nat → Nat → Except String (List (Except String Chunk))

/-- The part of the worker a handler uses: how it reads documents, the input limit of the
embedder, how many chunks one request embeds, and whether there is an event log. -/
structure IndexerWorker where
  documents : Documents
  maxInputTokens : Nat
  batchSize : Nat
  events : Bool

/-- Whether an upsert may be abandoned when the content is indexed already. -/
inductive Skip where
  | never
  | ifUnchanged
deriving DecidableEq

/-- What the log already says about a key. -/
inductive Told where
  | written
  | deleted
  | nothing (source : EventSource)
deriving DecidableEq

inductive PipelineOutcome where
  | indexed (etag mime : Text) (chunks : Nat)
  | skipped
  | tombstoned
deriving DecidableEq

/-- Why the pipeline stopped, with what HEAD had established by then. -/
structure PipelineFailure where
  message : String
  etag : Option Text
  mime : Option Text
  afterHead : Bool
deriving DecidableEq

def PipelineFailure.beforeHead (message : String) : PipelineFailure := ⟨message, none, none, false⟩

/-! ## Chunks -/

structure ChunkCursor where
  chunks : List (Except String Chunk)
  nextIndex : Nat

/-- Take up to `batchSize` chunks, numbered on from the last batch. -/
def takeChunkBatch (cursor : ChunkCursor) :
    Nat → Except String (ChunkCursor × List (Nat × Chunk))
  | 0 => .ok (cursor, [])
  | batchSize + 1 =>
    match cursor.chunks with
    | [] => .ok (cursor, [])
    | .error e :: _ => .error ("streaming chunk read failed: " ++ e)
    | .ok chunk :: chunks =>
      match takeChunkBatch ⟨chunks, cursor.nextIndex + 1⟩ batchSize with
      | .error e => .error e
      | .ok (cursor', batch) => .ok (cursor', (cursor.nextIndex, chunk) :: batch)

def utf8Length (text : Text) : Nat := (Utf8.encode text).length

/-- No chunk is longer than the embedder takes. -/
def validateChunkByteBound (batch : List (Nat × Chunk)) (maximum : Nat) : Except String Unit :=
  match batch.find? fun entry => utf8Length entry.2.text > maximum with
  | some (index, chunk) =>
    .error ("chunk " ++ toString index ++ " is " ++ toString (utf8Length chunk.text) ++
      " UTF-8 bytes, exceeding conservative embedder bound " ++ toString maximum)
  | none => .ok ()

/-! ## Snapshots -/

/-- The most bytes of a document its frontmatter is looked for in. -/
def frontmatterPrefixLimit : Nat := 16 * 1024 * 1024

def softCharCap : Nat := 3000

/-- The characters of a text that fit into `limit` bytes. -/
def textWithin : Nat → Text → Text
  | _, [] => []
  | limit, c :: text => if c.utf8Size ≤ limit then c :: textWithin (limit - c.utf8Size) text else []

structure SnapshotFacts where
  contentHash : Text
  beginning : Text
deriving DecidableEq

/-- A version read for indexing. `etag` is the one HEAD reported and the read confirmed. -/
structure PreparedSnapshot where
  body : Bytes
  etag : Text
  objectMeta : ObjectMeta
  facts : SnapshotFacts
  metadata : Option ConceptMetadata
  bodyStart : Nat
deriving DecidableEq

section Worker

variable (worker : IndexerWorker) (kb : KbSlug) (objectKey : ObjectPath)

/-- Inspect the bytes of a document: they are UTF-8, and may start with the frontmatter of a
concept, which the body comes after. -/
def inspect (bytes : Bytes) : Except String (SnapshotFacts × Option ConceptMetadata × Nat) :=
  match Utf8.decode? bytes with
  | none => .error (worker.documents.utf8Error bytes)
  | some text =>
    let facts : SnapshotFacts :=
      ⟨worker.documents.sha256 bytes, textWithin frontmatterPrefixLimit text⟩
    match worker.documents.conceptPrefix objectKey.val facts.beginning with
    | some (metadata, bodyStart) => .ok (facts, some metadata, bodyStart)
    | none => .ok (facts, none, 0)

def maxChars : Nat := min softCharCap (max (worker.maxInputTokens / 4) 1)

def openChunkCursor (body : Bytes) (bodyStart : Nat) : Except String ChunkCursor :=
  match worker.documents.streamChunks (body.drop bodyStart) (maxChars worker) bodyStart with
  | .error e => .error ("chunk iterator setup failed: " ++ e)
  | .ok chunks => .ok ⟨chunks, 0⟩

/-- The point of one chunk. -/
def chunkPoint (snapshot : PreparedSnapshot) (index : Nat) (chunk : Chunk) : Point where
  objectKey := objectKey
  chunkIndex := index
  chunk := chunk
  etag := snapshot.objectMeta.etag.getD []
  mime := essence (snapshot.objectMeta.contentType.getD [])
  mtime := snapshot.objectMeta.lastModified.getD 0
  metadata := snapshot.metadata
  contentHash := snapshot.facts.contentHash

def buildPoints (batch : List (Nat × Chunk)) (embeddings : Nat) (snapshot : PreparedSnapshot) :
    Except String (List Point) :=
  if batch.length ≠ embeddings then
    .error ("embedding count mismatch: chunks=" ++ toString batch.length ++ " embeddings=" ++
      toString embeddings)
  else .ok (batch.map fun entry => chunkPoint objectKey snapshot entry.1 entry.2)

/-! ## Programs -/

/-- Publish on the log, if there is one. A failure is only logged. -/
def publish (event : ObjectEvent) : Program Unit :=
  if worker.events then (Prog.call (Op.publish event)).discard else .ret ()

/-- Record the stamp a key was last seen with. -/
def remember (etag : Option Text) : Program Unit :=
  if worker.events then (Prog.call (Op.remember (kb, objectKey) etag)).discard else .ret ()

/-- Announce a detected change, unless it is the echo of one announced already. -/
def announce (event : ObjectEvent) : Program Unit := do
  if !worker.events then return ()
  if !(← Prog.call (Op.isNews event.key event.kind.etag)) then return ()
  remember worker event.kb event.objectKey event.kind.etag
  publish worker event

def handleTombstone : Program (Except String Unit) := do
  match ← Prog.call (Op.deletePoints kb (.object objectKey)) with
  | .error e => .error ("vector store delete failed: " ++ e)
  | .ok () => .ok ()

/-- Whether the points of the object carry this `ETag` already. -/
def alreadyIndexed (head : ObjectMeta) : Program Bool := do
  match head.etag with
  | none => return false
  | some headEtag =>
    match ← Prog.call (Op.indexedEtag kb objectKey) with
    | .ok indexed => return indexed = some headEtag
    | .error _ => return false

/-- Read the version HEAD found into a private copy. -/
def stageSnapshot (head : ObjectMeta) : Program (Except String PreparedSnapshot) := do
  match head.etag with
  | none => .error "storage.head_object returned no ETag for stable snapshot"
  | some headEtag =>
    match ← Program.storage (.get kb objectKey none (.ofIfMatch headEtag)) with
    | .error e => .error ("storage.get_object_stream failed: " ++ e.display)
    | .ok read =>
      if read.objectMeta.etag ≠ some headEtag then
        .error "streamed snapshot ETag differs from preceding HEAD"
      else
        match ← Prog.call (Op.stage read.bytes) with
        | .error e => .error ("staging index snapshot failed: " ++ e)
        | .ok () =>
          if read.bytes.length ≠ head.size then
            .error ("staging index snapshot failed: declared body length " ++ toString head.size ++
              " differs from received length " ++ toString read.bytes.length)
          else
            match inspect worker objectKey read.bytes with
            | .error e => .error e
            | .ok (facts, metadata, bodyStart) =>
              .ok ⟨read.bytes, headEtag, read.objectMeta, facts, metadata, bodyStart⟩

/-- Embed one batch and upsert its points. -/
def upsertBatch (snapshot : PreparedSnapshot) (batch : List (Nat × Chunk)) :
    Program (Except String Unit) := do
  match validateChunkByteBound batch worker.maxInputTokens with
  | .error e => .error e
  | .ok () =>
    let texts := batch.map (·.2.text)
    match ← Prog.call (Op.embed texts) with
    | .error e => .error ("embedder.embed failed: " ++ e)
    | .ok embeddings =>
      if embeddings ≠ texts.length then
        .error ("embedder returned " ++ toString embeddings ++ " embeddings for " ++
          toString texts.length ++ " chunks")
      else
        match buildPoints objectKey batch embeddings snapshot with
        | .error e => .error e
        | .ok points =>
          match ← Prog.call (Op.upsertPoints kb points) with
          | .error e => .error ("vector store upsert failed: " ++ e)
          | .ok () => .ok ()

/-- Embed and upsert the chunks batch by batch; returns how many there were. Every batch but the
last, empty one takes a chunk, so the fuel is the number of chunks left. -/
def upsertBatches (snapshot : PreparedSnapshot) : Nat → ChunkCursor → Program (Except String Nat)
  | 0, cursor => .ok cursor.nextIndex
  | fuel + 1, cursor =>
    match takeChunkBatch cursor (max worker.batchSize 1) with
    | .error e => .error e
    | .ok (cursor', batch) =>
      if batch.isEmpty then .ok cursor'.nextIndex
      else do
        match ← upsertBatch worker kb objectKey snapshot batch with
        | .error e => .error e
        | .ok () => upsertBatches snapshot fuel cursor'

def cleanupObsolete (fromChunkIndex : Nat) : Program (Except String Unit) := do
  match ← Prog.call (Op.deletePoints kb (.objectChunksFrom objectKey fromChunkIndex)) with
  | .error e => .error ("obsolete chunk cleanup failed: " ++ e)
  | .ok () => .ok ()

/-- Take the object out of the index. -/
def removeFromIndex : Program (Except String PipelineOutcome) := do
  match ← handleTombstone kb objectKey with
  | .error e => .error e
  | .ok () => .ok .tombstoned

/-- Index a snapshot: its chunks, then the removal of what an earlier version left behind them. -/
def indexSnapshot (snapshot : PreparedSnapshot) (mime : Text) :
    Program (Except String PipelineOutcome) :=
  match openChunkCursor worker snapshot.body snapshot.bodyStart with
  | .error e => .error e
  | .ok cursor => do
    match ← upsertBatches worker kb objectKey snapshot cursor.chunks.length cursor with
    | .error e => .error e
    | .ok newCount =>
      if newCount = 0 then removeFromIndex kb objectKey
      else if newCount ≥ 2 ^ 32 then .error "chunk count exceeds supported numeric range"
      else
        match ← cleanupObsolete kb objectKey newCount with
        | .error e => .error e
        | .ok () => .ok (.indexed snapshot.etag mime newCount)

/-- Whether the event allows to leave the object as it is indexed, and it may be left so. -/
def unchanged (head : ObjectMeta) : Skip → Program Bool
  | .never => .ret false
  | .ifUnchanged => alreadyIndexed kb objectKey head

/-- Index the object `head` describes as `mime`, or take it out of the index. -/
def indexHead (head : ObjectMeta) (mime : Text) (skip : Skip) :
    Program (Except String PipelineOutcome) :=
  if !isIndexable mime then removeFromIndex kb objectKey
  else if head.size = 0 then removeFromIndex kb objectKey
  else do
    if ← unchanged kb objectKey head skip then .ok .skipped
    else if worker.maxInputTokens = 0 then .error "embedder input limit must be greater than zero"
    else
      match ← stageSnapshot worker kb objectKey head with
      | .error e => .error e
      | .ok snapshot =>
        -- the chunks carry the type the event reports
        let snapshot := { snapshot with
          objectMeta := { snapshot.objectMeta with contentType := some mime } }
        indexSnapshot worker kb objectKey snapshot mime

/-- A tombstone where HEAD did not find the object. -/
def tombstoneBeforeHead : Program (Except PipelineFailure PipelineOutcome) := do
  match ← handleTombstone kb objectKey with
  | .error e => .error (.beforeHead e)
  | .ok () => .ok .tombstoned

/-- What the worker says about a key it does not find. -/
def tellMissing : Told → Program Unit
  | .nothing source => announce worker ⟨kb, objectKey, .deleted, source⟩
  | .deleted => remember worker kb objectKey none
  | .written => .ret ()

/-- What the worker says about a key it finds. -/
def tellFound (head : ObjectMeta) : Told → Program Unit
  | .nothing source =>
    announce worker ⟨kb, objectKey,
      .written (head.etag.getD []) head.size (head.contentType.getD []), source⟩
  | .written => remember worker kb objectKey head.etag
  | .deleted => .ret ()

/-- Handle a key by what storage says about it now. -/
def handleUpsert (skip : Skip) (told : Told) : Program (Except PipelineFailure PipelineOutcome) :=
  if objectKey.isReserved then tombstoneBeforeHead kb objectKey
  else do
    match ← Program.storage (.head kb objectKey {}) with
    | .error (.notFound _) =>
      tellMissing worker kb objectKey told
      tombstoneBeforeHead kb objectKey
    | .error e =>
      -- a delete is taken at its word when storage cannot answer
      match e, told with
      | .backendUnavailable _, .deleted => tombstoneBeforeHead kb objectKey
      | .other _, .deleted => tombstoneBeforeHead kb objectKey
      | _, _ => .error (.beforeHead ("storage.head_object failed: " ++ e.display))
    | .ok head =>
      tellFound worker kb objectKey head told
      let mime := resolveMime head.contentType objectKey
      match ← indexHead worker kb objectKey head mime skip with
      | .error message =>
        .error ⟨message, head.etag, (some mime).filter (· ≠ []), true⟩
      | .ok outcome => .ok outcome

/-! ## Outcomes -/

def failureSummaryMaxChars : Nat := 200

/-- The first line of a message, cut to a length. -/
def boundSummary (summary : String) : String :=
  let line := Text.trim (summary.toList.takeWhile (· ≠ '\n'))
  let bounded := line.take failureSummaryMaxChars
  String.ofList (if line.length > failureSummaryMaxChars then bounded ++ ['…'] else bounded)

/-- Report what became of an event. A tombstone reports a failure only for a key found live. -/
def reportOutcome (tombstone : Bool) :
    Except PipelineFailure PipelineOutcome → Program Unit
  | .ok (.indexed etag mime chunks) =>
    publish worker ⟨kb, objectKey, .indexed etag mime chunks, .indexer⟩
  | .ok .skipped => .ret ()
  | .ok .tombstoned => .ret ()
  | .error failure =>
    if !tombstone ∨ failure.afterHead then
      publish worker ⟨kb, objectKey,
        .indexFailed failure.etag failure.mime (some (boundSummary failure.message)), .indexer⟩
    else .ret ()

/-- Run the pipeline for one event of the queue and report its outcome. -/
def handle : IndexEvent → Program Unit
  | .upsert kb objectKey => do
    reportOutcome worker kb objectKey false
      (← handleUpsert worker kb objectKey .never .written)
  | .refresh kb objectKey origin => do
    reportOutcome worker kb objectKey false
      (← handleUpsert worker kb objectKey .ifUnchanged (.nothing origin.source))
  | .tombstone kb objectKey => do
    reportOutcome worker kb objectKey true
      (← handleUpsert worker kb objectKey .ifUnchanged .deleted)

end Worker

end Indexer
