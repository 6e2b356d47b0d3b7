-- SUMMARY: The record the filesystem store keeps beside each object: when it is fresh, how reads resolve and repair it, and how writes replace it.
import NotedThat.Core.Storage
import NotedThat.Lib.Pool
import Mathlib.Logic.Function.Basic

/-!
# The record beside an object

A file tells neither its content type nor its entity tag, so the store keeps both in a record of its
own, with a stamp of the file they belong to. A read that finds the record missing or stale hashes
the file and writes the record back. Reads take no lock, and every call into the filesystem is an
operation of its own, so that reads, writes and edits made behind the server's back interleave in
every order. Files are only ever replaced, by renaming another over them: nobody rewrites one in
place.
-/

namespace Sidecar

/-! ## Files -/

/-- A time of the system clock: whole seconds from 1970 on, and nanoseconds within the second. -/
structure SystemTime where
  secs : Int
  nanos : Nat
  inRange : -2 ^ 63 ≤ secs ∧ secs < 2 ^ 63
  subsecond : nanos < 10 ^ 9
deriving DecidableEq

namespace SystemTime

/-- Seconds and nanoseconds after 1970; before that there is no such duration. -/
def sinceEpoch (t : SystemTime) : Option (Nat × Nat) :=
  if 0 ≤ t.secs then some (t.secs.toNat, t.nanos) else none

def unixSeconds (t : SystemTime) : Nat := t.sinceEpoch.elim 0 Prod.fst

def unixSecondsI64 (t : SystemTime) : Int :=
  if t.unixSeconds < 2 ^ 63 then t.unixSeconds else 2 ^ 63 - 1

/-- A whole second. -/
def ofSecs (secs : Int) (inRange : -2 ^ 63 ≤ secs ∧ secs < 2 ^ 63) : SystemTime :=
  ⟨secs, 0, inRange, by decide⟩

/-- The start of 1970, or a time before it. -/
def UpToEpoch (t : SystemTime) : Prop := t.secs < 0 ∨ t.secs = 0 ∧ t.nanos = 0

end SystemTime

/-- What a stat tells of a file. -/
structure Metadata where
  dev : Nat
  ino : Nat
  len : Nat
  modified : SystemTime
deriving DecidableEq

/-- A file as it was put in place. -/
structure File where
  content : Bytes
  dev : Nat
  ino : Nat
  modified : SystemTime
deriving DecidableEq

namespace File

def metadata (f : File) : Metadata := ⟨f.dev, f.ino, f.content.length, f.modified⟩

/-- What tells one version of a file from another. -/
def stamp (f : File) : Nat × SystemTime × Nat := (f.content.length, f.modified, f.ino)

end File

/-! ## Records -/

/-- What is recorded about an object, and the file it was recorded against. -/
structure ObjectAttrs where
  v : Nat
  etag : Text
  contentType : Option Text
  size : Nat
  mtimeSecs : Int
  mtimeNanos : Nat
  ino : Option Nat
deriving DecidableEq

def schemaVersion : Nat := 1

def splitMtime (metadata : Metadata) : Int × Nat :=
  (metadata.modified.unixSecondsI64, metadata.modified.sinceEpoch.elim 0 Prod.snd)

theorem splitMtime_eq (metadata : Metadata) : splitMtime metadata =
    if 0 ≤ metadata.modified.secs then (metadata.modified.secs, metadata.modified.nanos)
    else (0, 0) := by
  have hrange := metadata.modified.inRange
  simp only [splitMtime, SystemTime.unixSecondsI64, SystemTime.unixSeconds, SystemTime.sinceEpoch]
  by_cases h : 0 ≤ metadata.modified.secs
  · have hlt : metadata.modified.secs.toNat < 2 ^ 63 := by omega
    have htoNat : (metadata.modified.secs.toNat : Int) = metadata.modified.secs := by omega
    simp only [if_pos h, Option.elim_some, if_pos hlt, htoNat]
  · simp [h]

/-- Times up to the start of 1970 are recorded alike, and no others. -/
theorem splitMtime_eq_iff {metadata metadata' : Metadata} :
    splitMtime metadata = splitMtime metadata' ↔ metadata.modified = metadata'.modified ∨
      metadata.modified.UpToEpoch ∧ metadata'.modified.UpToEpoch := by
  rw [splitMtime_eq, splitMtime_eq]
  obtain ⟨-, -, -, ⟨secs, nanos, -, -⟩⟩ := metadata
  obtain ⟨-, -, -, ⟨secs', nanos', -, -⟩⟩ := metadata'
  simp only [SystemTime.UpToEpoch, SystemTime.mk.injEq]
  split
  · split
    · simp only [Prod.mk.injEq]
      omega
    · simp only [Prod.mk.injEq]
      omega
  · split
    · simp only [Prod.mk.injEq]
      omega
    · simp only [true_iff]
      omega

def inode (metadata : Metadata) : Option Nat := some metadata.ino

namespace ObjectAttrs

def new (etag : Text) (contentType : Option Text) (metadata : Metadata) : ObjectAttrs where
  v := schemaVersion
  etag := etag
  contentType := contentType
  size := metadata.len
  mtimeSecs := (splitMtime metadata).1
  mtimeNanos := (splitMtime metadata).2
  ino := inode metadata

/-- Whether the record still describes the file `metadata` came from. An inode that one side does
not know is no difference. -/
def isFreshFor (attrs : ObjectAttrs) (metadata : Metadata) : Bool :=
  if attrs.v ≠ schemaVersion ∨ attrs.size ≠ metadata.len then false
  else if attrs.mtimeSecs ≠ (splitMtime metadata).1 ∨ attrs.mtimeNanos ≠ (splitMtime metadata).2 then
    false
  else
    match attrs.ino, inode metadata with
    | some recorded, some actual => recorded = actual
    | _, _ => true

theorem isFreshFor_new {etag : Text} {contentType : Option Text} {metadata metadata' : Metadata} :
    (new etag contentType metadata).isFreshFor metadata' = true ↔
      metadata.len = metadata'.len ∧ splitMtime metadata = splitMtime metadata' ∧
        metadata.ino = metadata'.ino := by
  simp only [isFreshFor, new, inode, Prod.ext_iff]
  by_cases hlen : metadata.len = metadata'.len
  · by_cases hsecs : (splitMtime metadata).1 = (splitMtime metadata').1
    · by_cases hnanos : (splitMtime metadata).2 = (splitMtime metadata').2
      · simp [hlen, hsecs, hnanos]
      · simp [hlen, hnanos]
    · simp [hlen, hsecs]
  · simp [hlen]

end ObjectAttrs

/-- The extension of a file name: what follows its last dot, unless the dot comes first. -/
def extension (name : Text) : Option Text :=
  if name = "..".toList then none
  else
    match Text.splitOnce '.' name.reverse with
    | none => none
    | some (_, []) => none
    | some (after, _) => some after.reverse

/-- The content type of an object none was ever declared for. -/
def guessContentType (key : Text) : Option Text :=
  match (extension ((key.splitOn '/').getLast?.getD [])).map Text.toAsciiLowercase with
  | none => none
  | some ext =>
    if ext = "md".toList ∨ ext = "markdown".toList then some "text/markdown".toList
    else if ext = "txt".toList then some "text/plain".toList
    else if ext = "json".toList then some "application/json".toList
    else none

/-! ## Operations on the disk -/

/-- The calls into the filesystem. `repair` and `record` write the same file: a read does the one,
as well as it can, a write the other. `reply` is what a read returns to its caller, with the stat it
describes. -/
inductive Op where
  | requireBucket (kb : KbSlug)
  | lstat (k : Key)
  | openFile (k : Key)
  | hashFile (file : File)
  | readSlice (file : File) (start len : Nat)
  | load (k : Key)
  | repair (k : Key) (attrs : ObjectAttrs)
  | stage (content : Bytes)
  | rename (staged : File) (k : Key)
  | record (k : Key) (attrs : ObjectAttrs)
  | unlink (k : Key)
  | removeRecord (k : Key)
  | reply (k : Key) (metadata : Metadata) (objectMeta : ObjectMeta)

/-- What each call answers; an unlink also says whether there was a file. -/
abbrev Op.Res : Op → Type
  | .requireBucket _ => Except StorageError Unit
  | .lstat _ => Except StorageError Metadata
  | .openFile _ => Except StorageError File
  | .hashFile _ => Except StorageError Text
  | .readSlice .. => Except StorageError Bytes
  | .load _ => Option ObjectAttrs
  | .repair .. => Except StorageError Unit
  | .stage _ => Except StorageError File
  | .rename .. => Except StorageError Unit
  | .record .. => Except StorageError Unit
  | .unlink _ => Except StorageError Bool
  | .removeRecord _ => Except StorageError Unit
  | .reply .. => Unit

/-- A program of the store. -/
abbrev Task (α : Type) := Prog Op Op.Res α

abbrev Task.ok {ε α : Type} (a : α) : Task (Except ε α) := .ret (.ok a)

abbrev Task.error {ε α : Type} (e : ε) : Task (Except ε α) := .ret (.error e)

/-! ## Reading the record -/

/-- The recorded attributes, when they still describe the file `metadata` came from. -/
def fresh (k : Key) (metadata : Metadata) : Task (Option ObjectAttrs) := do
  let recorded ← Prog.call (Op.load k)
  return recorded.filter (·.isFreshFor metadata)

/-- Resolve an object's attributes, repairing them when the file has moved on. The bytes changed,
not the declared type, so what was recorded of it is kept; a repair that fails is only logged. -/
def resolveAttrs (k : Key) (metadata : Metadata) (hash : Task (Except StorageError Text)) :
    Task (Except StorageError ObjectAttrs) := do
  let recorded ← Prog.call (Op.load k)
  match recorded.filter (·.isFreshFor metadata) with
  | some attrs => .ok attrs
  | none =>
    match ← hash with
    | .error e => .error e
    | .ok etag =>
      let contentType := (recorded.bind (·.contentType)).or (guessContentType k.2.val)
      let repaired := ObjectAttrs.new etag contentType metadata
      let _ ← Prog.call (Op.repair k repaired)
      .ok repaired

/-- Whether two stats describe the same file. -/
def sameFile (a b : Metadata) : Bool := a.dev = b.dev ∧ a.ino = b.ino

@[simp] theorem sameFile_self (metadata : Metadata) : sameFile metadata metadata = true := by
  simp [sameFile]

/-- Times `openObject` looks again at a path swapped out from under it before giving up. -/
def openAttempts : Nat := 3

/-- Open an object; the handle must be of the file the path led to just before. -/
def openObject (k : Key) : Nat → Task (Except StorageError (File × Metadata))
  | 0 => .error (.notFound k.2.val)
  | attempts + 1 => do
    match ← Prog.call (Op.lstat k) with
    | .error e => .error e
    | .ok linked =>
      match ← Prog.call (Op.openFile k) with
      | .error e => .error e
      | .ok file =>
        if sameFile linked file.metadata then .ok (file, file.metadata)
        else openObject k attempts

/-- An open object with its attributes, rehashing only when the file has moved on. -/
def resolve (k : Key) : Task (Except StorageError (File × Metadata × ObjectAttrs)) := do
  match ← openObject k openAttempts with
  | .error e => .error e
  | .ok (file, metadata) =>
    match ← resolveAttrs k metadata (Prog.call (Op.hashFile file)) with
    | .error e => .error e
    | .ok attrs => .ok (file, metadata, attrs)

/-- An object's attributes, for callers that serve none of its bytes: only a stale or missing record
opens the file. -/
def describe (k : Key) : Task (Except StorageError (Metadata × ObjectAttrs)) := do
  match ← Prog.call (Op.lstat k) with
  | .error e => .error e
  | .ok metadata =>
    match ← fresh k metadata with
    | some attrs => .ok (metadata, attrs)
    | none =>
      match ← resolve k with
      | .error e => .error e
      | .ok (_, metadata, attrs) => .ok (metadata, attrs)

def objectMeta (k : Key) (size : Nat) (metadata : Metadata) (attrs : ObjectAttrs) : ObjectMeta where
  key := k.2.val
  size := size
  lastModified := some metadata.modified.unixSecondsI64
  contentType := attrs.contentType
  etag := some attrs.etag

/-- The current state of a key, for a write precondition; a missing bucket is not a missing
object. -/
def current (k : Key) : Task (Except StorageError (Option (Metadata × ObjectAttrs))) := do
  match ← describe k with
  | .ok found => .ok (some found)
  | .error (.notFound _) => .ok none
  | .error e => .error e

/-! ## Requests that read -/

section Requests

variable (parseHttpDate : Text → Except String Nat) (etagOf : Bytes → Text)

def readPreconditions (attrs : ObjectAttrs) (metadata : Metadata) (conditionals : ConditionalHeaders) :
    Except StorageError Unit :=
  Preconditions.evaluateReadPreconditions parseHttpDate attrs.etag metadata.modified.unixSeconds
    conditionals

def headObject (k : Key) (conditionals : ConditionalHeaders) :
    Task (Except StorageError ObjectMeta) := do
  match ← Prog.call (Op.requireBucket k.1) with
  | .error e => .error e
  | .ok () =>
    match ← describe k with
    | .error e => .error e
    | .ok (metadata, attrs) =>
      match readPreconditions parseHttpDate attrs metadata conditionals with
      | .error e => .error e
      | .ok () =>
        let answer := objectMeta k metadata.len metadata attrs
        Prog.call (Op.reply k metadata answer)
        .ok answer

/-- What a read of a range serves: where it starts, how long it is, and its `Content-Range`. -/
def slice (total : Nat) (range : Option ByteRange) :
    Except StorageError (Nat × Nat × Option String) := do
  match ← ByteRange.resolveRange total range with
  | some ((start, stop), contentRange) => .ok (start, stop - start, some contentRange)
  | none => .ok (0, total, none)

/-- The bytes come from the handle the attributes were resolved for; `size` is the length served. -/
def getObject (k : Key) (range : Option ByteRange) (conditionals : ConditionalHeaders) :
    Task (Except StorageError ObjectRead) := do
  match ← Prog.call (Op.requireBucket k.1) with
  | .error e => .error e
  | .ok () =>
    match ← resolve k with
    | .error e => .error e
    | .ok (file, metadata, attrs) =>
      match readPreconditions parseHttpDate attrs metadata conditionals with
      | .error e => .error e
      | .ok () =>
        match slice metadata.len range with
        | .error e => .error e
        | .ok (start, length, contentRange) =>
          match ← Prog.call (Op.readSlice file start length) with
          | .error e => .error e
          | .ok bytes =>
            let answer := objectMeta k bytes.length metadata attrs
            Prog.call (Op.reply k metadata answer)
            .ok ⟨bytes, answer, contentRange⟩

/-- A streamed read answers before it serves any bytes, and then serves them from the handle. -/
def getObjectStream (k : Key) (range : Option ByteRange) (conditionals : ConditionalHeaders) :
    Task (Except StorageError (ObjectMeta × Option String)) := do
  match ← Prog.call (Op.requireBucket k.1) with
  | .error e => .error e
  | .ok () =>
    match ← resolve k with
    | .error e => .error e
    | .ok (_, metadata, attrs) =>
      match readPreconditions parseHttpDate attrs metadata conditionals with
      | .error e => .error e
      | .ok () =>
        match slice metadata.len range with
        | .error e => .error e
        | .ok (_, length, contentRange) =>
          let answer := objectMeta k length metadata attrs
          Prog.call (Op.reply k metadata answer)
          .ok (answer, contentRange)

/-! ## Requests that write -/

/-- Commit `content` as the new content of a key. The stamp is that of the staged file, taken before
the rename, so that it can only describe these bytes. -/
def store (k : Key) (contentType : Option Text) (content : Bytes) :
    Task (Except StorageError Text) := do
  match ← Prog.call (Op.stage content) with
  | .error e => .error e
  | .ok staged =>
    let etag := etagOf content
    match ← Prog.call (Op.rename staged k) with
    | .error e => .error e
    | .ok () =>
      match ← Prog.call (Op.record k (.new etag contentType staged.metadata)) with
      | .error e => .error e
      | .ok () => .ok etag

/-- A body in memory and a staged body are stored the same way. -/
def putObject (k : Key) (bytes : Bytes) (contentType : Option Text)
    (conditionals : ConditionalHeaders) : Task (Except StorageError PutOutcome) := do
  match ← Prog.call (Op.requireBucket k.1) with
  | .error e => .error e
  | .ok () =>
    match ← current k with
    | .error e => .error e
    | .ok found =>
      match Preconditions.evaluateWritePreconditions (found.map (·.2.etag)) conditionals with
      | .error e => .error e
      | .ok () =>
        match ← store etagOf k contentType bytes with
        | .error e => .error e
        | .ok etag => .ok ⟨some etag, found.isNone⟩

/-- The manifest is written without a precondition. -/
def writeManifest (bucket : String) (kb : KbSlug) (bytes : Bytes) :
    Task (Except StorageError Unit) := do
  match ← Prog.call (Op.requireBucket kb) with
  | .error e => .error e
  | .ok () =>
    match ← store etagOf (kb, KbManifest.path) (some "application/json".toList) bytes with
    | .error (.notFound _) | .error (.other _) =>
      .error (.backendUnavailable ("writing the manifest for " ++ bucket ++ " failed"))
    | .error e => .error e
    | .ok _ => .ok ()

/-- The bytes are those of the handle the source's precondition was checked against. -/
def copyObject (kb : KbSlug) (source destination : ObjectPath) (options : CopyObjectOptions) :
    Task (Except StorageError PutOutcome) := do
  match ← Prog.call (Op.requireBucket kb) with
  | .error e => .error e
  | .ok () =>
    match ← resolve (kb, source) with
    | .error e => .error e
    | .ok (file, _, sourceAttrs) =>
      if options.sourceIfMatch.any fun expected =>
          !Preconditions.matchesIfMatch sourceAttrs.etag expected then
        .error .preconditionFailed
      else
        match ← current (kb, destination) with
        | .error e => .error e
        | .ok found =>
          match Preconditions.evaluateWritePreconditions (found.map (·.2.etag))
              { ifNoneMatch := options.destinationIfNoneMatch } with
          | .error e => .error e
          | .ok () =>
            match ← store etagOf (kb, destination)
                (options.contentType.or sourceAttrs.contentType) file.content with
            | .error e => .error e
            | .ok etag => .ok ⟨some etag, found.isNone⟩

def deleteObject (k : Key) (conditionals : ConditionalHeaders) :
    Task (Except StorageError DeleteOutcome) := do
  match ← Prog.call (Op.requireBucket k.1) with
  | .error e => .error e
  | .ok () =>
    match ← current k with
    | .error e => .error e
    | .ok none => .ok .notFound
    | .ok (some (_, attrs)) =>
      if conditionals.ifMatch.any fun expected =>
          !Preconditions.matchesIfMatch attrs.etag expected then
        .error .preconditionFailed
      else
        match ← Prog.call (Op.unlink k) with
        | .error e => .error e
        | .ok false => .ok .notFound
        | .ok true =>
          match ← Prog.call (Op.removeRecord k) with
          | .error e => .error e
          | .ok () => .ok .deleted

/-- The requests of the store. A walk over the tree describes each object it meets. -/
inductive IsRequest : Task Unit → Prop where
  | head (k : Key) (conditionals : ConditionalHeaders) :
      IsRequest (headObject parseHttpDate k conditionals).discard
  | get (k : Key) (range : Option ByteRange) (conditionals : ConditionalHeaders) :
      IsRequest (getObject parseHttpDate k range conditionals).discard
  | getStream (k : Key) (range : Option ByteRange) (conditionals : ConditionalHeaders) :
      IsRequest (getObjectStream parseHttpDate k range conditionals).discard
  | walk (k : Key) : IsRequest (describe k).discard
  | put (k : Key) (bytes : Bytes) (contentType : Option Text) (conditionals : ConditionalHeaders) :
      IsRequest (putObject etagOf k bytes contentType conditionals).discard
  | manifest (bucket : String) (kb : KbSlug) (bytes : Bytes) :
      IsRequest (writeManifest etagOf bucket kb bytes).discard
  | copy (kb : KbSlug) (source destination : ObjectPath) (options : CopyObjectOptions) :
      IsRequest (copyObject etagOf kb source destination options).discard
  | delete (k : Key) (conditionals : ConditionalHeaders) :
      IsRequest (deleteObject k conditionals).discard

end Requests

/-! ## What a request relies on -/

section Discipline

variable {parseHttpDate : Text → Except String Nat} {etagOf : Bytes → Text}

/-- The record a read that found `recorded` writes back, once it has hashed the file. -/
def repaired (k : Key) (f : File) (recorded : Option ObjectAttrs) (etag : Text) : ObjectAttrs :=
  .new etag ((recorded.bind (·.contentType)).or (guessContentType k.2.val)) f.metadata

/-- The operations that write a record or answer a caller. -/
def Op.Tells : Op → Prop
  | .repair .. | .record .. | .reply .. => True
  | _ => False

/-- From answers as `A` says, a read comes to know stats, files and attributes, in the sense of
`Stat`, `Opened` and `Told`, that justify each record and each answer, in the sense of `G`. -/
structure Discipline (etagOf : Bytes → Text) (A : (o : Op) → o.Res → Prop) (G : Op → Prop)
    (Stat : Key → Metadata → Prop) (Opened : Key → File → Prop)
    (Told : Key → Metadata → ObjectAttrs → Prop) : Prop where
  silent : ∀ o, ¬ o.Tells → G o
  lstat : ∀ k metadata, A (.lstat k) (.ok metadata) → Stat k metadata
  opened : ∀ k f, A (.openFile k) (.ok f) → Opened k f ∧ Stat k f.metadata
  fresh : ∀ k metadata attrs, Stat k metadata → A (.load k) (some attrs) →
    attrs.isFreshFor metadata = true → Told k metadata attrs
  repair : ∀ k f recorded etag, Opened k f → A (.load k) recorded → A (.hashFile f) (.ok etag) →
    G (.repair k (repaired k f recorded etag)) ∧ Told k f.metadata (repaired k f recorded etag)
  reply : ∀ k size metadata attrs, Told k metadata attrs →
    G (.reply k metadata (objectMeta k size metadata attrs))
  record : ∀ k f content contentType, A (.stage content) (.ok f) → A (.rename f k) (.ok ()) →
    G (.record k (.new (etagOf content) contentType f.metadata))

namespace Discipline

variable {A : (o : Op) → o.Res → Prop} {G : Op → Prop} {Stat : Key → Metadata → Prop}
variable {Opened : Key → File → Prop} {Told : Key → Metadata → ObjectAttrs → Prop}
variable (d : Discipline etagOf A G Stat Opened Told) {k : Key}
include d

theorem openObject (attempts : Nat) : (openObject k attempts).Assures A G
    (Except.OnOk fun (f, metadata) => Opened k f ∧ Stat k metadata ∧ metadata = f.metadata) := by
  induction attempts with
  | zero => trivial
  | succ attempts ih =>
    refine .call (d.silent _ id) fun linked _ => ?_
    cases linked with
    | error e => trivial
    | ok linked =>
      refine .call (d.silent _ id) fun opened hopened => ?_
      cases opened with
      | error e => trivial
      | ok file =>
        obtain ⟨hf, hstat⟩ := d.opened k file hopened
        dsimp only
        split
        · exact ⟨hf, hstat, rfl⟩
        · exact ih

theorem resolveAttrs {f : File} (hf : Opened k f) (hstat : Stat k f.metadata) :
    (resolveAttrs k f.metadata (Prog.call (Op.hashFile f))).Assures A G
      (Except.OnOk fun attrs => Told k f.metadata attrs) := by
  refine .call (d.silent _ id) fun recorded hload => ?_
  split
  · next attrs hfilter =>
    obtain ⟨hrecorded, hfresh⟩ := Option.filter_eq_some_iff.mp hfilter
    exact d.fresh k _ _ hstat (hrecorded ▸ hload) hfresh
  · refine .call (d.silent _ id) fun hashed hhash => ?_
    cases hashed with
    | error e => trivial
    | ok etag =>
      obtain ⟨hrepair, htold⟩ := d.repair k f recorded etag hf hload hhash
      exact .call hrepair fun _ _ => htold

theorem resolve : (resolve k).Assures A G
    (Except.OnOk fun (_, metadata, attrs) => Told k metadata attrs) := by
  refine .bind ((d.openObject openAttempts).mono fun r hr => ?_)
  cases r with
  | error e => trivial
  | ok found =>
    obtain ⟨file, metadata⟩ := found
    obtain ⟨hf, hstat, rfl⟩ := hr
    refine .bind ((d.resolveAttrs hf hstat).mono fun r htold => ?_)
    cases r with
    | error e => trivial
    | ok attrs => exact htold

theorem describe : (describe k).Assures A G
    (Except.OnOk fun (metadata, attrs) => Told k metadata attrs) := by
  refine .call (d.silent _ id) fun r hlstat => ?_
  cases r with
  | error e => trivial
  | ok metadata =>
    refine .call (d.silent _ id) fun recorded hload => ?_
    dsimp only [Prog.pure_eq, Prog.ret_bind]
    split
    · next attrs hfilter =>
      obtain ⟨hrecorded, hfresh⟩ := Option.filter_eq_some_iff.mp hfilter
      exact d.fresh k _ _ (d.lstat k _ hlstat) (hrecorded ▸ hload) hfresh
    · refine .bind (d.resolve.mono fun r htold => ?_)
      cases r with
      | error e => trivial
      | ok found => exact htold

theorem current : (current k).Assures A G fun _ => True := by
  refine .bind (d.describe.mono fun r _ => ?_)
  split
  · trivial
  · trivial
  · trivial

theorem store (contentType : Option Text) (content : Bytes) :
    (store etagOf k contentType content).Assures A G fun _ => True := by
  refine .call (d.silent _ id) fun staged hstage => ?_
  cases staged with
  | error e => trivial
  | ok staged =>
    refine .call (d.silent _ id) fun renamed hrename => ?_
    cases renamed with
    | error e => trivial
    | ok _ =>
      refine .call ?_ fun recorded _ => ?_
      · exact d.record k staged content contentType hstage hrename
      · cases recorded with
        | error e => trivial
        | ok _ => trivial

/-- A request finds the bucket first. -/
theorem bucket {kb : KbSlug} {α : Type} {f : Except StorageError Unit → Task α}
    (herror : ∀ e, (f (.error e)).Assures A G fun _ => True)
    (hok : (f (.ok ())).Assures A G fun _ => True) :
    (Prog.call (Op.requireBucket kb) >>= f).Assures A G fun _ => True := by
  refine .call (d.silent _ id) fun r _ => ?_
  cases r with
  | error e => exact herror e
  | ok _ => exact hok

theorem headObject (conditionals : ConditionalHeaders) :
    (headObject parseHttpDate k conditionals).Assures A G fun _ => True := by
  refine d.bucket (fun _ => trivial) (.bind (d.describe.mono fun r htold => ?_))
  cases r with
  | error e => trivial
  | ok found =>
    dsimp only
    split
    · trivial
    · exact .call (d.reply k _ _ _ htold) fun _ _ => trivial

theorem getObject (range : Option ByteRange) (conditionals : ConditionalHeaders) :
    (getObject parseHttpDate k range conditionals).Assures A G fun _ => True := by
  refine d.bucket (fun _ => trivial) (.bind (d.resolve.mono fun r htold => ?_))
  cases r with
  | error e => trivial
  | ok found =>
    dsimp only
    split
    · trivial
    · split
      · trivial
      · refine .call (d.silent _ id) fun r _ => ?_
        cases r with
        | error e => trivial
        | ok bytes => exact .call (d.reply k _ _ _ htold) fun _ _ => trivial

theorem getObjectStream (range : Option ByteRange) (conditionals : ConditionalHeaders) :
    (getObjectStream parseHttpDate k range conditionals).Assures A G fun _ => True := by
  refine d.bucket (fun _ => trivial) (.bind (d.resolve.mono fun r htold => ?_))
  cases r with
  | error e => trivial
  | ok found =>
    dsimp only
    split
    · trivial
    · split
      · trivial
      · exact .call (d.reply k _ _ _ htold) fun _ _ => trivial

theorem putObject (bytes : Bytes) (contentType : Option Text) (conditionals : ConditionalHeaders) :
    (putObject etagOf k bytes contentType conditionals).Assures A G fun _ => True := by
  refine d.bucket (fun _ => trivial) (.bind (d.current.mono fun r _ => ?_))
  cases r with
  | error e => trivial
  | ok found =>
    dsimp only
    split
    · trivial
    · refine .bind ((d.store contentType bytes).mono fun r _ => ?_)
      cases r with
      | error e => trivial
      | ok etag => trivial

theorem writeManifest (name : String) (kb : KbSlug) (bytes : Bytes) :
    (writeManifest etagOf name kb bytes).Assures A G fun _ => True := by
  refine d.bucket (fun _ => trivial) (.bind ((d.store _ bytes).mono fun r _ => ?_))
  split
  all_goals trivial

theorem copyObject (kb : KbSlug) (source destination : ObjectPath) (options : CopyObjectOptions) :
    (copyObject etagOf kb source destination options).Assures A G fun _ => True := by
  refine d.bucket (fun _ => trivial) (.bind (d.resolve.mono fun r _ => ?_))
  cases r with
  | error e => trivial
  | ok found =>
    dsimp only
    split
    · trivial
    · refine .bind (d.current.mono fun r _ => ?_)
      cases r with
      | error e => trivial
      | ok found =>
        dsimp only
        split
        · trivial
        · refine .bind ((d.store _ _).mono fun r _ => ?_)
          cases r with
          | error e => trivial
          | ok etag => trivial

theorem deleteObject (conditionals : ConditionalHeaders) :
    (deleteObject k conditionals).Assures A G fun _ => True := by
  refine d.bucket (fun _ => trivial) (.bind (d.current.mono fun r _ => ?_))
  split
  · trivial
  · trivial
  · split
    · trivial
    · refine .call (d.silent _ id) fun r _ => ?_
      split
      · trivial
      · trivial
      · refine .call (d.silent _ id) fun r _ => ?_
        split
        · trivial
        · trivial

/-- Every request keeps to a discipline. -/
theorem request {p : Task Unit} (hp : IsRequest parseHttpDate etagOf p) :
    p.Assures A G fun _ => True := by
  cases hp with
  | head k conditionals => exact (d.headObject conditionals).discard
  | get k range conditionals => exact (d.getObject range conditionals).discard
  | getStream k range conditionals => exact (d.getObjectStream range conditionals).discard
  | walk k => exact d.describe.discard
  | put k bytes contentType conditionals => exact (d.putObject bytes contentType conditionals).discard
  | manifest name kb bytes => exact (d.writeManifest name kb bytes).discard
  | copy kb source destination options => exact (d.copyObject kb source destination options).discard
  | delete k conditionals => exact (d.deleteObject conditionals).discard

end Discipline

end Discipline

/-! ## The disk -/

/-- The files in place and the records beside them. The rest is history that no operation reads:
the files each key has had, how often a write has replaced or removed its record, and the content
type the last of these writes declared. -/
structure Disk where
  file : Key → Option File
  record : Key → Option ObjectAttrs
  placed : Key → List File
  writes : Key → Nat
  declared : Key → Option Text

namespace Disk

def empty : Disk := ⟨fun _ => none, fun _ => none, fun _ => [], fun _ => 0, fun _ => none⟩

/-- A file is renamed to the path of an object. -/
def place (s : Disk) (k : Key) (f : File) : Disk :=
  { s with
    file := Function.update s.file k (some f)
    placed := Function.update s.placed k (f :: s.placed k) }

def unlink (s : Disk) (k : Key) : Disk := { s with file := Function.update s.file k none }

/-- A read writes the record back. -/
def repair (s : Disk) (k : Key) (attrs : ObjectAttrs) : Disk :=
  { s with record := Function.update s.record k (some attrs) }

/-- A write replaces the record, or removes it. -/
def setRecord (s : Disk) (k : Key) (attrs : Option ObjectAttrs) : Disk :=
  { s with
    record := Function.update s.record k attrs
    writes := Function.update s.writes k (s.writes k + 1)
    declared := Function.update s.declared k (attrs.bind (·.contentType)) }

section Self

variable (s : Disk) (k : Key)

@[simp] theorem place_file (f : File) : (s.place k f).file k = some f := Function.update_self ..

@[simp] theorem place_record (f : File) : (s.place k f).record = s.record := rfl

@[simp] theorem place_placed (f : File) : (s.place k f).placed k = f :: s.placed k :=
  Function.update_self ..

@[simp] theorem repair_file (attrs : ObjectAttrs) : (s.repair k attrs).file = s.file := rfl

@[simp] theorem repair_record (attrs : ObjectAttrs) : (s.repair k attrs).record k = some attrs :=
  Function.update_self ..

@[simp] theorem repair_placed (attrs : ObjectAttrs) : (s.repair k attrs).placed = s.placed := rfl

@[simp] theorem repair_writes (attrs : ObjectAttrs) : (s.repair k attrs).writes = s.writes := rfl

@[simp] theorem repair_declared (attrs : ObjectAttrs) : (s.repair k attrs).declared = s.declared := rfl

@[simp] theorem setRecord_file (new : Option ObjectAttrs) : (s.setRecord k new).file = s.file := rfl

@[simp] theorem setRecord_record (new : Option ObjectAttrs) : (s.setRecord k new).record k = new :=
  Function.update_self ..

@[simp] theorem setRecord_writes (new : Option ObjectAttrs) :
    (s.setRecord k new).writes k = s.writes k + 1 := Function.update_self ..

@[simp] theorem setRecord_declared (new : Option ObjectAttrs) :
    (s.setRecord k new).declared k = new.bind (·.contentType) := Function.update_self ..

end Self

/-- What an operation may answer and where it leaves the disk. Every operation but the reading of a
record may fail, and then changes nothing. -/
inductive Step (etagOf : Bytes → Text) (s : Disk) : (o : Op) → o.Res → Disk → Prop where
  | bucket (kb : KbSlug) (r : Except StorageError Unit) : Step etagOf s (.requireBucket kb) r s
  | lstat {k : Key} {f : File} : s.file k = some f → Step etagOf s (.lstat k) (.ok f.metadata) s
  | lstatFailed (k : Key) (e : StorageError) : Step etagOf s (.lstat k) (.error e) s
  | opened {k : Key} {f : File} : s.file k = some f → Step etagOf s (.openFile k) (.ok f) s
  | openFailed (k : Key) (e : StorageError) : Step etagOf s (.openFile k) (.error e) s
  | hashed (f : File) : Step etagOf s (.hashFile f) (.ok (etagOf f.content)) s
  | hashFailed (f : File) (e : StorageError) : Step etagOf s (.hashFile f) (.error e) s
  | sliced (f : File) (start len : Nat) :
      Step etagOf s (.readSlice f start len) (.ok ((f.content.drop start).take len)) s
  | sliceFailed (f : File) (start len : Nat) (e : StorageError) :
      Step etagOf s (.readSlice f start len) (.error e) s
  | loaded (k : Key) : Step etagOf s (.load k) (s.record k) s
  | repaired (k : Key) (attrs : ObjectAttrs) :
      Step etagOf s (.repair k attrs) (.ok ()) (s.repair k attrs)
  | repairFailed (k : Key) (attrs : ObjectAttrs) (e : StorageError) :
      Step etagOf s (.repair k attrs) (.error e) s
  | staged (f : File) : Step etagOf s (.stage f.content) (.ok f) s
  | stageFailed (content : Bytes) (e : StorageError) : Step etagOf s (.stage content) (.error e) s
  | renamed (f : File) (k : Key) : Step etagOf s (.rename f k) (.ok ()) (s.place k f)
  | renameFailed (f : File) (k : Key) (e : StorageError) :
      Step etagOf s (.rename f k) (.error e) s
  | recorded (k : Key) (attrs : ObjectAttrs) :
      Step etagOf s (.record k attrs) (.ok ()) (s.setRecord k (some attrs))
  | recordFailed (k : Key) (attrs : ObjectAttrs) (e : StorageError) :
      Step etagOf s (.record k attrs) (.error e) s
  | unlinked {k : Key} {f : File} :
      s.file k = some f → Step etagOf s (.unlink k) (.ok true) (s.unlink k)
  | noFile {k : Key} : s.file k = none → Step etagOf s (.unlink k) (.ok false) s
  | unlinkFailed (k : Key) (e : StorageError) : Step etagOf s (.unlink k) (.error e) s
  | removed (k : Key) : Step etagOf s (.removeRecord k) (.ok ()) (s.setRecord k none)
  | removeFailed (k : Key) (e : StorageError) : Step etagOf s (.removeRecord k) (.error e) s
  | replied (k : Key) (metadata : Metadata) (answer : ObjectMeta) :
      Step etagOf s (.reply k metadata answer) () s

/-- What happens behind the server's back: a file is renamed over an object, or an object removed. -/
inductive Edit (s : Disk) : Disk → Prop where
  | replaced (k : Key) (f : File) : Edit s (s.place k f)
  | removed (k : Key) : Edit s (s.unlink k)

end Disk

/-! ## Runs -/

section Runs

variable (parseHttpDate : Text → Except String Nat) (etagOf : Bytes → Text)

/-- The store: requests that take turns on the disk. Each is tagged with how often the records had
been written when it started. -/
def fsStorage : Pool.System Disk (Key → Nat) Op Op.Res where
  sem := Disk.Step etagOf
  env := Disk.Edit
  spawn s since p s' := IsRequest parseHttpDate etagOf p ∧ since = s.writes ∧ s' = s
  finish s _ s' := s' = s

abbrev Threads := Pool Disk (Key → Nat) Op Op.Res

abbrev Label := Pool.Label (Key → Nat) Op

/-- The runs of the store whose steps are as `allowed` says. A crash ends every request where it
stands and leaves the disk as it is. -/
inductive Run (allowed : Threads → Label → Threads → Prop) : Threads → Prop where
  | start : Run allowed ⟨Disk.empty, []⟩
  | step {P P' : Threads} {l : Label} : Run allowed P →
      Pool.Step (fsStorage parseHttpDate etagOf) P l P' → allowed P l P' → Run allowed P'
  | crash {P : Threads} : Run allowed P → Run allowed ⟨P.state, []⟩

/-- Every step is allowed. -/
def anyStep : Threads → Label → Threads → Prop := fun _ _ _ => True

variable {parseHttpDate etagOf}

/-- One request moves. -/
theorem Run.op (before : List ((Key → Nat) × Task Unit)) {s s' : Disk} {since : Key → Nat} {o : Op}
    {c : o.Res → Task Unit} {r : o.Res} {after : List ((Key → Nat) × Task Unit)}
    (h : Run parseHttpDate etagOf anyStep ⟨s, before ++ (since, .op o c) :: after⟩)
    (hsem : Disk.Step etagOf s o r s') :
    Run parseHttpDate etagOf anyStep ⟨s', before ++ (since, c r) :: after⟩ :=
  h.step (.op hsem) trivial

/-- A request that describes an object with a stale record, or none, comes to repair it. -/
theorem Run.describe {k : Key} (ts : List ((Key → Nat) × Task Unit)) {since : Key → Nat}
    {next : Except StorageError (Metadata × ObjectAttrs) → Task Unit} {s : Disk} {f : File}
    (h : Run parseHttpDate etagOf anyStep ⟨s, ts ++ [(since, (describe k).bind next)]⟩)
    (hf : s.file k = some f) (hstale : (s.record k).filter (·.isFreshFor f.metadata) = none) :
    Run parseHttpDate etagOf anyStep
      ⟨s, ts ++ [(since, .op (.repair k (repaired k f (s.record k) (etagOf f.content))) fun _ =>
        next (.ok (f.metadata, repaired k f (s.record k) (etagOf f.content))))]⟩ := by
  have hloaded := Run.op ts (Run.op ts h (.lstat hf)) (.loaded k)
  simp only [Prog.ret_bind, Prog.pure_eq, hstale] at hloaded
  have hopened := Run.op ts (Run.op ts hloaded (.lstat hf)) (.opened hf)
  simp only [Prog.ret_bind, sameFile_self, if_true] at hopened
  have hloaded' := Run.op ts hopened (.loaded k)
  simp only [Prog.ret_bind, hstale] at hloaded'
  exact Run.op ts hloaded' (.hashed f)

end Runs

end Sidecar
