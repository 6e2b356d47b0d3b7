-- SUMMARY: The open file a WebDAV GET is served from, and which version its bytes come from.
import NotedThat.Core.Laws
import NotedThat.Webdav.Request

/-!
# Reading a file over WebDAV

dav-server opens a file, asks for its metadata and then reads it piece by piece. Each piece is a
ranged read of its own, made without a condition, so it serves whatever version is current. The
pieces are slices of the reported version when none of them meets another one.
-/

namespace Webdav

def storageErrorToFs : StorageError → FsError
  | .notFound _ => .notFound
  | .bucketNotFound _ => .notFound
  | .preconditionFailed => .forbidden
  | .rangeNotSatisfiable _ => .forbidden
  | .backendUnavailable _ => .generalFailure
  | .other _ => .generalFailure
  | .notModified _ => .generalFailure

/-! ## The open file -/

/-- An open file: the object, where the next read starts, and the size once it is known. -/
structure StorageReadFile where
  kb : KbSlug
  path : ObjectPath
  readOffset : Nat
  sizeHint : Option Nat
deriving DecidableEq

/-- Addition on 64-bit integers. -/
def checkedAdd (a b : Nat) : Option Nat := if a + b < 2 ^ 64 then some (a + b) else none

inductive SeekFrom where
  | start (offset : Nat)
  | current (delta : Int)
  | fromEnd (delta : Int)
deriving DecidableEq

def applySeekDelta (base : Nat) (delta : Int) : Except FsError Nat :=
  if delta ≥ 0 then
    match checkedAdd base delta.natAbs with
    | some offset => .ok offset
    | none => .error .tooLarge
  else if delta.natAbs ≤ base then .ok (base - delta.natAbs)
  else .error .forbidden

namespace StorageReadFile

def new (kb : KbSlug) (path : ObjectPath) : StorageReadFile := ⟨kb, path, 0, none⟩

variable (file : StorageReadFile)

def metadata : Program (Except FsError ObjectMeta × StorageReadFile) := do
  match ← Program.storage (.head file.kb file.path {}) with
  | .error e => return (.error (storageErrorToFs e), file)
  | .ok objectMeta => return (.ok objectMeta, { file with sizeHint := some objectMeta.size })

/-- The bytes a ranged read answered; a range behind the end is an empty read. -/
def bytesRead : Except StorageError ObjectRead → Except FsError Bytes
  | .ok object => .ok object.bytes
  | .error (.rangeNotSatisfiable _) => .ok []
  | .error e => .error (storageErrorToFs e)

/-- What a ranged read leads to: its bytes, and the offset moved behind them. -/
def afterRead (answer : Except StorageError ObjectRead) : Except FsError Bytes × StorageReadFile :=
  match bytesRead answer with
  | .error e => (.error e, file)
  | .ok bytes =>
    match checkedAdd file.readOffset bytes.length with
    | none => (.error .tooLarge, file)
    | some readOffset => (.ok bytes, { file with readOffset := readOffset })

def readBytes (count : Nat) : Program (Except FsError Bytes × StorageReadFile) :=
  if count = 0 then return (.ok [], file)
  else
    match checkedAdd file.readOffset count with
    | none => return (.error .tooLarge, file)
    | some stop => do
      let answer ← Program.storage
        (.get file.kb file.path (some (.fromStart file.readOffset (stop - 1))) {})
      return file.afterRead answer

/-- Move to a position, or stay when it is none. -/
def seekTo (next : Except FsError Nat) : Except FsError Nat × StorageReadFile :=
  match next with
  | .ok offset => (.ok offset, { file with readOffset := offset })
  | .error e => (.error e, file)

def seek (pos : SeekFrom) : Program (Except FsError Nat × StorageReadFile) :=
  match pos with
  | .start offset => return file.seekTo (.ok offset)
  | .current delta => return file.seekTo (applySeekDelta file.readOffset delta)
  | .fromEnd delta =>
    match file.sizeHint with
    | some size => return file.seekTo (applySeekDelta size delta)
    | none => do
      match ← Program.storage (.head file.kb file.path {}) with
      | .error e => return (.error (storageErrorToFs e), file)
      | .ok objectMeta =>
        return { file with sizeHint := some objectMeta.size }.seekTo
          (applySeekDelta objectMeta.size delta)

end StorageReadFile

/-! ## Serving a file -/

inductive FileCall where
  | readBytes (count : Nat)
  | seek (pos : SeekFrom)

/-- Make the calls one after the other, and return each read with the offset it was made at. -/
def readSession : StorageReadFile → List FileCall → Program (List (Nat × Bytes))
  | _, [] => return []
  | file, .readBytes count :: calls => do
    let (answer, file') ← file.readBytes count
    let reads ← readSession file' calls
    match answer with
    | .ok bytes => return (file.readOffset, bytes) :: reads
    | .error _ => return reads
  | file, .seek pos :: calls => do
    let (_, file') ← file.seek pos
    readSession file' calls

/-- Open a file, ask for its metadata, and make the calls. -/
def serveFile (kb : KbSlug) (path : ObjectPath) (calls : List FileCall) :
    Program (Option (ObjectMeta × List (Nat × Bytes))) := do
  let (answer, file) ← (StorageReadFile.new kb path).metadata
  match answer with
  | .error _ => return none
  | .ok objectMeta => do
    let reads ← readSession file calls
    return some (objectMeta, reads)

/-! ## Where the bytes come from -/

open Prog (wp)
open Semantics (Event)

/-- Every read of the key in `h` met the version `v`, or nothing at all. -/
def Unreplaced (k : Key) (v : Version) (h : List Event) : Prop :=
  ∀ e ∈ h, (∃ range c, e.op = .storage (.get k.1 k.2 range c)) →
    e.pre.get k = some v ∨ e.pre.get k = none

/-- The bytes are a slice of `v` at `offset`. -/
def SliceAt (v : Version) (offset : Nat) (bytes : Bytes) : Prop := bytes <+: v.bytes.drop offset

theorem sliceAt_nil (v : Version) (offset : Nat) : SliceAt v offset [] := List.nil_prefix

theorem sliceAt_readVersion {path : ObjectPath} {v : Version} {first last : Nat}
    {read : ObjectRead}
    (h : StorageOp.readVersion path v (some (.fromStart first last)) = .ok read) :
    SliceAt v first read.bytes := by
  unfold StorageOp.readVersion at h
  obtain ⟨range, hrange, hread⟩ := Except.bind_eq_ok.mp h
  simp only [ByteRange.resolveRange, ByteRange.toExclusiveRange] at hrange
  split at hrange
  · cases hrange
  · next hsome =>
    split at hsome
    · cases hsome
    · cases hsome
      cases hrange
      cases hread
      exact List.take_prefix _ _

namespace StorageReadFile

variable {file : StorageReadFile}

theorem afterRead_key (answer : Except StorageError ObjectRead) :
    ((file.afterRead answer).2.kb, (file.afterRead answer).2.path) = (file.kb, file.path) := by
  unfold afterRead
  split
  · rfl
  · split <;> rfl

/-- A read that answers bytes got them from storage, or is empty. -/
theorem afterRead_ok {answer : Except StorageError ObjectRead} {bytes : Bytes}
    (h : (file.afterRead answer).1 = .ok bytes) :
    bytes = [] ∨ ∃ object, answer = .ok object ∧ bytes = object.bytes := by
  have hread : bytesRead answer = .ok bytes := by
    unfold afterRead at h
    split at h
    · cases h
    · next hbytes =>
      split at h
      · cases h
      · rwa [← h]
  unfold bytesRead at hread
  split at hread
  · cases hread
    exact .inr ⟨_, rfl, rfl⟩
  · cases hread
    exact .inl rfl
  · cases hread

theorem seekTo_key (next : Except FsError Nat) :
    ((file.seekTo next).2.kb, (file.seekTo next).2.path) = (file.kb, file.path) := by
  unfold seekTo
  split <;> rfl

end StorageReadFile

section Session

variable {S : Semantics} {R : Rely World} {h : List Event} {w : World}

/-- A read serves a slice of the version every read met. -/
theorem wp_readBytes {file : StorageReadFile} {count : Nat}
    {Q : Except FsError Bytes × StorageReadFile → List Event → World → Prop}
    (hQ : ∀ answer h' w', h <+: h' → (answer.2.kb, answer.2.path) = (file.kb, file.path) →
      (∀ bytes v, answer.1 = .ok bytes → Unreplaced (file.kb, file.path) v h' →
        SliceAt v file.readOffset bytes) → Q answer h' w') :
    wp S.Step R (fun _ _ => True) (file.readBytes count) Q h w := by
  unfold StorageReadFile.readBytes
  split
  · refine fun w' _ => hQ _ _ _ List.prefix_rfl rfl fun bytes v hok _ => ?_
    cases hok
    exact sliceAt_nil _ _
  · split
    · refine fun w' _ => hQ _ _ _ List.prefix_rfl rfl fun bytes v hok => ?_
      cases hok
    · refine Semantics.wp_get (fun w' e _ _ => ⟨trivial, fun w'' _ => ?_⟩)
        fun w' current read _ hcur _ hread => ⟨trivial, fun w'' _ => ?_⟩
      · refine hQ _ _ _ (List.prefix_append _ _) (StorageReadFile.afterRead_key _)
          fun bytes v hok _ => ?_
        obtain rfl | ⟨object, hanswer, -⟩ := StorageReadFile.afterRead_ok hok
        · exact sliceAt_nil _ _
        · cases hanswer
      · refine hQ _ _ _ (List.prefix_append _ _) (StorageReadFile.afterRead_key _)
          fun bytes v hok hun => ?_
        obtain rfl | ⟨object, hanswer, rfl⟩ := StorageReadFile.afterRead_ok hok
        · exact sliceAt_nil _ _
        · cases hanswer
          -- this very read met the version, so it is the one it served
          have hmet := hun _ (List.mem_append_right _ (List.mem_singleton.mpr rfl)) ⟨_, _, rfl⟩
          rcases hmet with hmet | hmet
          · cases hcur.symm.trans hmet
            exact sliceAt_readVersion hread
          · cases hcur.symm.trans hmet

theorem wp_seek {file : StorageReadFile} {pos : SeekFrom}
    {Q : Except FsError Nat × StorageReadFile → List Event → World → Prop}
    (hQ : ∀ answer h' w', h <+: h' → (answer.2.kb, answer.2.path) = (file.kb, file.path) →
      Q answer h' w') :
    wp S.Step R (fun _ _ => True) (file.seek pos) Q h w := by
  cases pos with
  | start offset => exact fun w' _ => hQ _ _ _ List.prefix_rfl (StorageReadFile.seekTo_key _)
  | current delta => exact fun w' _ => hQ _ _ _ List.prefix_rfl (StorageReadFile.seekTo_key _)
  | fromEnd delta =>
    unfold StorageReadFile.seek
    dsimp only
    split
    · exact fun w' _ => hQ _ _ _ List.prefix_rfl (StorageReadFile.seekTo_key _)
    · refine Semantics.wp_head (fun w' e _ _ => ⟨trivial, fun w'' _ => ?_⟩)
        fun w' v _ _ => ⟨trivial, fun w'' _ => ?_⟩
      · exact hQ _ _ _ (List.prefix_append _ _) rfl
      · exact hQ _ _ _ (List.prefix_append _ _)
          ((StorageReadFile.seekTo_key _).trans rfl)

/-- The reads of a session are slices of the version they all met. -/
theorem wp_readSession {file : StorageReadFile} {calls : List FileCall}
    {Q : List (Nat × Bytes) → List Event → World → Prop}
    (hQ : ∀ reads h' w', h <+: h' →
      (∀ v, Unreplaced (file.kb, file.path) v h' → ∀ r ∈ reads, SliceAt v r.1 r.2) →
      Q reads h' w') :
    wp S.Step R (fun _ _ => True) (readSession file calls) Q h w := by
  induction calls generalizing file h w Q with
  | nil => exact fun w' _ => hQ _ _ _ List.prefix_rfl fun v _ r hr => by cases hr
  | cons call calls ih =>
    cases call with
    | readBytes count =>
      apply wp.bind
      refine wp_readBytes fun answer h' w' hh hkey hslice => ?_
      apply wp.bind
      refine ih fun reads h'' w'' hh' hreads => ?_
      rw [hkey] at hreads
      cases hanswer : answer.1 with
      | error e => exact fun w₃ _ => hQ _ _ _ (hh.trans hh') hreads
      | ok bytes =>
        refine fun w₃ _ => hQ _ _ _ (hh.trans hh') fun v hun r hr => ?_
        rcases List.mem_cons.mp hr with rfl | hr
        · exact hslice bytes v hanswer fun e he => hun e (hh'.subset he)
        · exact hreads v hun r hr
    | seek pos =>
      apply wp.bind
      refine wp_seek fun answer h' w' hh hkey => ?_
      refine ih fun reads h'' w'' hh' hreads => hQ _ _ _ (hh.trans hh') ?_
      rwa [hkey] at hreads

end Session

/-- The first event is the metadata call, and it reported `v`. -/
def Reported (k : Key) (v : Version) (tr : List Event) : Prop :=
  ∃ w rest, tr = ⟨w, .storage (.head k.1 k.2 {}), .ok (v.objectMeta k.2 v.size), w⟩ :: rest ∧
    w.get k = some v

/-- Among any writes of others: if every read met the version the metadata call reported, or
nothing, then all bytes served are slices of that version. -/
theorem serveFile_slices {S : Semantics} {env : World → World → Prop} {kb : KbSlug}
    {path : ObjectPath} {calls : List FileCall} {w w' : World} {tr : List Event}
    {objectMeta : ObjectMeta} {reads : List (Nat × Bytes)}
    (hrun : Prog.Exec S.Step env w (serveFile kb path calls) tr w'
      (.ret (some (objectMeta, reads))))
    (hun : ∀ v, Reported (kb, path) v tr → Unreplaced (kb, path) v tr) :
    ∃ v, Reported (kb, path) v tr ∧ objectMeta.size = v.size ∧ objectMeta.etag = some v.etag.val ∧
      ∀ r ∈ reads, SliceAt v r.1 r.2 := by
  have hwp : wp S.Step (Rely.any World) (fun _ _ => True) (serveFile kb path calls)
      (fun a h _ => ∀ objectMeta reads, a = some (objectMeta, reads) →
        ∃ v, Reported (kb, path) v h ∧ objectMeta = v.objectMeta path v.size ∧
          (Unreplaced (kb, path) v h → ∀ r ∈ reads, SliceAt v r.1 r.2)) [] w := by
    apply wp.bind
    refine Semantics.wp_head (fun w₁ e _ _ => ⟨trivial, fun _ _ => ?_⟩)
      fun w₁ v _ hv => ⟨trivial, fun _ _ => ?_⟩
    · exact fun _ _ _ _ hnone => by cases hnone
    · apply wp.bind
      refine wp_readSession fun reads h' w'' hh hreads => fun _ _ objectMeta reads' hsome => ?_
      cases hsome
      obtain ⟨rest, rfl⟩ := hh
      exact ⟨v, ⟨w₁, rest, rfl, hv⟩, rfl, hreads v⟩
  obtain ⟨v, hreported, rfl, hreads⟩ :=
    (hwp.exec hrun fun _ _ _ => trivial).2 w' trivial objectMeta reads rfl
  exact ⟨v, hreported, rfl, rfl, hreads (hun v hreported)⟩

/-! ## A file replaced while it is read -/

def readKey : Key := (KbSlug.notes, ObjectPath.aMd)

def firstVersion : Version := Version.tagged 'x' [1, 2]

/-- `a.md` is stored. -/
def oneNote : World := World.empty.apply (.stored readKey firstVersion)

/-- Two reads of one byte each, the second in a later world `w₁` where `a.md` is at `v`. -/
theorem twoReads_run {env : World → World → Prop} {w₁ : World} {v : Version} {a b : UInt8}
    (henv : env oneNote w₁) (hv : w₁.get readKey = some v) (hbytes : v.bytes = [a, b]) :
    Prog.Exec (Semantics.faultless fun _ _ => True).Step env oneNote
      (serveFile KbSlug.notes ObjectPath.aMd [.readBytes 1, .readBytes 1])
      [⟨oneNote, .storage (.head KbSlug.notes ObjectPath.aMd {}),
          .ok (firstVersion.objectMeta ObjectPath.aMd firstVersion.size), oneNote⟩,
        ⟨oneNote, .storage (.get KbSlug.notes ObjectPath.aMd (some (.fromStart 0 0)) {}),
          .ok ⟨[1], firstVersion.objectMeta ObjectPath.aMd 1, some "bytes 0-0/2"⟩, oneNote⟩,
        ⟨w₁, .storage (.get KbSlug.notes ObjectPath.aMd (some (.fromStart 1 1)) {}),
          .ok ⟨[b], v.objectMeta ObjectPath.aMd 1, some "bytes 1-1/2"⟩, w₁⟩] w₁
      (.ret (some (firstVersion.objectMeta ObjectPath.aMd firstVersion.size,
        [(0, [1]), (1, [b])]))) := by
  have hget : (Semantics.faultless fun _ _ => True).Step w₁
      (.storage (.get KbSlug.notes ObjectPath.aMd (some (.fromStart 1 1)) {}))
      (.ok ⟨[b], v.objectMeta ObjectPath.aMd 1, some "bytes 1-1/2"⟩) w₁ := by
    have hread : StorageOp.readVersion ObjectPath.aMd v (some (.fromStart 1 1)) =
        .ok ⟨[b], v.objectMeta ObjectPath.aMd 1, some "bytes 1-1/2"⟩ := by
      have hrange : ByteRange.resolveRange 2 (some (.fromStart 1 1)) =
          .ok (some ((1, 2), "bytes 1-1/2")) := by decide
      obtain ⟨bytes, contentType, etag, lastModified⟩ := v
      cases hbytes
      unfold StorageOp.readVersion
      erw [hrange]
      rfl
    have hstep := @Semantics.Step.storage (Semantics.faultless fun _ _ => True) w₁
      (.get KbSlug.notes ObjectPath.aMd (some (.fromStart 1 1)) {}) ⟨v.etag, 0⟩
    rw [StorageOp.eval_get hv, hread] at hstep
    exact hstep trivial
  refine .step (.storage (.head KbSlug.notes ObjectPath.aMd {}) ⟨firstVersion.etag, 0⟩ trivial) ?_
  refine .step (.storage (.get KbSlug.notes ObjectPath.aMd (some (.fromStart 0 0)) {})
    ⟨firstVersion.etag, 0⟩ trivial) ?_
  refine .env henv ?_
  refine .step hget ?_
  exact .done _ _

/-- Another client has replaced `a.md`. -/
def replacedNote : World := oneNote.apply (.stored readKey (Version.tagged 'y' [3, 4]))

/-- A replacement between two reads: the second byte is not one of the reported version. -/
theorem serveFile_mixes_versions :
    ∃ tr w' objectMeta reads,
      Prog.Exec (Semantics.faultless fun _ _ => True).Step
        ((Semantics.faultless fun _ _ => True).Env true) oneNote
        (serveFile KbSlug.notes ObjectPath.aMd [.readBytes 1, .readBytes 1]) tr w'
        (.ret (some (objectMeta, reads))) ∧
      ¬ ∃ v, Reported readKey v tr ∧ objectMeta.size = v.size ∧
        objectMeta.etag = some v.etag.val ∧ ∀ r ∈ reads, SliceAt v r.1 r.2 := by
  have henv : (Semantics.faultless fun _ _ => True).Env true oneNote replacedNote :=
    .inr ⟨.stored readKey (Version.tagged 'y' [3, 4]), trivial, rfl⟩
  refine ⟨_, _, _, _, twoReads_run (v := Version.tagged 'y' [3, 4]) henv (by decide) rfl, ?_⟩
  rintro ⟨v, ⟨w, rest, htr, hv⟩, -, -, hreads⟩
  have hw : oneNote = w := congrArg Prog.Event.pre (List.cons.inj htr).1
  have hfirst : w.get readKey = some firstVersion := by
    rw [← hw]
    decide
  cases hfirst.symm.trans hv
  exact absurd (hreads (1, [4]) (by simp)) (by simp [SliceAt, firstVersion, Version.tagged])

/-- Without the replacement both bytes are the reported version's. -/
theorem serveFile_slices_unreplaced :
    ∃ tr w' objectMeta reads,
      Prog.Exec (Semantics.faultless fun _ _ => True).Step
        ((Semantics.faultless fun _ _ => True).Env true) oneNote
        (serveFile KbSlug.notes ObjectPath.aMd [.readBytes 1, .readBytes 1]) tr w'
        (.ret (some (objectMeta, reads))) ∧
      reads = [(0, [1]), (1, [2])] ∧
      ∃ v, Reported readKey v tr ∧ objectMeta.size = v.size ∧
        objectMeta.etag = some v.etag.val ∧ ∀ r ∈ reads, SliceAt v r.1 r.2 := by
  have hcurrent : oneNote.get readKey = some firstVersion := by decide
  have henv : (Semantics.faultless fun _ _ => True).Env true oneNote oneNote := .inl rfl
  have hrun := twoReads_run henv hcurrent rfl
  refine ⟨_, _, _, _, hrun, rfl, serveFile_slices hrun ?_⟩
  rintro v ⟨w, rest, htr, hv⟩ e he -
  have hw : oneNote = w := congrArg Prog.Event.pre (List.cons.inj htr).1
  cases hcurrent.symm.trans ((congrArg (fun w => w.get readKey) hw).trans hv)
  simp only [List.mem_cons, List.not_mem_nil, or_false] at he
  rcases he with rfl | rfl | rfl
  · exact .inl hcurrent
  · exact .inl hcurrent
  · exact .inl hcurrent

end Webdav
