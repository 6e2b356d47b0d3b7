-- SUMMARY: Which grants stand behind what a WebDAV request does: every method but COPY and MOVE is mediated, and when those two are.
import NotedThat.Webdav.Lookups
import NotedThat.Write.Specs

/-!
# Mediation

Authorization is decided once, from the method and the request path. PUT and DELETE act on that
path alone and the adapter asks again before it opens a file, so whatever dav-server does, those
are mediated. COPY and MOVE also act on the key their `Destination` header names, and no layer
asks whether the principal may write there, nor whether it may read the source: to copy it, or to
check it as a manifest, of which the answer quotes what is wrong.
-/

namespace Webdav

/-- The grants an operation needs. -/
def Granted (may : Verb → Key → Prop) : Op → Prop
  | .storage (.put kb path _ _ _) => may .write (kb, path)
  | .storage (.copy kb source destination _) =>
    may .write (kb, destination) ∧ may .read (kb, source)
  | .storage (.delete kb path _) => may .delete (kb, path)
  | .storage (.get kb path _ _) => may .read (kb, path)
  | _ => True

/-- The operation stored, copied, deleted or read something. -/
def TookEffect : Semantics.Event → Prop
  | ⟨_, .storage (.put ..), .ok _, _⟩ => True
  | ⟨_, .storage (.copy ..), .ok _, _⟩ => True
  | ⟨_, .storage (.delete ..), .ok .deleted, _⟩ => True
  | ⟨_, .storage (.get ..), .ok _, _⟩ => True
  | _ => False

/-- Each key a request creates, overwrites, deletes, copies or returns bytes of is one its
principal has the grant for. -/
def Mediated (surface : Surface) (req : Request) (tr : List Semantics.Event) : Prop :=
  ∀ e ∈ tr, TookEffect e → ∃ principal, surface.resolve req.headers = some principal ∧
    Granted (surface.state.May principal) e.op

/-! ## The operations of each part -/

section Parts

variable {may : Verb → Key → Prop} {sinks : WriteSinks}

open Prog (Only)

theorem report_granted {event : ObjectEvent} {after : WriteEffect} {indexEvent : IndexEvent}
    {backpressure : WriteError} :
    (Write.report sinks event after indexEvent backpressure).Only (Granted may) fun _ => True := by
  have hoffer : ∀ published, (Write.offerToIndex indexEvent backpressure published).Only
      (Granted may) fun _ => True := by
    intro published
    refine Only.call trivial fun r => ?_
    cases r <;> trivial
  unfold Write.report Write.announce
  split
  · refine Only.bind (Only.call trivial fun r => ?_)
    cases r <;> exact hoffer _
  · exact hoffer _

theorem commit_granted {json : ManifestJson} {kb : KbSlug} {path : ObjectPath} {body : StagedBody}
    {contentType : Option Text} {c : ConditionalHeaders} (hwrite : may .write (kb, path)) :
    (Write.commit json sinks kb path body contentType c).Only (Granted may) fun _ => True := by
  unfold Write.commit
  split
  · trivial
  · split
    · trivial
    · refine Only.call hwrite fun r => ?_
      cases r with
      | error e => trivial
      | ok outcome =>
        refine Only.andThen report_granted fun r => ?_
        cases r <;> trivial

theorem commitDelete_granted {kb : KbSlug} {path : ObjectPath} {c : ConditionalHeaders}
    (hdelete : may .delete (kb, path)) :
    (Write.commitDelete sinks kb path c).Only (Granted may) fun _ => True := by
  refine Only.call hdelete fun r => ?_
  split
  · exact report_granted
  · exact report_granted
  · trivial

theorem handlePut_granted {state : WebDavState} {req : Request}
    (hwrite : ∀ k, objectTarget state req = .ok k → may .write k) :
    (handlePut state req).Only (Granted may) fun _ => True := by
  unfold handlePut
  split
  · trivial
  · next k hk =>
    split
    · trivial
    · split
      · trivial
      · split
        · trivial
        · split
          · trivial
          · refine Only.andThen (commit_granted (hwrite k hk)) fun r => ?_
            cases r <;> trivial

theorem handleDelete_granted {state : WebDavState} {req : Request}
    (hdelete : ∀ k, objectTarget state req = .ok k → may .delete k) :
    (handleDelete state req).Only (Granted may) fun _ => True := by
  unfold handleDelete
  split
  · trivial
  · next k hk =>
    refine Only.andThen (commitDelete_granted (hdelete k hk)) fun r => ?_
    cases r <;> trivial

/-- Looking something up needs no grant. -/
theorem granted_of_looks {o : Op} (h : World.Looks o) : Granted may o := by
  cases o with
  | storage o =>
    cases o with
    | head kb path c => trivial
    | list kb pre limit cursor => trivial
    | _ => exact h.elim
  | _ => exact h.elim

theorem looks_granted {α : Type} {p : Program α} (h : p.Only World.Looks fun _ => True) :
    p.Only (Granted may) fun _ => True := h.mono (fun _ => granted_of_looks) fun _ h => h

theorem handleProppatch_granted {state : WebDavState} {parseXml : Bytes → Option XmlElement}
    {req : Request} : (handleProppatch state parseXml req).Only (Granted may) fun _ => True := by
  unfold handleProppatch
  split
  · trivial
  · split
    · trivial
    · refine Only.andThen (looks_granted proppatchEtag_looks) fun r => ?_
      cases r <;> trivial

/-! ## The adapter -/

/-- Every open file is one the principal may read. -/
def Readable (may : Verb → Key → Prop) (files : List StorageReadFile) : Prop :=
  ∀ file ∈ files, may .read (file.kb, file.path)

theorem onFile_granted {β : Type} {handle : Nat} {files : List StorageReadFile}
    {call : StorageReadFile → Program (Except FsError β × StorageReadFile)}
    (hfiles : Readable may files)
    (hcall : ∀ file, may .read (file.kb, file.path) → (call file).Only (Granted may) fun r =>
      (r.2.kb, r.2.path) = (file.kb, file.path)) :
    (WebDavStorage.onFile handle files call).Only (Granted may) fun r => Readable may r.2 := by
  unfold WebDavStorage.onFile
  split
  · exact hfiles
  · next file hfile =>
    have hread := hfiles file (List.mem_of_getElem? hfile)
    refine Only.bind ((hcall file hread).mono (fun _ h => h) fun r hr => ?_)
    intro file' hmem
    rcases List.mem_or_eq_of_mem_set hmem with hmem | rfl
    · exact hfiles file' hmem
    · rw [hr]
      exact hread

theorem fileMetadata_granted {file : StorageReadFile} :
    file.metadata.Only (Granted may) fun r => (r.2.kb, r.2.path) = (file.kb, file.path) := by
  refine Only.call trivial fun r => ?_
  cases r <;> rfl

theorem readBytes_granted {file : StorageReadFile} {count : Nat}
    (hread : may .read (file.kb, file.path)) :
    (file.readBytes count).Only (Granted may) fun r =>
      (r.2.kb, r.2.path) = (file.kb, file.path) := by
  unfold StorageReadFile.readBytes
  split
  · rfl
  · split
    · rfl
    · exact Only.call hread fun r => StorageReadFile.afterRead_key r

theorem seek_granted {file : StorageReadFile} {pos : SeekFrom} :
    (file.seek pos).Only (Granted may) fun r => (r.2.kb, r.2.path) = (file.kb, file.path) := by
  cases pos with
  | start offset => exact StorageReadFile.seekTo_key _
  | current delta => exact StorageReadFile.seekTo_key _
  | fromEnd delta =>
    unfold StorageReadFile.seek
    dsimp only
    split
    · exact StorageReadFile.seekTo_key _
    · refine Only.call trivial fun r => ?_
      cases r with
      | error e => rfl
      | ok m => exact (StorageReadFile.seekTo_key _).trans rfl

theorem openFile_readable {fs : WebDavStorage} {path : Bytes} {options : OpenOptions}
    {file : StorageReadFile} (h : fs.openFile path options = .ok file) :
    fs.state.May fs.principal .read (file.kb, file.path) := by
  unfold WebDavStorage.openFile at h
  split at h
  · cases h
  · split at h
    · split at h
      · next hallowed =>
        cases h
        exact hallowed
      · cases h
    · cases h
    · cases h

/-- Whatever dav-server asks of the adapter, only readable files are opened and read. -/
theorem perform_granted {fs : WebDavStorage} (o : FsOp) (files : List StorageReadFile)
    (hfiles : Readable (fs.state.May fs.principal) files) :
    (fs.perform o files).Only (Granted (fs.state.May fs.principal)) fun r =>
      Readable (fs.state.May fs.principal) r.2 := by
  cases o with
  | openFile path options =>
    simp only [WebDavStorage.perform]
    split
    · exact hfiles
    · next file hfile =>
      intro file' hmem
      rcases List.mem_append.mp hmem with hmem | hmem
      · exact hfiles file' hmem
      · rw [List.mem_singleton.mp hmem]
        exact openFile_readable hfile
  | readDir path =>
    exact Only.andThen (looks_granted WebDavStorage.readDir_looks) fun _ => hfiles
  | metadata path =>
    exact Only.andThen (looks_granted WebDavStorage.metadata_looks) fun _ => hfiles
  | fileMetadata handle =>
    refine onFile_granted hfiles fun file _ => ?_
    exact Only.bind (fileMetadata_granted.mono (fun _ h => h) fun _ h => h)
  | readBytes handle count => exact onFile_granted hfiles fun file hread => readBytes_granted hread
  | seek handle pos => exact onFile_granted hfiles fun file _ => seek_granted
  | _ => exact hfiles

theorem davService_granted {surface : Surface} {routed : Routed} :
    (davService surface routed).Only (Granted (surface.state.May routed.principal))
      fun _ => True := by
  refine Only.interpret (I := Readable (surface.state.May routed.principal)) ?_ _ ?_
  · intro o files hfiles
    exact @perform_granted (routed.fs surface) o files hfiles
  · intro file hmem
    cases hmem

/-! ## COPY and MOVE -/

theorem destinationEtag_looks {state : WebDavState} {plan : CopyPlan} :
    (destinationEtag state plan).Only World.Looks fun _ => True := by
  unfold destinationEtag
  split
  · trivial
  · refine Only.call trivial fun r => ?_
    cases r <;> trivial

theorem checkCopiedManifest_granted {json : ManifestJson} {kb : KbSlug}
    {source destination : ObjectPath} (hread : may .read (kb, source)) :
    (Write.checkCopiedManifest json kb source destination).Only (Granted may) fun _ => True := by
  unfold Write.checkCopiedManifest
  split
  · trivial
  · refine Only.call trivial fun r => ?_
    cases r with
    | error e => trivial
    | ok m =>
      dsimp only
      split
      · trivial
      · refine Only.call hread fun r => ?_
        cases r <;> trivial

/-- What follows a copy in `commit_copy`. -/
theorem afterCopy_granted {kb : KbSlug} {destination : ObjectPath} {contentType : Option Text}
    {outcome : PutOutcome} :
    (Write.copyStamp sinks kb destination contentType >>= fun stamped =>
      Write.afterWrite sinks kb destination outcome stamped.1 (stamped.2.getD []) >>= fun r =>
        match r with
        | .error e => Program.error e
        | .ok () => Program.ok outcome).Only (Granted may) fun _ => True := by
  have hstamp : (Write.copyStamp sinks kb destination contentType).Only World.Looks
      fun _ => True := by
    unfold Write.copyStamp
    split
    · trivial
    · refine Only.call trivial fun r => ?_
      cases r <;> trivial
  refine Only.andThen (looks_granted hstamp) fun stamped => ?_
  refine Only.andThen report_granted fun r => ?_
  cases r <;> trivial

theorem commitCopy_granted {json : ManifestJson} {kb : KbSlug} {source destination : ObjectPath}
    {options : CopyObjectOptions}
    (hcopy : may .write (kb, destination) ∧ may .read (kb, source)) :
    (Write.commitCopy json sinks kb source destination options).Only (Granted may)
      fun _ => True := by
  refine Only.andThen (checkCopiedManifest_granted hcopy.2) fun r => ?_
  cases r with
  | error e => trivial
  | ok u =>
    refine Only.call hcopy fun r => ?_
    cases r with
    | error e => trivial
    | ok outcome => exact afterCopy_granted

theorem deleteMoved_granted {state : WebDavState} {plan : CopyPlan} {sourceEtag : Text}
    {outcome : PutOutcome} (hdelete : may .delete plan.srcKey) :
    (deleteMoved state plan sourceEtag outcome).Only (Granted may) fun _ => True := by
  refine Only.andThen (commitDelete_granted hdelete) fun r => ?_
  split <;> trivial

/-- With the grants for both keys the whole handler is mediated. -/
theorem performCopy_granted {state : WebDavState} {plan : CopyPlan} {deleteSource : Bool}
    (hcopy : may .write plan.dstKey ∧ may .read plan.srcKey)
    (hdelete : deleteSource = true → may .delete plan.srcKey) :
    (performCopy state plan deleteSource).Only (Granted may) fun _ => True := by
  refine Only.call trivial fun r => ?_
  cases r with
  | error e => trivial
  | ok m =>
    dsimp only
    split
    · trivial
    · split
      · trivial
      · refine Only.andThen (looks_granted destinationEtag_looks) fun etag => ?_
        split
        · trivial
        · refine Only.andThen (commitCopy_granted hcopy) fun r => ?_
          cases r with
          | error e => trivial
          | ok outcome =>
            dsimp only
            split
            · next hmove => exact deleteMoved_granted (hdelete hmove)
            · trivial

end Parts

/-! ## When a copy goes through -/

section Alone

variable {parseHttpDate : Text → Except String Nat} {stamp : Stamp} {w : World}
variable {state : WebDavState} {plan : CopyPlan} {v : Version}

open World (alone)

/-- The check a copy makes of a version about to become a manifest. -/
def copiedManifest (json : ManifestJson) (kb : KbSlug) (destination : ObjectPath) (v : Version) :
    Except WriteError Unit :=
  if !Manifest.isManifest destination then .ok ()
  else
    match Manifest.checkSize v.size with
    | .error e => .error e
    | .ok () => Manifest.checkManifestBytes json kb destination v.bytes

/-- The source is at `v`, and the conditions of the request hold. -/
structure JudgedAt (state : WebDavState) (plan : CopyPlan) (w : World) (v : Version) : Prop where
  source : w.get plan.srcKey = some v
  conditionals :
    Preconditions.evaluateWritePreconditions (some v.etag.val) plan.conditionals = .ok ()
  ifHeader : plan.ifHolds state v.etag.val ((w.get plan.dstKey).map (·.etag.val)) = true

/-- Then a copy onto the manifest reads the source, if it is not too large for one. -/
structure ReadAt (state : WebDavState) (plan : CopyPlan) (w : World) (v : Version) : Prop
    extends JudgedAt state plan w v where
  isManifest : Manifest.isManifest plan.destination = true
  size : Manifest.checkSize v.size = .ok ()

/-- Everything the handler asks of the store holds. -/
structure AcceptedAt (state : WebDavState) (plan : CopyPlan) (w : World) (v : Version) : Prop
    extends JudgedAt state plan w v where
  manifest : copiedManifest state.json plan.kb plan.destination v = .ok ()
  overwrite : plan.overwrite = true ∨ w.get plan.dstKey = none

/-- The destination's lookup answers what the `If` header needs of it. -/
theorem destinationEtag_run :
    ∃ etag, (destinationEtag state plan).run (alone parseHttpDate stamp) w = (etag, w) ∧
      ∀ sourceEtag, plan.ifHolds state sourceEtag etag =
        plan.ifHolds state sourceEtag ((w.get plan.dstKey).map (·.etag.val)) := by
  unfold destinationEtag
  split
  · next hnames =>
    refine ⟨none, rfl, fun sourceEtag => CopyPlan.ifHolds_congr fun hnames' => ?_⟩
    rw [hnames'] at hnames
    cases hnames
  · cases hdst : w.get (plan.kb, plan.destination) with
    | none =>
      refine ⟨none, ?_, fun _ => by rw [CopyPlan.dstKey, hdst]; rfl⟩
      rw [Program.run_storage, World.alone_head_none hdst]
      rfl
    | some v =>
      refine ⟨some v.etag.val, ?_, fun _ => by rw [CopyPlan.dstKey, hdst]; rfl⟩
      rw [Program.run_storage, World.alone_head_some hdst]
      rfl

theorem checkCopiedManifest_run {json : ManifestJson} {kb : KbSlug}
    {source destination : ObjectPath} (hv : w.get (kb, source) = some v) :
    (Write.checkCopiedManifest json kb source destination).run (alone parseHttpDate stamp) w =
      (copiedManifest json kb destination v, w) := by
  unfold Write.checkCopiedManifest copiedManifest
  split
  · rfl
  · rw [Program.run_storage, World.alone_head_some hv]
    simp only [Version.objectMeta]
    cases Manifest.checkSize v.size with
    | error e => rfl
    | ok u =>
      dsimp only
      rw [Program.run_storage, World.alone_get hv]
      rfl

/-- A destination that may not be overwritten is one that must be absent. -/
theorem overwrite_iff {dstEtag : Option Text} {sourceEtag : Text} {contentType : Option Text} :
    Preconditions.evaluateWritePreconditions dstEtag
        { ifNoneMatch := (plan.copyOptions sourceEtag contentType).destinationIfNoneMatch } =
      .ok () ↔ plan.overwrite = true ∨ dstEtag = none := by
  rw [Preconditions.evaluateWritePreconditions_ok_iff]
  unfold CopyPlan.copyOptions
  cases plan.overwrite with
  | true => simp
  | false =>
    cases dstEtag with
    | none => simp [Preconditions.matchesIfNoneMatch]
    | some etag => simp [Preconditions.matchesIfNoneMatch_star]

/-- The copy of an accepted request succeeds. -/
theorem alone_copy (h : AcceptedAt state plan w v) :
    alone parseHttpDate stamp (.storage (.copy plan.kb plan.source plan.destination
        (plan.copyOptions v.etag.val v.contentType))) w =
      (.ok ⟨some stamp.etag.val, (w.get plan.dstKey).isNone⟩,
        w.apply (.stored plan.dstKey
          (StorageOp.copied v (plan.copyOptions v.etag.val v.contentType) stamp))) := by
  have hover : Preconditions.evaluateWritePreconditions ((w.get plan.dstKey).map (·.etag.val))
      { ifNoneMatch := (plan.copyOptions v.etag.val v.contentType).destinationIfNoneMatch } =
        .ok () := overwrite_iff.mpr (h.overwrite.imp id fun hnone => by rw [hnone]; rfl)
  have hmatch : ∀ expected ∈ (plan.copyOptions v.etag.val v.contentType).sourceIfMatch,
      Preconditions.matchesIfMatch v.etag.val expected = true := by
    intro expected hexpected
    cases hexpected
    exact (Preconditions.matchesIfMatch_etag _ _).mpr rfl
  simp only [alone, World.perform, StorageOp.eval_copy_ok h.source hmatch hover]
  rfl

/-- What `commit_copy` does is what the handler does, once the conditions hold. -/
theorem mem_trace_commitCopy (h : JudgedAt state plan w v) (deleteSource : Bool) {e : Semantics.Event}
    (he : e ∈ (Write.commitCopy state.json state.sinks plan.kb plan.source plan.destination
      (plan.copyOptions v.etag.val v.contentType)).trace (alone parseHttpDate stamp) w) :
    e ∈ (performCopy state plan deleteSource).trace (alone parseHttpDate stamp) w := by
  obtain ⟨etag, hetag, hholds⟩ := @destinationEtag_run parseHttpDate stamp w state plan
  unfold performCopy
  rw [Program.trace_storage, World.alone_head_some h.source]
  refine List.mem_cons_of_mem _ ?_
  simp only [Version.objectMeta, h.conditionals]
  refine Prog.mem_trace_bind.mpr (.inr ?_)
  rw [hetag, hholds, h.ifHeader]
  exact Prog.mem_trace_bind.mpr (.inl he)

/-- The read of a source that is to become the manifest is among the operations. -/
theorem performCopy_reads (h : ReadAt state plan w v) (deleteSource : Bool) :
    (⟨w, .storage (.get plan.kb plan.source none {}), .ok ⟨v.bytes, v.objectMeta plan.source v.size, none⟩, w⟩ :
      Semantics.Event) ∈ (performCopy state plan deleteSource).trace (alone parseHttpDate stamp) w := by
  refine mem_trace_commitCopy h.toJudgedAt deleteSource (Prog.mem_trace_bind.mpr (.inl ?_))
  simp only [Write.checkCopiedManifest, h.isManifest, Bool.not_true, Bool.false_eq_true, if_false]
  rw [Program.trace_storage, World.alone_head_some h.source]
  refine List.mem_cons_of_mem _ ?_
  simp only [Version.objectMeta, h.size]
  rw [Program.trace_storage, World.alone_get h.source]
  exact List.mem_cons_self

/-- The copy of an accepted request is among its operations. -/
theorem performCopy_copies (h : AcceptedAt state plan w v) (deleteSource : Bool) :
    Write.copyEvent plan.kb plan.source plan.destination
        (plan.copyOptions v.etag.val v.contentType) w v stamp ∈
      (performCopy state plan deleteSource).trace (alone parseHttpDate stamp) w := by
  refine mem_trace_commitCopy h.toJudgedAt deleteSource (Prog.mem_trace_bind.mpr (.inr ?_))
  rw [checkCopiedManifest_run h.source, h.manifest]
  dsimp only
  rw [Program.trace_storage, alone_copy h]
  exact List.mem_cons_self

/-- The check of a manifest needs a grant only where it reads the source. -/
theorem checkCopiedManifest_trace {may : Verb → Key → Prop} {json : ManifestJson} {kb : KbSlug}
    {source destination : ObjectPath} (hv : w.get (kb, source) = some v)
    (hread : Manifest.isManifest destination = true → Manifest.checkSize v.size = .ok () → may .read (kb, source)) :
    ∀ e ∈ (Write.checkCopiedManifest json kb source destination).trace (alone parseHttpDate stamp) w,
      Granted may e.op := by
  intro e he
  unfold Write.checkCopiedManifest at he
  cases hmanifest : Manifest.isManifest destination with
  | false =>
    rw [hmanifest] at he
    cases he
  | true =>
    simp only [hmanifest, Bool.not_true, Bool.false_eq_true, if_false] at he
    rw [Program.trace_storage, World.alone_head_some hv] at he
    rcases List.mem_cons.mp he with rfl | he
    · trivial
    · simp only [Version.objectMeta] at he
      cases hsize : Manifest.checkSize v.size with
      | error error =>
        rw [hsize] at he
        cases he
      | ok u =>
        rw [hsize] at he
        rw [Program.trace_storage, World.alone_get hv] at he
        rcases List.mem_cons.mp he with rfl | he
        · exact hread hmanifest hsize
        · cases he

/-- Without the checks the copy is not made, or fails. -/
theorem commitCopy_refused {may : Verb → Key → Prop} (hv : w.get plan.srcKey = some v)
    (hread : Manifest.isManifest plan.destination = true → Manifest.checkSize v.size = .ok () →
      may .read plan.srcKey)
    (hrefused : ¬ (copiedManifest state.json plan.kb plan.destination v = .ok () ∧
      (plan.overwrite = true ∨ w.get plan.dstKey = none))) :
    (∃ e, ((Write.commitCopy state.json state.sinks plan.kb plan.source plan.destination
        (plan.copyOptions v.etag.val v.contentType)).run (alone parseHttpDate stamp) w).1 =
          .error e) ∧
      ∀ e ∈ (Write.commitCopy state.json state.sinks plan.kb plan.source plan.destination
        (plan.copyOptions v.etag.val v.contentType)).trace (alone parseHttpDate stamp) w,
        TookEffect e → Granted may e.op := by
  have hcheck : ∀ e ∈ (Write.checkCopiedManifest state.json plan.kb plan.source
      plan.destination).trace (alone parseHttpDate stamp) w, TookEffect e → Granted may e.op :=
    fun e he _ => checkCopiedManifest_trace hv hread e he
  unfold Write.commitCopy
  simp only [Prog.bind_eq, Prog.run_bind, Prog.mem_trace_bind, checkCopiedManifest_run hv]
  cases hmanifest : copiedManifest state.json plan.kb plan.destination v with
  | error e =>
    refine ⟨⟨_, rfl⟩, fun e' he' => ?_⟩
    rcases he' with he' | he'
    · exact hcheck e' he'
    · cases he'
  | ok u =>
    obtain ⟨error, herror⟩ : ∃ error, alone parseHttpDate stamp
        (.storage (.copy plan.kb plan.source plan.destination
          (plan.copyOptions v.etag.val v.contentType))) w = (.error error, w) := by
      simp only [alone, World.perform]
      rcases StorageOp.eval_copy_cases with ⟨error, heval⟩ | ⟨v', -, -, hover, -⟩
      · exact ⟨error, by rw [heval]; rfl⟩
      · exfalso
        refine hrefused ⟨hmanifest, (overwrite_iff.mp hover).imp id fun hnone => ?_⟩
        exact Option.map_eq_none_iff.mp hnone
    refine ⟨⟨.storage error, ?_⟩, fun e' he' => ?_⟩
    · erw [Program.run_storage]
      rw [herror]
      rfl
    · rcases he' with he' | he'
      · exact hcheck e' he'
      · erw [Program.trace_storage] at he'
        rw [herror] at he'
        intro heffect
        cases List.mem_singleton.mp he'
        exact heffect.elim

/-- A request that is not accepted copies and deletes nothing. -/
theorem performCopy_refused {may : Verb → Key → Prop} (h : ∀ v, ¬ AcceptedAt state plan w v)
    (hread : ∀ v, ReadAt state plan w v → may .read plan.srcKey) (deleteSource : Bool) :
    ∀ e ∈ (performCopy state plan deleteSource).trace (alone parseHttpDate stamp) w,
      TookEffect e → Granted may e.op := by
  intro e he heffect
  unfold performCopy at he
  rw [Program.trace_storage] at he
  cases hsrc : w.get (plan.kb, plan.source) with
  | none =>
    rw [World.alone_head_none hsrc] at he
    cases List.mem_singleton.mp he
    exact heffect.elim
  | some v =>
    rw [World.alone_head_some hsrc] at he
    rcases List.mem_cons.mp he with rfl | he
    · exact heffect.elim
    · simp only [Version.objectMeta] at he
      cases hcond : Preconditions.evaluateWritePreconditions (some v.etag.val)
          plan.conditionals with
      | error error =>
        rw [hcond] at he
        cases he
      | ok u =>
        obtain ⟨etag, hetag, hholds⟩ := @destinationEtag_run parseHttpDate stamp w state plan
        rw [hcond] at he
        rcases Prog.mem_trace_bind.mp he with he | he
        · exact (looks_granted destinationEtag_looks).trace he
        · rw [hetag, hholds] at he
          cases hif : plan.ifHolds state v.etag.val ((w.get plan.dstKey).map (·.etag.val)) with
          | false =>
            rw [hif] at he
            cases he
          | true =>
            rw [hif] at he
            obtain ⟨⟨error, herror⟩, hcopy⟩ :=
              @commitCopy_refused parseHttpDate stamp w state plan v may hsrc
                (fun hmanifest hsize => hread v ⟨⟨hsrc, hcond, hif⟩, hmanifest, hsize⟩)
                fun hok => h v ⟨⟨hsrc, hcond, hif⟩, hok.1, hok.2⟩
            rcases Prog.mem_trace_bind.mp he with he | he
            · exact hcopy e he heffect
            · rw [herror] at he
              cases he

end Alone

/-! ## Whole requests -/

theorem objectTarget_ok {state : WebDavState} {req : Request} {k : Key}
    (h : objectTarget state req = .ok k) :
    parseWebdavUriPath req.path state.declaredKbs = some (.object k.1 k.2) := by
  unfold objectTarget at h
  split at h
  · cases h
  · next hparse =>
    cases h
    exact hparse
  · cases h
  · cases h
  · cases h

section Serve

variable {surface : Surface} {req : Request} {principal : Principal} {target : DavTarget}

open Prog (Only)

/-- The layers below the write handlers. -/
theorem served_granted {routed : Routed} :
    (interceptOptions (interceptLockUnlock (davService surface)) routed).Only
      (Granted (surface.state.May routed.principal)) fun _ => True := by
  unfold interceptOptions interceptLockUnlock
  split
  · trivial
  · split
    · trivial
    · exact davService_granted

/-- PROPFIND looks the target up and then goes on. -/
theorem interceptPropfindTooLarge_granted {may : Verb → Key → Prop}
    {next : Routed → Program Response} {routed : Routed}
    (hnext : ∀ routed', routed'.principal = routed.principal →
      routed'.req.method = routed.req.method → routed'.req.path = routed.req.path →
      (next routed').Only (Granted may) fun _ => True) :
    (interceptPropfindTooLarge surface next routed).Only (Granted may) fun _ => True := by
  have hinfinite : ∀ target, (interceptInfinite target next routed).Only (Granted may)
      fun _ => True := by
    intro target
    unfold interceptInfinite
    split
    · refine Only.andThen (looks_granted isVirtualFolder_looks) fun folder => ?_
      split
      · trivial
      · exact hnext _ rfl rfl rfl
    · trivial
  have hone : ∀ target, (interceptDepthOne surface target next routed).Only (Granted may)
      fun _ => True := by
    intro target
    unfold interceptDepthOne
    split
    · exact hnext _ rfl rfl rfl
    · refine Only.andThen (looks_granted preparePropfindListing_looks) fun listing => ?_
      split
      · trivial
      · trivial
      · exact hnext _ rfl rfl rfl
  unfold interceptPropfindTooLarge
  split
  · exact hnext _ rfl rfl rfl
  · dsimp only
    split
    · exact hinfinite _
    · exact hinfinite _
    · trivial
    · exact hnext _ rfl rfl rfl
    · exact hone _

/-- Every method but COPY and MOVE is mediated, whatever storage answers. -/
theorem serve_granted {allow : DavAllow}
    (hauth : authorize surface req = .ok (principal, target, allow))
    (hcopy : req.method ≠ "COPY") (hmove : req.method ≠ "MOVE") :
    (serve surface req).Only (Granted (surface.state.May principal)) fun _ => True := by
  have hauthorized := authorize_ok hauth
  unfold serve basicAuthMiddleware
  rw [hauth]
  refine interceptPropfindTooLarge_granted fun routed hprincipal hmethod hpath => ?_
  have hserved := @served_granted surface routed
  rw [hprincipal] at hserved
  have hmay : ∀ {verb}, verb ∈ verbsForMethod req.method → ∀ k,
      objectTarget surface.state routed.req = .ok k → surface.state.May principal verb k := by
    intro verb hverb k hk
    exact hauthorized.may (hpath ▸ objectTarget_ok hk) hverb
  have hwrites : (interceptWriteMethods surface (interceptOptions (interceptLockUnlock
      (davService surface))) routed).Only (Granted (surface.state.May principal))
      fun _ => True := by
    unfold interceptWriteMethods
    split
    · next hput => exact handlePut_granted (hmay (by rw [← hmethod, hput]; decide))
    · next hdelete => exact handleDelete_granted (hmay (by rw [← hmethod, hdelete]; decide))
    · next hmove' => exact absurd (hmethod.symm.trans hmove') hmove
    · next hcopy' => exact absurd (hmethod.symm.trans hcopy') hcopy
    · exact handleProppatch_granted
    · exact hserved
  unfold interceptReadMethods
  split
  · split
    · trivial
    · exact hwrites
  · exact hwrites

/-- An authorized COPY or MOVE goes straight to its handler. -/
theorem serve_copy {allow : DavAllow} {deleteSource : Bool}
    (hauth : authorize surface req = .ok (principal, target, allow))
    (hmethod : req.method = if deleteSource then "MOVE" else "COPY") :
    serve surface req = handleCopyOrMove surface.state req deleteSource := by
  unfold serve basicAuthMiddleware
  rw [hauth]
  cases deleteSource with
  | false =>
    simp only [Bool.false_eq_true, if_false] at hmethod
    simp [interceptPropfindTooLarge, interceptReadMethods, interceptWriteMethods, hmethod,
      handleCopy]
  | true =>
    simp only [if_true] at hmethod
    simp [interceptPropfindTooLarge, interceptReadMethods, interceptWriteMethods, hmethod,
      handleMove]

/-- The request is a COPY or MOVE by `principal` that reaches its handler with this plan. -/
def Reaches (surface : Surface) (req : Request) (principal : Principal) (plan : CopyPlan) : Prop :=
  ∃ deleteSource target allow, req.method = (if deleteSource then "MOVE" else "COPY") ∧
    authorize surface req = .ok (principal, target, allow) ∧
    copyPlan surface.state req deleteSource = .ok plan

/-- A request that runs alone is mediated exactly when it is no COPY or MOVE that goes through or reads its
source, or its principal may write the destination, where it goes through, and read the source. -/
theorem mediated_iff (surface : Surface) (parseHttpDate : Text → Except String Nat)
    (stamp : Stamp) (req : Request) (w : World) :
    Mediated surface req ((serve surface req).trace (World.alone parseHttpDate stamp) w) ↔
      ∀ principal plan v, Reaches surface req principal plan →
        (AcceptedAt surface.state plan w v → surface.state.May principal .write plan.dstKey ∧
          surface.state.May principal .read plan.srcKey) ∧
        (ReadAt surface.state plan w v → surface.state.May principal .read plan.srcKey) := by
  constructor
  · rintro hmediated principal plan v ⟨deleteSource, target, allow, hmethod, hauth, hplan⟩
    have hserve : serve surface req = performCopy surface.state plan deleteSource := by
      rw [serve_copy hauth hmethod, handleCopyOrMove, hplan]
    have hgranted : ∀ e ∈ (performCopy surface.state plan deleteSource).trace
        (World.alone parseHttpDate stamp) w, TookEffect e → Granted (surface.state.May principal) e.op := by
      intro e he heffect
      obtain ⟨principal', hresolve, hgranted⟩ := hmediated e (hserve ▸ he) heffect
      cases hresolve.symm.trans (authorize_ok hauth).resolved
      exact hgranted
    exact ⟨fun hv => hgranted _ (performCopy_copies hv deleteSource) trivial,
      fun hv => hgranted _ (performCopy_reads hv deleteSource) trivial⟩
  · intro hgrants e he heffect
    cases hauth : authorize surface req with
    | error response =>
      rw [serve_refused hauth] at he
      cases he
    | ok authorized =>
      obtain ⟨principal, target, allow⟩ := authorized
      refine ⟨principal, (authorize_ok hauth).resolved, ?_⟩
      by_cases hcopies : ∃ deleteSource : Bool,
          req.method = if deleteSource then "MOVE" else "COPY"
      · obtain ⟨deleteSource, hmethod⟩ := hcopies
        rw [serve_copy hauth hmethod, handleCopyOrMove] at he
        cases hplan : copyPlan surface.state req deleteSource with
        | error response =>
          rw [hplan] at he
          cases he
        | ok plan =>
          rw [hplan] at he
          have hboth := fun v => hgrants principal plan v ⟨deleteSource, target, allow, hmethod, hauth, hplan⟩
          by_cases haccepted : ∃ v, AcceptedAt surface.state plan w v
          · obtain ⟨v, hv⟩ := haccepted
            refine (performCopy_granted ((hboth v).1 hv) fun hmove => ?_).trace he
            refine (authorize_ok hauth).may (copyPlan_of hplan).source ?_
            rw [hmethod, hmove]
            decide
          · exact performCopy_refused (fun v hv => haccepted ⟨v, hv⟩) (fun v hv => (hboth v).2 hv) deleteSource
              e he heffect
      · refine (serve_granted hauth (fun h => ?_) fun h => ?_).trace he
        · exact hcopies ⟨false, h⟩
        · exact hcopies ⟨true, h⟩

end Serve

/-! ## A copy nobody was asked about -/

/-- Anyone signed in may write `a.md`, and nothing else. -/
def inboxPolicy : AccessPolicy where
  rules := [{
    who := .signedIn
    effect := .allow
    verbs := [.write]
    under := [⟨"a.md".toList, [[.literal "a.md".toList]], by decide⟩] }]

/-- A server with the knowledge base `notes`, where every credential is `ann`'s; `parseUri`
answers for the two URIs used, and dav-server is not reached. -/
def inboxSurface : Surface where
  state := {
    declaredKbs := [("notes".toList, KbSlug.notes)]
    accessPolicies := [("notes".toList, inboxPolicy)]
    events := false
    json := ⟨fun _ => .error "expected value at line 1 column 1", fun _ => []⟩
    parseUri := fun text =>
      if text ∈ ["/webdav/notes/b.md".toList, "/webdav/notes/.notedthat/manifest.json".toList] then
        some ⟨none, text⟩
      else none }
  resolve := fun _ => some (.signedIn (.user ⟨"ann".toList, []⟩))
  parseXml := fun _ => none
  dav := fun _ => .ret { status := 501 }

/-- COPY `a.md` to `b.md`. -/
def plainCopy : Request where
  method := "COPY"
  path := "/webdav/notes/a.md".toList
  headers := [("destination", Utf8.encode "/webdav/notes/b.md".toList)]
  body := { chunks := [] }

def plainPlan : CopyPlan where
  kb := KbSlug.notes
  source := ObjectPath.aMd
  destination := ObjectPath.bMd
  overwrite := true
  conditionals := {}
  ifHeader := none

/-- `a.md` is stored. -/
def secretNote : World := World.empty.apply (.stored plainPlan.srcKey (Version.tagged 's' [1]))

/-- COPY `a.md` onto the manifest. -/
def manifestCopy : Request :=
  { plainCopy with
    headers := [("destination", Utf8.encode "/webdav/notes/.notedthat/manifest.json".toList)] }

def manifestPlan : CopyPlan := { plainPlan with destination := KbManifest.path }

/-- What an accepted COPY does, without its checks on the way to the handler. -/
theorem serve_inbox {req : Request} {plan : CopyPlan} (hmethod : req.method = "COPY")
    (hauth : authorize inboxSurface req =
      .ok (.signedIn (.user ⟨"ann".toList, []⟩), .object KbSlug.notes ObjectPath.aMd, ⟨false, false⟩))
    (hplan : copyPlan inboxSurface.state req false = .ok plan) :
    serve inboxSurface req = performCopy inboxSurface.state plan false := by
  rw [@serve_copy _ _ _ _ _ false hauth hmethod, handleCopyOrMove, hplan]

/-- The copy stores `b.md`, which `ann` may not write, with the bytes of `a.md`, which `ann` may
not read; and the copy onto the manifest reads `a.md`, of which the answer says what is wrong. -/
theorem copy_not_mediated :
    (¬ Mediated inboxSurface plainCopy ((serve inboxSurface plainCopy).trace
      (World.alone (fun _ => .error "invalid HTTP-date") ⟨ETag.ofInner ['c'] (by decide), 1⟩) secretNote)) ∧
    ¬ Mediated inboxSurface manifestCopy ((serve inboxSurface manifestCopy).trace
      (World.alone (fun _ => .error "invalid HTTP-date") ⟨ETag.ofInner ['c'] (by decide), 1⟩) secretNote) := by
  constructor
  · intro hmediated
    have haccepted : AcceptedAt inboxSurface.state plainPlan secretNote (Version.tagged 's' [1]) :=
      ⟨⟨by decide, by decide, by decide⟩, by decide, .inl rfl⟩
    rw [@serve_inbox _ plainPlan rfl (by decide) (by decide)] at hmediated
    obtain ⟨principal, hresolve, hwrite, -⟩ :=
      hmediated _ (performCopy_copies haccepted false) trivial
    cases hresolve
    exact absurd hwrite (by unfold WebDavState.May; decide)
  · intro hmediated
    have hread : ReadAt inboxSurface.state manifestPlan secretNote (Version.tagged 's' [1]) :=
      ⟨⟨by decide, by decide, by decide⟩, by decide, by decide⟩
    rw [@serve_inbox _ manifestPlan rfl (by decide) (by decide)] at hmediated
    obtain ⟨principal, hresolve, hgranted⟩ := hmediated _ (performCopy_reads hread false) trivial
    cases hresolve
    exact absurd hgranted (by unfold Granted WebDavState.May; decide)

end Webdav
