-- SUMMARY: What the event of a write says of the version the write stored, among other clients.
import NotedThat.System.CopyConditions
import NotedThat.System.ManifestSafety

/-!
# The stamps of written events

A request that stores a version publishes its entity tag, size and content type. A PUT or a rewrite
has all three in hand. A copy gets only the tag back and asks for the rest by a HEAD that nothing
pins to the version it stored, so its event agrees with that version exactly when what the HEAD
found does.
-/

namespace EventStamps

open Prog (wp)
open Semantics (Event)
open ManifestSafety (IsRequest)

/-! ## Coherence -/

/-- The request stored `v` at `k`, and what it did since, `between`, left everything alone; after
anything but a copy it did nothing. -/
def LastStored (h : List Event) (k : Key) (v : Version) (between : List Event) : Prop :=
  ∃ before e, h = before ++ e :: between ∧ e.post = e.pre.apply (.stored k v) ∧
    (∀ x ∈ between, x.post = x.pre) ∧
    ((∀ source options, e.op ≠ .storage (.copy k.1 source k.2 options)) → between = [])

/-- A HEAD that found a version. -/
def HeadFound (e : Event) (k : Key) (v : Version) : Prop :=
  ∃ w : World, w.get k = some v ∧
    e = ⟨w, .storage (.head k.1 k.2 {}), .ok (v.objectMeta k.2 v.size), w⟩

/-- A HEAD that failed. -/
def HeadFailed (e : Event) (k : Key) : Prop :=
  ∃ w error, e = ⟨w, .storage (.head k.1 k.2 {}), .error error, w⟩

/-- The size and type of an event are those of the version that was stored; the size may be missing
if the HEAD after the store failed. -/
def Coherent (between : List Event) (k : Key) (v : Version) (size : Nat) (mime : Text) : Prop :=
  mime = v.contentType.getD [] ∧
    (size = v.size ∨ size = 0 ∧ ∃ x ∈ between, HeadFailed x k)

/-- What a HEAD found since the store has the size that was stored, and its type if it has one. -/
def Agrees (between : List Event) (k : Key) (v : Version) : Prop :=
  ∀ x ∈ between, ∀ v', HeadFound x k v' →
    v'.size = v.size ∧ v'.contentType.or v.contentType = v.contentType

/-- The guarantee of a request: its event names the tag of the version it stored last, and is
coherent exactly when the HEADs since then agree. -/
def Stamped (h : List Event) (e : Event) : Prop :=
  ∀ kb path etag size mime source,
    e.op = .publish ⟨kb, path, .written etag size mime, source⟩ →
      ∃ v between, LastStored h (kb, path) v between ∧ etag = v.etag.val ∧
        (Coherent between (kb, path) v size mime ↔ Agrees between (kb, path) v)

/-! ## Operations without an event of a write -/

/-- The operation publishes no write. -/
def Plain (o : Op) : Prop :=
  ∀ kb path etag size mime source, o ≠ .publish ⟨kb, path, .written etag size mime, source⟩

theorem Plain.stamped {h : List Event} {e : Event} (he : Plain e.op) : Stamped h e :=
  fun kb path etag size mime source hop => absurd hop (he kb path etag size mime source)

section Parts

open Prog (Only)

variable {sinks : WriteSinks}

theorem plain_storage (o : StorageOp) : Plain (.storage o) := by
  intro kb path etag size mime source h
  cases h

theorem plain_trySend (event : IndexEvent) : Plain (.trySend event) := by
  intro kb path etag size mime source h
  cases h

theorem offerToIndex_plain {indexEvent : IndexEvent} {backpressure : WriteError}
    {published : Except WriteError Unit} :
    (Write.offerToIndex indexEvent backpressure published).Only Plain fun _ => True := by
  refine Only.call (plain_trySend _) fun r => ?_
  cases r <;> trivial

theorem afterDelete_plain {kb : KbSlug} {path : ObjectPath} :
    (Write.afterDelete sinks kb path).Only Plain fun _ => True := by
  unfold Write.afterDelete Write.report Write.announce
  split
  · refine Only.bind (Only.call ?_ fun r => ?_)
    · intro kb' path' etag size mime source h
      cases h
    · cases r <;> exact offerToIndex_plain
  · exact offerToIndex_plain

theorem commitDelete_plain {kb : KbSlug} {path : ObjectPath} {c : ConditionalHeaders} :
    (Write.commitDelete sinks kb path c).Only Plain fun _ => True := by
  refine Only.call (plain_storage _) fun r => ?_
  split
  · exact afterDelete_plain
  · exact afterDelete_plain
  · trivial

theorem headAnchor_plain {target : Write.CasRewrite} :
    (Write.headAnchor target).Only Plain fun _ => True := by
  refine Only.call (plain_storage _) fun r => ?_
  cases r with
  | error e => trivial
  | ok m =>
    dsimp only
    split
    · trivial
    · split
      · trivial
      · split <;> trivial

theorem checkCopiedManifest_plain {json : ManifestJson} {kb : KbSlug}
    {source destination : ObjectPath} :
    (Write.checkCopiedManifest json kb source destination).Only Plain fun _ => True := by
  unfold Write.checkCopiedManifest
  split
  · trivial
  · refine Only.call (plain_storage _) fun r => ?_
    cases r with
    | error e => trivial
    | ok m =>
      dsimp only
      split
      · trivial
      · refine Only.call (plain_storage _) fun r => ?_
        cases r <;> trivial

theorem destinationEtag_plain {state : Webdav.WebDavState} {plan : Webdav.CopyPlan} :
    (Webdav.destinationEtag state plan).Only Plain fun _ => True := by
  unfold Webdav.destinationEtag
  split
  · trivial
  · refine Only.call (plain_storage _) fun r => ?_
    cases r <;> trivial

theorem deleteMoved_plain {state : Webdav.WebDavState} {plan : Webdav.CopyPlan} {sourceEtag : Text}
    {outcome : PutOutcome} :
    (Webdav.deleteMoved state plan sourceEtag outcome).Only Plain fun _ => True := by
  refine Only.andThen commitDelete_plain fun r => ?_
  split <;> trivial

end Parts

/-! ## The requests -/

/-- The weakest precondition used for the requests; other clients may do anything. -/
abbrev stamps (S : Semantics) {α : Type} (p : Program α) (h : List Event) (w : World) : Prop :=
  wp S.Step (Rely.any World) Stamped p (fun _ _ _ => True) h w

variable {S : Semantics} {h : List Event} {w : World} {json : ManifestJson} {sinks : WriteSinks}

theorem stamps_ret {α : Type} (a : α) : stamps S (.ret a) h w := fun _ _ => trivial

/-- A part without events of writes, and what follows it. -/
theorem stamps_andThen {α β : Type} {p : Program α} {f : α → Program β}
    (hp : p.Only Plain fun _ => True) (hf : ∀ a h w, stamps S (f a) h w) :
    stamps S (p.bind f) h w := by
  refine wp.bind (wp.of_only (fun _ _ => Plain.stamped) hp fun a t w _ _ => ?_)
  exact hf a _ w

theorem stamps_plain {α : Type} {p : Program α} (hp : p.Only Plain fun _ => True) :
    stamps S p h w := wp.of_only (fun _ _ => Plain.stamped) hp fun _ _ _ _ _ => trivial

/-- Reporting a write whose event is right. -/
theorem stamps_afterWrite {kb : KbSlug} {path : ObjectPath} {outcome : PutOutcome} {size : Nat}
    {mime : Text} {α : Type} {f : Except WriteError Unit → Program α}
    (hevent : sinks.events = true → ∃ v between, LastStored h (kb, path) v between ∧
      outcome.etag.getD [] = v.etag.val ∧
      (Coherent between (kb, path) v size mime ↔ Agrees between (kb, path) v))
    (herror : ∀ e h w, stamps S (f (.error e)) h w) (hok : ∀ h w, stamps S (f (.ok ())) h w) :
    stamps S ((Write.afterWrite sinks kb path outcome size mime).bind f) h w := by
  have hoffer : ∀ published h w, stamps S ((Write.offerToIndex (.upsert kb path)
      .indexerBackpressureUpsert published).bind f) h w := by
    intro published h w
    refine stamps_andThen offerToIndex_plain fun a h w => ?_
    cases a with
    | error e => exact herror e h w
    | ok u => exact hok h w
  unfold Write.afterWrite Write.report Write.announce
  split
  · next hevents =>
    intro w' _ r w'' _
    refine ⟨?_, ?_⟩
    · intro kb' path' etag size' mime' source hop
      cases hop
      exact hevent hevents
    · cases r <;> exact hoffer _ _ _
  · exact hoffer _ _ _

/-- An event published right after the store, with the size and type that were stored. -/
theorem coherent_stored {e : Event} {k : Key} {v : Version} {etag mime : Text} {size : Nat}
    (he : e.post = e.pre.apply (.stored k v)) (hetag : etag = v.etag.val) (hsize : size = v.size)
    (hmime : v.contentType = some mime) :
    ∃ v' between, LastStored (h ++ [e]) k v' between ∧ etag = v'.etag.val ∧
      (Coherent between k v' size mime ↔ Agrees between k v') := by
  refine ⟨v, [], ⟨h, e, rfl, he, by simp, fun _ => rfl⟩, hetag, fun _ => by simp [Agrees],
    fun _ => ?_⟩
  exact ⟨by simp [hmime], .inl hsize⟩

theorem stamps_commit {kb : KbSlug} {path : ObjectPath} {body : StagedBody}
    {callerContentType : Option Text} {conditionals : ConditionalHeaders} :
    stamps S (Write.commit json sinks kb path body callerContentType conditionals) h w := by
  unfold Write.commit
  split
  · exact stamps_ret _
  · split
    · exact stamps_ret _
    · refine Semantics.wp_put (fun w' e _ => ⟨(plain_storage _).stamped, stamps_ret _⟩)
        fun w' stamp _ _ _ => ⟨(plain_storage _).stamped, ?_⟩
      exact stamps_afterWrite (fun _ => coherent_stored rfl rfl rfl rfl)
        (fun _ _ _ => stamps_ret _) fun _ _ => stamps_ret _

/-! ## Rewrites -/

theorem stamps_casAttempt {T : Type} {target : Write.CasRewrite}
    {splice : Bytes → Except WriteError (Bytes × T)} {retries : Nat} :
    stamps S (Write.casAttempt json sinks target splice retries) h w := by
  refine Write.casAttempt_rule (P := fun p => ∀ h w, stamps S p h w) (fun _ _ _ => stamps_ret _)
    (fun retries lost h w => ?_) retries h w
  unfold Write.casAttempt
  refine stamps_andThen headAnchor_plain fun anchor h w => ?_
  cases anchor with
  | error e => exact stamps_ret _
  | ok headEtag =>
    refine Semantics.wp_get (fun w' e _ _ => ⟨(plain_storage _).stamped, lost e _ _⟩)
      fun w' v read _ _ _ _ => ⟨(plain_storage _).stamped, ?_⟩
    dsimp only
    split
    · exact stamps_ret _
    · split
      · exact stamps_ret _
      · refine Semantics.wp_put (fun w' e _ => ⟨(plain_storage _).stamped, lost e _ _⟩)
          fun w' stamp _ _ _ => ⟨(plain_storage _).stamped, ?_⟩
        exact stamps_afterWrite (fun _ => coherent_stored rfl rfl rfl rfl)
          (fun _ _ _ => stamps_ret _) fun _ _ => stamps_ret _

theorem stamps_patch {request : Write.PatchRequest} :
    stamps S (Write.patch json sinks request) h w := by
  refine Write.patch_cases (P := fun p => stamps S p h w) (fun _ => stamps_ret _)
    fun target splice => ?_
  apply wp.bind
  exact stamps_casAttempt.mono fun a h w _ => stamps_ret _

theorem stamps_replace {request : Write.ReplaceRequest} :
    stamps S (Write.replace json sinks request) h w := by
  refine Write.replace_cases (P := fun p => stamps S p h w) (fun _ => stamps_ret _)
    fun target splice => ?_
  apply wp.bind
  exact stamps_casAttempt.mono fun a h w _ => stamps_ret _

/-! ## Copies -/

theorem lastStored_head {e x : Event} {k : Key} {v : Version} {source : ObjectPath}
    {options : CopyObjectOptions} (hcopy : e.op = .storage (.copy k.1 source k.2 options))
    (he : e.post = e.pre.apply (.stored k v)) (hx : x.post = x.pre) :
    LastStored (h ++ [e] ++ [x]) k v [x] := by
  refine ⟨h, e, by simp, he, ?_, fun hother => absurd hcopy (hother source options)⟩
  intro y hy
  rw [List.mem_singleton.mp hy]
  exact hx

/-- The event of a copy whose type is given, stamped by a HEAD that found a version. -/
theorem coherent_iff_found {e x : Event} {k : Key} {v v' : Version} {mime : Text} {source : ObjectPath}
    {options : CopyObjectOptions} (hcopy : e.op = .storage (.copy k.1 source k.2 options))
    (he : e.post = e.pre.apply (.stored k v)) (hmime : v.contentType = some mime)
    (hx : HeadFound x k v') :
    ∃ u between, LastStored (h ++ [e] ++ [x]) k u between ∧ v.etag.val = u.etag.val ∧
      (Coherent between k u v'.size ((v'.contentType.or (some mime)).getD []) ↔
        Agrees between k u) := by
  obtain ⟨w', hv', rfl⟩ := hx
  refine ⟨v, _, lastStored_head hcopy he rfl, rfl, ?_⟩
  have hfailed : ¬ HeadFailed ⟨w', .storage (.head k.1 k.2 {}), .ok (v'.objectMeta k.2 v'.size),
      w'⟩ k := by
    rintro ⟨w'', error, heq⟩
    injection heq with _ _ hres
    cases hres
  have hfound : ∀ u, HeadFound ⟨w', .storage (.head k.1 k.2 {}),
      .ok (v'.objectMeta k.2 v'.size), w'⟩ k u ↔ u = v' := by
    intro u
    constructor
    · rintro ⟨w'', hu, heq⟩
      injection heq with hw
      subst hw
      exact Option.some.inj (hu.symm.trans hv')
    · rintro rfl
      exact ⟨w', hv', rfl⟩
  have htype : (v'.contentType.or (some mime)).getD [] = v.contentType.getD [] ↔
      v'.contentType.or v.contentType = v.contentType := by
    rw [hmime]
    cases v'.contentType with
    | none => simp
    | some mime' => simp
  simp only [Coherent, Agrees, List.mem_singleton, exists_eq_left, forall_eq, hfailed, and_false,
    or_false, hfound, htype]
  exact And.comm

theorem coherent_of_failed {e x : Event} {k : Key} {v : Version} {mime : Text} {source : ObjectPath}
    {options : CopyObjectOptions} (hcopy : e.op = .storage (.copy k.1 source k.2 options))
    (he : e.post = e.pre.apply (.stored k v)) (hmime : v.contentType = some mime)
    (hx : HeadFailed x k) :
    ∃ u between, LastStored (h ++ [e] ++ [x]) k u between ∧ v.etag.val = u.etag.val ∧
      (Coherent between k u 0 mime ↔ Agrees between k u) := by
  obtain ⟨w', error, rfl⟩ := hx
  refine ⟨v, _, lastStored_head hcopy he rfl, rfl, fun _ => ?_, fun _ => ?_⟩
  · rintro x hx v' ⟨w'', -, heq⟩
    rw [List.mem_singleton.mp hx] at heq
    injection heq with _ _ hres
    cases hres
  · exact ⟨by simp [hmime], .inr ⟨rfl, _, List.mem_singleton_self _, w', error, rfl⟩⟩

theorem stamps_commitCopy {kb : KbSlug} {source destination : ObjectPath}
    {options : CopyObjectOptions} {mime : Text} (hmime : options.contentType = some mime) :
    stamps S (Write.commitCopy json sinks kb source destination options) h w := by
  refine stamps_andThen checkCopiedManifest_plain fun checked h w => ?_
  cases checked with
  | error e => exact stamps_ret _
  | ok u =>
    refine Semantics.wp_copy (fun w' e _ => ⟨(plain_storage _).stamped, stamps_ret _⟩)
      fun w' v stamp _ _ _ _ _ => ⟨(plain_storage _).stamped, ?_⟩
    have htype : (StorageOp.copied v options stamp).contentType = some mime := by
      simp [StorageOp.copied, hmime]
    unfold Write.copyStamp
    cases hevents : sinks.events with
    | false =>
      refine stamps_afterWrite (fun h => ?_) (fun _ _ _ => stamps_ret _) fun _ _ => stamps_ret _
      rw [hevents] at h
      cases h
    | true =>
      refine Semantics.wp_head (fun w₁ e _ _ => ⟨(plain_storage _).stamped, ?_⟩)
        fun w₁ v₁ _ hv₁ => ⟨(plain_storage _).stamped, ?_⟩
      · refine stamps_afterWrite (fun _ => ?_) (fun _ _ _ => stamps_ret _) fun _ _ => stamps_ret _
        simp only [hmime, Option.getD_some]
        exact coherent_of_failed rfl rfl htype ⟨w₁, e, rfl⟩
      · refine stamps_afterWrite (fun _ => ?_) (fun _ _ _ => stamps_ret _) fun _ _ => stamps_ret _
        simp only [hmime, Option.getD_some]
        exact coherent_iff_found rfl rfl htype ⟨w₁, hv₁, rfl⟩

theorem stamps_handleCopyOrMove {state : Webdav.WebDavState} {req : Request}
    {deleteSource : Bool} :
    stamps S (Webdav.handleCopyOrMove state req deleteSource) h w := by
  unfold Webdav.handleCopyOrMove
  split
  · exact stamps_ret _
  · next plan _ =>
    refine Semantics.wp_head (fun w' e _ _ => ⟨(plain_storage _).stamped, stamps_ret _⟩)
      fun w₀ v₀ _ hv₀ => ⟨(plain_storage _).stamped, ?_⟩
    dsimp only [Version.objectMeta]
    split
    · exact stamps_ret _
    · refine stamps_andThen destinationEtag_plain fun dstEtag h w => ?_
      split
      · exact stamps_ret _
      · apply wp.bind
        refine (stamps_commitCopy rfl).mono fun a h w _ => ?_
        cases a with
        | error e => exact stamps_ret _
        | ok outcome =>
          cases deleteSource with
          | false => exact stamps_ret _
          | true => exact stamps_plain deleteMoved_plain

theorem IsRequest.stamps {p : Program Unit} (hp : IsRequest json p) : stamps S p h w := by
  cases hp with
  | commit => exact stamps_commit.discard
  | patch => exact stamps_patch.discard
  | replace => exact stamps_replace.discard
  | copyOrMove state req deleteSource hjson => exact stamps_handleCopyOrMove.discard
  | delete => exact (stamps_plain commitDelete_plain).discard

/-- Whatever other clients do, the event a request publishes for a write carries the entity tag of
the version it stored last, and its size and type are those of this version exactly when the HEAD
after a copy, if it was answered, found this size and this type or none. -/
theorem written_coherent_iff {json : ManifestJson} {S : Semantics} {others : World → World → Prop}
    {p : Program Unit} (hp : IsRequest json p) {w : World} {tr : List Event}
    (hrun : Prog.Traces S.Step others w p tr) {before after : List Event} {e : Event}
    (htr : tr = before ++ e :: after) {kb : KbSlug} {path : ObjectPath} {etag mime : Text}
    {size : Nat} {source : EventSource}
    (hop : e.op = .publish ⟨kb, path, .written etag size mime, source⟩) :
    ∃ v between, LastStored before (kb, path) v between ∧ etag = v.etag.val ∧
      (Coherent between (kb, path) v size mime ↔ Agrees between (kb, path) v) :=
  (IsRequest.stamps hp).traces hrun (fun _ _ _ => trivial) before e after htr kb path etag size
    mime source hop

/-! ## A destination that is replaced before the HEAD -/

/-- A server with the knowledge base `notes` and an event log. -/
def loggingState : Webdav.WebDavState :=
  { CopyConditions.notesState with events := true }

/-- COPY `a.md` over `b.md`. -/
def plainCopy : Request where
  method := "COPY"
  path := "/webdav/notes/a.md".toList
  headers := [("destination", Utf8.encode "/webdav/notes/b.md".toList)]
  body := { chunks := [] }

def plainPlan : Webdav.CopyPlan where
  kb := KbSlug.notes
  source := ObjectPath.aMd
  destination := ObjectPath.bMd
  overwrite := true
  conditionals := {}
  ifHeader := none

theorem copyPlan_plainCopy : Webdav.copyPlan loggingState plainCopy false = .ok plainPlan := by
  decide

open CopyConditions (twoNotes sourceVersion copyStamp identifyingSemantics Others)

def plainOptions : CopyObjectOptions :=
  plainPlan.copyOptions sourceVersion.etag.val sourceVersion.contentType

/-- The version the copy stores, and the world it leaves. -/
def copiedVersion : Version := StorageOp.copied sourceVersion plainOptions copyStamp

def copiedNotes : World := twoNotes.apply (.stored plainPlan.dstKey copiedVersion)

/-- Another client has replaced the copy. -/
def replacedVersion : Version := Version.tagged 'f' [7, 8, 9]

def replacedNotes : World := copiedNotes.apply (.stored plainPlan.dstKey replacedVersion)

/-- The request up to its HEAD of the destination, which finds `v` in `w`. -/
def copyHistory (w : World) (v : Version) : List Event :=
  [⟨twoNotes, .storage (.head KbSlug.notes ObjectPath.aMd {}),
      .ok (sourceVersion.objectMeta ObjectPath.aMd sourceVersion.size), twoNotes⟩,
    Write.copyEvent KbSlug.notes ObjectPath.aMd ObjectPath.bMd plainOptions twoNotes sourceVersion
      copyStamp,
    ⟨w, .storage (.head KbSlug.notes ObjectPath.bMd {}),
      .ok (v.objectMeta ObjectPath.bMd v.size), w⟩]

/-- The event it then publishes. -/
def copyWritten (v : Version) : ObjectEvent where
  kb := KbSlug.notes
  objectKey := ObjectPath.bMd
  kind := .written copiedVersion.etag.val v.size "text/markdown".toList
  source := .webdav

theorem plainCopy_run {w : World} {v : Version}
    (hothers : Others identifyingSemantics copiedNotes w) (hv : w.get plainPlan.dstKey = some v)
    (hmime : v.contentType = some "text/markdown".toList) :
    Prog.Traces identifyingSemantics.Step (Others identifyingSemantics) twoNotes
      (Webdav.handleCopyOrMove loggingState plainCopy false).discard
      (copyHistory w v ++ [⟨w, .publish (copyWritten v), .ok (),
        { w with events := w.events ++ [copyWritten v] }⟩]) := by
  have hnames : plainPlan.namesDestination loggingState = false := by decide
  have hholds : plainPlan.ifHolds loggingState sourceVersion.etag.val none = true := by
    decide
  have hplain : Manifest.isManifest plainPlan.destination = false := by decide
  simp only [Webdav.handleCopyOrMove, copyPlan_plainCopy]
  refine .step (.storage (.head KbSlug.notes ObjectPath.aMd {}) copyStamp trivial) ?_
  have hcopy : identifyingSemantics.Step twoNotes (.storage (.copy KbSlug.notes ObjectPath.aMd
      ObjectPath.bMd plainOptions))
      (.ok ⟨some copyStamp.etag.val, (twoNotes.get plainPlan.dstKey).isNone⟩) copiedNotes := by
    refine .copy (by decide) (fun expected hexpected => ?_) rfl
      (.of_history (by decide))
    cases hexpected
    exact (Preconditions.matchesIfMatch_etag _ _).mpr rfl
  have hhead : identifyingSemantics.Step w (.storage (.head KbSlug.notes ObjectPath.bMd {}))
      (.ok (v.objectMeta ObjectPath.bMd v.size)) w := by
    have heval : StorageOp.eval identifyingSemantics.parseHttpDate copyStamp w.store.objects
        (.head KbSlug.notes ObjectPath.bMd {}) =
        (.ok (v.objectMeta ObjectPath.bMd v.size), .unchanged) := by
      have hv' : w.store.objects.get (KbSlug.notes, ObjectPath.bMd) = some v := hv
      simp [StorageOp.eval, hv']
    exact .of_eval heval trivial
  simp only [Webdav.destinationEtag, hnames, Prog.pure_eq, Prog.bind_eq, Prog.ret_bind,
    Webdav.copyThenDelete, Write.commitCopy, Write.checkCopiedManifest, hplain, Version.objectMeta]
  refine .step hcopy (.disturb hothers (.step hhead ?_))
  simp only [Prog.pure_eq, Prog.ret_bind, hmime, Option.some_or, Option.getD_some,
    Write.afterWrite, Write.report, Write.announce]
  exact .step (.other (.publish (copyWritten v)) copyStamp (by simp)) .nil

/-- Only the copy changed the history, by the version it stored. -/
theorem LastStored.of_copyHistory {w : World} {u v : Version} {between : List Event}
    (h : LastStored (copyHistory w u) (KbSlug.notes, ObjectPath.bMd) v between) :
    v = copiedVersion ∧ ∀ x ∈ between, x ∈ copyHistory w u := by
  obtain ⟨before, e, heq, he, -, -⟩ := h
  have hhistory : e.post.store.history = e.pre.store.history ++
      [((KbSlug.notes, ObjectPath.bMd), v)] := by
    rw [he]
    rfl
  have hmem : e ∈ copyHistory w u := by
    rw [heq]
    simp
  refine ⟨?_, fun x hx => ?_⟩
  · simp only [copyHistory, List.mem_cons, List.not_mem_nil, or_false] at hmem
    rcases hmem with rfl | rfl | rfl
    · simp at hhistory
    · simp only [Write.copyEvent, World.apply_store, Store.apply] at hhistory
      have hv := List.append_cancel_left hhistory
      simp only [List.cons.injEq, Prod.mk.injEq, and_true] at hv
      exact hv.2.symm
    · simp at hhistory
  · rw [heq]
    simp [hx]

/-- The copy is replaced before its HEAD: the event carries the tag of the copy with the size of
another version. -/
theorem incoherent_copy : ∃ tr before e after,
    IsRequest loggingState.json
      (Webdav.handleCopyOrMove loggingState plainCopy false).discard ∧
    Prog.Traces identifyingSemantics.Step (Others identifyingSemantics) twoNotes
      (Webdav.handleCopyOrMove loggingState plainCopy false).discard tr ∧
    tr = before ++ e :: after ∧
    e.op = .publish ⟨KbSlug.notes, ObjectPath.bMd,
      .written copiedVersion.etag.val 3 "text/markdown".toList, .webdav⟩ ∧
    ¬ ∃ v between, LastStored before (KbSlug.notes, ObjectPath.bMd) v between ∧
      copiedVersion.etag.val = v.etag.val ∧
      Coherent between (KbSlug.notes, ObjectPath.bMd) v 3 "text/markdown".toList := by
  have hothers : Others identifyingSemantics copiedNotes replacedNotes :=
    ⟨true, .inr ⟨.stored plainPlan.dstKey replacedVersion,
      Store.IdentifiesBy.of_history (by decide), rfl⟩⟩
  have hrun := plainCopy_run hothers (v := replacedVersion) (by decide) rfl
  refine ⟨_, copyHistory replacedNotes replacedVersion, _, [], .copyOrMove _ _ _ rfl, hrun, rfl,
    rfl, ?_⟩
  rintro ⟨v, between, hlast, -, -, hsize⟩
  rw [hlast.of_copyHistory.1] at hsize
  rcases hsize with hsize | ⟨hzero, -⟩
  · exact absurd hsize (by decide)
  · cases hzero

/-- Left alone, the same copy publishes the size and the type of what it stored. -/
theorem written_coherent_iff_plainCopy : ∃ v between,
    LastStored (copyHistory copiedNotes copiedVersion) (KbSlug.notes, ObjectPath.bMd) v between ∧
    copiedVersion.etag.val = v.etag.val ∧
    Coherent between (KbSlug.notes, ObjectPath.bMd) v 1 "text/markdown".toList := by
  have hrun := plainCopy_run ⟨true, .inl rfl⟩ (v := copiedVersion) (by decide) rfl
  obtain ⟨v, between, hlast, -, hiff⟩ :=
    written_coherent_iff (.copyOrMove _ _ _ rfl) hrun rfl rfl
  obtain ⟨rfl, hsub⟩ := hlast.of_copyHistory
  refine ⟨copiedVersion, between, hlast, rfl, hiff.mpr ?_⟩
  rintro x hx v' ⟨w, hget, rfl⟩
  have hmem := hsub _ hx
  simp only [copyHistory, List.mem_cons, List.not_mem_nil, or_false] at hmem
  rcases hmem with heq | heq | heq
  · cases heq
  · cases heq
  · -- the HEAD of the destination found what the copy had stored
    cases congrArg Prog.Event.pre heq
    cases hget
    exact ⟨rfl, rfl⟩

end EventStamps
