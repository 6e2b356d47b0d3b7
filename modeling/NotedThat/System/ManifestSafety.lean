-- SUMMARY: In every interleaving of write requests, a manifest stored by one of them is valid.
import NotedThat.Lib.Pool
import NotedThat.Webdav.CopyMove
import NotedThat.Write.Specs

/-!
# Stored manifests are valid

Requests run side by side over one store, which other parties change as well. Whatever the
interleaving, what a request stored at the manifest key was validated. For the copy, whose bytes
the request never holds, this needs entity tags that identify bytes and never return.
-/

namespace ManifestSafety

open Prog (wp)
open Semantics (Event Quiet)

variable (json : ManifestJson)

/-- Every manifest the server stored is one of its knowledge base. -/
def ManifestsValid (s : Store) : Prop :=
  ∀ kb path v, ((kb, path), v) ∈ s.written → Manifest.isManifest path = true →
    Manifest.Valid json kb v.bytes

/-- The guarantee of every operation. -/
def Keeps (e : Event) : Prop :=
  ManifestsValid json e.pre.store → ManifestsValid json e.post.store

variable {json}

theorem quiet : Quiet Store.laterRely fun _ => Keeps json where
  rely := fun h => by
    simp only [Store.laterRely, h]
    exact Store.Later.refl _
  guarantee := fun _ e h => by
    simp only [Keeps, h]
    exact id

theorem ManifestsValid.stored {s : Store} {kb : KbSlug} {path : ObjectPath} {v : Version}
    (hs : ManifestsValid json s)
    (hv : Manifest.isManifest path = true → Manifest.Valid json kb v.bytes) :
    ManifestsValid json (s.apply (.stored (kb, path) v) true) := by
  intro kb' path' v' hmem hpath
  rcases List.mem_append.mp hmem with hmem | hmem
  · exact hs kb' path' v' hmem hpath
  · cases List.mem_singleton.mp hmem
    exact hv hpath

theorem ManifestsValid.erased {s : Store} {k : Key} (hs : ManifestsValid json s) :
    ManifestsValid json (s.apply (.erased k) true) := hs

/-! ## The requests -/

variable {S : Semantics} {h : List Event} {w : World}

/-- The weakest precondition used for the requests. -/
abbrev safe (json : ManifestJson) (S : Semantics) {α : Type} (p : Program α) (h : List Event)
    (w : World) : Prop :=
  wp S.Step Store.laterRely (fun _ => Keeps json) p (fun _ _ _ => True) h w

theorem safe_ret {α : Type} (a : α) : safe json S (.ret a) h w := fun _ _ => trivial

theorem safe_commit {sinks : WriteSinks} {kb : KbSlug} {path : ObjectPath} {body : StagedBody}
    {callerContentType : Option Text} {conditionals : ConditionalHeaders} :
    safe json S (Write.commit json sinks kb path body callerContentType conditionals) h w := by
  unfold Write.commit
  split
  · exact safe_ret _
  · split
    · exact safe_ret _
    · next hcheck =>
      refine Semantics.wp_put (fun w' e _ => ⟨id, safe_ret _⟩) fun w' stamp _ _ _ => ⟨?_, ?_⟩
      · exact fun hs => hs.stored fun hpath => Manifest.checkStagedManifest_valid hpath hcheck
      · apply wp.bind
        refine Write.wp_report quiet fun a h' w' _ _ => ?_
        cases a with
        | error e => exact safe_ret _
        | ok u => exact safe_ret _

theorem safe_commitDelete {sinks : WriteSinks} {kb : KbSlug} {path : ObjectPath}
    {conditionals : ConditionalHeaders} :
    safe json S (Write.commitDelete sinks kb path conditionals) h w :=
  Write.wp_commitDelete quiet (fun _ _ _ _ _ hs => hs.erased) fun _ _ _ _ => trivial

theorem safe_afterWrite {sinks : WriteSinks} {kb : KbSlug} {path : ObjectPath}
    {outcome : PutOutcome} {size : Nat} {mime : Text} {α : Type} {a : α} :
    safe json S (Write.afterWrite sinks kb path outcome size mime >>= fun reported =>
      match reported with
      | .error e => (.ret (.error e) : Program (Except WriteError α))
      | .ok () => .ret (.ok a)) h w := by
  apply wp.bind
  refine Write.wp_report quiet fun reported h' w' _ _ => ?_
  cases reported with
  | error e => exact safe_ret _
  | ok u => exact safe_ret _

/-! ## Rewrites -/

theorem wp_headAnchor {target : Write.CasRewrite}
    {Q : Except WriteError Text → List Event → World → Prop} (hQ : ∀ a h' w', Q a h' w') :
    wp S.Step Store.laterRely (fun _ => Keeps json) (Write.headAnchor target) Q h w := by
  refine Semantics.wp_head_quiet quiet fun r h' w' _ _ => ?_
  cases r with
  | error e => exact fun w'' _ => hQ _ _ _
  | ok m =>
    show wp _ _ _ (if _ then _ else _) Q h' w'
    split
    · exact fun w'' _ => hQ _ _ _
    · split
      · exact fun w'' _ => hQ _ _ _
      · split
        · exact fun w'' _ => hQ _ _ _
        · exact fun w'' _ => hQ _ _ _

theorem safe_casAttempt {T : Type} {sinks : WriteSinks} {target : Write.CasRewrite}
    {splice : Bytes → Except WriteError (Bytes × T)} {retries : Nat} :
    safe json S (Write.casAttempt json sinks target splice retries) h w := by
  refine Write.casAttempt_rule (P := fun p => ∀ h w, safe json S p h w) (fun _ _ _ => safe_ret _)
    (fun retries lost h w => ?_) retries h w
  unfold Write.casAttempt
  apply wp.bind
  refine wp_headAnchor fun anchor h w => ?_
  cases anchor with
  | error e => exact safe_ret _
  | ok headEtag =>
    refine Semantics.wp_get (fun w' e _ _ => ⟨id, lost e _ _⟩) fun w' v read _ _ _ _ => ⟨id, ?_⟩
    dsimp only
    split
    · exact safe_ret _
    · next newBytes extra _ =>
      split
      · exact safe_ret _
      · next hcheck =>
        refine Semantics.wp_put (fun w' e _ => ⟨id, lost e _ _⟩) fun w' stamp _ _ _ => ⟨?_, ?_⟩
        · exact fun hs => hs.stored fun hpath => Manifest.checkManifestBytes_valid hpath hcheck
        · exact safe_afterWrite

theorem safe_patch {sinks : WriteSinks} {request : Write.PatchRequest} :
    safe json S (Write.patch json sinks request) h w := by
  refine Write.patch_cases (P := fun p => safe json S p h w) (fun _ => safe_ret _)
    fun target splice => ?_
  apply wp.bind
  exact safe_casAttempt.mono fun a h w _ => safe_ret _

theorem safe_replace {sinks : WriteSinks} {request : Write.ReplaceRequest} :
    safe json S (Write.replace json sinks request) h w := by
  refine Write.replace_cases (P := fun p => safe json S p h w) (fun _ => safe_ret _)
    fun target splice => ?_
  apply wp.bind
  exact safe_casAttempt.mono fun a h w _ => safe_ret _

/-! ## Copies -/

open Store (Later)

/-- A copy pinned to the entity tag of an earlier HEAD. -/
theorem safe_commitCopy (hS : S.NoReturn) {sinks : WriteSinks} {kb : KbSlug}
    {source destination : ObjectPath} {options : CopyObjectOptions} {w₀ : World} {v₀ : Version}
    (hpin : options.sourceIfMatch = some v₀.etag.val) (hv₀ : w₀.get (kb, source) = some v₀)
    (hR₀ : Later w₀.store w.store) :
    safe json S (Write.commitCopy json sinks kb source destination options) h w := by
  refine Write.wp_commitCopy quiet hS.step (fun _ _ _ _ _ => trivial)
    fun h' w₂ v₂ stamp _ hR₂ hread hv₂ hmatch _ => ⟨fun hs => hs.stored fun hpath => ?_, ?_⟩
  · obtain ⟨w₁, v₁, h₁, h₁', hv₁, hvalid⟩ := hread hpath
    have hetag : v₂.etag = v₀.etag := by
      have := hmatch v₀.etag.val (Option.mem_def.mpr hpin)
      rwa [Preconditions.matchesIfMatch_etag] at this
    have hbytes : v₁.bytes = v₂.bytes := (hR₀.trans h₁).bytes_eq h₁' hv₀ hv₁ hv₂ hetag
    exact hbytes ▸ hvalid
  · exact fun _ _ _ _ _ => trivial

theorem safe_copyThenDelete (hS : S.NoReturn) {state : Webdav.WebDavState} {plan : Webdav.CopyPlan}
    {deleteSource : Bool} {contentType : Option Text} {w₀ : World} {v₀ : Version}
    (hjson : state.json = json) (hv₀ : w₀.get (plan.kb, plan.source) = some v₀)
    (hR₀ : Later w₀.store w.store) :
    safe json S (Webdav.copyThenDelete state plan deleteSource v₀.etag.val contentType) h w := by
  subst hjson
  apply wp.bind
  refine wp.mono (fun a h w _ => ?_) (safe_commitCopy hS rfl hv₀ hR₀)
  cases a with
  | error e => exact safe_ret _
  | ok outcome =>
    cases deleteSource with
    | false => exact safe_ret _
    | true =>
      apply wp.bind
      refine safe_commitDelete.mono fun a h w _ => ?_
      split
      · exact safe_ret _
      · exact safe_ret _
      · exact safe_ret _

theorem safe_handleCopyOrMove (hS : S.NoReturn) {state : Webdav.WebDavState} {req : Request}
    {deleteSource : Bool} (hjson : state.json = json) :
    safe json S (Webdav.handleCopyOrMove state req deleteSource) h w := by
  unfold Webdav.handleCopyOrMove
  split
  · exact safe_ret _
  · next plan _ =>
    refine Semantics.wp_head (fun w' e _ _ => ⟨id, safe_ret _⟩) fun w₀ v₀ _ hv₀ => ⟨id, ?_⟩
    dsimp only [Version.objectMeta]
    split
    · exact safe_ret _
    · apply wp.bind
      refine Webdav.wp_destinationEtag quiet fun dstEtag h' w' _ hR _ => ?_
      split
      · exact safe_ret _
      · exact safe_copyThenDelete hS hjson hv₀ hR

/-! ## Any interleaving -/

/-- The requests that write: their programs, for any arguments. -/
inductive IsRequest (json : ManifestJson) : Program Unit → Prop where
  | commit (sinks : WriteSinks) (kb : KbSlug) (path : ObjectPath) (body : StagedBody)
      (callerContentType : Option Text) (conditionals : ConditionalHeaders) :
      IsRequest json
        (Write.commit json sinks kb path body callerContentType conditionals).discard
  | patch (sinks : WriteSinks) (request : Write.PatchRequest) :
      IsRequest json (Write.patch json sinks request).discard
  | replace (sinks : WriteSinks) (request : Write.ReplaceRequest) :
      IsRequest json (Write.replace json sinks request).discard
  | copyOrMove (state : Webdav.WebDavState) (req : Request) (deleteSource : Bool)
      (hjson : state.json = json) :
      IsRequest json (Webdav.handleCopyOrMove state req deleteSource).discard
  | delete (sinks : WriteSinks) (kb : KbSlug) (path : ObjectPath)
      (conditionals : ConditionalHeaders) :
      IsRequest json (Write.commitDelete sinks kb path conditionals).discard

theorem IsRequest.safe (hS : S.NoReturn) {p : Program Unit} (hp : IsRequest json p) :
    safe json S p h w := by
  cases hp with
  | commit => exact safe_commit.discard
  | patch => exact safe_patch.discard
  | replace => exact safe_replace.discard
  | copyOrMove state req deleteSource hjson => exact (safe_handleCopyOrMove hS hjson).discard
  | delete => exact safe_commitDelete.discard

/-- Requests start at any time, and parties that do not go through the server change the store
as well. -/
def requests (json : ManifestJson) (S : Semantics) : Pool.System World Unit Op Op.Res where
  sem := S.Step
  env := S.Env false
  spawn := fun w _ p w' => w' = w ∧ IsRequest json p
  finish := fun w _ w' => w' = w

/-- Nothing has been stored through the server yet. -/
def Fresh (w : World) : Prop := w.store.written = []

theorem obligations (hS : S.NoReturn) :
    Pool.Obligations (requests json S) Fresh (fun w => ManifestsValid json w.store)
      Store.laterRely (Keeps json) where
  init := by
    intro w hw kb path v hmem
    rw [hw] at hmem
    cases hmem
  env := by
    intro w w' hI henv
    refine ⟨?_, hS.env henv⟩
    rcases henv with heq | ⟨effect, -, heq⟩
    · rw [heq]
      exact hI
    · rw [heq]
      cases effect with
      | unchanged => exact hI
      | stored k v => exact hI
      | erased k => exact hI
  spawn := by
    rintro w t p w' hI ⟨rfl, hp⟩
    exact ⟨hI, Store.Later.refl _, hp.safe hS⟩
  finish := by
    rintro w t w' hI rfl
    exact ⟨hI, Store.Later.refl _⟩
  rely := fun w o r w' hstep => hS.step hstep
  guarantee := fun w o r w' hI _ hG => hG hI

/-- In every reachable state of any interleaving of write requests, a manifest that one of them
stored is within the size limit and accepted by the validator of its knowledge base. -/
theorem stored_manifest_valid {json : ManifestJson} {S : Semantics} (hS : S.NoReturn)
    {P : Pool World Unit Op Op.Res} (hP : Pool.Reach (requests json S) Pool.anyStep Fresh P)
    {kb : KbSlug} {path : ObjectPath} {v : Version} (hpath : path.val = KbManifest.key)
    (hv : P.state.get (kb, path) = some v ∧ ((kb, path), v) ∈ P.state.store.written) :
    v.bytes.length ≤ Manifest.maxBytes ∧ Manifest.validateManifestBytes json kb v.bytes = .ok () :=
  (hP.proved (obligations hS)).1 kb path v hv.2 (by simpa [Manifest.isManifest] using hpath)

/-! ## A manifest that is stored -/

/-- A manifest document of `notes`. -/
def notesDocument : Bytes :=
  Utf8.encode ("\x7b\"notedthat_version\":\"0.13.0\",\"manifest_version\":1," ++
    "\"tenant_slug\":\"default\",\"kb_slug\":\"notes\",\"display_name\":\"Notes\"," ++
    "\"created_at\":0\x7d").toList

/-- `serde_json` on that document; every other text is refused. -/
def notesJson : ManifestJson where
  fromSlice bytes :=
    if bytes = notesDocument then
      .ok (KbManifest.newV1 TenantSlug.default KbSlug.notes "Notes".toList 0)
    else .error "expected value at line 1 column 1"
  toVecPretty _ := notesDocument

def notesVersion : Version where
  bytes := notesDocument
  contentType := some (Write.sniffContentType none KbManifest.path)
  etag := ETag.ofInner ['1'] (by decide)
  lastModified := 0

theorem notesDocument_valid : Manifest.Valid notesJson KbSlug.notes notesDocument := by
  have hlength : notesDocument.length ≤ Manifest.maxBytes := by
    rw [notesDocument, Utf8.length_encode_toList]
    decide +kernel
  have hparse : notesJson.fromSlice notesDocument =
      .ok (KbManifest.newV1 TenantSlug.default KbSlug.notes "Notes".toList 0) := by
    simp only [notesJson, if_true]
  exact ⟨hlength, Manifest.validateManifestBytes_eq_ok.mpr ⟨_, hparse, rfl, by decide⟩⟩

/-- A body that passes the checks is stored by its commit. -/
theorem reach_committed {bytes : Bytes} (etag : ETag)
    (hsize : Write.checkSize (StagedBody.mk bytes none).len Write.maxUploadBytes = .ok ())
    (hcheck : Manifest.checkStagedManifest json KbSlug.notes KbManifest.path ⟨bytes, none⟩ = .ok ()) :
    ∃ threads, Pool.Reach (requests json (.faultless Store.NoReturn)) Pool.anyStep Fresh
      ⟨World.empty.apply (.stored (KbSlug.notes, KbManifest.path)
        ⟨bytes, some (Write.sniffContentType none KbManifest.path), etag, 0⟩), threads⟩ := by
  have hinit : Pool.Reach (requests json (.faultless Store.NoReturn)) Pool.anyStep Fresh
      ⟨World.empty, []⟩ := .init rfl
  have hspawn := hinit.step (.spawn (t := ()) ⟨rfl, .commit ⟨false, .http⟩ KbSlug.notes
    KbManifest.path ⟨bytes, none⟩ none {}⟩) trivial
  simp only [Write.commit, hsize, hcheck] at hspawn
  have hstep : (Semantics.faultless Store.NoReturn).Step World.empty (.storage (.put KbSlug.notes KbManifest.path
      bytes (some (Write.sniffContentType none KbManifest.path)) {})) (.ok ⟨_, _⟩)
      (World.empty.apply (.stored (KbSlug.notes, KbManifest.path) _)) :=
    .storage (.put ..) ⟨etag, 0⟩ (.inr fun v hv => by cases hv)
  exact ⟨_, hspawn.step (Pool.Step.op_head hstep) trivial⟩

/-- A commit of the document is stored, and the stored manifest is valid. -/
theorem stored_manifest_valid_notes :
    ∃ P : Pool World Unit Op Op.Res,
      Pool.Reach (requests notesJson (.faultless Store.NoReturn)) Pool.anyStep Fresh P ∧
      P.state.get (KbSlug.notes, KbManifest.path) = some notesVersion ∧
      notesVersion.bytes.length ≤ Manifest.maxBytes ∧
      Manifest.validateManifestBytes notesJson KbSlug.notes notesVersion.bytes = .ok () := by
  have hsize : Write.checkSize (StagedBody.mk notesDocument none).len Write.maxUploadBytes =
      .ok () := by
    have hle : notesDocument.length ≤ Write.maxUploadBytes := notesDocument_valid.1.trans (by decide)
    rw [Write.checkSize, StagedBody.len, if_neg (Nat.not_lt.mpr hle)]
  obtain ⟨threads, hput⟩ :=
    reach_committed notesVersion.etag hsize (Manifest.checkStagedManifest_of_valid notesDocument_valid)
  have hget : (World.empty.apply (.stored (KbSlug.notes, KbManifest.path) notesVersion)).get
      (KbSlug.notes, KbManifest.path) = some notesVersion :=
    (Store.get_apply ..).trans (if_pos rfl)
  refine ⟨_, hput, hget, ?_⟩
  exact stored_manifest_valid (fun _ _ h => h) hput rfl
    ⟨hget, List.mem_append_right _ (List.mem_singleton.mpr rfl)⟩

end ManifestSafety
