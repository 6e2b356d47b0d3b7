-- SUMMARY: The COPY and MOVE handler: the checks it makes on the request, then its storage operations.
import NotedThat.Core.Laws
import NotedThat.Webdav.Request

/-!
# COPY and MOVE

The handler first reads the request (`copyPlan`, no storage involved), then looks the source up,
judges the preconditions and performs the copy and, for MOVE, the delete (`performCopy`).
-/

namespace Webdav

def copyRetry : Retry where
  queueFull := "destination write succeeded but destination index event failed. Retry COPY to re-enqueue destination index event."
  publishFailed := "destination copied; its change event not published. Retry COPY to publish."

def moveDestRetry : Retry where
  queueFull := "destination write succeeded but destination index event failed; source unchanged. Retry MOVE to re-enqueue destination index event."
  publishFailed := "destination copied; its change event not published; source unchanged. Retry MOVE to publish."

def moveSourceRetry : Retry where
  queueFull := "destination write succeeded and source deleted from storage, but source search-index tombstone failed — search may return stale entries for the source path until retry or reindex. Send DELETE for the source to re-enqueue its tombstone — DELETE of a missing key is idempotent and still enqueues, whereas a retried MOVE would find no source."
  publishFailed := "destination copied and source deleted; the source's change event not published. Send DELETE for the source to publish it — DELETE of a missing key is idempotent and still publishes, whereas a retried MOVE would find no source."

/-! ## Reading the request -/

/-- A COPY or MOVE that passed the checks on its headers and paths. -/
structure CopyPlan where
  kb : KbSlug
  source : ObjectPath
  destination : ObjectPath
  overwrite : Bool
  conditionals : ConditionalHeaders
  ifHeader : Option IfHeader
deriving DecidableEq

/-- Whether the `If` resource tag `tag` names `k`. -/
def sameObject (state : WebDavState) (tag : Text) (k : Key) : Bool :=
  match state.parseUri tag with
  | none => false
  | some uri =>
    match parseWebdavUriPath uri.path state.declaredKbs with
    | none => false
    | some target =>
      match objectTargetOrCollectionError target with
      | .error _ => false
      | .ok named => named = k

/-- The `Overwrite` header, which defaults to `T`. -/
def parseOverwrite (headers : HeaderMap) : Option Bool :=
  match headers.single "overwrite" with
  | some none => some true
  | some (some ['T']) => some true
  | some (some ['F']) => some false
  | some (some _) => none
  | none => none

/-- The host part of a `host:port`. -/
def bareHost (host : Text) : Text := host.takeWhile (· ≠ ':')

/-- The destination URI: well formed, and on this server. -/
def parseDestination (state : WebDavState) (req : Request) (destHeader : Text) :
    Except Response Uri :=
  if '#' ∈ destHeader then .error { status := 400 }
  else
    match state.parseUri destHeader with
    | none => .error { status := 400 }
    | some uri =>
      let reqHost := (req.headers.getStr "host").getD []
      match uri.authority.filter fun authority =>
          Text.toAsciiLowercase (bareHost reqHost) ≠
            Text.toAsciiLowercase (bareHost authority) with
      | some _ => .error { status := 502, body := davErrorBody "destination-different-server" }
      | none => .ok uri

/-- The two keys of the request. -/
def copyTargets (state : WebDavState) (req : Request) (destUri : Uri) :
    Except Response (Key × Key) :=
  match parseWebdavUriPath req.path state.declaredKbs,
      parseWebdavUriPath destUri.path state.declaredKbs with
  | some srcTarget, some dstTarget =>
    match objectTargetOrCollectionError srcTarget with
    | .error e => .error e.intoResponse
    | .ok src =>
      match objectTargetOrCollectionError dstTarget with
      | .error e => .error e.intoResponse
      | .ok dst => .ok (src, dst)
  | _, _ => .error { status := 400 }

/-- Everything the handler checks before it looks at storage. -/
def copyPlan (state : WebDavState) (req : Request) (deleteSource : Bool) :
    Except Response CopyPlan :=
  match req.headers.single "destination" with
  | none => .error { status := 400 }
  | some none => .error { status := 400 }
  | some (some destHeader) =>
    match parseOverwrite req.headers with
    | none => .error { status := 400 }
    | some overwrite => do
      let destUri ← parseDestination state req destHeader
      let (src, dst) ← copyTargets state req destUri
      -- only the destination: an object stored under a reserved key can be moved away from it
      if dst.2.isReserved then .error { status := 400 }
      else if src.1 ≠ dst.1 then
        .error { status := 403, body := davErrorBody "cannot-modify-source" }
      else if src.2 = dst.2 then
        let condition := if deleteSource then "cannot-move-resource" else "cannot-copy-resource"
        .error { status := 403, body := davErrorBody condition }
      else
        match IfHeader.fromHeaders req.headers with
        | none => .error { status := 400 }
        | some ifHeader =>
          .ok ⟨src.1, src.2, dst.2, overwrite, ConditionalHeaders.fromHeaderMap req.headers,
            ifHeader⟩

/-- The plan of a request is read from its path and its headers. -/
structure CopyPlan.Of (state : WebDavState) (req : Request) (plan : CopyPlan) : Prop where
  source : parseWebdavUriPath req.path state.declaredKbs = some (.object plan.kb plan.source)
  overwrite : parseOverwrite req.headers = some plan.overwrite
  conditionals : plan.conditionals = ConditionalHeaders.fromHeaderMap req.headers
  ifHeader : IfHeader.fromHeaders req.headers = some plan.ifHeader

/-- The key a COPY or MOVE acts on is the one its path names. -/
theorem copyTargets_source {state : WebDavState} {req : Request} {destUri : Uri} {src dst : Key}
    (h : copyTargets state req destUri = .ok (src, dst)) :
    parseWebdavUriPath req.path state.declaredKbs = some (.object src.1 src.2) := by
  unfold copyTargets at h
  split at h
  · next srcTarget dstTarget hparse _ =>
    split at h
    · cases h
    · next src' hsrc =>
      split at h
      · cases h
      · cases h
        rw [hparse, objectTargetOrCollectionError_eq_ok.mp hsrc]
  · cases h

theorem copyPlan_of {state : WebDavState} {req : Request} {deleteSource : Bool} {plan : CopyPlan}
    (h : copyPlan state req deleteSource = .ok plan) : plan.Of state req := by
  unfold copyPlan at h
  split at h
  · cases h
  · cases h
  · split at h
    · cases h
    · next overwrite hoverwrite =>
      obtain ⟨destUri, -, h⟩ := Except.bind_eq_ok.mp h
      obtain ⟨⟨src, dst⟩, htargets, h⟩ := Except.bind_eq_ok.mp h
      dsimp only at h
      split at h
      · cases h
      · split at h
        · cases h
        · split at h
          · cases h
          · split at h
            · cases h
            · next ifHeader hif =>
              cases h
              exact ⟨copyTargets_source htargets, hoverwrite, rfl, hif⟩

namespace CopyPlan

variable (plan : CopyPlan)

def srcKey : Key := (plan.kb, plan.source)

def dstKey : Key := (plan.kb, plan.destination)

/-- Whether a tagged `If` list names the destination. -/
def namesDestination (state : WebDavState) : Bool :=
  plan.ifHeader.any fun header =>
    header.resources.any fun resource => sameObject state resource plan.dstKey

/-- What the `If` header reads for a resource, given the two entity tags. -/
def currentEtag (state : WebDavState) (sourceEtag : Text) (dstEtag : Option Text) :
    Option Text → Option Text
  | none => some sourceEtag
  | some tag =>
    if sameObject state tag plan.srcKey then some sourceEtag
    else if sameObject state tag plan.dstKey then dstEtag
    -- any other resource is none this request touches
    else none

/-- Whether the `If` header holds, given the two entity tags. -/
def ifHolds (state : WebDavState) (sourceEtag : Text) (dstEtag : Option Text) : Bool :=
  plan.ifHeader.all fun header => header.evaluate (plan.currentEtag state sourceEtag dstEtag)

/-- The destination's entity tag matters only where a tagged list names the destination. -/
theorem ifHolds_congr {plan : CopyPlan} {state : WebDavState} {sourceEtag : Text}
    {a b : Option Text} (h : plan.namesDestination state = true → a = b) :
    plan.ifHolds state sourceEtag a = plan.ifHolds state sourceEtag b := by
  unfold ifHolds
  cases hheader : plan.ifHeader with
  | none => rfl
  | some header =>
    simp only [Option.all_some]
    refine IfHeader.evaluate_congr fun list hlist => ?_
    cases hresource : list.resource with
    | none => rfl
    | some tag =>
      simp only [currentEtag]
      split
      · rfl
      · split
        · next hdst =>
          refine h ?_
          simp only [namesDestination, hheader, Option.any_some, List.any_eq_true]
          exact ⟨tag, List.mem_filterMap.mpr ⟨list, hlist, hresource⟩, hdst⟩
        · rfl

/-- The options of the conditional copy. -/
def copyOptions (sourceEtag : Text) (contentType : Option Text) : CopyObjectOptions where
  sourceIfMatch := some sourceEtag
  destinationIfNoneMatch := if plan.overwrite then none else some ['*']
  contentType := some (Write.sniffContentType contentType plan.destination)

end CopyPlan

/-! ## Storage operations -/

/-- The destination is looked up only when a tagged `If` list names it. -/
def destinationEtag (state : WebDavState) (plan : CopyPlan) : Program (Option Text) := do
  if !plan.namesDestination state then return none
  match ← Program.storage (.head plan.kb plan.destination {}) with
  | .ok objectMeta => return some (objectMeta.etag.getD [])
  | .error _ => return none

/-- What the lookup of the destination in `h` says when it answered `etag`. -/
def DestinationRead (S : Semantics) (state : WebDavState) (plan : CopyPlan)
    (h : List Semantics.Event) (etag : Option Text) : Prop :=
  plan.namesDestination state = true → ∃ w : World,
    (∃ v, w.get plan.dstKey = some v ∧ etag = some v.etag.val ∧
      ⟨w, .storage (.head plan.kb plan.destination {}), .ok (v.objectMeta plan.destination v.size),
        w⟩ ∈ h) ∨
    ∃ e, S.Step w (.storage (.head plan.kb plan.destination {})) (.error e) w ∧ etag = none ∧
      ⟨w, .storage (.head plan.kb plan.destination {}), .error e, w⟩ ∈ h

theorem DestinationRead.mono {S : Semantics} {state : WebDavState} {plan : CopyPlan}
    {h h' : List Semantics.Event} {etag : Option Text} (hread : DestinationRead S state plan h etag)
    (hh : h <+: h') : DestinationRead S state plan h' etag := by
  intro hnames
  obtain ⟨w, ⟨v, hv, hetag, hmem⟩ | ⟨e, hstep, hetag, hmem⟩⟩ := hread hnames
  · exact ⟨w, .inl ⟨v, hv, hetag, hh.subset hmem⟩⟩
  · exact ⟨w, .inr ⟨e, hstep, hetag, hh.subset hmem⟩⟩

theorem wp_destinationEtag {S : Semantics} {R : Rely World}
    {G : List Semantics.Event → Semantics.Event → Prop} (hq : Semantics.Quiet R G)
    {state : WebDavState} {plan : CopyPlan} {h : List Semantics.Event} {w : World}
    {Q : Option Text → List Semantics.Event → World → Prop}
    (hQ : ∀ etag h' w', h <+: h' → R.rel w w' → DestinationRead S state plan h' etag →
      Q etag h' w') :
    Prog.wp S.Step R G (destinationEtag state plan) Q h w := by
  unfold destinationEtag
  split
  · next hnames =>
    refine fun w' hR => hQ _ _ _ List.prefix_rfl hR fun hnames' => ?_
    rw [hnames'] at hnames
    cases hnames
  · refine Semantics.wp_head
      (fun w' e hR hstep => ⟨hq.guarantee _ _ rfl, fun w'' hR' => ?_⟩)
      fun w' v hR hv => ⟨hq.guarantee _ _ rfl, fun w'' hR' => ?_⟩
    · refine hQ _ _ _ (List.prefix_append _ _) (R.trans hR hR') fun _ => ⟨w', .inr ⟨e, hstep, rfl, ?_⟩⟩
      exact List.mem_append_right _ (List.mem_singleton.mpr rfl)
    · refine hQ _ _ _ (List.prefix_append _ _) (R.trans hR hR') fun _ => ⟨w', .inl ⟨v, hv, rfl, ?_⟩⟩
      exact List.mem_append_right _ (List.mem_singleton.mpr rfl)

def copyResponse (outcome : PutOutcome) : Response :=
  responseWithOptionalEtag (if outcome.created then 201 else 204) outcome.etag

/-- The delete of a MOVE, pinned to the copied version. -/
def deleteMoved (state : WebDavState) (plan : CopyPlan) (sourceEtag : Text)
    (outcome : PutOutcome) : Program Response := do
  match ← Write.commitDelete state.sinks plan.kb plan.source (.ofIfMatch sourceEtag) with
  | .ok () => return copyResponse outcome
  | .error (.storage .preconditionFailed) => return {
      status := 412
      body := "MOVE partially completed: destination copied and queued for indexing; source changed before deletion and was not deleted.".toList }
  | .error e => return writeErrorResponse e moveSourceRetry

/-- The copy and, for MOVE, the delete, both pinned to the source's entity tag. -/
def copyThenDelete (state : WebDavState) (plan : CopyPlan) (deleteSource : Bool)
    (sourceEtag : Text) (contentType : Option Text) : Program Response := do
  match ← Write.commitCopy state.json state.sinks plan.kb plan.source plan.destination
      (plan.copyOptions sourceEtag contentType) with
  | .error e => return writeErrorResponse e (if deleteSource then moveDestRetry else copyRetry)
  | .ok outcome =>
    if deleteSource then deleteMoved state plan sourceEtag outcome
    else return copyResponse outcome

/-- Judge the preconditions against the source's HEAD, then copy. -/
def performCopy (state : WebDavState) (plan : CopyPlan) (deleteSource : Bool) :
    Program Response := do
  match ← Program.storage (.head plan.kb plan.source {}) with
  | .error e => return { status := storageStatus e }
  | .ok srcMeta =>
    match srcMeta.etag with
    | none => return { status := 500 }
    | some sourceEtag =>
      match Preconditions.evaluateWritePreconditions (some sourceEtag) plan.conditionals with
      | .error _ => return { status := 412 }
      | .ok () =>
        let dstEtag ← destinationEtag state plan
        if !plan.ifHolds state sourceEtag dstEtag then return { status := 412 }
        else copyThenDelete state plan deleteSource sourceEtag srcMeta.contentType

def handleCopyOrMove (state : WebDavState) (req : Request) (deleteSource : Bool) :
    Program Response :=
  match copyPlan state req deleteSource with
  | .error response => return response
  | .ok plan => performCopy state plan deleteSource

def handleMove (state : WebDavState) (req : Request) : Program Response :=
  handleCopyOrMove state req true

def handleCopy (state : WebDavState) (req : Request) : Program Response :=
  handleCopyOrMove state req false

end Webdav
