-- SUMMARY: Startup provisioning of the declared knowledge bases, and which stored manifests the next start accepts.
import NotedThat.Lib.Prog
import NotedThat.Write.Manifest
import Mathlib.Logic.Function.Basic

/-!
# Provisioning

At startup the server reads every declared knowledge base's manifest, writes a fresh one where
there is none or another knowledge base's, validates it, checks its embedding against the
configured one, and publishes its access policy. What the backends answer is a parameter; the
manifest objects are the state.
-/

/-- Errors of collection provisioning and of the embedding cross-check. -/
inductive ProvisionError where
  | qdrant (kb : Text) (source : String)
  | manifestMismatch (kb manifestModel : Text) (manifestDim : Nat) (envModel : Text) (envDim : Nat)
deriving DecidableEq, Repr

def ProvisionError.display : ProvisionError → String
  | .qdrant kb source => "qdrant API error for kb=" ++ String.ofList kb ++ ": " ++ source
  | .manifestMismatch kb manifestModel manifestDim envModel envDim =>
    "manifest embedding mismatch for kb=" ++ String.ofList kb ++ ": manifest=" ++
      String.ofList manifestModel ++ "/" ++ toString manifestDim ++ " env=" ++
      String.ofList envModel ++ "/" ++ toString envDim

/-- The configuration a server runs with. Configuration loading refuses a repeated slug, and a
server that has started has checked its bucket names. -/
structure ServerConfig where
  tenant : TenantSlug
  kbs : List KbSlug
  embedderModel : Text
  embedderDim : Nat
  embedderEndpointHint : Option Text
  nodup : kbs.Nodup
  bucketNames : ∀ kb ∈ kbs, validateBucketName tenant kb = .ok ()

/-- What the storage and vector-store backends answer during one start: `readFault` is a read of
the manifest object that fails, `now` the clock. -/
structure Backend where
  ensureBucket : KbSlug → Except StorageError Unit
  readFault : KbSlug → Option String
  writeManifest : KbSlug → Except StorageError Unit
  collectionExists : KbSlug → Except String Bool
  createCollection : KbSlug → Nat → Except String Unit
  createPayloadIndex : KbSlug → Text → Except String Unit
  now : Int

/-- The manifest objects of the knowledge bases. -/
abbrev Manifests := KbSlug → Option Bytes

/-- The startup snapshot of the manifests. -/
structure ProvisionedKbs where
  accessPolicies : Text → Option AccessPolicy
  details : Text → Option KbDetails

namespace Provision

def ofStorage {α : Type} : Except StorageError α → Except Error α
  | .ok a => .ok a
  | .error e => .error (.storage e)

/-- The payload fields every collection is indexed by. -/
def payloadIndexes : List Text :=
  ["object_key".toList, "etag".toList, "mime".toList, "mtime".toList, "heading_path".toList,
    "tags".toList, "okf.type".toList]

def createPayloadIndexes (backend : Backend) (kb : KbSlug) : List Text → Except ProvisionError Unit
  | [] => .ok ()
  | field :: fields =>
    match backend.createPayloadIndex kb field with
    | .error e => .error (.qdrant kb.val e)
    | .ok () => createPayloadIndexes backend kb fields

def ensureCollection (backend : Backend) (kb : KbSlug) (denseDim : Nat) :
    Except ProvisionError Unit :=
  match backend.collectionExists kb with
  | .error e => .error (.qdrant kb.val e)
  | .ok found =>
    match if found then .ok () else backend.createCollection kb denseDim with
    | .error e => .error (.qdrant kb.val e)
    | .ok () => createPayloadIndexes backend kb payloadIndexes

/-- `none` when the manifest records no embedding yet, `some ()` when it records the configured
one. -/
def crossCheckManifest (manifest : KbManifest) (envModel : Text) (envDim : Nat) :
    Except ProvisionError (Option Unit) :=
  match manifest.embedding with
  | none => .ok none
  | some m =>
    if m.model = envModel ∧ m.dimensions = envDim then .ok (some ())
    else .error (.manifestMismatch manifest.kbSlug.val m.model m.dimensions envModel envDim)

def qdrantProvisionError (kb : KbSlug) (e : ProvisionError) : Error :=
  .config ("failed to provision the qdrant collection for knowledge base '" ++
    String.ofList kb.val ++ "' via NOTEDTHAT_QDRANT_URL (--qdrant-url): " ++ e.display)

variable (json : ManifestJson) (config : ServerConfig) (backend : Backend)

def manifestEmbeddingFromEnv : ManifestEmbedding :=
  ⟨config.embedderModel, config.embedderDim, config.embedderEndpointHint⟩

/-- `read_manifest` of the storage adapters: the document is parsed and validated on the way. -/
def readManifest (store : Manifests) (kb : KbSlug) : Except StorageError KbManifest :=
  let bucket := String.ofList (deriveBucketName config.tenant kb)
  match backend.readFault kb with
  | some message => .error (.backendUnavailable message)
  | none =>
    match store kb with
    | none => .error (.notFound KbManifest.key)
    | some bytes =>
      match json.fromSlice bytes with
      | .error e =>
        .error (.backendUnavailable ("deserializing the manifest for " ++ bucket ++ ": " ++ e))
      | .ok manifest =>
        match manifest.validate with
        | .error e =>
          .error (.backendUnavailable ("manifest validation failed for " ++ bucket ++ ": " ++
            e.display))
        | .ok () => .ok manifest

def writeManifest (store : Manifests) (kb : KbSlug) (manifest : KbManifest) :
    Except StorageError Manifests := do
  backend.writeManifest kb
  .ok (Function.update store kb (some (json.toVecPretty manifest)))

/-- Write the manifest of a knowledge base that has none of its own. -/
def writeFresh (store : Manifests) (kb : KbSlug) : Except Error (KbManifest × Manifests) := do
  let fresh := KbManifest.newV1 config.tenant kb kb.val backend.now
  let store ← ofStorage (writeManifest json backend store kb fresh)
  .ok (fresh, store)

/-- The manifest startup goes on with: the stored one if it names this knowledge base. -/
def loadManifest (store : Manifests) (kb : KbSlug) : Except Error (KbManifest × Manifests) :=
  match readManifest json config backend store kb with
  | .ok manifest =>
    if manifest.kbSlug.val = kb.val then .ok (manifest, store)
    else writeFresh json config backend store kb
  | .error e =>
    if e.isNotFound then writeFresh json config backend store kb else .error (.storage e)

/-- The manifest with the configured embedding recorded. -/
def withEnvEmbedding (manifest : KbManifest) : KbManifest :=
  { manifest with embedding := some (manifestEmbeddingFromEnv config) }

/-- Record the configured embedding the first time. -/
def recordEmbedding (store : Manifests) (kb : KbSlug) (manifest : KbManifest) :
    Option Unit → Except Error (KbManifest × Manifests)
  | some () => .ok (manifest, store)
  | none => do
    let manifest := withEnvEmbedding config manifest
    let store ← ofStorage (writeManifest json backend store kb manifest)
    .ok (manifest, store)

/-- One pass of the provisioning loop. -/
def provisionKb (store : Manifests) (kb : KbSlug) : Except Error (KbManifest × Manifests) := do
  validateBucketName config.tenant kb
  ofStorage (backend.ensureBucket kb)
  let (manifest, store) ← loadManifest json config backend store kb
  manifest.validate
  let recorded ←
    (crossCheckManifest manifest config.embedderModel config.embedderDim).mapError
      fun e => Error.config e.display
  (ensureCollection backend kb config.embedderDim).mapError (qdrantProvisionError kb)
  recordEmbedding json config backend store kb manifest recorded

def ProvisionedKbs.insert (snapshot : ProvisionedKbs) (kb : KbSlug) (manifest : KbManifest) :
    ProvisionedKbs where
  accessPolicies := Function.update snapshot.accessPolicies kb.val (some manifest.access)
  details := Function.update snapshot.details kb.val (some manifest.details)

/-- The provisioning loop. -/
def provisionLoop : ProvisionedKbs → List KbSlug → Manifests →
    Except Error (ProvisionedKbs × Manifests)
  | snapshot, [], store => .ok (snapshot, store)
  | snapshot, kb :: kbs, store => do
    let (manifest, store) ← provisionKb json config backend store kb
    provisionLoop (ProvisionedKbs.insert snapshot kb manifest) kbs store

def provisionKbs (store : Manifests) : Except Error (ProvisionedKbs × Manifests) :=
  provisionLoop json config backend ⟨fun _ => none, fun _ => none⟩ config.kbs store

/-! ## What one pass does -/

variable {json config backend} {store store' : Manifests} {kb kb' : KbSlug}

theorem ofStorage_eq_ok {α : Type} {x : Except StorageError α} {a : α} :
    ofStorage x = .ok a ↔ x = .ok a := by
  cases x <;> simp [ofStorage]

/-- The backend answers that a pass over a knowledge base depends on are all good. -/
structure BackendOk (config : ServerConfig) (backend : Backend) (kb : KbSlug) : Prop where
  bucketName : validateBucketName config.tenant kb = .ok ()
  ensureBucket : backend.ensureBucket kb = .ok ()
  readFault : backend.readFault kb = none
  writeManifest : backend.writeManifest kb = .ok ()
  ensureCollection : ensureCollection backend kb config.embedderDim = .ok ()

theorem writeManifest_eq_ok {manifest : KbManifest} :
    writeManifest json backend store kb manifest = .ok store' ↔
      backend.writeManifest kb = .ok () ∧
        store' = Function.update store kb (some (json.toVecPretty manifest)) := by
  simp only [writeManifest, Except.bind_eq_ok]
  constructor
  · rintro ⟨u, hw, heq⟩
    cases heq
    exact ⟨hw, rfl⟩
  · rintro ⟨hw, rfl⟩
    exact ⟨(), hw, rfl⟩

theorem provisionKb_eq_ok {r : KbManifest × Manifests} :
    provisionKb json config backend store kb = .ok r ↔
      validateBucketName config.tenant kb = .ok () ∧ backend.ensureBucket kb = .ok () ∧
      ∃ manifest st, loadManifest json config backend store kb = .ok (manifest, st) ∧
        manifest.validate = .ok () ∧
        ∃ recorded,
          crossCheckManifest manifest config.embedderModel config.embedderDim = .ok recorded ∧
          ensureCollection backend kb config.embedderDim = .ok () ∧
          recordEmbedding json config backend st kb manifest recorded = .ok r := by
  simp only [provisionKb, Except.bind_eq_ok, ofStorage_eq_ok, Except.mapError_eq_ok]
  constructor
  · rintro ⟨_, hname, _, hbucket, ⟨m, st⟩, hload, _, hvalid, recorded, hcross, _, hcoll, hrec⟩
    exact ⟨hname, hbucket, m, st, hload, hvalid, recorded, hcross, hcoll, hrec⟩
  · rintro ⟨hname, hbucket, m, st, hload, hvalid, recorded, hcross, hcoll, hrec⟩
    exact ⟨(), hname, (), hbucket, (m, st), hload, (), hvalid, recorded, hcross, (), hcoll, hrec⟩

theorem recordEmbedding_none {manifest : KbManifest} (hw : backend.writeManifest kb = .ok ()) :
    recordEmbedding json config backend store kb manifest none =
      .ok (withEnvEmbedding config manifest, Function.update store kb
        (some (json.toVecPretty (withEnvEmbedding config manifest)))) := by
  simp only [recordEmbedding, writeManifest_eq_ok.mpr ⟨hw, rfl⟩, ofStorage]
  rfl

theorem writeFresh_ok (hw : backend.writeManifest kb = .ok ()) :
    writeFresh json config backend store kb =
      .ok (KbManifest.newV1 config.tenant kb kb.val backend.now, Function.update store kb
        (some (json.toVecPretty (KbManifest.newV1 config.tenant kb kb.val backend.now)))) := by
  simp only [writeFresh, writeManifest_eq_ok.mpr ⟨hw, rfl⟩, ofStorage]
  rfl

theorem writeManifest_of_writeFresh {r : KbManifest × Manifests}
    (h : writeFresh json config backend store kb = .ok r) : backend.writeManifest kb = .ok () := by
  simp only [writeFresh, Except.bind_eq_ok, ofStorage_eq_ok, writeManifest_eq_ok] at h
  obtain ⟨_, ⟨hw, -⟩, -⟩ := h
  exact hw

/-- Without a manifest, a pass that succeeds used every backend successfully. -/
theorem backendOk_of_absent {r : KbManifest × Manifests} (habsent : store kb = none)
    (h : provisionKb json config backend store kb = .ok r) : BackendOk config backend kb := by
  obtain ⟨hname, hbucket, m, st, hload, -, recorded, -, hcoll, -⟩ := provisionKb_eq_ok.mp h
  unfold loadManifest readManifest at hload
  cases hfault : backend.readFault kb with
  | some message => simp [hfault, StorageError.isNotFound] at hload
  | none =>
    simp only [hfault, habsent, StorageError.isNotFound, if_true] at hload
    exact ⟨hname, hbucket, hfault, writeManifest_of_writeFresh hload, hcoll⟩

/-- A pass over a knowledge base that has no manifest writes a fresh one and goes on with it. -/
theorem provisionKb_absent (habsent : store kb = none) (hok : BackendOk config backend kb) :
    ∃ r, provisionKb json config backend store kb = .ok r := by
  have hload : loadManifest json config backend store kb =
      writeFresh json config backend store kb := by
    simp [loadManifest, readManifest, hok.readFault, habsent, StorageError.isNotFound]
  rw [writeFresh_ok hok.writeManifest] at hload
  exact ⟨_, provisionKb_eq_ok.mpr ⟨hok.bucketName, hok.ensureBucket, _, _, hload,
    KbManifest.validate_newV1 _ _ _, none, rfl, hok.ensureCollection,
    recordEmbedding_none hok.writeManifest⟩⟩

/-- The stored manifest of this knowledge base is the one startup goes on with. -/
theorem loadManifest_stored {bytes : Bytes} {manifest : KbManifest}
    (hfault : backend.readFault kb = none) (hstore : store kb = some bytes)
    (hparse : json.fromSlice bytes = .ok manifest) (hslug : manifest.kbSlug = kb)
    (hvalid : manifest.validate = .ok ()) :
    loadManifest json config backend store kb = .ok (manifest, store) := by
  simp [loadManifest, readManifest, hfault, hstore, hparse, hvalid, hslug]

/-- A pass over one knowledge base neither reads nor writes another one's manifest. -/
theorem provisionKb_frame {x : Option Bytes} {m : KbManifest} (hne : kb' ≠ kb)
    (h : provisionKb json config backend store kb' = .ok (m, store')) :
    provisionKb json config backend (Function.update store kb x) kb' =
      .ok (m, Function.update store' kb x) := by
  have hread : readManifest json config backend (Function.update store kb x) kb' =
      readManifest json config backend store kb' := by
    simp only [readManifest, Function.update_of_ne hne]
  have hwrite {st st' : Manifests} {manifest : KbManifest}
      (hw : writeManifest json backend st kb' manifest = .ok st') :
      writeManifest json backend (Function.update st kb x) kb' manifest =
        .ok (Function.update st' kb x) := by
    obtain ⟨hback, rfl⟩ := writeManifest_eq_ok.mp hw
    exact writeManifest_eq_ok.mpr ⟨hback, Function.update_comm hne _ _ _⟩
  have hfresh {manifest : KbManifest} {st : Manifests}
      (hw : writeFresh json config backend store kb' = .ok (manifest, st)) :
      writeFresh json config backend (Function.update store kb x) kb' =
        .ok (manifest, Function.update st kb x) := by
    simp only [writeFresh, Except.bind_eq_ok, ofStorage_eq_ok] at hw ⊢
    obtain ⟨st', hw, heq⟩ := hw
    cases heq
    exact ⟨_, hwrite hw, rfl⟩
  obtain ⟨hname, hbucket, manifest, st, hload, hvalid, recorded, hcross, hcoll, hrec⟩ :=
    provisionKb_eq_ok.mp h
  refine provisionKb_eq_ok.mpr ⟨hname, hbucket, manifest, Function.update st kb x, ?_, hvalid,
    recorded, hcross, hcoll, ?_⟩
  · unfold loadManifest at hload ⊢
    rw [hread]
    cases hr : readManifest json config backend store kb' with
    | ok manifest' =>
      simp only [hr] at hload ⊢
      split at hload
      · next hs => cases hload; simp [hs]
      · next hs => rw [if_neg hs]; exact hfresh hload
    | error e =>
      simp only [hr] at hload ⊢
      split at hload
      · next hs => rw [if_pos hs]; exact hfresh hload
      · cases hload
  · cases recorded with
    | some u => cases hrec; rfl
    | none =>
      simp only [recordEmbedding, Except.bind_eq_ok, ofStorage_eq_ok] at hrec ⊢
      obtain ⟨st', hw, heq⟩ := hrec
      cases heq
      exact ⟨_, hwrite hw, rfl⟩

/-- A pass over one knowledge base leaves another one's manifest as it was. -/
theorem provisionKb_store {m : KbManifest} (hne : kb' ≠ kb)
    (h : provisionKb json config backend store kb' = .ok (m, store')) : store' kb = store kb := by
  have hframe := provisionKb_frame (x := store kb) hne h
  rw [Function.update_eq_self, h, Except.ok.injEq, Prod.mk.injEq] at hframe
  rw [hframe.2, Function.update_self]

/-! ## The loop -/

variable {snapshot snapshot' : ProvisionedKbs} {kbs : List KbSlug}

theorem provisionLoop_cons {r : ProvisionedKbs × Manifests} :
    provisionLoop json config backend snapshot (kb :: kbs) store = .ok r ↔
      ∃ m st, provisionKb json config backend store kb = .ok (m, st) ∧
        provisionLoop json config backend (ProvisionedKbs.insert snapshot kb m) kbs st = .ok r := by
  simp only [provisionLoop, Except.bind_eq_ok, Prod.exists]

theorem provisionLoop_append {pre : List KbSlug} {r : ProvisionedKbs × Manifests} :
    provisionLoop json config backend snapshot (pre ++ kbs) store = .ok r ↔
      ∃ snap st, provisionLoop json config backend snapshot pre store = .ok (snap, st) ∧
        provisionLoop json config backend snap kbs st = .ok r := by
  induction pre generalizing snapshot store with
  | nil => simp [provisionLoop]
  | cons kb pre ih =>
    simp only [List.cons_append, provisionLoop_cons, ih]
    constructor
    · rintro ⟨m, st, hkb, snap, st', hpre, hrest⟩
      exact ⟨snap, st', ⟨m, st, hkb, hpre⟩, hrest⟩
    · rintro ⟨snap, st', ⟨m, st, hkb, hpre⟩, hrest⟩
      exact ⟨m, st, hkb, snap, st', hpre, hrest⟩

/-- The loop over other knowledge bases succeeds or fails whatever this one's manifest and the
snapshot so far, and leaves both as they were for this one. -/
theorem provisionLoop_frame (x : Option Bytes) (snap : ProvisionedKbs) (hkb : kb ∉ kbs)
    (h : provisionLoop json config backend snapshot kbs store = .ok (snapshot', store')) :
    ∃ snap', provisionLoop json config backend snap kbs (Function.update store kb x) =
        .ok (snap', Function.update store' kb x) ∧
      snap'.accessPolicies kb.val = snap.accessPolicies kb.val := by
  induction kbs generalizing snapshot store snap with
  | nil =>
    cases h
    exact ⟨snap, rfl, rfl⟩
  | cons kb' kbs ih =>
    simp only [List.mem_cons, not_or] at hkb
    obtain ⟨m, st, hpass, hrest⟩ := provisionLoop_cons.mp h
    obtain ⟨snap', hloop, hpolicy⟩ := ih (ProvisionedKbs.insert snap kb' m) hkb.2 hrest
    have hpass' := provisionKb_frame (x := x) (Ne.symm hkb.1) hpass
    refine ⟨snap', provisionLoop_cons.mpr ⟨m, _, hpass', hloop⟩, ?_⟩
    have hval : kb.val ≠ kb'.val := fun heq => hkb.1 (KbSlug.ext heq)
    rw [hpolicy]
    exact Function.update_of_ne hval _ _

/-- The loop over other knowledge bases leaves this one's manifest as it was. -/
theorem provisionLoop_store (hkb : kb ∉ kbs)
    (h : provisionLoop json config backend snapshot kbs store = .ok (snapshot', store')) :
    store' kb = store kb := by
  obtain ⟨snap', hloop, -⟩ := provisionLoop_frame (store kb) snapshot hkb h
  rw [Function.update_eq_self, h, Except.ok.injEq, Prod.mk.injEq] at hloop
  rw [hloop.2, Function.update_self]

/-- Without any manifest the loop writes fresh ones and succeeds if the backends do. -/
theorem provisionLoop_fresh (hnodup : kbs.Nodup) (hok : ∀ kb ∈ kbs, BackendOk config backend kb)
    (habsent : ∀ kb ∈ kbs, store kb = none) :
    ∃ r, provisionLoop json config backend snapshot kbs store = .ok r := by
  induction kbs generalizing snapshot store with
  | nil => exact ⟨_, rfl⟩
  | cons kb kbs ih =>
    obtain ⟨hkb, hnodup⟩ := List.nodup_cons.mp hnodup
    obtain ⟨⟨m, st⟩, hpass⟩ := provisionKb_absent (habsent kb List.mem_cons_self)
      (hok kb List.mem_cons_self)
    have habsent' : ∀ kb' ∈ kbs, st kb' = none := by
      intro kb' hkb'
      have hne : kb ≠ kb' := fun heq => hkb (heq ▸ hkb')
      rw [provisionKb_store hne hpass]
      exact habsent kb' (List.mem_cons_of_mem _ hkb')
    obtain ⟨r, hr⟩ := ih hnodup (fun kb' hkb' => hok kb' (List.mem_cons_of_mem _ hkb')) habsent'
    exact ⟨r, provisionLoop_cons.mpr ⟨m, st, hpass, hr⟩⟩

/-! ## What the next start makes of a stored manifest -/

/-- The next start accepts `bytes` as the manifest of `kb`: whenever the server would start
without this manifest, it starts with it, publishes the access policy the bytes describe, and
leaves the stored document in place, at most with the configured embedding recorded in it. -/
def AcceptedAtNextStart (json : ManifestJson) (config : ServerConfig) (kb : KbSlug)
    (bytes : Bytes) : Prop :=
  ∀ (backend : Backend) (store : Manifests),
    (∃ r, provisionKbs json config backend (Function.update store kb none) = .ok r) →
    ∃ manifest snapshot store', json.fromSlice bytes = .ok manifest ∧
      provisionKbs json config backend (Function.update store kb (some bytes)) =
        .ok (snapshot, store') ∧
      snapshot.accessPolicies kb.val = some manifest.access ∧
      (store' kb = some bytes ∨ manifest.embedding = none ∧
        store' kb = some (json.toVecPretty (withEnvEmbedding config manifest)))

/-- The manifest records no embedding, or the configured model and dimensions. -/
def EmbeddingAgrees (config : ServerConfig) (manifest : KbManifest) : Prop :=
  ∀ e ∈ manifest.embedding, e.model = config.embedderModel ∧ e.dimensions = config.embedderDim

theorem crossCheckManifest_ok_iff {manifest : KbManifest} :
    (∃ recorded, crossCheckManifest manifest config.embedderModel config.embedderDim =
      .ok recorded) ↔ EmbeddingAgrees config manifest := by
  unfold crossCheckManifest EmbeddingAgrees
  cases manifest.embedding with
  | none => simp
  | some e =>
    by_cases hag : e.model = config.embedderModel ∧ e.dimensions = config.embedderDim
    · simp [hag]
    · simp only [if_neg hag, reduceCtorEq, exists_false, Option.mem_some, forall_eq',
        false_iff]
      exact hag

/-- The pass over a knowledge base whose stored manifest is valid and agrees with the configured
embedding. -/
theorem provisionKb_stored {bytes : Bytes} {manifest : KbManifest}
    (hok : BackendOk config backend kb) (hstore : store kb = some bytes)
    (hparse : json.fromSlice bytes = .ok manifest) (hslug : manifest.kbSlug = kb)
    (hvalid : manifest.validate = .ok ()) (hagrees : EmbeddingAgrees config manifest) :
    ∃ m st, provisionKb json config backend store kb = .ok (m, st) ∧ m.access = manifest.access ∧
      (∃ x, st = Function.update store kb (some x)) ∧
      (st kb = some bytes ∨ manifest.embedding = none ∧
        st kb = some (json.toVecPretty (withEnvEmbedding config manifest))) := by
  have hload : loadManifest json config backend store kb = .ok (manifest, store) :=
    loadManifest_stored hok.readFault hstore hparse hslug hvalid
  obtain ⟨recorded, hcross⟩ := crossCheckManifest_ok_iff.mpr hagrees
  cases recorded with
  | some u =>
    refine ⟨manifest, store, ?_, rfl, ⟨bytes, ?_⟩, .inl hstore⟩
    · exact provisionKb_eq_ok.mpr ⟨hok.bucketName, hok.ensureBucket, manifest, store, hload,
        hvalid, some u, hcross, hok.ensureCollection, rfl⟩
    · rw [← hstore, Function.update_eq_self]
  | none =>
    have hembedding : manifest.embedding = none := by
      unfold crossCheckManifest at hcross
      cases he : manifest.embedding with
      | none => rfl
      | some e =>
        simp only [he] at hcross
        split at hcross <;> cases hcross
    refine ⟨withEnvEmbedding config manifest, _, ?_, rfl, ⟨_, rfl⟩,
      .inr ⟨hembedding, Function.update_self ..⟩⟩
    exact provisionKb_eq_ok.mpr ⟨hok.bucketName, hok.ensureBucket, manifest, store, hload,
      hvalid, none, hcross, hok.ensureCollection, recordEmbedding_none hok.writeManifest⟩

/-- Around its place in the declared list, a knowledge base does not occur again. -/
theorem exists_split (hkb : kb ∈ config.kbs) :
    ∃ pre post, config.kbs = pre ++ kb :: post ∧ kb ∉ pre ∧ kb ∉ post := by
  obtain ⟨pre, post, hkbs⟩ := List.append_of_mem hkb
  have hnodup := config.nodup
  rw [hkbs, List.nodup_append] at hnodup
  refine ⟨pre, post, hkbs, fun hmem => ?_, (List.nodup_cons.mp hnodup.2.1).1⟩
  exact hnodup.2.2 kb hmem kb List.mem_cons_self rfl

/-- A start where every backend answers well reaches the cross-check of the manifest. -/
theorem embeddingAgrees_of_accepted {bytes : Bytes} {manifest : KbManifest}
    (hkb : kb ∈ config.kbs) (hparse : json.fromSlice bytes = .ok manifest)
    (hslug : manifest.kbSlug = kb) (hvalid : manifest.validate = .ok ())
    (haccepted : AcceptedAtNextStart json config kb bytes) : EmbeddingAgrees config manifest := by
  obtain ⟨pre, post, hkbs, hkpre, -⟩ := exists_split hkb
  let backend : Backend := ⟨fun _ => .ok (), fun _ => none, fun _ => .ok (),
    fun _ => .ok true, fun _ _ => .ok (), fun _ _ => .ok (), 0⟩
  have hok : ∀ kb ∈ config.kbs, BackendOk config backend kb := fun kb hmem =>
    ⟨config.bucketNames kb hmem, rfl, rfl, rfl, rfl⟩
  have hstart : ∃ r, provisionKbs json config backend (Function.update (fun _ => none) kb none) =
      .ok r := by
    refine provisionLoop_fresh config.nodup hok fun kb' _ => ?_
    rw [Function.update_eq_self]
  obtain ⟨-, snapshot, store', -, hrun, -⟩ := haccepted backend _ hstart
  rw [provisionKbs, hkbs] at hrun
  obtain ⟨snap₁, st₁, hpre, hrest⟩ := provisionLoop_append.mp hrun
  obtain ⟨m₂, st₂, hpass, -⟩ := provisionLoop_cons.mp hrest
  have hstore : st₁ kb = some bytes := by
    rw [provisionLoop_store hkpre hpre, Function.update_self]
  obtain ⟨-, -, m, st, hload, -, recorded, hcross, -⟩ := provisionKb_eq_ok.mp hpass
  rw [loadManifest_stored rfl hstore hparse hslug hvalid] at hload
  cases hload
  exact crossCheckManifest_ok_iff.mp ⟨recorded, hcross⟩

theorem accepted_of_embeddingAgrees {bytes : Bytes} {manifest : KbManifest}
    (hkb : kb ∈ config.kbs) (hparse : json.fromSlice bytes = .ok manifest)
    (hslug : manifest.kbSlug = kb) (hvalid : manifest.validate = .ok ())
    (hagrees : EmbeddingAgrees config manifest) : AcceptedAtNextStart json config kb bytes := by
  intro backend store ⟨⟨snapshot₂, st₃⟩, hr⟩
  obtain ⟨pre, post, hkbs, hkpre, hkpost⟩ := exists_split hkb
  rw [provisionKbs, hkbs] at hr
  obtain ⟨snap₁, st₁, hpre, hrest⟩ := provisionLoop_append.mp hr
  obtain ⟨m₂, st₂, hpass, hpost⟩ := provisionLoop_cons.mp hrest
  have habsent : st₁ kb = none := by
    rw [provisionLoop_store hkpre hpre, Function.update_self]
  have hok := backendOk_of_absent habsent hpass
  obtain ⟨snap₁', hpre', -⟩ := provisionLoop_frame (some bytes) ⟨fun _ => none, fun _ => none⟩
    hkpre hpre
  rw [Function.update_idem] at hpre'
  obtain ⟨m, st, hpass', haccess, ⟨x, rfl⟩, hkept⟩ := provisionKb_stored hok
    (Function.update_self kb (some bytes) st₁) hparse hslug hvalid hagrees
  obtain ⟨snapshot₃, hpost', hpolicy⟩ := provisionLoop_frame (some x)
    (ProvisionedKbs.insert snap₁' kb m) hkpost hpost
  -- the two passes leave the same manifests for the other knowledge bases
  have hsame : Function.update st₂ kb (some x) =
      Function.update (Function.update st₁ kb (some bytes)) kb (some x) := by
    funext kb'
    by_cases hkb' : kb' = kb
    · rw [hkb', Function.update_self, Function.update_self]
    · simp only [Function.update_of_ne hkb']
      exact provisionKb_store (Ne.symm hkb') hpass
  rw [hsame] at hpost'
  refine ⟨manifest, snapshot₃, Function.update st₃ kb (some x), hparse, ?_, ?_, ?_⟩
  · rw [provisionKbs, hkbs]
    exact provisionLoop_append.mpr ⟨snap₁', _, hpre', provisionLoop_cons.mpr
      ⟨m, _, hpass', hpost'⟩⟩
  · rw [hpolicy, ← haccess]
    exact Function.update_self ..
  · rw [Function.update_self] at hkept ⊢
    exact hkept

/-- What the write path validated is accepted at the next start if and only if it agrees with the
configured embedding: the embedding is the one thing startup checks and the write path does
not. -/
theorem acceptedAtNextStart_iff {bytes : Bytes} {path : ObjectPath} (hkb : kb ∈ config.kbs)
    (hpath : Manifest.isManifest path = true)
    (hstored : Manifest.checkManifestBytes json kb path bytes = .ok ()) :
    AcceptedAtNextStart json config kb bytes ↔
      ∀ manifest, json.fromSlice bytes = .ok manifest → EmbeddingAgrees config manifest := by
  obtain ⟨manifest, hparse, hslug, hvalid⟩ :=
    Manifest.validateManifestBytes_eq_ok.mp (Manifest.checkManifestBytes_valid hpath hstored).2
  constructor
  · intro haccepted manifest' hparse'
    rw [hparse] at hparse'
    cases hparse'
    exact embeddingAgrees_of_accepted hkb hparse hslug hvalid haccepted
  · intro hagrees
    exact accepted_of_embeddingAgrees hkb hparse hslug hvalid (hagrees manifest hparse)

/-! ## A manifest with another embedding -/

/-- A manifest document of `notes` that records another embedding model. -/
def otherModelDocument : Bytes :=
  Utf8.encode ("\x7b\"notedthat_version\":\"0.13.0\",\"manifest_version\":1," ++
    "\"tenant_slug\":\"default\",\"kb_slug\":\"notes\",\"display_name\":\"Notes\"," ++
    "\"created_at\":0,\"embedding\":\x7b\"model\":\"other\",\"dimensions\":3\x7d\x7d").toList

/-- The manifest that document describes. -/
def otherModelManifest : KbManifest :=
  { KbManifest.newV1 TenantSlug.default KbSlug.notes "Notes".toList 0 with
    embedding := some ⟨"other".toList, 3, none⟩ }

/-- `serde_json` on the document above; every other text is refused. -/
def otherModelJson : ManifestJson where
  fromSlice bytes :=
    if bytes = otherModelDocument then .ok otherModelManifest
    else .error "expected value at line 1 column 1"
  toVecPretty _ := otherModelDocument

def notesConfig (model : Text) : ServerConfig where
  tenant := TenantSlug.default
  kbs := [KbSlug.notes]
  embedderModel := model
  embedderDim := 3
  embedderEndpointHint := none
  nodup := by decide
  bucketNames := by decide

theorem otherModelJson_fromSlice :
    otherModelJson.fromSlice otherModelDocument = .ok otherModelManifest := by
  simp only [otherModelJson, if_true]

theorem otherModelDocument_stored :
    Manifest.checkManifestBytes otherModelJson KbSlug.notes KbManifest.path otherModelDocument =
      .ok () := by
  have hlength : otherModelDocument.length ≤ Manifest.maxBytes := by
    rw [otherModelDocument, Utf8.length_encode_toList]
    decide +kernel
  exact Manifest.checkManifestBytes_of_valid ⟨hlength, Manifest.validateManifestBytes_eq_ok.mpr
    ⟨otherModelManifest, otherModelJson_fromSlice, rfl, by decide⟩⟩

/-- Accepted, because the configured embedding is the recorded one. -/
theorem acceptedAtNextStart_sameModel :
    AcceptedAtNextStart otherModelJson (notesConfig "other".toList) KbSlug.notes
      otherModelDocument := by
  refine (acceptedAtNextStart_iff (by decide) (by decide) otherModelDocument_stored).mpr ?_
  intro manifest hparse
  rw [otherModelJson_fromSlice, Except.ok.injEq] at hparse
  subst hparse
  simp [EmbeddingAgrees, otherModelManifest, notesConfig]

/-- The write path stores the document, and the next start refuses it. -/
theorem stored_not_acceptedAtNextStart :
    Manifest.checkManifestBytes otherModelJson KbSlug.notes KbManifest.path otherModelDocument =
        .ok () ∧
      ¬ AcceptedAtNextStart otherModelJson (notesConfig "test-model".toList) KbSlug.notes
        otherModelDocument := by
  refine ⟨otherModelDocument_stored, fun haccepted => ?_⟩
  have hagrees : EmbeddingAgrees (notesConfig "test-model".toList) otherModelManifest :=
    embeddingAgrees_of_accepted (by decide) otherModelJson_fromSlice rfl (by decide) haccepted
  exact absurd (hagrees _ rfl).1 (by decide)

end Provision
