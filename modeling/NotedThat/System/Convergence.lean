-- SUMMARY: Once everything is handled, the index holds the chunks of every current version, whatever the interleaving of requests and handlers.
import NotedThat.System.Server

/-!
# Search converges with storage

Events of one key may be queued in another order than their changes were made, and a handling may
meet a version its event was not queued for. The index is right all the same once nothing is left
to do: a change that a handling missed has an event that is still due. No property of entity tags
is needed, since the event of a write is never skipped.
-/

namespace Convergence

open Prog (wp)
open Semantics (Event)
open Indexer
open Server

/-! ## What the index should hold of a key -/

/-- The version is of a kind the index holds: its key is not reserved, its type is indexable, and
it is not empty. -/
def Searchable (k : Key) (v : Version) : Prop :=
  k.2.isReserved = false ∧ isIndexable (resolveMime v.contentType k.2) = true ∧ v.size ≠ 0

section Right

variable (worker : IndexerWorker) (k : Key) (w : World)

/-- The index is right about `k`: it holds the chunks of the current version, and nothing where
there are none. About a version the pipeline refuses, nothing is said. -/
structure Right : Prop where
  present : ∀ v chunks, w.get k = some v → Searchable k v → Yields worker k.2 v.bytes chunks →
    chunks ≠ [] → IsChunkSet (w.points k) chunks v.etag.val
  absent : (∀ v, w.get k = some v → Searchable k v → Yields worker k.2 v.bytes []) →
    (w.points k).points = []

/-- If the points carry the tag of the current version, the index is right about `k`. -/
def Trust : Prop :=
  ∀ v, w.get k = some v → (w.points k).indexedEtag = some v.etag.val → Right worker k w

end Right

/-- What others do while a handling of `k` is not disturbed. -/
def calm (k : Key) : Rely World where
  rel := fun w w' => w'.get k = w.get k ∧ w'.points k = w.points k
  refl := fun _ => ⟨rfl, rfl⟩
  trans := fun h h' => ⟨h'.1.trans h.1, h'.2.trans h.2⟩

variable {worker : IndexerWorker} {k : Key} {w w' : World} {S : Semantics} {skip : Skip}

theorem Right.calm (h : Right worker k w) (hR : (calm k).rel w w') : Right worker k w' where
  present := by
    rw [hR.1, hR.2]
    exact h.present
  absent := by
    rw [hR.1, hR.2]
    exact h.absent

theorem Trust.calm (h : Trust worker k w) (hR : (calm k).rel w w') : Trust worker k w' := by
  intro v hv hetag
  rw [hR.1] at hv
  rw [hR.2] at hetag
  exact (h v hv hetag).calm hR

theorem Right.trust (h : Right worker k w) : Trust worker k w := fun _ _ _ => h

/-- Nothing is indexed, and nothing should be. -/
theorem right_of_empty (hpoints : w.points k = .empty)
    (hnone : ∀ v chunks, w.get k = some v → Searchable k v → Yields worker k.2 v.bytes chunks →
      chunks = []) : Right worker k w where
  present := fun v chunks hv hs hyields hne => absurd (hnone v chunks hv hs hyields) hne
  absent := by
    intro _
    rw [hpoints]
    rfl

/-- The current version is refused: no chunks are asked for. -/
theorem right_of_refused {v : Version} (hv : w.get k = some v) (hs : Searchable k v)
    (hwhy : ∀ chunks, ¬ Yields worker k.2 v.bytes chunks) : Right worker k w where
  present := by
    intro v' chunks hv' _ hyields
    rw [hv] at hv'
    cases hv'
    exact absurd hyields (hwhy chunks)
  absent := fun h => absurd (h v hv hs) (hwhy [])

theorem right_of_isChunkSet {v : Version} {chunks : List Chunk} (hv : w.get k = some v)
    (hs : Searchable k v) (hyields : Yields worker k.2 v.bytes chunks)
    (hset : IsChunkSet (w.points k) chunks v.etag.val) : Right worker k w where
  present := by
    intro v' chunks' hv' _ hyields' _
    rw [hv] at hv'
    cases hv'
    rwa [hyields'.unique hyields]
  absent := by
    intro h
    rw [hyields.unique (h v hv hs)] at hset
    simpa using hset.1.length_eq

/-! ## One handling -/

/-- What a handling of a searchable version does when nobody disturbs it. -/
theorem right_of_handled (hS : ∀ o, ¬ S.mayFail o) {v : Version} {w₀ : World} {m : Nat}
    {read : Option ObjectRead} (hv : w.get k = some v) (hs : Searchable k v)
    (hv₀ : w₀.get k = some v) (htrust : skip = .never ∨ Trust worker k w₀)
    (hH : Handled worker S k (fun o => w.get k = o) skip (w₀.points k) (w.points k) m read) :
    Right worker k w := by
  have current : ∀ {v'}, w.get k = some v' → v' = v := by
    intro v' hv'
    rw [hv] at hv'
    exact (Option.some.inj hv').symm
  generalize hpoints : w.points k = points at hH
  cases hH with
  | failed hmay hs =>
    obtain ⟨o, ho⟩ := hmay
    exact absurd ho (hS o)
  | missing hwhy =>
    rcases hwhy with hreserved | hnone
    · simp [hs.1] at hreserved
    · rw [hv] at hnone
      cases hnone
  | excluded v' hv' hwhy =>
    cases current hv'
    rcases hwhy with hmime | hsize
    · simp [hs.2.1] at hmime
    · exact absurd hsize hs.2.2
  | blank v' hv' hyields =>
    cases current hv'
    refine right_of_empty hpoints fun u chunks hu _ hyields' => ?_
    cases current hu
    exact hyields'.unique hyields
  | skipped v' hv' hskip hindexed =>
    cases current hv'
    rcases htrust with rfl | htrust
    · cases hskip
    · exact (htrust v hv₀ hindexed).calm ⟨hv.trans hv₀.symm, hpoints⟩
  | refused v' hv' hwhy =>
    cases current hv'
    exact right_of_refused hv hs hwhy
  | raced o o' hne ho ho' => exact absurd (ho.symm.trans ho') hne
  | stopped v' hv' snapshot hetag items hstream done hdone hwritten hwhy =>
    cases current hv'
    rcases hwhy with ⟨o, ho⟩ | hwhy
    · exact absurd ho (hS o)
    · exact right_of_refused hv hs hwhy
  | indexed v' hv' chunks hyields hset =>
    cases current hv'
    exact right_of_isChunkSet hv hs hyields (hpoints ▸ hset)

/-- The key holds `o`. -/
def Holding (k : Key) (o : Option Version) (w : World) : Prop := w.get k = o

theorem holding_stable (o : Option Version) : Stable k (calm k) (Holding k o) where
  points := fun hR => hR.2
  rely := fun hR hw => hR.1.trans hw
  store := by
    intro w w' heq hw
    rw [Holding, World.get, heq]
    exact hw

/-- A handling that finds nothing to index empties the key's points. -/
theorem hwp_handleUpsert_removes (hS : ∀ o, ¬ S.mayFail o) {kb : KbSlug} {objectKey : ObjectPath}
    {told : Told} {o : Option Version} (ho : ∀ v, o = some v → ¬ Searchable (kb, objectKey) v)
    (hw : w.get (kb, objectKey) = o) :
    hwp S (calm (kb, objectKey)) (handleUpsert worker kb objectKey skip told)
      (fun _ _ w => w.points (kb, objectKey) = .empty) [] w := by
  have hK := holding_stable (k := (kb, objectKey)) o
  have unfailing : ¬ ∃ o, S.mayFail o := fun ⟨o, hmay⟩ => hS o hmay
  have htombstone : ∀ {s h w}, Holds (kb, objectKey) (Holding (kb, objectKey) o) s 0 none h w →
      hwp S (calm (kb, objectKey)) (tombstoneBeforeHead kb objectKey)
        (fun _ _ w => w.points (kb, objectKey) = .empty) h w := by
    intro s h w H
    refine hwp_tombstoneBeforeHead hK H (fun a h' w' H' => H'.points) fun a h' w' hmay _ => ?_
    exact absurd hmay unfailing
  unfold handleUpsert
  split
  · exact htombstone ⟨hw, rfl, rfl, rfl⟩
  · next hreserved =>
    refine Semantics.wp_head (fun w' e hR hstep => ⟨trivial, ?_⟩) fun w' v hR hv => ⟨trivial, ?_⟩
    · rcases hstep.head_error with ⟨-, rfl⟩ | ⟨hmay, -⟩
      · apply wp.bind
        refine hwp_only_silent hK tellMissing_silent ⟨hR.1.trans hw, rfl, rfl, rfl⟩ ?_
        intro a h' w' _ H'
        exact htombstone H'
      · exact absurd hmay (hS _)
    · have hv' : o = some v := (hR.1.trans hw).symm.trans hv
      apply wp.bind
      refine hwp_only_silent hK tellFound_silent ⟨hR.1.trans hw, rfl, rfl, rfl⟩ ?_
      intro a h' w' _ H'
      -- the version is not searchable though its key is not reserved: HEAD shows why
      have hremove : indexHead worker kb objectKey (v.objectMeta objectKey v.size)
          (resolveMime v.contentType objectKey) skip = removeFromIndex kb objectKey := by
        have hnot := ho v hv'
        simp only [Searchable, Bool.not_eq_true] at hnot hreserved
        unfold indexHead
        split
        · rfl
        · next hmime =>
          rw [if_pos]
          by_contra hsize
          exact hnot ⟨hreserved, by simpa using hmime, hsize⟩
      apply wp.bind
      show hwp S _ (indexHead worker kb objectKey (v.objectMeta objectKey v.size)
        (resolveMime v.contentType objectKey) skip) _ h' w'
      rw [hremove]
      refine hwp_removeFromIndex hK H' (fun a h' w' H' => ?_) fun a h' w' hmay _ => ?_
      · cases a with
        | error message => exact hwp_ret hK H' fun _ H'' => H''.points
        | ok outcome => exact hwp_ret hK H' fun _ H'' => H''.points
      · exact absurd hmay unfailing

/-- After its look at the key, a handling only reports. -/
theorem hwp_handle_of_handleUpsert {F : World → Prop} {event : IndexEvent}
    (hF : ∀ w w', (calm event.key).rel w w' → F w → F w')
    (hupsert : ∀ told, hwp S (calm event.key)
      (handleUpsert worker event.key.1 event.key.2 (skipOf event) told) (fun _ _ w => F w) [] w) :
    hwp S (calm event.key) (handle worker event) (fun _ _ w => F w) [] w := by
  have report : ∀ {tombstone} result h w', F w' → hwp S (calm event.key)
      (reportOutcome worker event.key.1 event.key.2 tombstone result) (fun _ _ w => F w) h w' := by
    intro tombstone result h w' hw'
    refine hwp_only_silent (holding_stable (w'.get event.key)) reportOutcome_silent
      ⟨rfl, rfl, rfl, rfl⟩ ?_
    exact fun _ _ w'' _ H' => hF w' w'' ⟨H'.knows, H'.points⟩ hw'
  cases event with
  | upsert kb objectKey =>
    apply wp.bind
    exact (hupsert _).mono fun a h w' hw' => report a h w' hw'
  | refresh kb objectKey origin =>
    apply wp.bind
    exact (hupsert _).mono fun a h w' hw' => report a h w' hw'
  | tombstone kb objectKey =>
    apply wp.bind
    exact (hupsert _).mono fun a h w' hw' => report a h w' hw'

theorem calm_observes : Observes k (calm k) fun o w => w.get k = o where
  stable := holding_stable
  found := fun _ => rfl

/-- A handling that nobody disturbs leaves the index right, unless it may skip an object whose
points carry the right tag and are wrong. -/
theorem hwp_handle_right (hS : ∀ o, ¬ S.mayFail o) {event : IndexEvent}
    (htrust : skipOf event = .never ∨ Trust worker event.key w) :
    hwp S (calm event.key) (handle worker event) (fun _ _ w => Right worker event.key w) [] w := by
  have hkept : hwp S (calm event.key) (handle worker event)
      (fun _ _ w' => True ∧ w'.get event.key = w.get event.key) [] w := by
    refine wp.of_invariant handle_only (fun _ _ _ => trivial) (fun _ _ hR hw => hR.1.trans hw) ?_ rfl
    intro s o r s' ho hstep hw
    rw [World.get, (ho.step hstep).1]
    exact hw
  by_cases hsearch : ∃ v, w.get event.key = some v ∧ Searchable event.key v
  · obtain ⟨v, hv, hs⟩ := hsearch
    have hends : hwp S (calm event.key) (handle worker event) (fun _ h w' =>
        Ends worker S event.key (fun o w => w.get event.key = o) (skipOf event)
          (w.points event.key) h w') [] w := hwp_handle calm_observes rfl
    refine (hends.and hkept).mono fun _ h w' hend => ?_
    exact right_of_handled hS (hend.2.2.trans hv) hs hv htrust hend.1
  · have hnot : ∀ v, w.get event.key = some v → ¬ Searchable event.key v :=
      fun v hv hs => hsearch ⟨v, hv, hs⟩
    have hremoved : hwp S (calm event.key) (handle worker event)
        (fun _ _ w => w.points event.key = .empty) [] w := by
      refine hwp_handle_of_handleUpsert (fun w w' hR hw => hR.2.trans hw) fun told => ?_
      exact hwp_handleUpsert_removes hS hnot rfl
    refine (hremoved.and hkept).mono fun _ h w' hend => ?_
    refine right_of_empty hend.1 fun v chunks hv hs _ => ?_
    exact absurd hs (hnot v (hend.2.2.symm.trans hv))

/-! ## Any interleaving -/

variable {setup : Setup} {P P' : Threads} {l : Pool.Label Party Op}

/-- `F` holds of the world, or will once the key's handler has returned, if nobody disturbs it. -/
def Tracks (setup : Setup) (F : World → Prop) (k : Key) (P : Threads) : Prop :=
  (∀ p, (.handler k, p) ∈ P.threads →
      ∃ h, hwp setup.semantics (calm k) p (fun _ _ w => F w) h P.state.world) ∧
    (k ∉ handled P → F P.state.world)

theorem Tracks.mono {F F' : World → Prop} (hF : ∀ w, F w → F' w) (h : Tracks setup F k P) :
    Tracks setup F' k P := by
  refine ⟨fun p hp => ?_, fun hk => hF _ (h.2 hk)⟩
  obtain ⟨hist, hwp⟩ := h.1 p hp
  exact ⟨hist, hwp.mono fun _ _ w => hF w⟩

/-- A step leaves it so, or changes the object, or starts a handler. -/
theorem Tracks.step {F : World → Prop} (hF : ∀ w w', (calm k).rel w w' → F w → F w')
    (h : Tracks setup F k P) (hP' : Sound setup P') (hs : KeyStep setup k P P') :
    Tracks setup F k P' ∨
      (Due (.upsert k.1 k.2) P' ∨ (P'.state.world.get k = none ∧ Due (.tombstone k.1 k.2) P')) ∨
      ∃ event, event.key = k ∧ Starting setup k event P P' ∧ k ∉ handled P := by
  cases hs with
  | calm hget hpoints hhandler =>
    refine .inl ⟨fun p hp => ?_, fun hk => ?_⟩
    · obtain ⟨hist, hwp⟩ := h.1 p ((hhandler p).mp hp)
      exact ⟨hist, hwp.stable ⟨hget, hpoints⟩⟩
    · refine hF _ _ ⟨hget, hpoints⟩ (h.2 fun hmem => hk ?_)
      obtain ⟨p, hp⟩ := mem_handled.mp hmem
      exact mem_handled.mpr ⟨p, (hhandler p).mpr hp⟩
  | changed hdue => exact .inr (.inl hdue)
  | moved o c r hbefore hget hstep hafter =>
    refine .inl ⟨fun p hp => ?_, fun hk => absurd (mem_handled.mpr ⟨_, hafter⟩) hk⟩
    obtain ⟨hist, hwp⟩ := h.1 _ hbefore
    obtain ⟨-, hnext⟩ := hwp _ ((calm k).refl _) r _ hstep
    cases hP'.unique hp hafter
    exact ⟨_, hnext⟩
  | started event hkey hstart hfree => exact .inr (.inr ⟨event, hkey, hstart, hfree⟩)
  | finished hbefore hworld hafter =>
    refine .inl ⟨fun p hp => absurd (mem_handled.mpr ⟨p, hp⟩) hafter, fun _ => ?_⟩
    obtain ⟨hist, hwp⟩ := h.1 _ hbefore
    rw [hworld]
    exact hwp _ ((calm k).refl _)

/-- A handler that starts will leave the index right. -/
theorem tracks_started (hS : ∀ o, ¬ setup.semantics.mayFail o) {event : IndexEvent}
    (hP' : Sound setup P') (hkey : event.key = k) (hstart : Starting setup k event P P')
    (htrust : skipOf event = .never ∨ Trust setup.worker k P.state.world) :
    Tracks setup (Right setup.worker k) k P' := by
  subst hkey
  have hmem : (.handler event.key, handle setup.worker event) ∈ P'.threads := by
    simp [hstart.threads]
  refine ⟨fun p hp => ?_, fun hk => absurd (mem_handled.mpr ⟨_, hmem⟩) hk⟩
  cases hP'.unique hp hmem
  rw [hstart.world]
  exact ⟨[], hwp_handle_right hS htrust⟩

/-- What every reachable state keeps: points that carry the tag of the current version can be
trusted, and the index is right, or will be, except about keys with an event that is due. -/
structure Converging (setup : Setup) (P : Threads) : Prop where
  sound : Sound setup P
  trusted : ∀ k, Due (.upsert k.1 k.2) P ∨ P.state.world.get k = none ∨
    Tracks setup (Trust setup.worker k) k P
  current : ∀ k, (∃ event, event.key = k ∧ Due event P) ∨ Tracks setup (Right setup.worker k) k P

/-- Whichever event is started, a write that is still due stays so, or the key is tracked. -/
theorem Converging.start (hS : ∀ o, ¬ setup.semantics.mayFail o) (h : Converging setup P)
    (hs : Pool.Step (server setup) P l P') {event : IndexEvent} (hkey : event.key = k)
    (hstart : Starting setup k event P P') (hfree : k ∉ handled P) :
    Due (.upsert k.1 k.2) P' ∨ Tracks setup (Right setup.worker k) k P' := by
  have hP' := h.sound.step hs
  rcases h.trusted k with hdue | hnone | htrust
  · rcases hdue.step (hS _) hs with hdue | hupsert
    · exact .inl hdue
    · exact .inr (tracks_started hS hP' rfl hupsert (.inl rfl))
  · refine .inr (tracks_started hS hP' hkey hstart (.inr fun v hv => ?_))
    rw [hnone] at hv
    cases hv
  · exact .inr (tracks_started hS hP' hkey hstart (.inr (htrust.2 hfree)))

theorem KeyStep.get_none (hs : KeyStep setup k P P') (h : P.state.world.get k = none) :
    Due (.upsert k.1 k.2) P' ∨ P'.state.world.get k = none := by
  cases hs with
  | calm hget hpoints hhandler => exact .inr (hget.trans h)
  | changed hdue => exact hdue.imp_right And.left
  | moved o c r hbefore hget hstep hafter => exact .inr (hget.trans h)
  | started event hkey hstart hfree => exact .inr (hstart.world ▸ h)
  | finished hbefore hworld hafter => exact .inr (hworld ▸ h)

theorem Converging.step (hS : ∀ o, ¬ setup.semantics.mayFail o) (h : Converging setup P)
    (hs : Pool.Step (server setup) P l P') : Converging setup P' := by
  have hP' := h.sound.step hs
  have toTrust : ∀ {k}, Tracks setup (Right setup.worker k) k P' →
      Tracks setup (Trust setup.worker k) k P' := fun ht => ht.mono fun _ => Right.trust
  refine ⟨hP', fun k => ?_, fun k => ?_⟩
  · have hkey := h.sound.keyStep hs k
    rcases h.trusted k with hdue | hnone | htrust
    · rcases hdue.step (hS _) hs with hdue | hupsert
      · exact .inl hdue
      · exact .inr (.inr (toTrust (tracks_started hS hP' rfl hupsert (.inl rfl))))
    · exact (KeyStep.get_none hkey hnone).imp_right .inl
    · rcases htrust.step (fun _ _ hR hw => hw.calm hR) hP' hkey with ht | hchange | hstart
      · exact .inr (.inr ht)
      · exact hchange.imp_right fun hdeleted => .inl hdeleted.1
      · obtain ⟨event, hevent, hstart, hfree⟩ := hstart
        exact (h.start hS hs hevent hstart hfree).imp_right fun ht => .inr (toTrust ht)
  · have hkey := h.sound.keyStep hs k
    have started : ∀ event, event.key = k → Starting setup k event P P' → k ∉ handled P →
        (∃ event, event.key = k ∧ Due event P') ∨ Tracks setup (Right setup.worker k) k P' := by
      intro event hevent hstart hfree
      exact (h.start hS hs hevent hstart hfree).imp_left fun hdue => ⟨_, rfl, hdue⟩
    rcases h.current k with ⟨event, rfl, hdue⟩ | hright
    · rcases hdue.step (hS _) hs with hdue | hstart
      · exact .inl ⟨event, rfl, hdue⟩
      · exact started event rfl hstart (h.sound.startNext hstart.lanes).1
    · rcases hright.step (fun _ _ hR hw => hw.calm hR) hP' hkey with ht | hchange | hstart
      · exact .inr ht
      · refine .inl ?_
        rcases hchange with hdue | ⟨-, hdue⟩
        · exact ⟨_, rfl, hdue⟩
        · exact ⟨_, rfl, hdue⟩
      · obtain ⟨event, hevent, hstart, hfree⟩ := hstart
        exact started event hevent hstart hfree

/-! ## Rest -/

/-- Where a run starts: nothing is accepted yet, and the index is right about every key. -/
def Settled (setup : Setup) (s : State) : Prop :=
  s.lanes = Lanes.empty ∧ ∀ k, Right setup.worker k s.world

/-- Nothing is left to do: no request and no handler runs, and no event is queued or waits. -/
structure AtRest (P : Threads) : Prop where
  threads : P.threads = []
  queue : P.state.world.queue = []
  lanes : P.state.lanes.isIdle = true

theorem converging_init {s : State} (h : Settled setup s) : Converging setup ⟨s, []⟩ where
  sound := sound_init h.1
  trusted := fun k => .inr (.inr ⟨by simp, fun _ => (h.2 k).trust⟩)
  current := fun k => .inr ⟨by simp, fun _ => h.2 k⟩

theorem AtRest.not_due (h : AtRest P) (event : IndexEvent) : ¬ Due event P := by
  rintro (⟨th, hth, -⟩ | hqueue | hlane)
  · rw [h.threads] at hth
    cases hth
  · rw [h.queue] at hqueue
    cases hqueue
  · have hwaiting : P.state.lanes.waiting.entries = [] := List.isEmpty_iff.mp h.lanes
    have hlookup : P.state.lanes.waiting.lookup event.key = none := by
      rw [AList.lookup_eq_none, AList.mem_keys, AList.keys, hwaiting]
      simp
    rw [Lanes.lane, hlookup] at hlane
    cases hlane

/-- Whatever requests and handlers do in whatever order, once nothing is left to do the index is
right: a key whose current version is searchable and yields chunks has exactly these, under the
version's entity tag, and a key without such a version has none, unless its version is one the
pipeline refuses. -/
theorem search_converges {setup : Setup} (hS : ∀ o, ¬ setup.semantics.mayFail o) {P : Threads}
    (hP : Pool.Reach (server setup) Pool.anyStep (Settled setup) P) (hrest : AtRest P) (k : Key) :
    (∀ v chunks, P.state.world.get k = some v → Searchable k v →
        Yields setup.worker k.2 v.bytes chunks → chunks ≠ [] →
        IsChunkSet (P.state.world.points k) chunks v.etag.val) ∧
      ((∀ v, P.state.world.get k = some v → Searchable k v →
        Yields setup.worker k.2 v.bytes []) → (P.state.world.points k).points = []) := by
  have hinv : Converging setup P :=
    hP.invariant (fun s hs => converging_init hs) fun _ _ _ h hs _ => h.step hS hs
  rcases hinv.current k with ⟨event, -, hdue⟩ | htracks
  · exact absurd hdue (hrest.not_due event)
  · have hright := htracks.2 (by simp [handled, hrest.threads])
    exact ⟨hright.present, hright.absent⟩

/-! ## A note, and a version of it that is not text -/

/-- The server once a PUT of `v` is stored and its event is handled. -/
def afterRound (v : Version) (s : State) : State :=
  let s := accepted (afterPut false v s)
  afterHandler (letterServer false) ⟨v.etag, v.lastModified⟩ note noteEvent (nextLanes s.lanes)
    s.world

/-- The states the server of letters reaches. -/
abbrev Reaches (P : Threads) : Prop :=
  Pool.Reach (server (letterServer false)) Pool.anyStep (Settled (letterServer false)) P

theorem reaches_round {v : Version} {s : State} (hnext : NoteNext (afterPut false v s))
    (h : Reaches ⟨s, []⟩) : Reaches ⟨afterRound v s, []⟩ := by
  have hcommit := reach_request (fun _ _ => trivial) ⟨v.etag, v.lastModified⟩
    (fun _ _ _ => trivial) (fun _ _ _ => trivial) h (isRequest_putNote false v.bytes)
  have haccept := reach_accept (fun _ _ _ => trivial) hcommit hnext.1
  exact reach_handler (fun _ _ => trivial) _ haccept hnext.2.1 hnext.startNext

theorem reaches_emptyServer : Reaches ⟨emptyServer, []⟩ := by
  refine .init ⟨rfl, fun k => right_of_empty rfl fun v chunks hv => ?_⟩
  cases hv

/-- The server once the note of one letter is indexed. -/
def oneLetterIndexed : State := afterRound oneLetter emptyServer

theorem reaches_oneLetter : Reaches ⟨oneLetterIndexed, []⟩ :=
  reaches_round (by decide) reaches_emptyServer

theorem search_converges_oneLetter :
    ∃ P, (∀ o, ¬ (letterServer false).semantics.mayFail o) ∧
      Pool.Reach (server (letterServer false)) Pool.anyStep (Settled (letterServer false)) P ∧
      AtRest P ∧ P.state.world.get note = some oneLetter ∧
      IsChunkSet (P.state.world.points note) [⟨['a'], 0, 1, []⟩] oneLetter.etag.val := by
  have hrest : AtRest ⟨oneLetterIndexed, []⟩ := ⟨rfl, by decide, by decide⟩
  have hget : oneLetterIndexed.world.get note = some oneLetter := by decide
  have hyields : Yields (letterServer false).worker note.2 oneLetter.bytes
      [⟨['a'], 0, 1, []⟩] := ⟨by decide, rfl, by decide, by decide⟩
  refine ⟨_, fun _ h => h, reaches_oneLetter, hrest, hget, ?_⟩
  refine (search_converges (fun _ h => h) reaches_oneLetter hrest note).1 _ _ hget ?_ hyields ?_
  · exact ⟨by decide, by decide, by decide⟩
  · simp

/-- A byte that is no text. -/
def notText : Version := Version.tagged '2' [255]

/-- The note is indexed, and then replaced by a byte that is not text. Nothing is left to do, the
note has no chunks any more, and the index still holds the old one. -/
theorem refused_version_keeps_points :
    (∀ o, ¬ (letterServer false).semantics.mayFail o) ∧
      ∃ P, Pool.Reach (server (letterServer false)) Pool.anyStep (Settled (letterServer false)) P ∧
        AtRest P ∧
        (¬ ∃ v chunks, P.state.world.get note = some v ∧ Searchable note v ∧
          Yields (letterServer false).worker note.2 v.bytes chunks ∧ chunks ≠ []) ∧
        (P.state.world.points note).points ≠ [] := by
  have hreach : Reaches ⟨afterRound notText oneLetterIndexed, []⟩ :=
    reaches_round (by decide) reaches_oneLetter
  have hget : (afterRound notText oneLetterIndexed).world.get note = some notText := by
    decide
  refine ⟨fun _ h => h, _, hreach, ⟨rfl, by decide, by decide⟩, ?_, ?_⟩
  · rintro ⟨v, chunks, hv, -, hyields, -⟩
    rw [hget] at hv
    cases hv
    have herror : (chunkStream (letterServer false).worker note.2 notText.bytes).toOption =
        none := by decide
    rw [hyields.stream] at herror
    cases herror
  · decide

end Convergence
