-- SUMMARY: What one handling of an index event does to its key's points, whatever other parties do and wherever it fails.
import NotedThat.Core.Laws
import NotedThat.Indexer.Contents

/-!
# What a handling does

The handlers of one key never overlap, so no other party touches the key's points while a handling
runs. What else stays true of the store meanwhile differs from one use to the next and is a
parameter: `seen o w` says what `w` still shows of a version, or an absence, that was found
earlier. `Handled` lists how a handling may end.
-/

namespace Indexer

open Prog (wp)
open Semantics (Event)

/-! ## The operations of a handling -/

/-- Operations that leave the store and the points as they are. -/
def Silent : Op → Prop
  | .publish _ | .embed _ | .stage _ | .remember .. | .isNews .. | .indexedEtag .. => True
  | _ => False

/-- Operations of the handlers of a key. -/
def HandlerOp (k : Key) : Op → Prop
  | .storage (.head kb path _) => (kb, path) = k
  | .storage (.get kb path _ _) => (kb, path) = k
  | .storage _ => False
  | .trySend _ => False
  | .upsertPoints kb points => kb = k.1 ∧ ∀ p ∈ points, p.objectKey = k.2
  | .deletePoints kb (.object objectKey) => (kb, objectKey) = k
  | .deletePoints kb (.objectChunksFrom objectKey _) => (kb, objectKey) = k
  | _ => True

section Only

variable {worker : IndexerWorker} {kb : KbSlug} {objectKey : ObjectPath}

theorem Silent.handlerOp {k : Key} {o : Op} (h : Silent o) : HandlerOp k o := by
  cases o with
  | storage o => exact h.elim
  | trySend event => exact h.elim
  | upsertPoints kb points => exact h.elim
  | deletePoints kb selector => exact h.elim
  | _ => trivial

theorem publish_silent {event : ObjectEvent} :
    (publish worker event).Only Silent fun _ => True := by
  unfold publish
  split
  · exact ⟨trivial, fun _ => trivial⟩
  · trivial

theorem remember_silent {etag : Option Text} :
    (remember worker kb objectKey etag).Only Silent fun _ => True := by
  unfold remember
  split
  · exact ⟨trivial, fun _ => trivial⟩
  · trivial

theorem announce_silent {event : ObjectEvent} :
    (announce worker event).Only Silent fun _ => True := by
  unfold announce
  split
  · trivial
  · refine Prog.Only.call trivial fun news => ?_
    split
    · trivial
    · exact remember_silent.andThen fun _ => publish_silent

theorem tellMissing_silent {told : Told} :
    (tellMissing worker kb objectKey told).Only Silent fun _ => True := by
  cases told with
  | written => trivial
  | deleted => exact remember_silent
  | nothing source => exact announce_silent

theorem tellFound_silent {head : ObjectMeta} {told : Told} :
    (tellFound worker kb objectKey head told).Only Silent fun _ => True := by
  cases told with
  | written => exact remember_silent
  | deleted => trivial
  | nothing source => exact announce_silent

theorem reportOutcome_silent {tombstone : Bool} {result : Except PipelineFailure PipelineOutcome} :
    (reportOutcome worker kb objectKey tombstone result).Only Silent fun _ => True := by
  cases result with
  | error failure =>
    simp only [reportOutcome]
    split
    · exact publish_silent
    · trivial
  | ok outcome =>
    cases outcome with
    | indexed etag mime chunks => exact publish_silent
    | skipped => trivial
    | tombstoned => trivial

/-! ### Its work on the key -/

/-- Operations of a handling's work on its key: it reports nothing and recalls nothing meanwhile. -/
def WorkOp (k : Key) (o : Op) : Prop :=
  HandlerOp k o ∧ (∀ event, o ≠ .publish event) ∧ (∀ k etag, o ≠ .remember k etag) ∧
    ∀ k etag, o ≠ .isNews k etag

/-- If the object was indexed, then under the entity tag `etag`. -/
def IndexedAs {ε : Type} (etag : Option Text) : Except ε PipelineOutcome → Prop
  | .ok (.indexed e _ _) => etag = some e
  | _ => True

theorem alreadyIndexed_only {head : ObjectMeta} :
    (alreadyIndexed kb objectKey head).Only (WorkOp (kb, objectKey)) fun _ => True := by
  unfold alreadyIndexed
  split
  · trivial
  · refine Prog.Only.call ⟨trivial, by simp⟩ fun indexed => ?_
    cases indexed with
    | error e => trivial
    | ok etag => trivial

theorem silent_only {α : Type} {p : Program α} {P : α → Prop} {k : Key} (h : p.Only Silent P) :
    p.Only (HandlerOp k) P := h.mono (fun _ => Silent.handlerOp) fun _ => id

theorem work_only {α : Type} {p : Program α} {P : α → Prop} {k : Key} (h : p.Only (WorkOp k) P) :
    p.Only (HandlerOp k) fun _ => True := h.mono (fun _ => And.left) fun _ _ => trivial

theorem handleTombstone_only :
    (handleTombstone kb objectKey).Only (WorkOp (kb, objectKey)) fun _ => True := by
  refine Prog.Only.call ⟨rfl, by simp⟩ fun r => ?_
  cases r with
  | error e => trivial
  | ok u => trivial

theorem removeFromIndex_only {etag : Option Text} :
    (removeFromIndex kb objectKey).Only (WorkOp (kb, objectKey)) (IndexedAs etag) := by
  refine handleTombstone_only.andThen fun r => ?_
  cases r with
  | error e => trivial
  | ok u => trivial

theorem tombstoneBeforeHead_only (etag : Option Text) :
    (tombstoneBeforeHead kb objectKey).Only (WorkOp (kb, objectKey)) (IndexedAs etag) := by
  refine handleTombstone_only.andThen fun r => ?_
  cases r with
  | error e => trivial
  | ok u => trivial

/-- A snapshot keeps the entity tag of the HEAD it was staged for. -/
theorem stageSnapshot_only {head : ObjectMeta} :
    (stageSnapshot worker kb objectKey head).Only (WorkOp (kb, objectKey))
      fun r => ∀ snapshot, r = .ok snapshot → head.etag = some snapshot.etag := by
  have failed : ∀ e : String, ∀ snapshot : PreparedSnapshot,
      (.error e : Except String PreparedSnapshot) = .ok snapshot → head.etag = some snapshot.etag := by
    intro e snapshot h
    cases h
  unfold stageSnapshot
  split
  · exact failed _
  · next headEtag hhead =>
    refine Prog.Only.call ⟨rfl, by simp⟩ fun r => ?_
    cases r with
    | error e => exact failed _
    | ok read =>
      dsimp only
      split
      · exact failed _
      · refine Prog.Only.call ⟨trivial, by simp⟩ fun r => ?_
        cases r with
        | error e => exact failed _
        | ok u =>
          dsimp only
          split
          · exact failed _
          · split
            · exact failed _
            · intro snapshot h
              cases h
              exact hhead

theorem buildPoints_objectKey {batch : List (Nat × Chunk)} {embeddings : Nat}
    {snapshot : PreparedSnapshot} {points : List Point}
    (h : buildPoints objectKey batch embeddings snapshot = .ok points) :
    ∀ p ∈ points, p.objectKey = objectKey := by
  unfold buildPoints at h
  split at h
  · cases h
  · cases h
    intro p hp
    obtain ⟨entry, -, rfl⟩ := List.mem_map.mp hp
    rfl

theorem upsertBatch_only {snapshot : PreparedSnapshot} {batch : List (Nat × Chunk)} :
    (upsertBatch worker kb objectKey snapshot batch).Only (WorkOp (kb, objectKey))
      fun _ => True := by
  unfold upsertBatch
  split
  · trivial
  · refine Prog.Only.call ⟨trivial, by simp⟩ fun r => ?_
    cases r with
    | error e => trivial
    | ok embeddings =>
      dsimp only
      split
      · trivial
      · split
        · trivial
        · next points hpoints =>
          refine Prog.Only.call ⟨⟨rfl, buildPoints_objectKey hpoints⟩, by simp⟩ fun r => ?_
          cases r with
          | error e => trivial
          | ok u => trivial

theorem upsertBatches_only {snapshot : PreparedSnapshot} {fuel : Nat} {cursor : ChunkCursor} :
    (upsertBatches worker kb objectKey snapshot fuel cursor).Only (WorkOp (kb, objectKey))
      fun _ => True := by
  induction fuel generalizing cursor with
  | zero => trivial
  | succ fuel ih =>
    unfold upsertBatches
    split
    · trivial
    · split
      · trivial
      · refine upsertBatch_only.andThen fun r => ?_
        cases r with
        | error e => trivial
        | ok u => exact ih

theorem indexSnapshot_only {snapshot : PreparedSnapshot} {mime : Text} {etag : Option Text}
    (hetag : etag = some snapshot.etag) :
    (indexSnapshot worker kb objectKey snapshot mime).Only (WorkOp (kb, objectKey))
      (IndexedAs etag) := by
  unfold indexSnapshot
  split
  · trivial
  · refine upsertBatches_only.andThen fun r => ?_
    cases r with
    | error e => trivial
    | ok newCount =>
      dsimp only
      split
      · exact removeFromIndex_only
      · split
        · trivial
        · refine Prog.Only.andThen (Prog.Only.call ⟨rfl, by simp⟩ fun r => ?_) fun r => ?_
          · cases r with
            | error e => trivial
            | ok u => trivial
          · cases r with
            | error e => trivial
            | ok u => exact hetag

theorem indexHead_only {head : ObjectMeta} {mime : Text} {skip : Skip} :
    (indexHead worker kb objectKey head mime skip).Only (WorkOp (kb, objectKey))
      (IndexedAs head.etag) := by
  unfold indexHead
  split
  · exact removeFromIndex_only
  · split
    · exact removeFromIndex_only
    · have hunchanged : (unchanged kb objectKey head skip).Only (WorkOp (kb, objectKey))
          fun _ => True := by
        cases skip with
        | never => trivial
        | ifUnchanged => exact alreadyIndexed_only
      refine hunchanged.andThen fun unchanged => ?_
      split
      · trivial
      · split
        · trivial
        · refine Prog.Only.bind (stageSnapshot_only.mono (fun _ h => h) fun r hr => ?_)
          cases r with
          | error e => trivial
          | ok snapshot => exact indexSnapshot_only (hr snapshot rfl)

theorem handleUpsert_only {skip : Skip} {told : Told} :
    (handleUpsert worker kb objectKey skip told).Only (HandlerOp (kb, objectKey))
      fun _ => True := by
  have htombstone : (tombstoneBeforeHead kb objectKey).Only (HandlerOp (kb, objectKey))
      fun _ => True := work_only (tombstoneBeforeHead_only none)
  unfold handleUpsert
  split
  · exact htombstone
  · refine Prog.Only.call rfl fun r => ?_
    cases r with
    | ok head =>
      refine (silent_only tellFound_silent).andThen fun _ =>
        (work_only indexHead_only).andThen fun r => ?_
      cases r with
      | error message => trivial
      | ok outcome => trivial
    | error e =>
      dsimp only
      split
      · exact (silent_only tellMissing_silent).andThen fun _ => htombstone
      · split
        · exact htombstone
        · exact htombstone
        · trivial
      · next h => cases h

/-- A handler looks at its key and changes the points of its key; it changes nothing else but the
event log and its memory of stamps. -/
theorem handle_only {event : IndexEvent} :
    (handle worker event).Only (HandlerOp event.key) fun _ => True := by
  cases event with
  | upsert kb objectKey =>
    exact handleUpsert_only.andThen fun _ => silent_only reportOutcome_silent
  | refresh kb objectKey origin =>
    exact handleUpsert_only.andThen fun _ => silent_only reportOutcome_silent
  | tombstone kb objectKey =>
    exact handleUpsert_only.andThen fun _ => silent_only reportOutcome_silent

end Only

/-- An operation of a handler leaves the store, and the points of other keys, as they are. -/
theorem HandlerOp.step {S : Semantics} {k₀ : Key} {o : Op} {r : o.Res} {w w' : World}
    (ho : HandlerOp k₀ o) (h : S.Step w o r w') :
    w'.store = w.store ∧ ∀ k, k ≠ k₀ → w'.points k = w.points k := by
  cases o with
  | storage o =>
    cases o with
    | head kb path c =>
      rw [h.head_world]
      exact ⟨rfl, fun _ _ => rfl⟩
    | get kb path range c =>
      rw [h.get_world]
      exact ⟨rfl, fun _ _ => rfl⟩
    | _ => exact ho.elim
  | trySend event => exact ho.elim
  | upsertPoints kb points =>
    obtain ⟨rfl, hpoints⟩ := ho
    refine ⟨h.store_eq (by simp), fun k hk => ?_⟩
    rcases h.other_cases (by simp) with ⟨stamp, -, rfl⟩ | ⟨-, -, rfl⟩
    · exact Points.upsertAll_of_ne hpoints hk
    · rfl
  | deletePoints kb selector =>
    refine ⟨h.store_eq (by simp), fun k hk => ?_⟩
    rcases h.other_cases (by simp) with ⟨stamp, -, rfl⟩ | ⟨-, -, rfl⟩
    · cases selector with
      | object objectKey =>
        cases ho
        exact Function.update_of_ne hk _ _
      | objectChunksFrom objectKey fromChunkIndex =>
        cases ho
        exact Function.update_of_ne hk _ _
    · rfl
  | _ =>
    refine ⟨h.store_eq (by simp), fun k _ => ?_⟩
    rcases h.other_cases (by simp) with ⟨stamp, -, rfl⟩ | ⟨-, -, rfl⟩
    · rfl
    · rfl

/-! ## What a history shows -/

/-- The points one operation upserted. -/
def upsertedBy : Event → Nat
  | ⟨_, .upsertPoints _ points, .ok (), _⟩ => points.length
  | _ => 0

/-- How many points a handling upserted. -/
def upserted (h : List Event) : Nat := (h.map upsertedBy).sum

def servedBy : Event → Option ObjectRead
  | ⟨_, .storage (.get _ _ _ _), .ok read, _⟩ => some read
  | _ => none

/-- What a handling read of the object. -/
def served (h : List Event) : Option ObjectRead := h.findSome? servedBy

@[simp] theorem upserted_nil : upserted [] = 0 := rfl

@[simp] theorem upserted_concat (h : List Event) (e : Event) :
    upserted (h ++ [e]) = upserted h + upsertedBy e := by
  simp [upserted]

@[simp] theorem served_nil : served [] = none := rfl

@[simp] theorem served_concat (h : List Event) (e : Event) :
    served (h ++ [e]) = (served h).or (servedBy e) := by
  simp [served, List.findSome?_append, List.findSome?_cons]
  cases servedBy e <;> rfl

theorem Silent.upsertedBy {o : Op} (ho : Silent o) {w w' : World} {r : o.Res} :
    upsertedBy ⟨w, o, r, w'⟩ = 0 := by
  cases o with
  | upsertPoints kb points => exact ho.elim
  | _ => rfl

theorem Silent.servedBy {o : Op} (ho : Silent o) {w w' : World} {r : o.Res} :
    servedBy ⟨w, o, r, w'⟩ = none := by
  cases o with
  | storage o => exact ho.elim
  | _ => rfl

/-! ## Assertions about a handling -/

/-- What stays true of the world while a handling of `k` runs: others leave the points of `k`
alone, and keep `K`, which is about the store. -/
structure Stable (k : Key) (R : Rely World) (K : World → Prop) : Prop where
  points : ∀ {w w' : World}, R.rel w w' → w'.points k = w.points k
  rely : ∀ {w w' : World}, R.rel w w' → K w → K w'
  store : ∀ {w w' : World}, w'.store = w.store → K w → K w'

/-- `K` holds, the points of `k` are `s`, and the handling has upserted `m` points and read
`read`. -/
structure Holds (k : Key) (K : World → Prop) (s : PointSet) (m : Nat) (read : Option ObjectRead)
    (h : List Event) (w : World) : Prop where
  knows : K w
  points : w.points k = s
  upserted : upserted h = m
  served : served h = read

variable {S : Semantics} {R : Rely World} {k : Key} {K K' : World → Prop} {s : PointSet} {m : Nat}
variable {read : Option ObjectRead} {h : List Event} {w w' : World}

theorem Stable.and (hK : Stable k R K) (hK' : Stable k R K') :
    Stable k R fun w => K w ∧ K' w where
  points := hK.points
  rely := fun hR hw => ⟨hK.rely hR hw.1, hK'.rely hR hw.2⟩
  store := fun heq hw => ⟨hK.store heq hw.1, hK'.store heq hw.2⟩

theorem Holds.rely (H : Holds k K s m read h w) (hK : Stable k R K) (hR : R.rel w w') :
    Holds k K s m read h w' where
  knows := hK.rely hR H.knows
  points := (hK.points hR).trans H.points
  upserted := H.upserted
  served := H.served

theorem Holds.silent (H : Holds k K s m read h w) (hK : Stable k R K) {o : Op} {r : o.Res}
    (ho : Silent o) (hstore : w'.store = w.store) (hpoints : w'.points = w.points) :
    Holds k K s m read (h ++ [⟨w, o, r, w'⟩]) w' where
  knows := hK.store hstore H.knows
  points := by rw [hpoints, H.points]
  upserted := by rw [upserted_concat, ho.upsertedBy, H.upserted, Nat.add_zero]
  served := by rw [served_concat, ho.servedBy, H.served, Option.or_none]

/-! ## Laws -/

variable {α : Type} {Q : α → List Event → World → Prop}

/-- The weakest precondition used for handlings: no operation is forbidden. -/
abbrev hwp (S : Semantics) (R : Rely World) {α : Type} (p : Program α)
    (Q : α → List Event → World → Prop) (h : List Event) (w : World) : Prop :=
  wp S.Step R (fun _ _ => True) p Q h w

theorem hwp_ret {a : α} (hK : Stable k R K) (H : Holds k K s m read h w)
    (hQ : ∀ w', Holds k K s m read h w' → Q a h w') : hwp S R (.ret a) Q h w :=
  fun _ hR => hQ _ (H.rely hK hR)

theorem hwp_silent {o : Op} {cont : o.Res → Program α} (hK : Stable k R K) (ho : Silent o)
    (H : Holds k K s m read h w)
    (hok : ∀ (w₁ : World) stamp h' w', w₁.points k = s → Holds k K s m read h' w' →
      hwp S R (cont (w₁.perform S.parseHttpDate stamp o).1) Q h' w')
    (hfail : ∀ r h' w', S.mayFail o → o.Failed r → Holds k K s m read h' w' →
      hwp S R (cont r) Q h' w') :
    hwp S R (Prog.call o >>= cont) Q h w := by
  have hne : ∀ o', o ≠ .storage o' := by
    rintro o' rfl
    exact ho
  intro w₁ hR r w₂ hstep
  have H₁ := H.rely hK hR
  refine ⟨trivial, ?_⟩
  rcases hstep.other_cases hne with ⟨stamp, rfl, rfl⟩ | ⟨hmay, hr, rfl⟩
  · have hstore := hstep.store_eq hne
    have hpoints : (w₁.perform S.parseHttpDate stamp o).2.points = w₁.points := by
      cases o with
      | upsertPoints kb points => exact ho.elim
      | deletePoints kb selector => exact ho.elim
      | storage o => exact ho.elim
      | _ => rfl
    exact hok w₁ stamp _ _ H₁.points (H₁.silent hK ho hstore hpoints)
  · exact hfail r _ _ hmay hr (H₁.silent hK ho rfl rfl)

/-- A program of silent operations. -/
theorem hwp_only_silent {p : Program α} {P : α → Prop} (hK : Stable k R K)
    (hp : p.Only Silent P) (H : Holds k K s m read h w)
    (hQ : ∀ a h' w', P a → Holds k K s m read h' w' → Q a h' w') : hwp S R p Q h w := by
  induction p generalizing h w with
  | ret a => exact hwp_ret hK H fun w' H' => hQ a h w' hp H'
  | op o cont ih =>
    refine hwp_silent hK hp.1 H (fun w₁ stamp h' w' _ H' => ?_) fun r h' w' _ _ H' => ?_
    · exact ih _ (hp.2 _) H'
    · exact ih r (hp.2 r) H'

theorem hwp_deletePoints {kb : KbSlug} {selector : PointSelector} {s' : PointSet}
    {cont : Except String Unit → Program α} (hK : Stable k R K) (H : Holds k K s m read h w)
    (hdelete : ∀ points : Points, points k = s → points.delete kb selector k = s')
    (hok : ∀ h' w', Holds k K s' m read h' w' → hwp S R (cont (.ok ())) Q h' w')
    (hfail : ∀ e h' w', (∃ o, S.mayFail o) → Holds k K s m read h' w' →
      hwp S R (cont (.error e)) Q h' w') :
    hwp S R (Prog.call (Op.deletePoints kb selector) >>= cont) Q h w := by
  intro w₁ hR r w₂ hstep
  have H₁ := H.rely hK hR
  refine ⟨trivial, ?_⟩
  rcases hstep.other_cases (by simp) with ⟨stamp, rfl, rfl⟩ | ⟨hmay, ⟨e, rfl⟩, rfl⟩
  · exact hok _ _ ⟨hK.store (w := w₁) rfl H₁.knows, hdelete _ H₁.points, by simp [H₁.upserted, upsertedBy],
      by simp [H₁.served, servedBy]⟩
  · exact hfail e _ _ ⟨_, hmay⟩ ⟨H₁.knows, H₁.points, by simp [H₁.upserted, upsertedBy],
      by simp [H₁.served, servedBy]⟩

theorem hwp_upsertPoints {kb : KbSlug} {ps : List Point} {cont : Except String Unit → Program α}
    (hK : Stable k R K) (H : Holds k K s m read h w)
    (hok : ∀ (points : Points) h' w', points k = s →
      Holds k K (points.upsertAll kb ps k) (m + ps.length) read h' w' →
      hwp S R (cont (.ok ())) Q h' w')
    (hfail : ∀ e h' w', (∃ o, S.mayFail o) → Holds k K s m read h' w' →
      hwp S R (cont (.error e)) Q h' w') :
    hwp S R (Prog.call (Op.upsertPoints kb ps) >>= cont) Q h w := by
  intro w₁ hR r w₂ hstep
  have H₁ := H.rely hK hR
  refine ⟨trivial, ?_⟩
  rcases hstep.other_cases (by simp) with ⟨stamp, rfl, rfl⟩ | ⟨hmay, ⟨e, rfl⟩, rfl⟩
  · refine hok w₁.points _ _ H₁.points ⟨hK.store (w := w₁) rfl H₁.knows, rfl, ?_, ?_⟩
    · rw [upserted_concat, H₁.upserted]
      rfl
    · simp [H₁.served, servedBy]
  · exact hfail e _ _ ⟨_, hmay⟩ ⟨H₁.knows, H₁.points, by simp [H₁.upserted, upsertedBy],
      by simp [H₁.served, servedBy]⟩

/-! ## Reading the object -/

/-- What a handling may rely on: others leave its points alone, and `seen` keeps what was found
of the key. -/
structure Observes (k : Key) (R : Rely World) (seen : Option Version → World → Prop) : Prop where
  stable : ∀ o, Stable k R (seen o)
  found : ∀ w : World, seen (w.get k) w

variable {kb : KbSlug} {objectKey : ObjectPath} {seen : Option Version → World → Prop}

theorem Observes.found_eq (hO : Observes k R seen) {o : Option Version} (ho : w.get k = o) :
    seen o w := ho ▸ hO.found w

theorem hwp_head {cont : Except StorageError ObjectMeta → Program α}
    (hO : Observes (kb, objectKey) R seen) (hs : w.points (kb, objectKey) = s)
    (hmissing : ∀ h' w', Holds (kb, objectKey) (seen none) s (upserted h) (served h) h' w' →
      hwp S R (cont (.error (.notFound objectKey.val))) Q h' w')
    (hfound : ∀ v h' w', Holds (kb, objectKey) (seen (some v)) s (upserted h) (served h) h' w' →
      hwp S R (cont (.ok (v.objectMeta objectKey v.size))) Q h' w')
    (hfail : ∀ e h' w' o, (∃ o, S.mayFail o) →
      (∃ message, e = .backendUnavailable message ∨ e = .other message) →
      Holds (kb, objectKey) (seen o) s (upserted h) (served h) h' w' →
      hwp S R (cont (.error e)) Q h' w') :
    hwp S R (Program.storage (.head kb objectKey {}) >>= cont) Q h w := by
  -- whatever it answers, a HEAD leaves the world, and what the history shows, as they were
  have hread : ∀ w₁ o r, R.rel w w₁ → w₁.get (kb, objectKey) = o →
      Holds (kb, objectKey) (seen o) s (upserted h) (served h)
        (h ++ [⟨w₁, .storage (.head kb objectKey {}), r, w₁⟩]) w₁ := by
    intro w₁ o r hR ho
    exact ⟨hO.found_eq ho, ((hO.stable o).points hR).trans hs, by simp [upsertedBy],
      by simp [servedBy]⟩
  refine Semantics.wp_head (fun w₁ e hR hstep => ⟨trivial, ?_⟩) fun w₁ v hR hv => ⟨trivial, ?_⟩
  · rcases hstep.head_error with ⟨hnone, rfl⟩ | ⟨hmay, hmessage⟩
    · exact hmissing _ _ (hread w₁ none _ hR hnone)
    · exact hfail e _ _ _ ⟨_, hmay⟩ hmessage (hread w₁ _ _ hR rfl)
  · exact hfound v _ _ (hread w₁ _ _ hR hv)

theorem hwp_get {cont : Except StorageError ObjectRead → Program α} {v : Version}
    (hO : Observes (kb, objectKey) R seen) (H : Holds (kb, objectKey) (seen (some v)) s m none h w)
    (hok : ∀ v' h' w', v'.etag = v.etag →
      Holds (kb, objectKey) (fun w => seen (some v) w ∧ seen (some v') w) s m
        (some (v'.wholeRead objectKey)) h' w' →
      hwp S R (cont (.ok (v'.wholeRead objectKey))) Q h' w')
    (hgone : ∀ e o h' w', o ≠ some v →
      Holds (kb, objectKey) (fun w => seen (some v) w ∧ seen o w) s m none h' w' →
      hwp S R (cont (.error e)) Q h' w')
    (hfail : ∀ e h' w', (∃ o, S.mayFail o) → Holds (kb, objectKey) (seen (some v)) s m none h' w' →
      hwp S R (cont (.error e)) Q h' w') :
    hwp S R (Program.storage (.get kb objectKey none (.ofIfMatch v.etag.val)) >>= cont) Q h w := by
  intro w₁ hR r w₂ hstep
  have H₁ := H.rely (hO.stable _) hR
  have hw := hstep.get_world
  subst hw
  refine ⟨trivial, ?_⟩
  cases r with
  | ok read =>
    obtain ⟨v', hv', hetag, rfl⟩ := hstep.get_pinned_ok
    exact hok v' _ _ hetag ⟨⟨H₁.knows, hO.found_eq hv'⟩, H₁.points, by simp [H₁.upserted, upsertedBy],
      by simp [H₁.served, servedBy]⟩
  | error e =>
    rcases hstep.get_pinned_error with hgone' | hmay
    · refine hgone e _ _ _ (fun heq => hgone' v heq rfl) ⟨⟨H₁.knows, hO.found w₂⟩, H₁.points, ?_, ?_⟩
      · simp [H₁.upserted, upsertedBy]
      · simp [H₁.served, servedBy]
    · exact hfail e _ _ hmay ⟨H₁.knows, H₁.points, by simp [H₁.upserted, upsertedBy],
        by simp [H₁.served, servedBy]⟩

/-! ## Batches -/

variable {worker : IndexerWorker} {pre : PointSet}

theorem hwp_handleTombstone {Q : Except String Unit → List Event → World → Prop}
    (hK : Stable (kb, objectKey) R K) (H : Holds (kb, objectKey) K s m read h w)
    (hok : ∀ h' w', Holds (kb, objectKey) K .empty m read h' w' → Q (.ok ()) h' w')
    (hfail : ∀ e h' w', (∃ o, S.mayFail o) → Holds (kb, objectKey) K s m read h' w' →
      Q (.error e) h' w') :
    hwp S R (handleTombstone kb objectKey) Q h w := by
  refine hwp_deletePoints hK H (fun points _ => Function.update_self ..) (fun h' w' H' => ?_)
    fun e h' w' hmay H' => ?_
  · exact hwp_ret hK H' fun w'' => hok h' w''
  · exact hwp_ret hK H' fun w'' => hfail _ h' w'' hmay

theorem hwp_cleanupObsolete {Q : Except String Unit → List Event → World → Prop} {n : Nat}
    (hK : Stable (kb, objectKey) R K) (H : Holds (kb, objectKey) K s m read h w)
    (hok : ∀ h' w', Holds (kb, objectKey) K (s.filter (·.chunkIndex < n)) m read h' w' →
      Q (.ok ()) h' w')
    (hfail : ∀ e h' w', (∃ o, S.mayFail o) → Holds (kb, objectKey) K s m read h' w' →
      Q (.error e) h' w') :
    hwp S R (cleanupObsolete kb objectKey n) Q h w := by
  have hdelete : ∀ points : Points, points (kb, objectKey) = s →
      points.delete kb (.objectChunksFrom objectKey n) (kb, objectKey) =
        s.filter (·.chunkIndex < n) := by
    rintro points rfl
    exact Function.update_self ..
  refine hwp_deletePoints hK H hdelete (fun h' w' H' => ?_) fun e h' w' hmay H' => ?_
  · exact hwp_ret hK H' fun w'' => hok h' w''
  · exact hwp_ret hK H' fun w'' => hfail _ h' w'' hmay

section Batches

variable {snapshot : PreparedSnapshot} {items : List (Except String Chunk)}

/-- Why a batch stops a handling: an operation failed, or a chunk is too long. -/
def StopsBatch (worker : IndexerWorker) (S : Semantics) (taken : List Chunk) : Prop :=
  (∃ o, S.mayFail o) ∨ ∃ c ∈ taken, worker.maxInputTokens < utf8Length c.text

theorem hwp_upsertBatch {Q : Except String Unit → List Event → World → Prop}
    {done rest : List (Except String Chunk)} {taken : List Chunk}
    (hK : Stable (kb, objectKey) R K) (H : Holds (kb, objectKey) K s m read h w)
    (hs : Written objectKey snapshot items pre m s)
    (hitems : items = done ++ (taken.map .ok ++ rest)) (hm : done.length = m)
    (hok : ∀ s' h' w', (∀ c ∈ taken, utf8Length c.text ≤ worker.maxInputTokens) →
      Written objectKey snapshot items pre (m + taken.length) s' →
      Holds (kb, objectKey) K s' (m + taken.length) read h' w' → Q (.ok ()) h' w')
    (hfail : ∀ e h' w', StopsBatch worker S taken →
      Holds (kb, objectKey) K s m read h' w' → Q (.error e) h' w') :
    hwp S R (upsertBatch worker kb objectKey snapshot ((taken.zipIdx m).map Prod.swap)) Q h w := by
  have hmem : ∀ entry ∈ (taken.zipIdx m).map Prod.swap, entry.2 ∈ taken := by
    intro entry hentry
    obtain ⟨⟨c, i⟩, hc, rfl⟩ := List.mem_map.mp hentry
    exact List.fst_mem_of_mem_zipIdx hc
  unfold upsertBatch
  split
  · next e hbound =>
    obtain ⟨entry, hentry, hlong⟩ := validateChunkByteBound_error hbound
    exact hwp_ret hK H fun w' => hfail _ h w' (.inr ⟨entry.2, hmem entry hentry, hlong⟩)
  · next hbound =>
    have hshort : ∀ c ∈ taken, utf8Length c.text ≤ worker.maxInputTokens := by
      intro c hc
      obtain ⟨i, hi⟩ := List.mem_iff_getElem?.mp hc
      refine validateChunkByteBound_ok hbound (m + i, c) (List.mem_map.mpr ⟨(c, m + i), ?_, rfl⟩)
      exact List.mem_zipIdx_iff_le_and_getElem?_sub.mpr ⟨by omega, by simpa using hi⟩
    refine hwp_silent hK trivial H (fun w₁ stamp h' w' _ H' => ?_) fun r h' w' hmay hr H' => ?_
    · simp only [World.perform, buildPoints, List.length_map, ne_eq, not_true_eq_false, if_false]
      refine hwp_upsertPoints hK H' (fun points h' w' hpoints H' => ?_) fun e h' w' hmay H' => ?_
      · simp only [List.length_map, List.length_zipIdx] at H'
        exact hwp_ret hK H' fun w'' =>
          hok _ h' w'' hshort (Written.batch (hpoints ▸ hs) hitems hm)
      · exact hwp_ret hK H' fun w'' => hfail _ h' w'' (.inl hmay)
    · have hstop : StopsBatch worker S taken := .inl ⟨_, hmay⟩
      cases r with
      | error e => exact hwp_ret hK H' fun w'' => hfail _ h' w'' hstop
      | ok n =>
        have hn : n ≠ (((taken.zipIdx m).map Prod.swap).map (·.2.text)).length := by
          rintro rfl
          exact hr rfl
        simp only [ne_eq, hn, not_false_eq_true, if_true]
        exact hwp_ret hK H' fun w'' => hfail _ h' w'' hstop

/-- The stream is all chunks, and each of them is short enough. -/
def AllTaken (worker : IndexerWorker) (items : List (Except String Chunk)) (chunks : List Chunk) :
    Prop :=
  items = chunks.map .ok ∧ ∀ c ∈ chunks, utf8Length c.text ≤ worker.maxInputTokens

/-- The loop over the batches: all chunks are written, or the first few of them. -/
theorem hwp_upsertBatches {Q : Except String Nat → List Event → World → Prop} {fuel : Nat}
    {cursor : ChunkCursor} {done : List Chunk} (hK : Stable (kb, objectKey) R K)
    (H : Holds (kb, objectKey) K s m read h w) (hs : Written objectKey snapshot items pre m s)
    (hfuel : cursor.chunks.length ≤ fuel) (hitems : items = done.map .ok ++ cursor.chunks)
    (hm : done.length = m) (hnext : cursor.nextIndex = m)
    (hbound : ∀ c ∈ done, utf8Length c.text ≤ worker.maxInputTokens)
    (hok : ∀ chunks s' h' w', AllTaken worker items chunks →
      Written objectKey snapshot items pre chunks.length s' →
      Holds (kb, objectKey) K s' chunks.length read h' w' → Q (.ok chunks.length) h' w')
    (hfail : ∀ e (done' : List Chunk) s' h' w', done'.map .ok <+: items →
      ((∃ o, S.mayFail o) ∨ ∀ chunks, ¬ AllTaken worker items chunks) →
      Written objectKey snapshot items pre done'.length s' →
      Holds (kb, objectKey) K s' done'.length read h' w' → Q (.error e) h' w') :
    hwp S R (upsertBatches worker kb objectKey snapshot fuel cursor) Q h w := by
  subst hm
  induction fuel generalizing cursor done s h w with
  | zero =>
    have hend : cursor.chunks = [] := List.eq_nil_of_length_eq_zero (Nat.le_zero.mp hfuel)
    rw [hend, List.append_nil] at hitems
    unfold upsertBatches
    rw [hnext]
    exact hwp_ret hK H fun w' => hok done s h w' ⟨hitems, hbound⟩ hs
  | succ fuel ih =>
    have hprefix : done.map .ok <+: items := hitems ▸ List.prefix_append _ _
    unfold upsertBatches
    split
    · next e htake =>
      obtain ⟨e', he'⟩ := takeChunkBatch_error htake
      refine hwp_ret hK H fun w' => hfail _ done s h w' hprefix (.inr fun chunks hall => ?_) hs
      have hmem : .error e' ∈ items := hitems ▸ List.mem_append_right _ he'
      rw [hall.1] at hmem
      simp at hmem
    · next cursor' batch htake =>
      obtain ⟨taken, hsplit, rfl, hnext', hempty⟩ := takeChunkBatch_ok htake
      split
      · next hnil =>
        have htaken : taken = [] := by simpa using hnil
        have hend : cursor.chunks = [] := (hempty htaken).resolve_left (by omega)
        have hsame : cursor'.nextIndex = cursor.nextIndex := by simpa [htaken] using hnext'
        rw [hend, List.append_nil] at hitems
        rw [hsame, hnext]
        exact hwp_ret hK H fun w' => hok done s h w' ⟨hitems, hbound⟩ hs
      · next hne =>
        have htaken : taken ≠ [] := by simpa using hne
        have hpos : 0 < taken.length := List.length_pos_of_ne_nil htaken
        rw [hnext]
        apply wp.bind
        refine hwp_upsertBatch hK H hs (by rw [hitems, hsplit]) (List.length_map ..)
          (fun s' h' w' hshort hs' H' => ?_) fun e h' w' hstop H' => ?_
        · have hlen : (done ++ taken).length = done.length + taken.length := List.length_append
          have hitems' : items = (done ++ taken).map .ok ++ cursor'.chunks := by
            rw [hitems, hsplit, List.map_append, List.append_assoc]
          have hbound' : ∀ c ∈ done ++ taken, utf8Length c.text ≤ worker.maxInputTokens := by
            intro c hc
            rcases List.mem_append.mp hc with hc | hc
            · exact hbound c hc
            · exact hshort c hc
          rw [← hlen] at hs' H'
          have hlt : cursor'.chunks.length < cursor.chunks.length := by
            rw [hsplit, List.length_append, List.length_map]
            omega
          exact ih (by omega) hitems' hbound' H' hs' (by rw [hnext', hnext, hlen])
        · refine hwp_ret hK H' fun w'' => hfail _ done s h' w'' hprefix ?_ hs
          refine hstop.imp_right fun ⟨c, hc, hlong⟩ chunks hall => ?_
          have hmem : .ok c ∈ items := by
            rw [hitems, hsplit]
            simp [hc]
          rw [hall.1] at hmem
          have hchunk : c ∈ chunks := by simpa using hmem
          exact absurd (hall.2 c hchunk) (by omega)

end Batches

/-! ## How a handling ends -/

/-- Everything a handling may do to the points of `k`: they were `pre` and became `s`, it upserted
`m` points and read `read`, and `seen` tells what it had found when it decided so. -/
inductive Handled (worker : IndexerWorker) (S : Semantics) (k : Key)
    (seen : Option Version → Prop) (skip : Skip) (pre : PointSet) :
    PointSet → Nat → Option ObjectRead → Prop where
  | failed {s : PointSet} {read : Option ObjectRead} (hmay : ∃ o, S.mayFail o)
      (hs : s = pre ∨ s = .empty) : Handled worker S k seen skip pre s 0 read
  | missing {read : Option ObjectRead} (hwhy : k.2.isReserved = true ∨ seen none) :
      Handled worker S k seen skip pre .empty 0 read
  | excluded {read : Option ObjectRead} (v : Version) (hseen : seen (some v))
      (hwhy : isIndexable (resolveMime v.contentType k.2) = false ∨ v.size = 0) :
      Handled worker S k seen skip pre .empty 0 read
  | blank {read : Option ObjectRead} (v : Version) (hseen : seen (some v))
      (hyields : Yields worker k.2 v.bytes []) : Handled worker S k seen skip pre .empty 0 read
  | skipped {read : Option ObjectRead} (v : Version) (hseen : seen (some v))
      (hskip : skip = .ifUnchanged) (hindexed : pre.indexedEtag = some v.etag.val) :
      Handled worker S k seen skip pre pre 0 read
  | refused {read : Option ObjectRead} (v : Version) (hseen : seen (some v))
      (hwhy : ∀ chunks, ¬ Yields worker k.2 v.bytes chunks) :
      Handled worker S k seen skip pre pre 0 read
  | raced {read : Option ObjectRead} (o o' : Option Version) (hne : o ≠ o') (hseen : seen o)
      (hseen' : seen o') : Handled worker S k seen skip pre pre 0 read
  | stopped {s : PointSet} (v : Version) (hseen : seen (some v)) (snapshot : PreparedSnapshot)
      (hetag : snapshot.objectMeta.etag = some v.etag.val) (items : List (Except String Chunk))
      (hstream : chunkStream worker k.2 v.bytes = .ok items) (done : List Chunk)
      (hdone : done.map .ok <+: items)
      (hwritten : Written k.2 snapshot items pre done.length s)
      (hwhy : (∃ o, S.mayFail o) ∨ ∀ chunks, ¬ Yields worker k.2 v.bytes chunks) :
      Handled worker S k seen skip pre s done.length (some (v.wholeRead k.2))
  | indexed {s : PointSet} (v : Version) (hseen : seen (some v)) (chunks : List Chunk)
      (hyields : Yields worker k.2 v.bytes chunks) (hset : IsChunkSet s chunks v.etag.val) :
      Handled worker S k seen skip pre s chunks.length (some (v.wholeRead k.2))

/-- How a handling ended, as the history and the world show it. -/
abbrev Ends (worker : IndexerWorker) (S : Semantics) (k : Key)
    (seen : Option Version → World → Prop) (skip : Skip) (pre : PointSet) (h : List Event)
    (w : World) : Prop :=
  Handled worker S k (fun o => seen o w) skip pre (w.points k) (upserted h) (served h)

variable {skip : Skip}

theorem Holds.ends (H : Holds k K s m read h w)
    (hH : Handled worker S k (fun o => seen o w) skip pre s m read) :
    Ends worker S k seen skip pre h w := by
  rw [Ends, H.points, H.upserted, H.served]
  exact hH

theorem Handled.mono {seen seen' : Option Version → Prop} (hseen : ∀ o, seen o → seen' o)
    (H : Handled worker S k seen skip pre s m read) :
    Handled worker S k seen' skip pre s m read := by
  cases H with
  | failed hmay hs => exact .failed hmay hs
  | missing hwhy => exact .missing (hwhy.imp_right (hseen none))
  | excluded v hv hwhy => exact .excluded v (hseen _ hv) hwhy
  | blank v hv hyields => exact .blank v (hseen _ hv) hyields
  | skipped v hv hskip hindexed => exact .skipped v (hseen _ hv) hskip hindexed
  | refused v hv hwhy => exact .refused v (hseen _ hv) hwhy
  | raced o o' hne ho ho' => exact .raced o o' hne (hseen _ ho) (hseen _ ho')
  | stopped v hv snapshot hetag items hstream done hdone hwritten hwhy =>
    exact .stopped v (hseen _ hv) snapshot hetag items hstream done hdone hwritten hwhy
  | indexed v hv chunks hyields hset => exact .indexed v (hseen _ hv) chunks hyields hset

/-- Once it has ended, silent operations change nothing. -/
theorem hwp_ended {p : Program α} {P : α → Prop} (hO : Observes k R seen) (hp : p.Only Silent P)
    (H : Ends worker S k seen skip pre h w) :
    hwp S R p (fun _ h w => Ends worker S k seen skip pre h w) h w := by
  have hK : Stable k R fun w' => ∀ o, seen o w → seen o w' :=
    { points := (hO.stable none).points
      rely := fun hR hw o ho => (hO.stable o).rely hR (hw o ho)
      store := fun heq hw o ho => (hO.stable o).store heq (hw o ho) }
  refine hwp_only_silent hK hp ⟨fun _ ho => ho, rfl, rfl, rfl⟩ fun a h' w' _ H' => ?_
  exact H'.ends (H.mono H'.knows)

/-! ## The pipeline -/

theorem hwp_removeFromIndex {Q : Except String PipelineOutcome → List Event → World → Prop}
    (hK : Stable (kb, objectKey) R K) (H : Holds (kb, objectKey) K s m read h w)
    (hok : ∀ a h' w', Holds (kb, objectKey) K .empty m read h' w' → Q a h' w')
    (hfail : ∀ a h' w', (∃ o, S.mayFail o) → Holds (kb, objectKey) K s m read h' w' → Q a h' w') :
    hwp S R (removeFromIndex kb objectKey) Q h w := by
  apply wp.bind
  refine hwp_handleTombstone hK H (fun h' w' H' => ?_) fun e h' w' hmay H' => ?_
  · exact hwp_ret hK H' (hok _ h')
  · exact hwp_ret hK H' fun w'' => hfail _ h' w'' hmay

theorem hwp_tombstoneBeforeHead
    {Q : Except PipelineFailure PipelineOutcome → List Event → World → Prop}
    (hK : Stable (kb, objectKey) R K) (H : Holds (kb, objectKey) K s m read h w)
    (hok : ∀ a h' w', Holds (kb, objectKey) K .empty m read h' w' → Q a h' w')
    (hfail : ∀ a h' w', (∃ o, S.mayFail o) → Holds (kb, objectKey) K s m read h' w' → Q a h' w') :
    hwp S R (tombstoneBeforeHead kb objectKey) Q h w := by
  apply wp.bind
  refine hwp_handleTombstone hK H (fun h' w' H' => ?_) fun e h' w' hmay H' => ?_
  · exact hwp_ret hK H' (hok _ h')
  · exact hwp_ret hK H' fun w'' => hfail _ h' w'' hmay

/-- The snapshot the pipeline makes of a version: its bytes, under its entity tag. -/
structure SnapshotOf (worker : IndexerWorker) (objectKey : ObjectPath) (v : Version)
    (snapshot : PreparedSnapshot) : Prop where
  body : snapshot.body = v.bytes
  etag : snapshot.objectMeta.etag = some v.etag.val
  inspected : inspect worker objectKey v.bytes =
    .ok (snapshot.facts, snapshot.metadata, snapshot.bodyStart)

/-- The read: it confirms what HEAD found, or something changed or failed. -/
theorem hwp_stageSnapshot {Q : Except String PreparedSnapshot → List Event → World → Prop}
    {v : Version} (hO : Observes (kb, objectKey) R seen)
    (H : Holds (kb, objectKey) (seen (some v)) pre 0 none h w)
    (hok : ∀ snapshot v' h' w', SnapshotOf worker objectKey v' snapshot →
      Holds (kb, objectKey) (seen (some v')) pre 0 (some (v'.wholeRead objectKey)) h' w' →
      Q (.ok snapshot) h' w')
    (hend : ∀ e h' w', Ends worker S (kb, objectKey) seen skip pre h' w' → Q (.error e) h' w') :
    hwp S R (stageSnapshot worker kb objectKey (v.objectMeta objectKey v.size)) Q h w := by
  refine hwp_get hO H (fun v' h' w' hetag H' => ?_) (fun e o h' w' hne H' => ?_)
    fun e h' w' hmay H' => ?_
  · have hK := (hO.stable (some v)).and (hO.stable (some v'))
    simp only [Version.wholeRead, Version.objectMeta, hetag, ne_eq, not_true_eq_false, if_false]
    refine hwp_silent hK trivial H' (fun w₁ stamp h' w' _ H' => ?_) fun r h' w' hmay hr H' => ?_
    · simp only [World.perform]
      split
      · next hlength =>
        refine hwp_ret hK H' fun w'' H'' => hend _ _ _ (H''.ends ?_)
        refine .raced (some v) (some v') (fun heq => hlength ?_) H''.knows.1 H''.knows.2
        cases heq
        rfl
      · split
        · next e hinspect =>
          refine hwp_ret hK H' fun w'' H'' => hend _ _ _ (H''.ends ?_)
          refine .refused v' H''.knows.2 fun chunks hyields => ?_
          have hstream := hyields.stream
          simp [chunkStream, hinspect] at hstream
        · next facts metadata bodyStart hinspect =>
          refine hwp_ret hK H' fun w'' H'' => hok _ v' _ _ ⟨rfl, ?_, hinspect⟩
            ⟨H''.knows.2, H''.points, H''.upserted, H''.served⟩
          exact congrArg (fun e : ETag => some e.val) hetag.symm
    · obtain ⟨e, rfl⟩ := hr
      exact hwp_ret hK H' fun w'' H'' => hend _ _ _ (H''.ends (.failed ⟨_, hmay⟩ (.inl rfl)))
  · have hK := (hO.stable (some v)).and (hO.stable o)
    refine hwp_ret hK H' fun w'' H'' => hend _ _ _ (H''.ends ?_)
    exact .raced (some v) o hne.symm H''.knows.1 H''.knows.2
  · exact hwp_ret (hO.stable _) H' fun w'' H'' => hend _ _ _ (H''.ends (.failed hmay (.inl rfl)))

/-- The stream of a snapshot that was taken up to its end, or not. -/
theorem SnapshotOf.stream {v : Version} {snapshot : PreparedSnapshot} {cursor : ChunkCursor}
    (hv : SnapshotOf worker objectKey v snapshot)
    (hopen : openChunkCursor worker snapshot.body snapshot.bodyStart = .ok cursor) :
    chunkStream worker objectKey v.bytes = .ok cursor.chunks := by
  rw [hv.body] at hopen
  simp [chunkStream, hv.inspected, hopen]

theorem openChunkCursor_start {body : Bytes} {bodyStart : Nat} {cursor : ChunkCursor}
    (h : openChunkCursor worker body bodyStart = .ok cursor) : cursor.nextIndex = 0 := by
  unfold openChunkCursor at h
  split at h
  · cases h
  · cases h
    rfl

theorem hwp_indexSnapshot {v : Version} {snapshot : PreparedSnapshot} {mime : Text}
    (hO : Observes (kb, objectKey) R seen) (hlimit : worker.maxInputTokens ≠ 0)
    (hv : SnapshotOf worker objectKey v snapshot)
    (H : Holds (kb, objectKey) (seen (some v)) pre 0 (some (v.wholeRead objectKey)) h w) :
    hwp S R (indexSnapshot worker kb objectKey snapshot mime)
      (fun _ h w => Ends worker S (kb, objectKey) seen skip pre h w) h w := by
  have hK := hO.stable (some v)
  unfold indexSnapshot
  split
  · next e hopen =>
    refine hwp_ret hK H fun w' H' => H'.ends (.refused v H'.knows fun chunks hyields => ?_)
    rw [hv.body] at hopen
    have hstream := hyields.stream
    simp [chunkStream, hv.inspected, hopen] at hstream
  · next cursor hopen =>
    have hstream := hv.stream hopen
    have hyields : ∀ chunks, Yields worker objectKey v.bytes chunks →
        AllTaken worker cursor.chunks chunks := by
      intro chunks hyields
      have heq := hyields.stream
      rw [hstream] at heq
      exact ⟨Except.ok.inj heq, hyields.bound⟩
    apply wp.bind
    refine hwp_upsertBatches hK H (Written.zero : Written objectKey snapshot cursor.chunks pre 0 pre)
      (Nat.le_refl _) (show cursor.chunks = ([] : List Chunk).map .ok ++ cursor.chunks from rfl) rfl
      (openChunkCursor_start hopen) (fun c hc => by cases hc)
      (fun chunks s' h' w' hall hs' H' => ?_) fun e done s' h' w' hdone hwhy hs' H' => ?_
    · have hprefix : chunks.map .ok <+: cursor.chunks := hall.1.symm ▸ List.prefix_rfl
      have htaken : chunks.length < 2 ^ 32 → Yields worker objectKey v.bytes chunks :=
        fun hcount => ⟨hlimit, by rw [hstream, hall.1], hall.2, hcount⟩
      dsimp only
      split
      · next hzero =>
        obtain rfl : chunks = [] := List.eq_nil_of_length_eq_zero hzero
        refine hwp_removeFromIndex hK H' (fun a h' w' H' => H'.ends ?_)
          fun a h' w' hmay H' => H'.ends ?_
        · exact .blank v H'.knows (htaken (by simp))
        · exact .stopped v H'.knows snapshot hv.etag _ hstream [] hprefix hs' (.inl hmay)
      · split
        · next hmany =>
          refine hwp_ret hK H' fun w'' H'' => H''.ends ?_
          refine .stopped v H''.knows snapshot hv.etag _ hstream chunks hprefix hs' ?_
          refine .inr fun chunks' hyields' => ?_
          have heq := congrArg List.length ((hyields chunks' hyields').1.symm.trans hall.1)
          simp only [List.length_map] at heq
          have hcount := hyields'.count
          omega
        · next hfew =>
          have hcount : chunks.length < 2 ^ 32 := by omega
          have hset := hall.1 ▸ hs'
          apply wp.bind
          refine hwp_cleanupObsolete hK H' (fun h' w' H' => ?_) fun e h' w' hmay H' => ?_
          · refine hwp_ret hK H' fun w'' H'' => H''.ends ?_
            exact .indexed v H''.knows chunks (htaken hcount) (hset.cleanup hv.etag)
          · refine hwp_ret hK H' fun w'' H'' => H''.ends ?_
            exact .stopped v H''.knows snapshot hv.etag _ hstream chunks hprefix hs' (.inl hmay)
    · refine hwp_ret hK H' fun w'' H'' => H''.ends ?_
      refine .stopped v H''.knows snapshot hv.etag _ hstream done hdone hs' ?_
      exact hwhy.imp_right fun hno chunks hchunks => hno chunks (hyields chunks hchunks)

/-- Whether an unchanged object may be left alone: only if its points agree on its tag. -/
theorem hwp_unchanged {Q : Bool → List Event → World → Prop} {v : Version}
    (hK : Stable (kb, objectKey) R K) (H : Holds (kb, objectKey) K s m read h w)
    (hyes : ∀ h' w', skip = .ifUnchanged → s.indexedEtag = some v.etag.val →
      Holds (kb, objectKey) K s m read h' w' → Q true h' w')
    (hno : ∀ h' w', Holds (kb, objectKey) K s m read h' w' → Q false h' w') :
    hwp S R (unchanged kb objectKey (v.objectMeta objectKey v.size) skip) Q h w := by
  cases skip with
  | never => exact hwp_ret hK H (hno h)
  | ifUnchanged =>
    refine hwp_silent hK trivial H (fun w₁ stamp h' w' hs H' => ?_) fun r h' w' hmay hr H' => ?_
    · simp only [World.perform, hs]
      refine hwp_ret hK H' fun w'' H'' => ?_
      by_cases heq : s.indexedEtag = some v.etag.val
      · simpa [heq] using hyes h' w'' rfl heq H''
      · simpa [heq] using hno h' w'' H''
    · obtain ⟨e, rfl⟩ := hr
      exact hwp_ret hK H' (hno h')

theorem hwp_indexHead {v : Version} (hO : Observes (kb, objectKey) R seen)
    (H : Holds (kb, objectKey) (seen (some v)) pre 0 none h w) :
    hwp S R (indexHead worker kb objectKey (v.objectMeta objectKey v.size)
      (resolveMime v.contentType objectKey) skip)
      (fun _ h w => Ends worker S (kb, objectKey) seen skip pre h w) h w := by
  have hK := hO.stable (some v)
  unfold indexHead
  split
  · next hmime =>
    refine hwp_removeFromIndex hK H (fun a h' w' H' => H'.ends ?_) fun a h' w' hmay H' => H'.ends ?_
    · exact .excluded v H'.knows (.inl (by simpa using hmime))
    · exact .failed hmay (.inl rfl)
  · split
    · next hsize =>
      refine hwp_removeFromIndex hK H (fun a h' w' H' => H'.ends ?_)
        fun a h' w' hmay H' => H'.ends ?_
      · exact .excluded v H'.knows (.inr hsize)
      · exact .failed hmay (.inl rfl)
    · apply wp.bind
      refine hwp_unchanged hK H (fun h' w' hskip hindexed H' => ?_) fun h' w' H' => ?_
      · exact hwp_ret hK H' fun w'' H'' => H''.ends (.skipped v H''.knows hskip hindexed)
      · simp only [Bool.false_eq_true, if_false]
        split
        · next hlimit =>
          refine hwp_ret hK H' fun w'' H'' => H''.ends (.refused v H''.knows fun chunks hy => ?_)
          exact hy.limit hlimit
        · next hlimit =>
          apply wp.bind
          refine hwp_stageSnapshot hO H' (fun snapshot v' h' w' hv' H' => ?_)
            fun e h' w' (hend : Ends worker S (kb, objectKey) seen skip pre h' w') => ?_
          · exact hwp_indexSnapshot hO hlimit ⟨hv'.body, hv'.etag, hv'.inspected⟩ H'
          · exact hwp_ended hO (show Prog.Only Silent (fun _ => True) (.ret _) from trivial) hend

theorem hwp_handleUpsert {told : Told} (hO : Observes (kb, objectKey) R seen)
    (hpre : w.points (kb, objectKey) = pre) :
    hwp S R (handleUpsert worker kb objectKey skip told)
      (fun _ h w => Ends worker S (kb, objectKey) seen skip pre h w) [] w := by
  have htombstone : ∀ o h' w', Holds (kb, objectKey) (seen o) pre 0 none h' w' →
      (objectKey.isReserved = true ∨ o = none ∨ ∃ o, S.mayFail o) →
      hwp S R (tombstoneBeforeHead kb objectKey)
        (fun _ h w => Ends worker S (kb, objectKey) seen skip pre h w) h' w' := by
    intro o h' w' H' hwhy
    refine hwp_tombstoneBeforeHead (hO.stable o) H' (fun a h'' w'' H'' => H''.ends ?_)
      fun a h'' w'' hmay H'' => H''.ends (.failed hmay (.inl rfl))
    rcases hwhy with hreserved | rfl | hmay
    · exact .missing (.inl hreserved)
    · exact .missing (.inr H''.knows)
    · exact .failed hmay (.inr rfl)
  unfold handleUpsert
  split
  · next hreserved =>
    exact htombstone _ _ _ ⟨hO.found w, hpre, rfl, rfl⟩ (.inl hreserved)
  · refine hwp_head hO hpre (fun h' w' H' => ?_) (fun v h' w' H' => ?_)
      fun e h' w' o hmay hmessage H' => ?_
    · apply wp.bind
      refine hwp_only_silent (hO.stable none) tellMissing_silent H' fun a h' w' _ H' => ?_
      exact htombstone none _ _ H' (.inr (.inl rfl))
    · apply wp.bind
      refine hwp_only_silent (hO.stable _) tellFound_silent H' fun a h' w' _ H' => ?_
      apply wp.bind
      refine (hwp_indexHead hO H').mono fun a h' w' hend => ?_
      cases a with
      | error message =>
        exact hwp_ended hO (show Prog.Only Silent (fun _ => True) (.ret _) from trivial) hend
      | ok outcome =>
        exact hwp_ended hO (show Prog.Only Silent (fun _ => True) (.ret _) from trivial) hend
    · have hfailed : ∀ a, hwp S R (.ret a : Program (Except PipelineFailure PipelineOutcome))
          (fun _ h w => Ends worker S (kb, objectKey) seen skip pre h w) h' w' := by
        intro a
        exact hwp_ret (hO.stable o) H' fun w'' H'' => H''.ends (.failed hmay (.inl rfl))
      obtain ⟨message, rfl | rfl⟩ := hmessage
      · cases told with
        | deleted => exact htombstone o _ _ H' (.inr (.inr hmay))
        | _ => exact hfailed _
      · cases told with
        | deleted => exact htombstone o _ _ H' (.inr (.inr hmay))
        | _ => exact hfailed _

/-- Whether a handling of the event may skip an unchanged object. -/
def skipOf : IndexEvent → Skip
  | .upsert .. => .never
  | .refresh .. => .ifUnchanged
  | .tombstone .. => .ifUnchanged

/-- What one handling of an event does. -/
theorem hwp_handle {event : IndexEvent} (hO : Observes event.key R seen)
    (hpre : w.points event.key = pre) :
    hwp S R (handle worker event)
      (fun _ h w => Ends worker S event.key seen (skipOf event) pre h w) [] w := by
  cases event with
  | upsert kb objectKey =>
    apply wp.bind
    exact (hwp_handleUpsert hO hpre).mono fun a h w hend => hwp_ended hO reportOutcome_silent hend
  | refresh kb objectKey origin =>
    apply wp.bind
    exact (hwp_handleUpsert hO hpre).mono fun a h w hend => hwp_ended hO reportOutcome_silent hend
  | tombstone kb objectKey =>
    apply wp.bind
    exact (hwp_handleUpsert hO hpre).mono fun a h w hend => hwp_ended hO reportOutcome_silent hend

end Indexer
