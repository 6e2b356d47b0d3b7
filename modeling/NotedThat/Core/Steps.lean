-- SUMMARY: What one operation on the shared world can answer and change, one inversion lemma for each operation.
import NotedThat.Core.World

/-!
# Steps of the world

Proofs about programs never unfold `StorageOp.eval`. They take the answer of an operation apart
with the lemmas of this module.
-/

namespace Semantics

variable {S : Semantics} {w w' : World}

theorem Step.storage_cases {o : StorageOp} {r : Except StorageError o.Out}
    (h : S.Step w (.storage o) r w') :
    (∃ stamp, S.admissible w.store (o.eval S.parseHttpDate stamp w.store.objects).2 ∧
        r = (o.eval S.parseHttpDate stamp w.store.objects).1 ∧
        w' = w.apply (o.eval S.parseHttpDate stamp w.store.objects).2) ∨
      (S.mayFail (.storage o) ∧ (Op.storage o).Failed r ∧ w' = w) := by
  cases h with
  | storage _ stamp hadm => exact .inl ⟨stamp, hadm, rfl, rfl⟩
  | other _ stamp hne => exact absurd rfl (hne o)
  | failed _ _ hmay hfail => exact .inr ⟨hmay, hfail, rfl⟩

theorem Step.other_cases {o : Op} {r : o.Res} (hne : ∀ o', o ≠ .storage o')
    (h : S.Step w o r w') :
    (∃ stamp, r = (w.perform S.parseHttpDate stamp o).1 ∧
        w' = (w.perform S.parseHttpDate stamp o).2) ∨
      (S.mayFail o ∧ o.Failed r ∧ w' = w) := by
  cases h with
  | storage o stamp hadm => exact absurd rfl (hne o)
  | other _ stamp hne => exact .inl ⟨stamp, rfl, rfl⟩
  | failed _ _ hmay hfail => exact .inr ⟨hmay, hfail, rfl⟩

/-- A storage operation whose evaluation is known. -/
theorem Step.of_eval {o : StorageOp} {stamp : Stamp} {r : Except StorageError o.Out}
    {effect : StorageOp.Effect} (heval : o.eval S.parseHttpDate stamp w.store.objects = (r, effect))
    (hadm : S.admissible w.store effect) : S.Step w (.storage o) r (w.apply effect) := by
  have hstep := @Step.storage S w o stamp
  rw [heval] at hstep
  exact hstep hadm

/-! ## Reads -/

variable {kb : KbSlug} {path : ObjectPath} {c : ConditionalHeaders}

theorem Step.head_ok {m : ObjectMeta} (h : S.Step w (.storage (.head kb path c)) (.ok m) w') :
    w' = w ∧ ∃ v, w.get (kb, path) = some v ∧ m = v.objectMeta path v.size := by
  rcases h.storage_cases with ⟨stamp, -, hr, rfl⟩ | ⟨-, ⟨message, hr | hr⟩, -⟩
  · rw [StorageOp.eval_head_effect]
    exact ⟨rfl, StorageOp.eval_head_ok hr.symm⟩
  · cases hr
  · cases hr

theorem Step.head_world {r : Except StorageError ObjectMeta}
    (h : S.Step w (.storage (.head kb path c)) r w') : w' = w := by
  rcases h.storage_cases with ⟨stamp, -, -, rfl⟩ | ⟨-, -, rfl⟩
  · rw [StorageOp.eval_head_effect]
    rfl
  · rfl

theorem Step.get_ok {range : Option ByteRange} {read : ObjectRead}
    (h : S.Step w (.storage (.get kb path range c)) (.ok read) w') :
    w' = w ∧ ∃ v, w.get (kb, path) = some v ∧
      Preconditions.evaluateReadPreconditions S.parseHttpDate v.etag.val v.lastModified c =
        .ok () ∧
      StorageOp.readVersion path v range = .ok read := by
  rcases h.storage_cases with ⟨stamp, -, hr, rfl⟩ | ⟨-, ⟨message, hr | hr⟩, -⟩
  · rw [StorageOp.eval_get_effect]
    exact ⟨rfl, StorageOp.eval_get_ok hr.symm⟩
  · cases hr
  · cases hr

theorem Step.get_world {range : Option ByteRange} {r : Except StorageError ObjectRead}
    (h : S.Step w (.storage (.get kb path range c)) r w') : w' = w := by
  rcases h.storage_cases with ⟨stamp, -, -, rfl⟩ | ⟨-, -, rfl⟩
  · rw [StorageOp.eval_get_effect]
    rfl
  · rfl

/-- A range is refused because the current version has no such bytes. -/
theorem Step.get_unsatisfiable {range : Option ByteRange} {length : Nat}
    (h : S.Step w (.storage (.get kb path range c)) (.error (.rangeNotSatisfiable length)) w') :
    ∃ v r, w.get (kb, path) = some v ∧ range = some r ∧ r.toExclusiveRange v.size = none := by
  rcases h.storage_cases with ⟨stamp, -, hr, -⟩ | ⟨-, ⟨message, hr | hr⟩, -⟩
  · simp only [StorageOp.eval] at hr
    split at hr
    · cases hr
    · next v hv =>
      split at hr
      · next e he =>
        cases hr
        exact absurd he Preconditions.evaluateReadPreconditions_ne_range
      · refine ⟨v, ?_⟩
        rcases Except.bind_eq_error.mp hr.symm with hrange | ⟨resolved, -, hread⟩
        · unfold ByteRange.resolveRange at hrange
          split at hrange
          · cases hrange
          · next r =>
            split at hrange
            · next hnone => exact ⟨r, hv, rfl, hnone⟩
            · cases hrange
        · split at hread <;> cases hread
  · cases hr
  · cases hr

/-- An unconditional HEAD fails because there is no object, or because the backend does. -/
theorem Step.head_error {e : StorageError}
    (h : S.Step w (.storage (.head kb path {})) (.error e) w') :
    (w.get (kb, path) = none ∧ e = .notFound path.val) ∨
      (S.mayFail (.storage (.head kb path {})) ∧
        ∃ message, e = .backendUnavailable message ∨ e = .other message) := by
  rcases h.storage_cases with ⟨stamp, -, hr, -⟩ | ⟨hmay, ⟨message, hr⟩, -⟩
  · have hnone := StorageOp.eval_head_error hr.symm
    refine .inl ⟨hnone, ?_⟩
    simp only [StorageOp.eval, hnone] at hr
    exact Except.error.inj hr
  · refine .inr ⟨hmay, message, ?_⟩
    simpa using hr

/-- An unconditional HEAD may answer with the current version. -/
theorem Step.head {v : Version} (hv : w.get (kb, path) = some v)
    (hadm : S.admissible w.store .unchanged) :
    S.Step w (.storage (.head kb path {})) (.ok (v.objectMeta path v.size)) w := by
  have hstep := @Step.storage S w (.head kb path {}) ⟨v.etag, v.lastModified⟩
  rw [StorageOp.eval_head hv] at hstep
  exact hstep hadm

/-- An unconditional read may answer with the current version. -/
theorem Step.get {range : Option ByteRange} {v : Version} {r : Except StorageError ObjectRead}
    (hv : w.get (kb, path) = some v) (hr : StorageOp.readVersion path v range = r)
    (hadm : S.admissible w.store .unchanged) : S.Step w (.storage (.get kb path range {})) r w := by
  subst hr
  have hstep := @Step.storage S w (.get kb path range {}) ⟨v.etag, v.lastModified⟩
  rw [StorageOp.eval_get hv] at hstep
  exact hstep hadm

/-- A read pinned to an entity tag serves the whole current version, which has that tag. -/
theorem Step.get_pinned_ok {expected : ETag} {read : ObjectRead}
    (h : S.Step w (.storage (.get kb path none (.ofIfMatch expected.val))) (.ok read) w') :
    ∃ v, w.get (kb, path) = some v ∧ v.etag = expected ∧ read = v.wholeRead path := by
  obtain ⟨-, v, hv, hpre, hread⟩ := h.get_ok
  rw [Preconditions.evaluateReadPreconditions_ofIfMatch] at hpre
  split at hpre
  · next hetag =>
    cases hread
    exact ⟨v, hv, hetag, rfl⟩
  · cases hpre

/-- A read pinned to an entity tag fails because no object has it, or because the backend
does. -/
theorem Step.get_pinned_error {expected : ETag} {e : StorageError}
    (h : S.Step w (.storage (.get kb path none (.ofIfMatch expected.val))) (.error e) w') :
    (∀ v, w.get (kb, path) = some v → v.etag ≠ expected) ∨ ∃ o, S.mayFail o := by
  rcases h.storage_cases with ⟨stamp, -, hr, -⟩ | ⟨hmay, -, -⟩
  · refine .inl fun v hv hetag => ?_
    simp only [StorageOp.eval, show w.store.objects.get (kb, path) = some v from hv,
      Preconditions.evaluateReadPreconditions_ofIfMatch, hetag, if_true] at hr
    cases hr
  · exact .inr ⟨_, hmay⟩

/-! ## Writes -/

theorem Step.put_cases {bytes : Bytes} {contentType : Option Text}
    {r : Except StorageError PutOutcome}
    (h : S.Step w (.storage (.put kb path bytes contentType c)) r w') :
    (∃ e, r = .error e ∧ w' = w) ∨
      ∃ stamp : Stamp, S.admissible w.store
          (.stored (kb, path) ⟨bytes, contentType, stamp.etag, stamp.lastModified⟩) ∧
        Preconditions.evaluateWritePreconditions ((w.get (kb, path)).map (·.etag.val)) c = .ok () ∧
        r = .ok ⟨some stamp.etag.val, (w.get (kb, path)).isNone⟩ ∧
        w' = w.apply (.stored (kb, path) ⟨bytes, contentType, stamp.etag, stamp.lastModified⟩) := by
  rcases h.storage_cases with ⟨stamp, hadm, rfl, rfl⟩ | ⟨-, ⟨message, hr | hr⟩, rfl⟩
  · rcases StorageOp.eval_put_cases with ⟨e, he⟩ | ⟨hpre, he⟩
    · rw [he]
      exact .inl ⟨e, rfl, rfl⟩
    · rw [he] at hadm ⊢
      exact .inr ⟨stamp, hadm, hpre, rfl, rfl⟩
  · exact .inl ⟨_, hr, rfl⟩
  · exact .inl ⟨_, hr, rfl⟩

/-- A write whose conditions hold may succeed with any admissible stamp. -/
theorem Step.put {bytes : Bytes} {contentType : Option Text} {stamp : Stamp}
    (hpre : Preconditions.evaluateWritePreconditions ((w.get (kb, path)).map (·.etag.val)) c = .ok ())
    (hadm : S.admissible w.store
      (.stored (kb, path) ⟨bytes, contentType, stamp.etag, stamp.lastModified⟩)) :
    S.Step w (.storage (.put kb path bytes contentType c))
      (.ok ⟨some stamp.etag.val, (w.get (kb, path)).isNone⟩)
      (w.apply (.stored (kb, path) ⟨bytes, contentType, stamp.etag, stamp.lastModified⟩)) := by
  refine @Step.of_eval S w _ stamp _ _ ?_ hadm
  rcases @StorageOp.eval_put_cases S.parseHttpDate stamp w.store.objects kb path c bytes contentType with
    ⟨e, he⟩ | ⟨-, he⟩
  · simp only [StorageOp.eval, show Preconditions.evaluateWritePreconditions
      ((w.store.objects.get (kb, path)).map (·.etag.val)) c = .ok () from hpre] at he
    cases he
  · exact he

theorem Step.copy_cases {source destination : ObjectPath} {options : CopyObjectOptions}
    {r : Except StorageError PutOutcome}
    (h : S.Step w (.storage (.copy kb source destination options)) r w') :
    (∃ e, r = .error e ∧ w' = w) ∨
      ∃ v stamp, w.get (kb, source) = some v ∧
        (∀ expected ∈ options.sourceIfMatch,
          Preconditions.matchesIfMatch v.etag.val expected = true) ∧
        Preconditions.evaluateWritePreconditions ((w.get (kb, destination)).map (·.etag.val))
          { ifNoneMatch := options.destinationIfNoneMatch } = .ok () ∧
        S.admissible w.store (.stored (kb, destination) (StorageOp.copied v options stamp)) ∧
        r = .ok ⟨some stamp.etag.val, (w.get (kb, destination)).isNone⟩ ∧
        w' = w.apply (.stored (kb, destination) (StorageOp.copied v options stamp)) := by
  rcases h.storage_cases with ⟨stamp, hadm, rfl, rfl⟩ | ⟨-, ⟨message, hr | hr⟩, rfl⟩
  · rcases StorageOp.eval_copy_cases with ⟨e, he⟩ | ⟨v, hv, hmatch, hpre, he⟩
    · rw [he]
      exact .inl ⟨e, rfl, rfl⟩
    · rw [he] at hadm ⊢
      exact .inr ⟨v, stamp, hv, hmatch, hpre, hadm, rfl, rfl⟩
  · exact .inl ⟨_, hr, rfl⟩
  · exact .inl ⟨_, hr, rfl⟩

/-- A copy whose conditions hold may succeed with any admissible stamp. -/
theorem Step.copy {source destination : ObjectPath} {options : CopyObjectOptions} {v : Version}
    {stamp : Stamp} (hv : w.get (kb, source) = some v)
    (hmatch : ∀ expected ∈ options.sourceIfMatch,
      Preconditions.matchesIfMatch v.etag.val expected = true)
    (hpre : Preconditions.evaluateWritePreconditions ((w.get (kb, destination)).map (·.etag.val))
      { ifNoneMatch := options.destinationIfNoneMatch } = .ok ())
    (hadm : S.admissible w.store
      (.stored (kb, destination) (StorageOp.copied v options stamp))) :
    S.Step w (.storage (.copy kb source destination options))
      (.ok ⟨some stamp.etag.val, (w.get (kb, destination)).isNone⟩)
      (w.apply (.stored (kb, destination) (StorageOp.copied v options stamp))) := by
  exact .of_eval (StorageOp.eval_copy_ok hv hmatch hpre) hadm

theorem Step.delete_cases {r : Except StorageError DeleteOutcome}
    (h : S.Step w (.storage (.delete kb path c)) r w') :
    (∃ e, r = .error e ∧ w' = w) ∨
      (w.get (kb, path) = none ∧ r = .ok .notFound ∧ w' = w) ∨
      ∃ v, w.get (kb, path) = some v ∧
        (∀ expected ∈ c.ifMatch, Preconditions.matchesIfMatch v.etag.val expected = true) ∧
        S.admissible w.store (.erased (kb, path)) ∧ r = .ok .deleted ∧
        w' = w.apply (.erased (kb, path)) := by
  rcases h.storage_cases with ⟨stamp, hadm, rfl, rfl⟩ | ⟨-, ⟨message, hr | hr⟩, rfl⟩
  · rcases StorageOp.eval_delete_cases with ⟨e, he⟩ | ⟨hnone, he⟩ | ⟨v, hv, hmatch, he⟩
    · rw [he]
      exact .inl ⟨e, rfl, rfl⟩
    · rw [he]
      exact .inr (.inl ⟨hnone, rfl, rfl⟩)
    · rw [he] at hadm ⊢
      exact .inr (.inr ⟨v, hv, hmatch, hadm, rfl, rfl⟩)
  · exact .inl ⟨_, hr, rfl⟩
  · exact .inl ⟨_, hr, rfl⟩

/-- A delete whose condition holds may succeed. -/
theorem Step.delete {v : Version} (hv : w.get (kb, path) = some v)
    (hmatch : ∀ expected ∈ c.ifMatch, Preconditions.matchesIfMatch v.etag.val expected = true)
    (hadm : S.admissible w.store (.erased (kb, path))) :
    S.Step w (.storage (.delete kb path c)) (.ok .deleted) (w.apply (.erased (kb, path))) := by
  refine @Step.of_eval S w _ ⟨v.etag, v.lastModified⟩ _ _ ?_ hadm
  have hnone : (c.ifMatch.any fun expected => !Preconditions.matchesIfMatch v.etag.val expected) = false := by
    cases hopt : c.ifMatch with
    | none => rfl
    | some expected => simp [hmatch expected hopt]
  simp only [StorageOp.eval, show w.store.objects.get (kb, path) = some v from hv, hnone, Bool.false_eq_true,
    if_false]

/-- A delete never reports a missing object as an error. -/
theorem Step.delete_ne_notFound {key : Text}
    (h : S.Step w (.storage (.delete kb path c)) (.error (.notFound key)) w') : False := by
  rcases h.storage_cases with ⟨stamp, -, hr, -⟩ | ⟨-, ⟨message, hr | hr⟩, -⟩
  · simp only [StorageOp.eval] at hr
    split at hr
    · cases hr
    · split at hr
      · cases hr
      · cases hr
  · cases hr
  · cases hr

/-- Whatever the operation, the store moves by an admissible effect. -/
theorem Step.store_effect {o : Op} {r : o.Res} (h : S.Step w o r w') :
    w'.store = w.store ∨
      ∃ effect, S.admissible w.store effect ∧ w'.store = w.store.apply effect true := by
  cases h with
  | storage o stamp hadm => exact .inr ⟨_, hadm, rfl⟩
  | other _ stamp hne =>
    cases o with
    | storage o => exact absurd rfl (hne o)
    | _ => exact .inl rfl
  | failed _ _ hmay hfail => exact .inl rfl

/-- Only storage operations move the store. -/
theorem Step.store_eq {o : Op} {r : o.Res} (hne : ∀ o', o ≠ .storage o') (h : S.Step w o r w') :
    w'.store = w.store := by
  rcases h.other_cases hne with ⟨stamp, -, rfl⟩ | ⟨-, -, rfl⟩
  · cases o with
    | storage o => exact absurd rfl (hne o)
    | _ => rfl
  · rfl

/-- Nobody takes from the index queue by an operation. -/
theorem Step.queue_subset {o : Op} {r : o.Res} (h : S.Step w o r w') : w.queue ⊆ w'.queue := by
  cases h with
  | storage o stamp hadm => exact fun _ he => he
  | other _ stamp hne =>
    cases o with
    | storage o => exact absurd rfl (hne o)
    | trySend event => exact List.subset_append_left _ _
    | _ => exact fun _ he => he
  | failed _ _ hmay hfail => exact fun _ he => he

/-- An offer that does not fail is queued. -/
theorem Step.trySend_queue {event : IndexEvent} {r : Offered} (h : S.Step w (.trySend event) r w')
    (hS : ¬ S.mayFail (.trySend event)) : event ∈ w'.queue := by
  rcases h.other_cases (by simp) with ⟨stamp, -, rfl⟩ | ⟨hmay, -⟩
  · simp [World.perform]
  · exact absurd hmay hS

/-- What the history gains, the server has stored. -/
theorem Step.history_cases {o : Op} {r : o.Res} (h : S.Step w o r w') :
    (∀ e ∈ w.store.history, e ∈ w'.store.history) ∧
      (∀ e ∈ w.store.written, e ∈ w'.store.written) ∧
      ∀ e ∈ w'.store.history, e ∈ w.store.history ∨ e ∈ w'.store.written := by
  rcases h.store_effect with heq | ⟨effect, -, heq⟩
  · rw [heq]
    exact ⟨fun _ he => he, fun _ he => he, fun _ he => .inl he⟩
  · rw [heq]
    refine ⟨fun e he => w.store.history_subset_apply effect true he, ?_⟩
    cases effect with
    | unchanged => exact ⟨fun _ he => he, fun _ he => .inl he⟩
    | stored k v =>
      refine ⟨fun e he => List.mem_append_left _ he, fun e he => ?_⟩
      rcases List.mem_append.mp he with he | he
      · exact .inl he
      · exact .inr (List.mem_append_right _ he)
    | erased k => exact ⟨fun _ he => he, fun _ he => .inl he⟩

/-- The event log grows by what is published. -/
theorem Step.events_cases {o : Op} {r : o.Res} (h : S.Step w o r w') :
    w'.events = w.events ∨ ∃ event, o = .publish event ∧ w'.events = w.events ++ [event] := by
  cases h with
  | storage o stamp hadm => exact .inl rfl
  | other _ stamp hne =>
    cases o with
    | storage o => exact absurd rfl (hne o)
    | publish event => exact .inr ⟨event, rfl, rfl⟩
    | _ => exact .inl rfl
  | failed _ _ hmay hfail => exact .inl rfl

/-- What was last seen changes by what is recorded. -/
theorem Step.lastSeen_cases {o : Op} {r : o.Res} (h : S.Step w o r w') :
    w'.lastSeen = w.lastSeen ∨
      ∃ k etag, o = .remember k etag ∧ w'.lastSeen = w.lastSeen.record k etag := by
  cases h with
  | storage o stamp hadm => exact .inl rfl
  | other _ stamp hne =>
    cases o with
    | remember k etag => exact .inr ⟨k, etag, rfl, rfl⟩
    | storage o => exact absurd rfl (hne o)
    | _ => exact .inl rfl
  | failed _ _ hmay hfail => exact .inl rfl

/-- A publication that does not fail is on the log. -/
theorem Step.publish_events {event : ObjectEvent} {r : Except String Unit}
    (h : S.Step w (.publish event) r w') (hS : ¬ S.mayFail (.publish event)) :
    event ∈ w'.events := by
  rcases h.other_cases (by simp) with ⟨stamp, -, rfl⟩ | ⟨hmay, -⟩
  · simp [World.perform]
  · exact absurd hmay hS

end Semantics
