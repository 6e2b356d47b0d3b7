-- SUMMARY: What a stored change obliges a write request to, and that every write request does it.
import NotedThat.Lib.Promises
import NotedThat.Webdav.CopyMove
import NotedThat.Write.Patch

/-!
# The duties of a write

Storing, publishing and enqueueing are separate steps, and other parties see what is in between. A
request that has changed an object still owes the offer of its event to the index queue and, where
there is an event log, its publication. No answer it may get lets it return without them.
-/

namespace Write

/-- The offer of an event to the index queue. -/
def Offers (event : IndexEvent) (o : Op) : Prop := o = .trySend event

/-- The publication of a write of `k` under an entity tag. -/
def Announces (k : Key) (etag : Text) (o : Op) : Prop :=
  ∃ size mime source, o = .publish ⟨k.1, k.2, .written etag size mime, source⟩

/-- What a stored version of `k` obliges to. -/
def Reports (events : Bool) (k : Key) (outcome : PutOutcome) (A : Op → Prop) : Prop :=
  A = Offers (.upsert k.1 k.2) ∨ (events = true ∧ A = Announces k (outcome.etag.getD []))

/-- What the answer of an operation obliges a request to. -/
def duties (events : Bool) : (o : Op) → o.Res → (Op → Prop) → Prop
  | .storage (.put kb path _ _ _), .ok outcome, A => Reports events (kb, path) outcome A
  | .storage (.copy kb _ destination _), .ok outcome, A =>
    Reports events (kb, destination) outcome A
  | .storage (.delete kb path _), .ok .deleted, A => A = Offers (.tombstone kb path)
  | _, _, _ => False

/-- The operations of a write request: it leaves the vector store, the outcomes of indexing and what
was last seen to the worker. -/
def RequestOp : Op → Prop
  | .publish event => ∀ etag mime chunks, event.kind ≠ .indexed etag mime chunks
  | .upsertPoints .. => False
  | .deletePoints .. => False
  | .remember .. => False
  | .isNews .. => False
  | _ => True

/-- The program does what the changes it makes oblige it to. -/
abbrev Dutiful {α : Type} (events : Bool) (p : Program α) : Prop :=
  p.Honours RequestOp (duties events)

/-! ## Changes -/

/-- A request leaves the points alone. -/
theorem RequestOp.points {S : Semantics} {w w' : World} {o : Op} {r : o.Res} (ho : RequestOp o)
    (h : S.Step w o r w') : w'.points = w.points := by
  cases h with
  | storage o stamp hadm => rfl
  | other _ stamp hne =>
    cases o with
    | upsertPoints kb points => exact ho.elim
    | deletePoints kb selector => exact ho.elim
    | storage o => exact absurd rfl (hne o)
    | _ => rfl
  | failed _ _ hmay hfail => rfl

/-- An operation that changes what a key holds obliges to the event of the change: the event of a
write or, where the key is left without an object, that of a deletion. -/
theorem get_eq_or_duties {S : Semantics} {w w' : World} {o : Op} {r : o.Res} (events : Bool)
    (h : S.Step w o r w') (k : Key) :
    w'.get k = w.get k ∨ duties events o r (Offers (.upsert k.1 k.2)) ∨
      (w'.get k = none ∧ duties events o r (Offers (.tombstone k.1 k.2))) := by
  have stored : ∀ k' v, k ≠ k' → (w.apply (.stored k' v)).get k = w.get k := by
    intro k' v hk
    simp [World.get, Store.get_apply, hk]
  cases o with
  | storage o =>
    cases o with
    | head kb path c =>
      rw [h.head_world]
      exact .inl rfl
    | get kb path range c =>
      rw [h.get_world]
      exact .inl rfl
    | put kb path bytes contentType c =>
      rcases h.put_cases with ⟨e, rfl, rfl⟩ | ⟨stamp, -, -, rfl, rfl⟩
      · exact .inl rfl
      · by_cases hk : k = (kb, path)
        · subst hk
          exact .inr (.inl (.inl rfl))
        · exact .inl (stored _ _ hk)
    | copy kb source destination options =>
      rcases h.copy_cases with ⟨e, rfl, rfl⟩ | ⟨v, stamp, -, -, -, -, rfl, rfl⟩
      · exact .inl rfl
      · by_cases hk : k = (kb, destination)
        · subst hk
          exact .inr (.inl (.inl rfl))
        · exact .inl (stored _ _ hk)
    | delete kb path c =>
      rcases h.delete_cases with ⟨e, rfl, rfl⟩ | ⟨-, rfl, rfl⟩ | ⟨v, -, -, -, rfl, rfl⟩
      · exact .inl rfl
      · exact .inl rfl
      · by_cases hk : k = (kb, path)
        · subst hk
          refine .inr (.inr ⟨?_, rfl⟩)
          simp [World.get, Store.get_apply]
        · refine .inl ?_
          simp [World.get, Store.get_apply, hk]
    | list kb pre limit cursor =>
      rcases h.storage_cases with ⟨stamp, -, -, rfl⟩ | ⟨-, -, rfl⟩
      · exact .inl rfl
      · exact .inl rfl
  | _ =>
    refine .inl ?_
    rw [World.get, h.store_eq (by simp)]

/-- An operation that stores a version obliges to its announcement. -/
theorem written_or_duties {S : Semantics} {w w' : World} {o : Op} {r : o.Res}
    (h : S.Step w o r w') {k : Key} {v : Version} (hv : (k, v) ∈ w'.store.written) :
    (k, v) ∈ w.store.written ∨ duties true o r (Announces k v.etag.val) := by
  have stored : ∀ {k' u}, (k, v) ∈ (w.apply (.stored k' u)).store.written →
      (k, v) ∈ w.store.written ∨ (k = k' ∧ v = u) := by
    intro k' u hmem
    rcases List.mem_append.mp hmem with hmem | hmem
    · exact .inl hmem
    · exact .inr (Prod.mk.inj (List.mem_singleton.mp hmem))
  cases o with
  | storage o =>
    cases o with
    | head kb path c =>
      rw [h.head_world] at hv
      exact .inl hv
    | get kb path range c =>
      rw [h.get_world] at hv
      exact .inl hv
    | put kb path bytes contentType c =>
      rcases h.put_cases with ⟨e, rfl, rfl⟩ | ⟨stamp, -, -, rfl, rfl⟩
      · exact .inl hv
      · refine (stored hv).imp_right ?_
        rintro ⟨rfl, rfl⟩
        exact .inr ⟨rfl, rfl⟩
    | copy kb source destination options =>
      rcases h.copy_cases with ⟨e, rfl, rfl⟩ | ⟨u, stamp, -, -, -, -, rfl, rfl⟩
      · exact .inl hv
      · refine (stored hv).imp_right ?_
        rintro ⟨rfl, rfl⟩
        exact .inr ⟨rfl, rfl⟩
    | delete kb path c =>
      rcases h.delete_cases with ⟨e, rfl, rfl⟩ | ⟨-, rfl, rfl⟩ | ⟨u, -, -, -, rfl, rfl⟩
      · exact .inl hv
      · exact .inl hv
      · exact .inl hv
    | list kb pre limit cursor =>
      rcases h.storage_cases with ⟨stamp, -, -, rfl⟩ | ⟨-, -, rfl⟩
      · exact .inl hv
      · exact .inl hv
  | _ =>
    rw [h.store_eq (by simp)] at hv
    exact .inl hv

variable {α : Type} {events : Bool} {sinks : WriteSinks} {json : ManifestJson} {kb : KbSlug}
variable {path source destination : ObjectPath}

theorem dutiful_head {c : ConditionalHeaders} {k : Except StorageError ObjectMeta → Program α}
    (hk : ∀ r, Dutiful events (k r)) : Dutiful events (Program.storage (.head kb path c) >>= k) :=
  .call trivial (fun _ _ h => h) hk

theorem dutiful_get {range : Option ByteRange} {c : ConditionalHeaders}
    {k : Except StorageError ObjectRead → Program α} (hk : ∀ r, Dutiful events (k r)) :
    Dutiful events (Program.storage (.get kb path range c) >>= k) :=
  .call trivial (fun _ _ h => h) hk

/-! ## Reporting a change -/

theorem announce_dutiful {event : ObjectEvent} {after : WriteEffect}
    (hkind : ∀ etag mime chunks, event.kind ≠ .indexed etag mime chunks) :
    Dutiful events (announce sinks event after) := by
  unfold announce
  split
  · refine .call hkind (fun _ _ h => h) fun r => ?_
    cases r with
    | ok u => trivial
    | error e => trivial
  · trivial

theorem offerToIndex_dutiful {indexEvent : IndexEvent} {backpressure : WriteError}
    {published : Except WriteError Unit} :
    Dutiful events (offerToIndex indexEvent backpressure published) := by
  refine .call trivial (fun _ _ h => h) fun r => ?_
  cases r with
  | queued => trivial
  | full => trivial
  | closed => trivial

theorem report_dutiful {event : ObjectEvent} {after : WriteEffect} {indexEvent : IndexEvent}
    {backpressure : WriteError}
    (hkind : ∀ etag mime chunks, event.kind ≠ .indexed etag mime chunks) :
    Dutiful events (report sinks event after indexEvent backpressure) :=
  (announce_dutiful hkind).bind fun _ => offerToIndex_dutiful

/-- Whether or not the publication succeeds, the event is offered. -/
theorem report_offers {event : ObjectEvent} {after : WriteEffect} {indexEvent : IndexEvent}
    {backpressure : WriteError} :
    (report sinks event after indexEvent backpressure).Will (Offers indexEvent) :=
  .later fun _ => .inl rfl

theorem afterWrite_dutiful {outcome : PutOutcome} {size : Nat} {mime : Text} :
    Dutiful events (afterWrite sinks kb path outcome size mime) :=
  report_dutiful fun _ _ _ h => by cases h

theorem afterDelete_dutiful : Dutiful events (afterDelete sinks kb path) :=
  report_dutiful fun _ _ _ h => by cases h

/-- The report of a write is all that the write obliges to. -/
theorem afterWrite_will {outcome : PutOutcome} {size : Nat} {mime : Text} {A : Op → Prop}
    (hA : Reports sinks.events (kb, path) outcome A) :
    (afterWrite sinks kb path outcome size mime).Will A := by
  rcases hA with rfl | ⟨hevents, rfl⟩
  · exact report_offers
  · refine Prog.Will.bind ?_
    rw [announce, if_pos hevents]
    exact .inl ⟨size, mime, sinks.source, rfl⟩

/-! ## Whole writes -/

/-- A report with a return after it. -/
theorem dutiful_afterWrite {outcome : PutOutcome} {size : Nat} {mime : Text} {a : α} :
    Dutiful events (afterWrite sinks kb path outcome size mime >>= fun reported =>
      match reported with
      | .error e => (.ret (.error e) : Program (Except WriteError α))
      | .ok () => .ret (.ok a)) := by
  refine afterWrite_dutiful.bind fun reported => ?_
  cases reported with
  | error e => trivial
  | ok u => trivial

theorem commit_dutiful {body : StagedBody} {callerContentType : Option Text}
    {conditionals : ConditionalHeaders} :
    Dutiful sinks.events (commit json sinks kb path body callerContentType conditionals) := by
  unfold commit
  split
  · trivial
  · split
    · trivial
    · refine ⟨trivial, fun r => ?_⟩
      cases r with
      | error e => exact ⟨fun _ h => h.elim, trivial⟩
      | ok outcome => exact ⟨fun A hA => (afterWrite_will hA).bind, dutiful_afterWrite⟩

theorem commitDelete_dutiful {conditionals : ConditionalHeaders} :
    Dutiful events (commitDelete sinks kb path conditionals) := by
  refine ⟨trivial, fun r => ?_⟩
  cases r with
  | error e =>
    refine ⟨fun _ h => h.elim, ?_⟩
    dsimp only [Prog.ret_bind]
    split
    · exact afterDelete_dutiful
    · exact afterDelete_dutiful
    · trivial
  | ok outcome =>
    cases outcome with
    | deleted =>
      refine ⟨fun A hA => ?_, afterDelete_dutiful⟩
      cases hA
      exact report_offers
    | notFound => exact ⟨fun _ h => h.elim, afterDelete_dutiful⟩

theorem checkCopiedManifest_dutiful :
    Dutiful events (checkCopiedManifest json kb source destination) := by
  unfold checkCopiedManifest
  split
  · trivial
  · refine dutiful_head fun r => ?_
    cases r with
    | error e => trivial
    | ok objectMeta =>
      dsimp only
      split
      · trivial
      · refine dutiful_get fun r => ?_
        cases r with
        | error e => trivial
        | ok read => trivial

theorem copyStamp_dutiful {contentType : Option Text} :
    Dutiful events (copyStamp sinks kb destination contentType) := by
  unfold copyStamp
  split
  · trivial
  · refine dutiful_head fun r => ?_
    cases r with
    | ok objectMeta => trivial
    | error e => trivial

theorem commitCopy_dutiful {options : CopyObjectOptions} :
    Dutiful sinks.events (commitCopy json sinks kb source destination options) := by
  refine checkCopiedManifest_dutiful.bind fun checked => ?_
  cases checked with
  | error e => trivial
  | ok u =>
    refine ⟨trivial, fun r => ?_⟩
    cases r with
    | error e => exact ⟨fun _ h => h.elim, trivial⟩
    | ok outcome =>
      refine ⟨fun A hA => ?_, ?_⟩
      · exact Prog.Will.later (p := copyStamp sinks kb destination options.contentType)
          fun _ => (afterWrite_will hA).bind
      · exact copyStamp_dutiful.bind fun _ => dutiful_afterWrite

/-! ## Rewrites -/

theorem headAnchor_dutiful {target : CasRewrite} : Dutiful events (headAnchor target) := by
  refine dutiful_head fun r => ?_
  cases r with
  | error e => trivial
  | ok objectMeta =>
    dsimp only
    split
    · trivial
    · split
      · trivial
      · split
        · trivial
        · trivial

theorem casAttempt_dutiful {T : Type} {target : CasRewrite}
    {splice : Bytes → Except WriteError (Bytes × T)} {retries : Nat} :
    Dutiful sinks.events (casAttempt json sinks target splice retries) := by
  refine casAttempt_rule (fun _ => trivial) (fun retries lost => ?_) retries
  unfold casAttempt
  refine headAnchor_dutiful.bind fun anchor => ?_
  cases anchor with
  | error e => trivial
  | ok headEtag =>
    refine dutiful_get fun r => ?_
    cases r with
    | error e => exact lost e
    | ok read =>
      dsimp only
      split
      · trivial
      · split
        · trivial
        · refine ⟨trivial, fun r => ?_⟩
          cases r with
          | error e => exact ⟨fun _ h => h.elim, lost e⟩
          | ok outcome => exact ⟨fun A hA => (afterWrite_will hA).bind, dutiful_afterWrite⟩

theorem patch_dutiful {request : PatchRequest} : Dutiful sinks.events (patch json sinks request) :=
  patch_cases (fun _ => trivial) fun _ _ => casAttempt_dutiful.bind fun _ => trivial

theorem replace_dutiful {request : ReplaceRequest} :
    Dutiful sinks.events (replace json sinks request) :=
  replace_cases (fun _ => trivial) fun _ _ => casAttempt_dutiful.bind fun _ => trivial

end Write

/-! ## Copies and moves -/

namespace Webdav

open Write (Dutiful)

variable {state : WebDavState} {plan : CopyPlan} {deleteSource : Bool}

theorem destinationEtag_dutiful {events : Bool} : Dutiful events (destinationEtag state plan) := by
  unfold destinationEtag
  split
  · trivial
  · refine Write.dutiful_head fun r => ?_
    cases r with
    | ok objectMeta => trivial
    | error e => trivial

theorem copyThenDelete_dutiful {sourceEtag : Text} {contentType : Option Text} :
    Dutiful state.sinks.events (copyThenDelete state plan deleteSource sourceEtag contentType) := by
  refine Write.commitCopy_dutiful.bind fun copied => ?_
  cases copied with
  | error e => trivial
  | ok outcome =>
    cases deleteSource with
    | false => trivial
    | true =>
      refine Write.commitDelete_dutiful.bind fun deleted => ?_
      split
      · trivial
      · trivial
      · trivial

theorem handleCopyOrMove_dutiful {req : Request} :
    Dutiful state.sinks.events (handleCopyOrMove state req deleteSource) := by
  unfold handleCopyOrMove
  split
  · trivial
  · next plan _ =>
    refine Write.dutiful_head fun r => ?_
    cases r with
    | error e => trivial
    | ok srcMeta =>
      dsimp only
      split
      · trivial
      · split
        · trivial
        · refine destinationEtag_dutiful.bind fun dstEtag => ?_
          split
          · trivial
          · exact copyThenDelete_dutiful

end Webdav
