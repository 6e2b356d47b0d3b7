-- SUMMARY: Primitive laws: the weakest-precondition rule of each operation on the shared world.
import NotedThat.Core.Steps

/-!
# Primitive laws

One rule for each operation, with a premise for each kind of answer. A premise says what the
answer tells about the world, so proofs about programs follow the programs and never look at
steps.
-/

namespace Semantics

open Prog (wp Next)

/-- One operation of a run on the world. -/
abbrev Event := Prog.Event World Op Op.Res

variable {S : Semantics} {R : Rely World} {G : List Event → Event → Prop} {α : Type}
variable {Q : α → List Event → World → Prop} {h : List Event} {w : World}
variable {kb : KbSlug} {path : ObjectPath} {c : ConditionalHeaders}

theorem wp_head {k : Except StorageError ObjectMeta → Program α}
    (herr : ∀ w' e, R.rel w w' → S.Step w' (.storage (.head kb path c)) (.error e) w' →
      Next S.Step R G (.storage (.head kb path c)) k Q h w' (.error e) w')
    (hok : ∀ w' v, R.rel w w' → w'.get (kb, path) = some v →
      Next S.Step R G (.storage (.head kb path c)) k Q h w' (.ok (v.objectMeta path v.size)) w') :
    wp S.Step R G (Program.storage (.head kb path c) >>= k) Q h w := by
  intro w' hR r w'' hstep
  have hw := hstep.head_world
  subst hw
  cases r with
  | error e => exact herr w'' e hR hstep
  | ok m =>
    obtain ⟨-, v, hv, rfl⟩ := hstep.head_ok
    exact hok w'' v hR hv

theorem wp_get {range : Option ByteRange} {k : Except StorageError ObjectRead → Program α}
    (herr : ∀ w' e, R.rel w w' → S.Step w' (.storage (.get kb path range c)) (.error e) w' →
      Next S.Step R G (.storage (.get kb path range c)) k Q h w' (.error e) w')
    (hok : ∀ w' v read, R.rel w w' → w'.get (kb, path) = some v →
      Preconditions.evaluateReadPreconditions S.parseHttpDate v.etag.val v.lastModified c =
        .ok () →
      StorageOp.readVersion path v range = .ok read →
      Next S.Step R G (.storage (.get kb path range c)) k Q h w' (.ok read) w') :
    wp S.Step R G (Program.storage (.get kb path range c) >>= k) Q h w := by
  intro w' hR r w'' hstep
  have hw := hstep.get_world
  subst hw
  cases r with
  | error e => exact herr w'' e hR hstep
  | ok read =>
    obtain ⟨-, v, hv, hpre, hread⟩ := hstep.get_ok
    exact hok w'' v read hR hv hpre hread

theorem wp_put {bytes : Bytes} {contentType : Option Text}
    {k : Except StorageError PutOutcome → Program α}
    (herr : ∀ w' e, R.rel w w' →
      Next S.Step R G (.storage (.put kb path bytes contentType c)) k Q h w' (.error e) w')
    (hok : ∀ w' (stamp : Stamp), R.rel w w' →
      S.Step w' (.storage (.put kb path bytes contentType c))
        (.ok ⟨some stamp.etag.val, (w'.get (kb, path)).isNone⟩)
        (w'.apply (.stored (kb, path) ⟨bytes, contentType, stamp.etag, stamp.lastModified⟩)) →
      Preconditions.evaluateWritePreconditions ((w'.get (kb, path)).map (·.etag.val)) c = .ok () →
      Next S.Step R G (.storage (.put kb path bytes contentType c)) k Q h w'
        (.ok ⟨some stamp.etag.val, (w'.get (kb, path)).isNone⟩)
        (w'.apply (.stored (kb, path) ⟨bytes, contentType, stamp.etag, stamp.lastModified⟩))) :
    wp S.Step R G (Program.storage (.put kb path bytes contentType c) >>= k) Q h w := by
  intro w' hR r w'' hstep
  rcases hstep.put_cases with ⟨e, rfl, rfl⟩ | ⟨stamp, -, hpre, rfl, rfl⟩
  · exact herr w'' e hR
  · exact hok w' stamp hR hstep hpre

theorem wp_copy {source destination : ObjectPath} {options : CopyObjectOptions}
    {k : Except StorageError PutOutcome → Program α}
    (herr : ∀ w' e, R.rel w w' →
      Next S.Step R G (.storage (.copy kb source destination options)) k Q h w' (.error e) w')
    (hok : ∀ w' v stamp, R.rel w w' →
      S.Step w' (.storage (.copy kb source destination options))
        (.ok ⟨some stamp.etag.val, (w'.get (kb, destination)).isNone⟩)
        (w'.apply (.stored (kb, destination) (StorageOp.copied v options stamp))) →
      w'.get (kb, source) = some v →
      (∀ expected ∈ options.sourceIfMatch,
        Preconditions.matchesIfMatch v.etag.val expected = true) →
      Preconditions.evaluateWritePreconditions ((w'.get (kb, destination)).map (·.etag.val))
        { ifNoneMatch := options.destinationIfNoneMatch } = .ok () →
      Next S.Step R G (.storage (.copy kb source destination options)) k Q h w'
        (.ok ⟨some stamp.etag.val, (w'.get (kb, destination)).isNone⟩)
        (w'.apply (.stored (kb, destination) (StorageOp.copied v options stamp)))) :
    wp S.Step R G (Program.storage (.copy kb source destination options) >>= k) Q h w := by
  intro w' hR r w'' hstep
  rcases hstep.copy_cases with ⟨e, rfl, rfl⟩ | ⟨v, stamp, hv, hmatch, hpre, -, rfl, rfl⟩
  · exact herr w'' e hR
  · exact hok w' v stamp hR hstep hv hmatch hpre

theorem wp_delete {k : Except StorageError DeleteOutcome → Program α}
    (herr : ∀ w' e, R.rel w w' →
      Next S.Step R G (.storage (.delete kb path c)) k Q h w' (.error e) w')
    (hnone : ∀ w', R.rel w w' → w'.get (kb, path) = none →
      Next S.Step R G (.storage (.delete kb path c)) k Q h w' (.ok .notFound) w')
    (hok : ∀ w' v, R.rel w w' →
      S.Step w' (.storage (.delete kb path c)) (.ok .deleted) (w'.apply (.erased (kb, path))) →
      w'.get (kb, path) = some v →
      (∀ expected ∈ c.ifMatch, Preconditions.matchesIfMatch v.etag.val expected = true) →
      Next S.Step R G (.storage (.delete kb path c)) k Q h w' (.ok .deleted)
        (w'.apply (.erased (kb, path)))) :
    wp S.Step R G (Program.storage (.delete kb path c) >>= k) Q h w := by
  intro w' hR r w'' hstep
  rcases hstep.delete_cases with ⟨e, rfl, rfl⟩ | ⟨hv, rfl, rfl⟩ | ⟨v, hv, hmatch, -, rfl, rfl⟩
  · exact herr w'' e hR
  · exact hnone w'' hR hv
  · exact hok w' v hR hstep hv hmatch

/-- A rely and a guarantee that are about the store only, and allow it to stay. -/
structure Quiet (R : Rely World) (G : List Event → Event → Prop) : Prop where
  rely : ∀ {w w' : World}, w'.store = w.store → R.rel w w'
  guarantee : ∀ h e, e.post.store = e.pre.store → G h e

/-- An operation that leaves the store alone. -/
theorem wp_other {o : Op} {k : o.Res → Program α} (hne : ∀ o', o ≠ .storage o')
    (hok : ∀ w' r w'', R.rel w w' → w''.store = w'.store → Next S.Step R G o k Q h w' r w'') :
    wp S.Step R G (Prog.call o >>= k) Q h w := by
  intro w' hR r w'' hstep
  exact hok w' r w'' hR (hstep.store_eq hne)

/-- Under a quiet rely and guarantee such an operation needs no argument. -/
theorem wp_quiet (hq : Quiet R G) {o : Op} {k : o.Res → Program α} (hne : ∀ o', o ≠ .storage o')
    (hok : ∀ r h' w', h <+: h' → R.rel w w' → wp S.Step R G (k r) Q h' w') :
    wp S.Step R G (Prog.call o >>= k) Q h w := by
  refine wp_other hne fun w' r w'' hR hst => ⟨hq.guarantee _ _ hst, hok r _ _ ?_ ?_⟩
  · exact List.prefix_append _ _
  · exact R.trans hR (hq.rely hst)

/-- A HEAD whose answer is not used under a quiet rely and guarantee. -/
theorem wp_head_quiet (hq : Quiet R G) {k : Except StorageError ObjectMeta → Program α}
    (hok : ∀ r h' w', h <+: h' → R.rel w w' → wp S.Step R G (k r) Q h' w') :
    wp S.Step R G (Program.storage (.head kb path c) >>= k) Q h w := by
  refine wp_head (fun w' e hR _ => ⟨hq.guarantee _ _ rfl, ?_⟩)
    fun w' v hR _ => ⟨hq.guarantee _ _ rfl, ?_⟩
  · exact hok _ _ _ (List.prefix_append _ _) hR
  · exact hok _ _ _ (List.prefix_append _ _) hR

end Semantics
