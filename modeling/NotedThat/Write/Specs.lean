-- SUMMARY: Specifications of the write path's programs under a rely and a guarantee that are about the store.
import NotedThat.Core.Versions
import NotedThat.Write.Patch

/-!
# Specifications of the write path

Under a rely and a guarantee that are about the store only, publishing, enqueueing and the HEAD
that stamps a copy's event can be skipped over; what is left of a copy is its one conditional
operation and, before it, what was read to check a manifest.
-/

namespace Write

open Prog (wp)
open Semantics (Event Quiet)

variable {S : Semantics} {R : Rely World} {G : List Event → Event → Prop} {h : List Event}
variable {w : World}

theorem wp_announce (hq : Quiet R G) {sinks : WriteSinks} {event : ObjectEvent}
    {after : WriteEffect} {Q : Except WriteError Unit → List Event → World → Prop}
    (hQ : ∀ a h' w', h <+: h' → R.rel w w' → Q a h' w') :
    wp S.Step R G (announce sinks event after) Q h w := by
  unfold announce
  split
  · refine Semantics.wp_quiet hq (fun _ h => by cases h) fun r h' w' hh hR => ?_
    cases r with
    | ok u => exact fun w'' hR' => hQ _ _ _ hh (R.trans hR hR')
    | error e => exact fun w'' hR' => hQ _ _ _ hh (R.trans hR hR')
  · exact fun w' hR => hQ _ _ _ List.prefix_rfl hR

theorem wp_offerToIndex (hq : Quiet R G) {indexEvent : IndexEvent} {backpressure : WriteError}
    {published : Except WriteError Unit} {Q : Except WriteError Unit → List Event → World → Prop}
    (hQ : ∀ a h' w', h <+: h' → R.rel w w' → Q a h' w') :
    wp S.Step R G (offerToIndex indexEvent backpressure published) Q h w := by
  refine Semantics.wp_quiet hq (fun _ h => by cases h) fun r h' w' hh hR => ?_
  cases r with
  | queued => exact fun w'' hR' => hQ _ _ _ hh (R.trans hR hR')
  | full => exact fun w'' hR' => hQ _ _ _ hh (R.trans hR hR')
  | closed => exact fun w'' hR' => hQ _ _ _ hh (R.trans hR hR')

theorem wp_report (hq : Quiet R G) {sinks : WriteSinks} {event : ObjectEvent}
    {after : WriteEffect} {indexEvent : IndexEvent} {backpressure : WriteError}
    {Q : Except WriteError Unit → List Event → World → Prop}
    (hQ : ∀ a h' w', h <+: h' → R.rel w w' → Q a h' w') :
    wp S.Step R G (report sinks event after indexEvent backpressure) Q h w := by
  apply wp.bind
  refine wp_announce hq fun published h' w' hh hR => ?_
  refine wp_offerToIndex hq fun a h'' w'' hh' hR' => ?_
  exact hQ a h'' w'' (hh.trans hh') (R.trans hR hR')

theorem wp_copyStamp (hq : Quiet R G) {sinks : WriteSinks} {kb : KbSlug}
    {destination : ObjectPath} {contentType : Option Text}
    {Q : Nat × Option Text → List Event → World → Prop}
    (hQ : ∀ a h' w', h <+: h' → R.rel w w' → Q a h' w') :
    wp S.Step R G (copyStamp sinks kb destination contentType) Q h w := by
  unfold copyStamp
  cases sinks.events with
  | false => exact fun w' hR => hQ _ _ _ List.prefix_rfl hR
  | true =>
    refine Semantics.wp_head_quiet hq fun r h' w' hh hR => ?_
    cases r with
    | ok m => exact fun w'' hR' => hQ _ _ _ hh (R.trans hR hR')
    | error e => exact fun w'' hR' => hQ _ _ _ hh (R.trans hR hR')

/-- Of a delete, only the conditional operation needs an argument. -/
theorem wp_commitDelete (hq : Quiet R G) {sinks : WriteSinks} {kb : KbSlug} {path : ObjectPath}
    {conditionals : ConditionalHeaders} {Q : Except WriteError Unit → List Event → World → Prop}
    (hdelete : ∀ w' v, R.rel w w' → w'.get (kb, path) = some v →
      (∀ expected ∈ conditionals.ifMatch,
        Preconditions.matchesIfMatch v.etag.val expected = true) →
      G h ⟨w', .storage (.delete kb path conditionals), .ok .deleted,
        w'.apply (.erased (kb, path))⟩)
    (hQ : ∀ a h' w', h <+: h' → Q a h' w') :
    wp S.Step R G (commitDelete sinks kb path conditionals) Q h w := by
  have after : ∀ e w', wp S.Step R G (afterDelete sinks kb path) Q (h ++ [e]) w' := fun e w' =>
    wp_report hq fun a h' w'' hh _ => hQ a h' w'' ((List.prefix_append _ _).trans hh)
  refine Semantics.wp_delete (fun w' e _ => ⟨hq.guarantee _ _ rfl, ?_⟩)
    (fun w' _ _ => ⟨hq.guarantee _ _ rfl, after _ _⟩)
    fun w' v hR _ hv hmatch => ⟨hdelete w' v hR hv hmatch, after _ _⟩
  dsimp only
  split
  · exact after _ _
  · exact after _ _
  · exact fun w'' _ => hQ _ _ _ (List.prefix_append _ _)

/-! ## Copies -/

/-- What was read before a copy onto the manifest: at some moment between `w` and `w'` the source
held valid bytes. -/
def SourceChecked (R : Rely World) (json : ManifestJson) (kb : KbSlug)
    (source destination : ObjectPath) (w w' : World) : Prop :=
  Manifest.isManifest destination = true → ∃ (w₁ : World) (v₁ : Version),
    R.rel w w₁ ∧ R.rel w₁ w' ∧ w₁.get (kb, source) = some v₁ ∧ Manifest.Valid json kb v₁.bytes

variable {json : ManifestJson} {kb : KbSlug} {source destination : ObjectPath}

theorem wp_checkCopiedManifest (hq : Quiet R G)
    {Q : Except WriteError Unit → List Event → World → Prop}
    (hQ : ∀ a h' w', h <+: h' → R.rel w w' →
      (a = .ok () → SourceChecked R json kb source destination w w') → Q a h' w') :
    wp S.Step R G (checkCopiedManifest json kb source destination) Q h w := by
  have failed : ∀ {w' h'} e, h <+: h' → R.rel w w' →
      wp S.Step R G (.ret (.error e)) Q h' w' :=
    fun e hh hR w'' hR' => hQ _ _ _ hh (R.trans hR hR') fun h => by cases h
  unfold checkCopiedManifest
  split
  · next hpath =>
    refine fun w' hR => hQ _ _ _ List.prefix_rfl hR fun _ hpath' => ?_
    rw [hpath'] at hpath
    cases hpath
  · next hpath =>
    have hpath' : Manifest.isManifest destination = true := by simpa using hpath
    refine Semantics.wp_head_quiet hq fun r h' w' hh hR => ?_
    cases r with
    | error e => exact failed _ hh hR
    | ok m =>
      dsimp only
      split
      · exact failed _ hh hR
      · have hh' : ∀ e, h <+: h' ++ [e] := fun e => hh.trans (List.prefix_append _ _)
        refine Semantics.wp_get
          (fun w₁ e hR₁ _ => ⟨hq.guarantee _ _ rfl, failed _ (hh' _) (R.trans hR hR₁)⟩)
          fun w₁ v₁ read hR₁ hv₁ _ hread => ⟨hq.guarantee _ _ rfl, fun w' hR' => ?_⟩
        -- a read without a range serves the whole version
        have hbytes : read.bytes = v₁.bytes := by
          cases hread
          rfl
        refine hQ _ _ _ (hh' _) (R.trans (R.trans hR hR₁) hR') fun hok _ => ?_
        exact ⟨w₁, v₁, R.trans hR hR₁, hR', hv₁,
          hbytes ▸ Manifest.checkManifestBytes_valid hpath' hok⟩

/-- The event of a copy that succeeded in `w'`. -/
def copyEvent (kb : KbSlug) (source destination : ObjectPath) (options : CopyObjectOptions)
    (w' : World) (v : Version) (stamp : Stamp) : Event where
  pre := w'
  op := .storage (.copy kb source destination options)
  res := .ok ⟨some stamp.etag.val, (w'.get (kb, destination)).isNone⟩
  post := w'.apply (.stored (kb, destination) (StorageOp.copied v options stamp))

/-- Of a copy, only the conditional operation needs an argument; what follows it leaves the store
alone. -/
theorem wp_commitCopy (hq : Quiet R G) (hrely : ∀ {w o r w'}, S.Step w o r w' → R.rel w w')
    {sinks : WriteSinks} {options : CopyObjectOptions}
    {Q : Except WriteError PutOutcome → List Event → World → Prop}
    (herr : ∀ e h' w', h <+: h' → R.rel w w' → Q (.error e) h' w')
    (hcopy : ∀ h' w' v stamp, h <+: h' → R.rel w w' →
      SourceChecked R json kb source destination w w' → w'.get (kb, source) = some v →
      (∀ expected ∈ options.sourceIfMatch,
        Preconditions.matchesIfMatch v.etag.val expected = true) →
      Preconditions.evaluateWritePreconditions ((w'.get (kb, destination)).map (·.etag.val))
        { ifNoneMatch := options.destinationIfNoneMatch } = .ok () →
      G h' (copyEvent kb source destination options w' v stamp) ∧
        ∀ a h'' w'', h' ++ [copyEvent kb source destination options w' v stamp] <+: h'' →
          R.rel w' w'' → Q a h'' w'') :
    wp S.Step R G (commitCopy json sinks kb source destination options) Q h w := by
  apply wp.bind
  refine wp_checkCopiedManifest hq fun a h' w' hh hR hread => ?_
  cases a with
  | error e => exact fun w'' hR' => herr _ _ _ hh (R.trans hR hR')
  | ok u =>
    refine Semantics.wp_copy (fun w'' e hR' => ⟨hq.guarantee _ _ rfl, fun w₃ hR₃ => ?_⟩)
      fun w₂ v stamp hR₂ hstep hv hmatch hpre => ?_
    · exact herr _ _ _ (hh.trans (List.prefix_append _ _)) (R.trans (R.trans hR hR') hR₃)
    · have hchecked : SourceChecked R json kb source destination w w₂ := by
        intro hpath
        obtain ⟨w₁, v₁, h₁, h₁', hv₁, hvalid⟩ := hread rfl hpath
        exact ⟨w₁, v₁, h₁, R.trans h₁' hR₂, hv₁, hvalid⟩
      obtain ⟨hG, hQ⟩ := hcopy h' w₂ v stamp hh (R.trans hR hR₂) hchecked hv hmatch hpre
      refine ⟨hG, ?_⟩
      apply wp.bind
      refine wp_copyStamp hq fun stamped h₃ w₃ hh₃ hR₃ => ?_
      apply wp.bind
      refine wp_report hq fun reported h₄ w₄ hh₄ hR₄ => ?_
      have hdone : ∀ w₅ a, R.rel w₄ w₅ → Q a h₄ w₅ := fun w₅ a hR₅ =>
        hQ _ _ _ (hh₃.trans hh₄) (R.trans (hrely hstep) (R.trans hR₃ (R.trans hR₄ hR₅)))
      cases reported with
      | error e => exact fun w₅ hR₅ => hdone w₅ _ hR₅
      | ok u => exact fun w₅ hR₅ => hdone w₅ _ hR₅

end Write
