-- SUMMARY: What the answer to a text replacement says about the version it stored, among the writes and deletes of others.
import NotedThat.Api.WriteObject
import NotedThat.System.Rewrites

/-!
# Answers to replacements

A replacement stores a version, reports it, and then asks for the object's size with a HEAD of its own.
The HEAD sees whatever is current by then. The answer describes the stored version exactly when the HEAD
is answered and meets a version of the same size.
-/

namespace ReplaceAnswers

open Prog (wp)
open Semantics (Event)
open Rewrites (Untouched untouched_singleton)
open Api (ReplaceAnswer ReplaceResponse replaceObject)

/-! ## What a run did -/

/-- An operation of the run stored `v` at `k`. -/
def Wrote (k : Key) (tr : List Event) (v : Version) : Prop :=
  ∃ e ∈ tr, e.post = e.pre.apply (.stored k v)

/-- A publication or an offer to the index queue failed. -/
def Unreported (tr : List Event) : Prop :=
  ∃ e ∈ tr, (∀ o, e.op ≠ .storage o) ∧ e.op.Failed e.res

/-- `src` are the bytes of a version the run met. -/
def MetBytes (k : Key) (tr : List Event) (src : Bytes) : Prop :=
  ∃ e ∈ tr, ∃ v, e.pre.get k = some v ∧ v.bytes = src

/-- The run stored `v`, a splice of bytes it met, and changed nothing else. -/
structure StoredSplice {T : Type} (k : Key) (splice : Bytes → Except WriteError (Bytes × T)) (v : Version)
    (extra : T) (tr : List Event) : Prop where
  stored : ∃ before e after, tr = before ++ e :: after ∧ e.post = e.pre.apply (.stored k v) ∧
    Untouched before ∧ Untouched after
  spliced : ∃ src, MetBytes k tr src ∧ splice src = .ok (v.bytes, extra)

/-- What a rewrite with this result did. -/
def Rewrote {T : Type} (k : Key) (splice : Bytes → Except WriteError (Bytes × T)) (tr : List Event) :
    Except WriteError (PutOutcome × T) → Prop
  | .error _ => Untouched tr ∨ Unreported tr
  | .ok (outcome, extra) => ∃ v, outcome.etag = some v.etag.val ∧ StoredSplice k splice v extra tr

section Traces

variable {k : Key} {tr tr' : List Event} {T : Type} {splice : Bytes → Except WriteError (Bytes × T)}

/-- A stored version makes the store another one: it is recorded in its history. -/
theorem stored_ne {w w' : World} {v : Version} (h : w' = w.apply (.stored k v)) :
    w'.store ≠ w.store := by
  intro heq
  have hlength : w'.store.history.length = w.store.history.length := by rw [heq]
  rw [h] at hlength
  simp [Store.apply] at hlength

theorem not_wrote {v : Version} (h : Untouched tr) : ¬ Wrote k tr v := by
  rintro ⟨e, he, hstored⟩
  exact stored_ne hstored (h e he)

theorem MetBytes.mono {src : Bytes} (h : MetBytes k tr src) (hsub : tr ⊆ tr') : MetBytes k tr' src := by
  obtain ⟨e, he, hv⟩ := h
  exact ⟨e, hsub he, hv⟩

theorem StoredSplice.prepend {v : Version} {extra : T} (h : StoredSplice k splice v extra tr')
    (htr : Untouched tr) : StoredSplice k splice v extra (tr ++ tr') := by
  obtain ⟨⟨before, e, after, rfl, hpost, hbefore, hafter⟩, src, hsrc, hsplice⟩ := h
  exact ⟨⟨tr ++ before, e, after, by simp, hpost, htr.append hbefore, hafter⟩, src,
    hsrc.mono (List.subset_append_right _ _), hsplice⟩

theorem StoredSplice.append {v : Version} {extra : T} (h : StoredSplice k splice v extra tr)
    (htr' : Untouched tr') : StoredSplice k splice v extra (tr ++ tr') := by
  obtain ⟨⟨before, e, after, rfl, hpost, hbefore, hafter⟩, src, hsrc, hsplice⟩ := h
  exact ⟨⟨before, e, after ++ tr', by simp, hpost, hbefore, hafter.append htr'⟩, src,
    hsrc.mono (List.subset_append_left _ _), hsplice⟩

/-- The stored version is the only one. -/
theorem StoredSplice.wrote_iff {v u : Version} {extra : T} (h : StoredSplice k splice v extra tr) :
    Wrote k tr u ↔ u = v := by
  obtain ⟨before, e, after, rfl, hpost, hbefore, hafter⟩ := h.stored
  constructor
  · rintro ⟨x, hx, hstored⟩
    rcases List.mem_append.mp hx with hx | hx
    · exact absurd (hbefore x hx) (stored_ne hstored)
    · rcases List.mem_cons.mp hx with rfl | hx
      · have hget : x.post.get k = some u := by
          rw [hstored]
          exact Objects.get_put_self _ _ _
        rw [hpost] at hget
        exact Option.some.inj (hget.symm.trans (Objects.get_put_self _ _ _))
      · exact absurd (hafter x hx) (stored_ne hstored)
  · rintro rfl
    exact ⟨e, by simp, hpost⟩

theorem Rewrote.prepend {a : Except WriteError (PutOutcome × T)} (h : Rewrote k splice tr' a)
    (htr : Untouched tr) : Rewrote k splice (tr ++ tr') a := by
  cases a with
  | error e =>
    rcases h with h | ⟨x, hx, hfailed⟩
    · exact .inl (htr.append h)
    · exact .inr ⟨x, List.mem_append_right _ hx, hfailed⟩
  | ok r =>
    obtain ⟨v, hetag, hstored⟩ := h
    exact ⟨v, hetag, hstored.prepend htr⟩

end Traces

/-! ## The rewrite -/

section Rewrite

variable {S : Semantics} {h : List Event} {w : World} {json : ManifestJson} {sinks : WriteSinks}

/-- Reporting a write stores nothing; when it fails, one of its operations did. -/
theorem wp_afterWrite {kb : KbSlug} {path : ObjectPath} {outcome : PutOutcome} {size : Nat} {mime : Text}
    {Q : Except WriteError Unit → List Event → World → Prop}
    (hQ : ∀ a t w', Untouched t → (a = .ok () ∨ Unreported t) → Q a (h ++ t) w') :
    wp S.Step (Rely.any World) (fun _ _ => True)
      (Write.afterWrite sinks kb path outcome size mime) Q h w := by
  have hoffer : ∀ published t₀ w, Untouched t₀ → (published = .ok () ∨ Unreported t₀) →
      wp S.Step (Rely.any World) (fun _ _ => True)
        (Write.offerToIndex (.upsert kb path) .indexerBackpressureUpsert published) Q (h ++ t₀) w := by
    intro published t₀ w ht₀ hpublished
    refine Semantics.wp_other (by simp) fun w' r w'' _ hst => ⟨trivial, ?_⟩
    have hafter : ∀ a, (a = .ok () ∨ Unreported (t₀ ++ [⟨w', .trySend (.upsert kb path), r, w''⟩])) →
        ∀ w₁, Q a (h ++ t₀ ++ [⟨w', .trySend (.upsert kb path), r, w''⟩]) w₁ := by
      intro a ha w₁
      rw [List.append_assoc]
      exact hQ a _ w₁ (ht₀.append (untouched_singleton hst)) ha
    have hkept : published = .ok () ∨
        Unreported (t₀ ++ [⟨w', .trySend (.upsert kb path), r, w''⟩]) :=
      hpublished.imp_right fun ⟨x, hx, hfailed⟩ => ⟨x, List.mem_append_left _ hx, hfailed⟩
    cases r with
    | queued => exact fun w₁ _ => hafter published hkept w₁
    | closed => exact fun w₁ _ => hafter published hkept w₁
    | full =>
      refine fun w₁ _ => hafter _ (.inr ⟨_, List.mem_append_right _ (List.mem_singleton.mpr rfl), ?_⟩) w₁
      exact ⟨by simp, .inl rfl⟩
  unfold Write.afterWrite Write.report Write.announce
  apply wp.bind
  split
  · refine Semantics.wp_other (by simp) fun w' r w'' _ hst => ⟨trivial, ?_⟩
    cases r with
    | ok u => exact fun w₁ _ => hoffer _ _ w₁ (untouched_singleton hst) (.inl rfl)
    | error e =>
      refine fun w₁ _ => hoffer _ _ w₁ (untouched_singleton hst) (.inr ⟨_, List.mem_singleton.mpr rfl, ?_⟩)
      exact ⟨by simp, e, rfl⟩
  · refine fun w₁ _ => ?_
    have hnone := hoffer (.ok ()) [] w₁ (by simp [Untouched]) (.inl rfl)
    rwa [List.append_nil] at hnone

variable {T : Type} {target : Write.CasRewrite} {splice : Bytes → Except WriteError (Bytes × T)}

/-- A rewrite whose answer says what it did. -/
abbrev Settled (S : Semantics) (target : Write.CasRewrite)
    (splice : Bytes → Except WriteError (Bytes × T)) (p : Program (Except WriteError (PutOutcome × T))) :
    Prop :=
  ∀ h w, wp S.Step (Rely.any World) (fun _ _ => True) p
    (fun a h' _ => ∃ t, h' = h ++ t ∧ Rewrote (target.kb, target.path) splice t a) h w

theorem Settled.error (e : WriteError) : Settled S target splice (.ret (.error e)) := by
  intro h w w' _
  exact ⟨[], by simp, .inl (by simp [Untouched])⟩

/-- After operations that changed nothing. -/
theorem Settled.after {p : Program (Except WriteError (PutOutcome × T))} (hp : Settled S target splice p)
    {t : List Event} (ht : Untouched t) (h : List Event) (w : World) :
    wp S.Step (Rely.any World) (fun _ _ => True) p
      (fun a h' _ => ∃ t', h' = h ++ t' ∧ Rewrote (target.kb, target.path) splice t' a) (h ++ t) w := by
  refine (hp (h ++ t) w).mono fun a h' _ ⟨t', hh', hrewrote⟩ => ?_
  exact ⟨t ++ t', by rw [hh', List.append_assoc], hrewrote.prepend ht⟩

theorem wp_headAnchor {Q : Except WriteError Text → List Event → World → Prop}
    (hQ : ∀ a x w', x.post.store = x.pre.store → Q a (h ++ [x]) w') :
    wp S.Step (Rely.any World) (fun _ _ => True) (Write.headAnchor target) Q h w := by
  refine Semantics.wp_head (fun w' e _ _ => ⟨trivial, fun w'' _ => hQ _ _ _ rfl⟩)
    fun w' v _ _ => ⟨trivial, ?_⟩
  dsimp only [Version.objectMeta]
  split
  · exact fun w'' _ => hQ _ _ _ rfl
  · split
    · exact fun w'' _ => hQ _ _ _ rfl
    · exact fun w'' _ => hQ _ _ _ rfl

/-- One attempt, given what follows a lost one. -/
theorem settled_casAttempt_step {retries : Nat}
    (hlost : ∀ e, Settled S target splice (Write.casLost json sinks target splice retries e)) :
    Settled S target splice (Write.casAttempt json sinks target splice retries) := by
  intro h w
  unfold Write.casAttempt
  apply wp.bind
  refine wp_headAnchor fun a x w₀ hx => ?_
  have hhead : Untouched [x] := untouched_singleton hx
  have hboth : ∀ y : Event, y.post.store = y.pre.store → Untouched [x, y] := fun y hy =>
    hhead.append (untouched_singleton hy)
  cases a with
  | error e => exact (Settled.error e).after hhead h w₀
  | ok headEtag =>
    refine Semantics.wp_get (fun w₁ e _ _ => ⟨trivial, ?_⟩) fun w₁ v₁ read _ hv₁ _ hread => ⟨trivial, ?_⟩
    · rw [List.append_assoc]
      exact (hlost e).after (hboth _ rfl) h w₁
    obtain rfl := Api.readVersion_none hread
    dsimp only
    split
    · rw [List.append_assoc]
      exact (Settled.error _).after (hboth _ rfl) h w₁
    next newBytes extra hsplice =>
    split
    · rw [List.append_assoc]
      exact (Settled.error _).after (hboth _ rfl) h w₁
    refine Semantics.wp_put (fun w₂ e _ => ⟨trivial, ?_⟩) fun w₂ stamp _ _ _ => ⟨trivial, ?_⟩
    · rw [List.append_assoc, List.append_assoc]
      exact (hlost e).after ((hboth _ rfl).append (untouched_singleton rfl)) h w₂
    -- the version is stored; what is left is its report
    apply wp.bind
    refine wp_afterWrite fun reported t w₃ ht hreported => ?_
    have hmet : MetBytes (target.kb, target.path)
        [x, ⟨w₁, .storage (.get target.kb target.path none (.ofIfMatch headEtag)),
          .ok (v₁.wholeRead target.path), w₁⟩] v₁.bytes :=
      ⟨_, List.mem_cons_of_mem _ (List.mem_singleton.mpr rfl), v₁, hv₁, rfl⟩
    cases reported with
    | ok u =>
      refine fun w₄ _ => ⟨_, by simp only [List.append_assoc]; rfl,
        ⟨newBytes, _, stamp.etag, stamp.lastModified⟩, rfl,
        ⟨_, _, t, rfl, rfl, hboth _ rfl, ht⟩, v₁.bytes, ?_, hsplice⟩
      exact hmet.mono (List.subset_append_left _ _)
    | error e =>
      obtain hok | ⟨y, hy, hfailed⟩ := hreported
      · cases hok
      · exact fun w₄ _ => ⟨_, by simp only [List.append_assoc]; rfl, .inr ⟨y, by simp [hy], hfailed⟩⟩

theorem settled_casRewrite : Settled S target splice (Write.casRewrite json sinks target splice) :=
  Write.casAttempt_rule (fun _ => Settled.error _) (fun _ => settled_casAttempt_step) _

end Rewrite

/-! ## The answer -/

/-- The splice of a replacement, with the number of matches replaced. -/
def replaceSplice (request : Write.ReplaceRequest) (src : Bytes) : Except WriteError (Bytes × Nat) :=
  Write.replaceIn src (Utf8.encode request.oldString) (Utf8.encode request.newString) request.replaceAll
    request.maxPatchableSize

theorem wp_replace {S : Semantics} {w : World} {json : ManifestJson} {sinks : WriteSinks}
    {request : Write.ReplaceRequest} :
    wp S.Step (Rely.any World) (fun _ _ => True) (Write.replace json sinks request)
      (fun a tr _ => Rewrote (request.kb, request.path) (replaceSplice request) tr
        (a.map fun outcome => (outcome.putOutcome, outcome.matchCount))) [] w := by
  unfold Write.replace
  split
  · exact fun w' _ => .inl (by simp [Untouched])
  · split
    · exact fun w' _ => .inl (by simp [Untouched])
    · apply wp.bind
      refine (settled_casRewrite [] w).mono fun a h' w' hsettled => ?_
      obtain ⟨t, ht, hrewrote⟩ := hsettled
      rw [List.nil_append] at ht
      subst ht
      cases a with
      | error e => exact fun w'' _ => hrewrote
      | ok r => exact fun w'' _ => hrewrote

/-- A success about `v`: its entity tag, its size, and how many matches were replaced in the bytes it was
spliced from. -/
def Describes (k : Key) (request : Write.ReplaceRequest) (tr : List Event) (v : Version)
    (answer : Except Api.ApiError ReplaceAnswer) : Prop :=
  ∃ headers response, answer = .ok ⟨200, headers, some response⟩ ∧ response.etag = v.etag.val ∧
    response.totalBytes = v.size ∧
    ∃ src, MetBytes k tr src ∧ replaceSplice request src = .ok (v.bytes, response.matchCount)

/-- The last operation of the run is a HEAD of the object that is answered, at a moment when the object is
as long as `v`. -/
def HeadMeets (k : Key) (tr : List Event) (v : Version) : Prop :=
  ∃ front e u, tr = front ++ [e] ∧ e.op = .storage (.head k.1 k.2 {}) ∧ ¬ e.op.Failed e.res ∧
    e.pre.get k = some u ∧ u.size = v.size

/-- The entity tag can be sent in a header. -/
def Sendable (v : Version) : Prop := HeaderMap.isValidValue (Utf8.encode v.etag.val) = true

theorem headMeets_iff {k : Key} {front : List Event} {e : Event} {v : Version} :
    HeadMeets k (front ++ [e]) v ↔ e.op = .storage (.head k.1 k.2 {}) ∧ ¬ e.op.Failed e.res ∧
      ∃ u, e.pre.get k = some u ∧ u.size = v.size := by
  constructor
  · rintro ⟨front', e', u, heq, hop, hfailed, hu, hsize⟩
    obtain ⟨-, hlast⟩ := List.append_inj' heq rfl
    cases hlast
    exact ⟨hop, hfailed, u, hu, hsize⟩
  · rintro ⟨hop, hfailed, u, hu, hsize⟩
    exact ⟨front, e, u, rfl, hop, hfailed, hu, hsize⟩

/-- What the answer says of a stored version and what the HEAD reported. -/
theorem replaceAnswer_eq {kb : KbSlug} {path : ObjectPath} {outcome : Write.ReplaceOutcome}
    {objectMeta : ObjectMeta} {v : Version} {response : ReplaceResponse}
    (hetag : outcome.putOutcome.etag = some v.etag.val) :
    (∃ headers, Api.replaceAnswer kb path outcome objectMeta = ⟨200, headers, some response⟩) ↔
      Sendable v ∧ response = ⟨v.etag.val, outcome.matchCount, objectMeta.size⟩ := by
  have hlocation := HeaderMap.isValidValue_encode (Api.objectLocation_visible kb path)
  simp only [Api.replaceAnswer, ReplaceAnswer.build, hetag, Option.some_or, Option.getD_some, List.all_cons,
    List.all_nil, hlocation, Bool.true_and, Bool.and_true, Sendable]
  split
  · next hvalid =>
    constructor
    · rintro ⟨headers, heq⟩
      cases heq
      exact ⟨hvalid, rfl⟩
    · rintro ⟨-, rfl⟩
      exact ⟨_, rfl⟩
  · next hvalid =>
    constructor
    · rintro ⟨headers, heq⟩
      cases heq
    · exact fun h => absurd h.1 hvalid

/-- A HEAD that reports an error met no object, or it failed. -/
theorem not_headMeets_of_error {S : Semantics} {kb : KbSlug} {path : ObjectPath} {front : List Event}
    {w w' : World} {e : StorageError} {v : Version}
    (hstep : S.Step w (.storage (.head kb path {})) (.error e) w') :
    ¬ HeadMeets (kb, path) (front ++ [⟨w, .storage (.head kb path {}), .error e, w'⟩]) v := by
  rw [headMeets_iff]
  rintro ⟨-, hfailed, u, hu, -⟩
  rcases hstep.head_error with ⟨hnone, -⟩ | ⟨-, message, rfl | rfl⟩
  · cases hnone.symm.trans hu
  · exact hfailed ⟨message, .inl rfl⟩
  · exact hfailed ⟨message, .inr rfl⟩

theorem headMeets_of_ok {kb : KbSlug} {path : ObjectPath} {front : List Event} {w w' : World}
    {u v : Version} (hu : w.get (kb, path) = some u) :
    HeadMeets (kb, path) (front ++ [⟨w, .storage (.head kb path {}), .ok (u.objectMeta path u.size), w'⟩]) v ↔
      u.size = v.size := by
  rw [headMeets_iff]
  constructor
  · rintro ⟨-, -, u', hu', hsize⟩
    cases hu.symm.trans hu'
    exact hsize
  · intro hsize
    refine ⟨rfl, ?_, u, hu, hsize⟩
    rintro ⟨message, h | h⟩
    · cases h
    · cases h

/-- In any interleaving: when a replacement was stored, and its publication and its offer to the index did
not fail, the answer describes the version it stored exactly when the HEAD that follows is answered and
meets a version of that size. -/
theorem replaceObject_describes {S : Semantics} {env : World → World → Prop} {state : Api.AppState}
    {kb : KbSlug} {path : ObjectPath} {headers : HeaderMap} {body : List (Except String Bytes)}
    {request : Write.ReplaceRequest} {w w' : World} {tr : List Event}
    {answer : Except Api.ApiError ReplaceAnswer} {v : Version}
    (hrequest : Api.replaceRequest state kb path headers body = .ok request)
    (hrun : Prog.Exec S.Step env w (replaceObject state kb path headers body) tr w' (.ret answer))
    (hwrote : Wrote (kb, path) tr v) (hreported : ¬ Unreported tr) :
    Describes (kb, path) request tr v answer ↔ HeadMeets (kb, path) tr v ∧ Sendable v := by
  have hkey := Api.replaceRequest_key hrequest
  have hwp : wp S.Step (Rely.any World) (fun _ _ => True) (replaceObject state kb path headers body)
      (fun answer tr _ => Wrote (kb, path) tr v → ¬ Unreported tr →
        (Describes (kb, path) request tr v answer ↔ HeadMeets (kb, path) tr v ∧ Sendable v)) [] w := by
    unfold replaceObject
    rw [hrequest]
    apply wp.bind
    refine wp_replace.mono fun a h' w₁ hrewrote => ?_
    cases a with
    | error e =>
      -- nothing was stored, or the report failed
      intro w₂ _ hwrote hreported
      rcases hrewrote with huntouched | hunreported
      · exact absurd hwrote (not_wrote huntouched)
      · exact absurd hunreported hreported
    | ok outcome =>
      obtain ⟨u, hetag, hstored⟩ := hrewrote
      rw [hkey.1, hkey.2] at hstored
      have hsame : ∀ x : Event, x.post.store = x.pre.store → Wrote (kb, path) (h' ++ [x]) v → v = u :=
        fun x hx hwrote => (hstored.append (untouched_singleton hx)).wrote_iff.mp hwrote
      refine Semantics.wp_head (fun w₂ e _ hstep => ⟨trivial, ?_⟩) fun w₂ current _ hcurrent => ⟨trivial, ?_⟩
      · intro w₃ _ _ _
        constructor
        · rintro ⟨headers', response, hanswer, -⟩
          cases hanswer
        · rintro ⟨hmeets, -⟩
          exact absurd hmeets (not_headMeets_of_error hstep)
      · intro w₃ _ hwrote _
        obtain rfl := hsame _ rfl hwrote
        rw [headMeets_of_ok hcurrent]
        obtain ⟨src, hsrc, hsplice⟩ := hstored.spliced
        constructor
        · rintro ⟨headers', response, hanswer, -, hsize, -⟩
          obtain ⟨hsendable, rfl⟩ := (replaceAnswer_eq hetag).mp ⟨headers', Except.ok.inj hanswer⟩
          exact ⟨hsize, hsendable⟩
        · rintro ⟨hsize, hsendable⟩
          obtain ⟨headers', hanswer⟩ := (replaceAnswer_eq hetag).mpr ⟨hsendable, rfl⟩
          exact ⟨headers', _, congrArg Except.ok hanswer, rfl, hsize, src,
            hsrc.mono (List.subset_append_left _ _), hsplice⟩
  exact (hwp.exec_ret hrun fun _ _ _ => trivial) hwrote hreported

/-! ## A replacement among the writes of others -/

def noteKey : Key := (KbSlug.notes, ObjectPath.aMd)

/-- The JSON a client sends to replace `a` by `bc`. -/
def replaceText : Bytes := Utf8.encode "\x7b\"old_string\":\"a\",\"new_string\":\"bc\"\x7d".toList

/-- A server whose decoder knows this one document. -/
def replaceState : Api.AppState where
  json := Rewrites.noJson
  events := false
  maxBodySize := 100
  maxPatchableSize := 100
  replaceJson := fun bytes =>
    if bytes = replaceText then .ok ⟨['a'], ['b', 'c'], false⟩ else .error "expected value"

def replaceHeaders : HeaderMap := [("if-match", Utf8.encode "\"x\"".toList)]

def noteRequest : Write.ReplaceRequest :=
  ⟨KbSlug.notes, ObjectPath.aMd, ['a'], ['b', 'c'], false, { ifMatch := some "\"x\"".toList }, 100, none⟩

def sourceVersion : Version := Version.tagged 'x' [97]

/-- What the replacement stores. -/
def replacedVersion : Version := Version.tagged 'y' [98, 99]

def sourceNote : World := World.empty.apply (.stored noteKey sourceVersion)

def replacedNote : World := sourceNote.apply (.stored noteKey replacedVersion)

/-- The world when the replacement is enqueued for indexing. -/
def queuedNote : World := { replacedNote with queue := [.upsert KbSlug.notes ObjectPath.aMd] }

theorem noteRequest_eq : Api.replaceRequest replaceState KbSlug.notes ObjectPath.aMd replaceHeaders
    [.ok replaceText] = .ok noteRequest := by rfl


/-- The operations of the request; at the last one the object is at `u`. -/
def noteTrace (w : World) (u : Version) : List Event :=
  [⟨sourceNote, .storage (.head KbSlug.notes ObjectPath.aMd {}),
      .ok (sourceVersion.objectMeta ObjectPath.aMd sourceVersion.size), sourceNote⟩,
    ⟨sourceNote, .storage (.get KbSlug.notes ObjectPath.aMd none (.ofIfMatch sourceVersion.etag.val)),
      .ok (sourceVersion.wholeRead ObjectPath.aMd), sourceNote⟩,
    ⟨sourceNote, .storage (.put KbSlug.notes ObjectPath.aMd [98, 99] (some "text/markdown".toList)
        (.ofIfMatch sourceVersion.etag.val)),
      .ok ⟨some replacedVersion.etag.val, false⟩, replacedNote⟩,
    ⟨replacedNote, .trySend (.upsert KbSlug.notes ObjectPath.aMd), .queued, queuedNote⟩,
    ⟨w, .storage (.head KbSlug.notes ObjectPath.aMd {}), .ok (u.objectMeta ObjectPath.aMd u.size), w⟩]

def noteAnswer (u : Version) : ReplaceAnswer :=
  Api.replaceAnswer KbSlug.notes ObjectPath.aMd ⟨⟨some replacedVersion.etag.val, false⟩, 1⟩
    (u.objectMeta ObjectPath.aMd u.size)

theorem note_run {env : World → World → Prop} {w : World} {u : Version} (henv : env queuedNote w)
    (hu : w.get noteKey = some u) :
    Prog.Exec (Semantics.faultless fun _ _ => True).Step env sourceNote
      (replaceObject replaceState KbSlug.notes ObjectPath.aMd replaceHeaders [.ok replaceText])
      (noteTrace w u) w (.ret (.ok (noteAnswer u))) := by
  have hstrong : Write.requireStrongIfMatch noteRequest.callerConditionals = .ok () := by decide
  have hsink : replaceState.sinks replaceHeaders = ⟨false, .http⟩ := by decide
  have hhead : (Semantics.faultless fun _ _ => True).Step sourceNote
      (.storage (.head KbSlug.notes ObjectPath.aMd {}))
      (.ok (sourceVersion.objectMeta ObjectPath.aMd sourceVersion.size)) sourceNote :=
    @Semantics.Step.of_eval _ _ _ ⟨sourceVersion.etag, 0⟩ _ .unchanged (by decide) trivial
  have hget : (Semantics.faultless fun _ _ => True).Step sourceNote
      (.storage (.get KbSlug.notes ObjectPath.aMd none (.ofIfMatch sourceVersion.etag.val)))
      (.ok (sourceVersion.wholeRead ObjectPath.aMd)) sourceNote :=
    @Semantics.Step.of_eval _ _ _ ⟨sourceVersion.etag, 0⟩ _ .unchanged (by decide) trivial
  have hput : (Semantics.faultless fun _ _ => True).Step sourceNote
      (.storage (.put KbSlug.notes ObjectPath.aMd [98, 99] (some "text/markdown".toList)
        (.ofIfMatch sourceVersion.etag.val)))
      (.ok ⟨some replacedVersion.etag.val, false⟩) replacedNote :=
    @Semantics.Step.of_eval _ _ _ ⟨replacedVersion.etag, 0⟩ _ (.stored noteKey replacedVersion)
      (by decide) trivial
  have hlast : (Semantics.faultless fun _ _ => True).Step w
      (.storage (.head KbSlug.notes ObjectPath.aMd {})) (.ok (u.objectMeta ObjectPath.aMd u.size)) w :=
    .head hu trivial
  unfold replaceObject
  rw [noteRequest_eq, hsink]
  simp only [Write.replace, hstrong, Write.casRewrite]
  rw [Write.casAttempt]
  apply Prog.Exec.step hhead
  apply Prog.Exec.step hget
  apply Prog.Exec.step hput
  apply Prog.Exec.step (.other (.trySend _) ⟨replacedVersion.etag, 0⟩ (by simp))
  apply Prog.Exec.env henv
  apply Prog.Exec.step hlast
  exact .done _ _

theorem noteTrace_wrote (w : World) (u : Version) : Wrote noteKey (noteTrace w u) replacedVersion :=
  ⟨_, List.mem_cons_of_mem _ (List.mem_cons_of_mem _ List.mem_cons_self), rfl⟩

theorem noteTrace_reported (w : World) (u : Version) : ¬ Unreported (noteTrace w u) := by
  rintro ⟨e, he, hop, hfailed⟩
  simp only [noteTrace, List.mem_cons, List.not_mem_nil, or_false] at he
  rcases he with rfl | rfl | rfl | rfl | rfl
  · exact hop _ rfl
  · exact hop _ rfl
  · exact hop _ rfl
  · rcases hfailed with h | h
    · cases h
    · cases h
  · exact hop _ rfl

def longerVersion : Version := Version.tagged 'z' [1, 2, 3, 4, 5]

/-- Another client has replaced the object before the HEAD. -/
def longerNote : World := queuedNote.apply (.stored noteKey longerVersion)

/-- The entity tag of the stored version with the size of another client's. -/
theorem replaceObject_mixes_versions :
    ∃ tr w' answer,
      Prog.Exec (Semantics.faultless fun _ _ => True).Step
        ((Semantics.faultless fun _ _ => True).Env true) sourceNote
        (replaceObject replaceState KbSlug.notes ObjectPath.aMd replaceHeaders [.ok replaceText]) tr w'
        (.ret answer) ∧
      Wrote noteKey tr replacedVersion ∧ ¬ Unreported tr ∧
      answer.map ReplaceAnswer.body = .ok (some ⟨replacedVersion.etag.val, 1, 5⟩) ∧
      ¬ Describes noteKey noteRequest tr replacedVersion answer := by
  have henv : (Semantics.faultless fun _ _ => True).Env true queuedNote longerNote :=
    .inr ⟨.stored noteKey longerVersion, trivial, rfl⟩
  have hanswer : (noteAnswer longerVersion).body = some ⟨replacedVersion.etag.val, 1, 5⟩ := by
    decide
  refine ⟨_, _, _, note_run (u := longerVersion) henv (by decide), noteTrace_wrote _ _,
    noteTrace_reported _ _, congrArg Except.ok hanswer, ?_⟩
  rintro ⟨headers, response, heq, -, hsize, -⟩
  rw [Except.ok.inj heq] at hanswer
  cases hanswer
  exact absurd hsize (by decide)

/-- Undisturbed, the answer describes the stored version. -/
theorem replaceObject_describes_note :
    ∃ tr w' answer,
      Prog.Exec (Semantics.faultless fun _ _ => True).Step
        ((Semantics.faultless fun _ _ => True).Env true) sourceNote
        (replaceObject replaceState KbSlug.notes ObjectPath.aMd replaceHeaders [.ok replaceText]) tr w'
        (.ret answer) ∧
      Describes noteKey noteRequest tr replacedVersion answer := by
  have hcurrent : queuedNote.get noteKey = some replacedVersion := by decide
  have henv : (Semantics.faultless fun _ _ => True).Env true queuedNote queuedNote := .inl rfl
  have hrun := note_run henv hcurrent
  have hsendable : HeaderMap.isValidValue (Utf8.encode replacedVersion.etag.val) = true := by
    decide
  refine ⟨_, _, _, hrun, (replaceObject_describes noteRequest_eq hrun (noteTrace_wrote _ _)
    (noteTrace_reported _ _)).mpr ⟨?_, hsendable⟩⟩
  change HeadMeets noteKey ((noteTrace queuedNote replacedVersion).take 4 ++ [_]) replacedVersion
  exact (headMeets_of_ok hcurrent).mpr rfl

end ReplaceAnswers
