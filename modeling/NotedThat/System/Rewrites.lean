-- SUMMARY: A PATCH or replace that succeeds applied its splice once, to the bytes its PUT replaced; one that fails before left the object alone.
import NotedThat.System.CopyConditions

/-!
# Rewrites among other clients

A rewrite reads an object, splices it and writes it back while other clients write and delete. Its
GET and its PUT are pinned to the entity tag of its HEAD, so that the bytes it spliced are the bytes
it replaces if a tag identifies bytes. A lost race is retried, at most twice, and not at all when
the client sent an `If-Match`.
-/

namespace Rewrites

open Prog (wp)
open Semantics (Event)
open CopyConditions (Others)

/-! ## What a run did -/

/-- No operation changed the store. -/
def Untouched (h : List Event) : Prop := ∀ e ∈ h, e.post.store = e.pre.store

/-- Exactly one operation changed the store: it replaced the bytes at `k` by their splice, under the
entity tag `etag`. -/
def StoredOnce (k : Key) (splice : Bytes → Except WriteError Bytes) (etag : Option Text)
    (h : List Event) : Prop :=
  ∃ before e after v v', h = before ++ e :: after ∧ e.pre.get k = some v ∧
    splice v.bytes = .ok v'.bytes ∧ e.post = e.pre.apply (.stored k v') ∧ etag = some v'.etag.val ∧
    Untouched before ∧ Untouched after

/-- The failures that are reported after the object was stored. -/
def Reported (e : WriteError) : Prop :=
  e = .eventPublishFailed .stored ∨ e = .indexerBackpressureUpsert

/-- What a rewrite with this result did. -/
def Settles (k : Key) (splice : Bytes → Except WriteError Bytes) (h : List Event) :
    Except WriteError PutOutcome → Prop
  | .ok outcome => StoredOnce k splice outcome.etag h
  | .error e => (Reported e ∧ ∃ etag, StoredOnce k splice etag h) ∨ Untouched h

/-- Each attempt begins with a HEAD of the object. -/
def isHead (k : Key) : Op → Bool
  | .storage (.head kb path _) => (kb, path) = k
  | _ => false

def attempts (k : Key) (h : List Event) : Nat := h.countP fun e => isHead k e.op

section Attempts

variable {k : Key} {kb : KbSlug} {path : ObjectPath} {c : ConditionalHeaders}

@[simp] theorem attempts_nil : attempts k [] = 0 := rfl

@[simp] theorem attempts_append (h h' : List Event) :
    attempts k (h ++ h') = attempts k h + attempts k h' := List.countP_append

@[simp] theorem attempts_cons (e : Event) (h : List Event) :
    attempts k (e :: h) = attempts k h + if isHead k e.op then 1 else 0 := List.countP_cons

@[simp] theorem isHead_get {range : Option ByteRange} :
    isHead k (.storage (.get kb path range c)) = false := rfl

@[simp] theorem isHead_put {bytes : Bytes} {contentType : Option Text} :
    isHead k (.storage (.put kb path bytes contentType c)) = false := rfl

end Attempts

theorem Untouched.append {h h' : List Event} (hh : Untouched h) (hh' : Untouched h') :
    Untouched (h ++ h') := fun e he => (List.mem_append.mp he).elim (hh e) (hh' e)

theorem untouched_singleton {e : Event} (he : e.post.store = e.pre.store) : Untouched [e] := by
  intro x hx
  rw [List.mem_singleton.mp hx]
  exact he

/-! ## The weakest precondition -/

/-- Other clients keep bytes identified by entity tags. -/
abbrev bytesRely : Rely World := Store.identifiedByRely Version.bytes

abbrev rewrites (S : Semantics) {α : Type} (p : Program α)
    (Q : α → List Event → World → Prop) (h : List Event) (w : World) : Prop :=
  wp S.Step bytesRely (fun _ _ => True) p Q h w

variable {S : Semantics} {h : List Event} {w : World} {json : ManifestJson} {sinks : WriteSinks}

/-- Reporting a write stores nothing and fails only in the ways that are reported. -/
theorem rewrites_afterWrite {kb : KbSlug} {path : ObjectPath} {outcome : PutOutcome} {size : Nat}
    {mime : Text} {k : Key} {Q : Except WriteError Unit → List Event → World → Prop}
    (hQ : ∀ a t w', (a = .ok () ∨ ∃ e, Reported e ∧ a = .error e) → Untouched t →
      attempts k t = 0 → Q a (h ++ t) w') :
    rewrites S (Write.afterWrite sinks kb path outcome size mime) Q h w := by
  have hoffer : ∀ published, (published = .ok () ∨ ∃ e, Reported e ∧ published = .error e) →
      (Write.offerToIndex (.upsert kb path) .indexerBackpressureUpsert published).Only
        (fun o => ∀ o', o ≠ .storage o')
        fun a => a = .ok () ∨ ∃ e, Reported e ∧ a = .error e := by
    intro published hpublished
    refine Prog.Only.call (by simp) fun r => ?_
    cases r with
    | queued => exact hpublished
    | full => exact .inr ⟨_, .inr rfl, rfl⟩
    | closed => exact hpublished
  have honly : (Write.afterWrite sinks kb path outcome size mime).Only
      (fun o => ∀ o', o ≠ .storage o')
      fun a => a = .ok () ∨ ∃ e, Reported e ∧ a = .error e := by
    unfold Write.afterWrite Write.report Write.announce
    split
    · refine Prog.Only.bind (Prog.Only.call (by simp) fun r => ?_)
      cases r with
      | ok u => exact hoffer _ (.inl rfl)
      | error e => exact hoffer _ (.inr ⟨_, .inl rfl, rfl⟩)
    · exact hoffer _ (.inl rfl)
  refine wp.of_only (fun _ _ _ => trivial) honly fun a t w' ha ht => hQ a t w' ha ?_ ?_
  · intro e he
    exact (ht e he).2.store_eq (ht e he).1
  · refine List.countP_eq_zero.mpr fun e he => ?_
    have hop := (ht e he).1
    revert hop
    cases e.op with
    | storage o => exact fun hop => absurd rfl (hop o)
    | _ => simp [isHead]

/-- The anchor is the entity tag of a version the object had. -/
theorem rewrites_headAnchor {target : Write.CasRewrite}
    {Q : Except WriteError Text → List Event → World → Prop}
    (herr : ∀ e x w', x.post.store = x.pre.store → isHead (target.kb, target.path) x.op = true →
      Q (.error e) (h ++ [x]) w')
    (hok : ∀ v x w', x.post.store = x.pre.store → isHead (target.kb, target.path) x.op = true →
      bytesRely.rel w w' → ((target.kb, target.path), v) ∈ w'.store.history →
        Q (.ok v.etag.val) (h ++ [x]) w') :
    rewrites S (Write.headAnchor target) Q h w := by
  have hhead : isHead (target.kb, target.path) (.storage (.head target.kb target.path {})) = true := by
    simp [isHead]
  refine Semantics.wp_head (fun w' e _ _ => ⟨trivial, fun w'' _ => herr _ _ _ rfl hhead⟩)
    fun w' v hR hv => ⟨trivial, ?_⟩
  dsimp only [Version.objectMeta]
  split
  · exact fun w'' _ => herr _ _ _ rfl hhead
  · split
    · exact fun w'' _ => herr _ _ _ rfl hhead
    · intro w'' hR'
      exact hok v _ _ rfl hhead (bytesRely.trans hR hR') (hR'.1 _ (w'.store.recorded _ v hv))

/-- A pinned PUT replaces the bytes that were read under the same tag. -/
theorem pinned_bytes {k : Key} {v₀ v₁ : Version} {w' : World}
    (hid : w'.store.IdentifiedBy Version.bytes) (hv₁ : (k, v₁) ∈ w'.store.history)
    (hetag : v₁.etag = v₀.etag)
    (hpre : Preconditions.evaluateWritePreconditions ((w'.get k).map (·.etag.val))
      (.ofIfMatch v₀.etag.val) = .ok ()) :
    ∃ v, w'.get k = some v ∧ v.bytes = v₁.bytes := by
  have hmatch := (Preconditions.evaluateWritePreconditions_ok_iff.mp hpre).1 v₀.etag.val rfl
  obtain ⟨etag, hcurrent, hmatch⟩ := hmatch
  obtain ⟨v, hv, rfl⟩ := Option.map_eq_some_iff.mp hcurrent
  have hv' : v.etag = v₀.etag := by simpa using hmatch
  exact ⟨v, hv, hid k v v₁ (w'.store.recorded k v hv) hv₁ (hv'.trans hetag.symm)⟩

section CasAttempt

variable {T : Type} {target : Write.CasRewrite} {splice : Bytes → Except WriteError (Bytes × T)}

/-- What attempts that begin after `h`, with so many retries, did when they return. -/
def Finished (target : Write.CasRewrite) (splice : Bytes → Except WriteError (Bytes × T))
    (h : List Event) (retries : Nat) (a : Except WriteError (PutOutcome × T)) (h' : List Event) :
    Prop :=
  Settles (target.kb, target.path) (fun bytes => (splice bytes).map Prod.fst) h'
      (a.map Prod.fst) ∧
    attempts (target.kb, target.path) h + 1 ≤ attempts (target.kb, target.path) h' ∧
    attempts (target.kb, target.path) h' ≤ attempts (target.kb, target.path) h + retries + 1

/-- An attempt that gives up before it stored anything. -/
theorem Finished.error {h' t : List Event} {retries : Nat} (hh' : h' = h ++ t) (hh : Untouched h)
    (ht : Untouched t) (hcount : attempts (target.kb, target.path) t = 1) (e : WriteError) :
    Finished target splice h retries (.error e) h' := by
  subst hh'
  refine ⟨.inr (hh.append ht), ?_, ?_⟩
  · rw [attempts_append, hcount]
  · rw [attempts_append, hcount]
    omega

/-- An attempt that stored the splice of what it replaced, by its third operation `p`. -/
theorem Finished.stored {x g p : Event} {t : List Event} {v v' : Version} {retries : Nat}
    (hh : Untouched h) (hx : x.post.store = x.pre.store)
    (hhead : isHead (target.kb, target.path) x.op = true) (hg : g.post.store = g.pre.store)
    (hghead : isHead (target.kb, target.path) g.op = false)
    (hphead : isHead (target.kb, target.path) p.op = false)
    (hv : p.pre.get (target.kb, target.path) = some v)
    (hpost : p.post = p.pre.apply (.stored (target.kb, target.path) v'))
    (hsplice : (splice v.bytes).map Prod.fst = .ok v'.bytes) (ht : Untouched t)
    (htcount : attempts (target.kb, target.path) t = 0) (a : Except WriteError (PutOutcome × T))
    (ha : match a with
      | .ok r => r.1.etag = some v'.etag.val
      | .error e => Reported e) :
    Finished target splice h retries a (h ++ [x] ++ [g] ++ [p] ++ t) := by
  have hstored : StoredOnce (target.kb, target.path) (fun bytes => (splice bytes).map Prod.fst)
      (some v'.etag.val) (h ++ [x] ++ [g] ++ [p] ++ t) := by
    refine ⟨h ++ [x] ++ [g], p, t, v, v', by simp, hv, hsplice, hpost, rfl, ?_, ht⟩
    exact (hh.append (untouched_singleton hx)).append (untouched_singleton hg)
  refine ⟨?_, ?_, ?_⟩
  · cases a with
    | ok r =>
      rw [← show r.1.etag = some v'.etag.val from ha] at hstored
      exact hstored
    | error e => exact .inl ⟨ha, _, hstored⟩
  · simp [hhead, hghead, hphead, htcount]
  · simp [hhead, hghead, hphead, htcount]

/-- One attempt, given the attempts after it. -/
theorem rewrites_casAttempt_step {retries : Nat} (hw : w.store.IdentifiedBy Version.bytes)
    (hh : Untouched h)
    (hretry : ∀ n h w, retries = n + 1 → w.store.IdentifiedBy Version.bytes → Untouched h →
      rewrites S (Write.casAttempt json sinks target splice n)
        (fun a h' _ => Finished target splice h n a h') h w) :
    rewrites S (Write.casAttempt json sinks target splice retries)
      (fun a h' _ => Finished target splice h retries a h') h w := by
  have lost : ∀ e h₁ t w', h₁ = h ++ t → Untouched t →
      attempts (target.kb, target.path) t = 1 → w'.store.IdentifiedBy Version.bytes → rewrites S
      (Write.casLost json sinks target splice retries e)
      (fun a h' _ => Finished target splice h retries a h') h₁ w' := by
    intro e h₁ t w' hh₁ ht hcount hw'
    refine Write.casLost_cases (P := fun p => rewrites S p
      (fun a h' _ => Finished target splice h retries a h') h₁ w')
      (fun _ _ => .error hh₁ hh ht hcount _) fun n hn => ?_
    subst hh₁ hn
    refine (hretry n _ _ rfl hw' (hh.append ht)).mono fun a h' _ hdone => ?_
    obtain ⟨hsettles, hlow, hhigh⟩ := hdone
    rw [attempts_append, hcount] at hlow hhigh
    exact ⟨hsettles, by omega, by omega⟩
  unfold Write.casAttempt
  apply wp.bind
  refine rewrites_headAnchor (fun e x w₀ hx hhead => ?_) fun v₀ x w₀ hx hhead hR₀ hv₀ => ?_
  · exact fun _ _ => .error rfl hh (untouched_singleton hx) (by simp [hhead]) _
  have hw₀ := hR₀.2 hw
  have hcount : ∀ y : Event, isHead (target.kb, target.path) y.op = false →
      attempts (target.kb, target.path) [x, y] = 1 := by
    intro y hy
    simp [hhead, hy]
  have htouched : ∀ y : Event, y.post.store = y.pre.store → Untouched [x, y] := fun y hy =>
    (untouched_singleton hx).append (untouched_singleton hy)
  refine Semantics.wp_get (fun w₁ e hR₁ _ => ⟨trivial, ?_⟩)
    fun w₁ v₁ read hR₁ hv₁ hpre₁ hread => ⟨trivial, ?_⟩
  · exact lost e _ _ _ (List.append_assoc _ _ _) (htouched _ rfl) (hcount _ rfl) (hR₁.2 hw₀)
  -- the read serves the whole version, which has the anchor's tag
  have hetag₁ : v₁.etag = v₀.etag := by
    rw [Preconditions.evaluateReadPreconditions_ofIfMatch] at hpre₁
    split at hpre₁
    · next hetag => exact hetag
    · cases hpre₁
  cases hread
  dsimp only
  split
  · exact fun _ _ => .error (List.append_assoc _ _ _) hh (htouched _ rfl) (hcount _ rfl) _
  next newBytes extra hsplice =>
  split
  · exact fun _ _ => .error (List.append_assoc _ _ _) hh (htouched _ rfl) (hcount _ rfl) _
  refine Semantics.wp_put (fun w₂ e hR₂ => ⟨trivial, ?_⟩)
    fun w₂ stamp hR₂ _ hpre₂ => ⟨trivial, ?_⟩
  · refine lost e _ _ _ ((List.append_assoc _ _ _).trans (List.append_assoc _ _ _)) ?_ ?_
      (hR₂.2 (hR₁.2 hw₀))
    · exact (untouched_singleton hx).append (.append (untouched_singleton rfl)
        (untouched_singleton rfl))
    · simp [hhead]
  have hhistory : ((target.kb, target.path), v₁) ∈ w₂.store.history :=
    hR₂.1 _ (w₁.store.recorded _ v₁ hv₁)
  obtain ⟨v₂, hv₂, hbytes⟩ := pinned_bytes (hR₂.2 (hR₁.2 hw₀)) hhistory hetag₁ hpre₂
  apply wp.bind
  refine rewrites_afterWrite (k := (target.kb, target.path)) fun a t w₃ ha ht htcount => ?_
  have hspliced : (splice v₂.bytes).map Prod.fst = .ok newBytes := by
    rw [hbytes, show splice v₁.bytes = .ok (newBytes, extra) from hsplice]
    rfl
  rcases ha with rfl | ⟨e, he, rfl⟩
  · exact fun _ _ => .stored hh hx hhead rfl rfl rfl hv₂ rfl hspliced ht htcount _ rfl
  · exact fun _ _ => .stored hh hx hhead rfl rfl rfl hv₂ rfl hspliced ht htcount _ he

theorem rewrites_casAttempt {retries : Nat} (hw : w.store.IdentifiedBy Version.bytes)
    (hh : Untouched h) :
    rewrites S (Write.casAttempt json sinks target splice retries)
      (fun a h' _ => Finished target splice h retries a h') h w := by
  induction retries generalizing h w with
  | zero => exact rewrites_casAttempt_step hw hh fun n h w hn => by cases hn
  | succ retries ih =>
    refine rewrites_casAttempt_step hw hh fun n h w hn hw hh => ?_
    cases hn
    exact ih hw hh

/-- The whole loop. -/
theorem rewrites_casRewrite (hw : w.store.IdentifiedBy Version.bytes) :
    rewrites S (Write.casRewrite json sinks target splice)
      (fun a h' _ => Finished target splice [] (if target.callerIfMatch.isSome then 0 else 2) a h')
      [] w := rewrites_casAttempt hw (by simp [Untouched])

end CasAttempt

/-! ## PATCH and replace -/

/-- What a finished rewrite did, and in how many attempts; `accepted` says that it was not refused
before the first. -/
structure Atomic (k : Key) (splice : Bytes → Except WriteError Bytes) (accepted : Bool)
    (ifMatch : Option Text) (tr : List Event) (result : Except WriteError PutOutcome) : Prop where
  settles : Settles k splice tr result
  attempts_le : attempts k tr ≤ 3
  attempts_eq : ifMatch.isSome = true → attempts k tr = if accepted then 1 else 0

theorem Atomic.refused {k : Key} {splice : Bytes → Except WriteError Bytes} {ifMatch : Option Text}
    (e : WriteError) : Atomic k splice false ifMatch [] (.error e) where
  settles := .inr (by simp [Untouched])
  attempts_le := Nat.zero_le 3
  attempts_eq := fun _ => rfl

theorem Atomic.of_finished {T : Type} {target : Write.CasRewrite}
    {splice : Bytes → Except WriteError (Bytes × T)} {a : Except WriteError (PutOutcome × T)}
    {tr : List Event}
    (h : Finished target splice [] (if target.callerIfMatch.isSome then 0 else 2) a tr) :
    Atomic (target.kb, target.path) (fun bytes => (splice bytes).map Prod.fst) true
      target.callerIfMatch tr (a.map Prod.fst) := by
  obtain ⟨hsettles, hlow, hhigh⟩ := h
  rw [attempts_nil] at hlow hhigh
  refine ⟨hsettles, ?_, ?_⟩
  · split at hhigh <;> omega
  · intro hsome
    rw [if_pos hsome] at hhigh
    rw [if_pos rfl]
    omega

theorem applyPatch_append {body bytes newBytes : Bytes} {max : Nat}
    (h : Write.applyPatch (.append body) bytes max = .ok newBytes) :
    newBytes = bytes ++ body := by
  simp only [Write.applyPatch, Write.splicePlan] at h
  obtain ⟨plan, hplan, h⟩ := Except.bind_eq_ok.mp h
  cases hplan
  simp only at h
  split at h
  · cases h
  · cases h
    rfl

theorem rewrites_patch (hw : w.store.IdentifiedBy Version.bytes) (request : Write.PatchRequest) :
    rewrites S (Write.patch json sinks request) (fun a h' _ => Atomic (request.kb, request.path)
      (fun bytes => Write.applyPatch request.patchMode bytes request.maxPatchableSize)
      (Write.validateCallerIfMatch request.patchMode request.callerConditionals).isOk
      request.callerConditionals.ifMatch h' a) [] w := by
  unfold Write.patch
  split
  · next e he =>
    rw [he]
    exact fun _ _ => .refused e
  · next he =>
    rw [he]
    apply wp.bind
    refine (rewrites_casRewrite hw).mono fun a h' w' hdone => ?_
    have hatomic := Atomic.of_finished hdone
    have hsplice : ∀ bytes, ((Write.applyPatch request.patchMode bytes
        request.maxPatchableSize).map fun bytes => (bytes, ())).map Prod.fst =
        Write.applyPatch request.patchMode bytes request.maxPatchableSize := by
      intro bytes
      cases Write.applyPatch request.patchMode bytes request.maxPatchableSize with
      | error e => rfl
      | ok newBytes => rfl
    simp only [hsplice] at hatomic
    cases a with
    | error e => exact fun _ _ => hatomic
    | ok r => exact fun _ _ => hatomic

theorem rewrites_replace (hw : w.store.IdentifiedBy Version.bytes)
    (request : Write.ReplaceRequest) :
    rewrites S (Write.replace json sinks request) (fun a h' _ => Atomic (request.kb, request.path)
      (fun bytes => (Write.replaceIn bytes (Utf8.encode request.oldString)
        (Utf8.encode request.newString) request.replaceAll request.maxPatchableSize).map Prod.fst)
      (decide (request.oldString ≠ []) &&
        (Write.requireStrongIfMatch request.callerConditionals).isOk)
      request.callerConditionals.ifMatch h' (a.map (·.putOutcome))) [] w := by
  unfold Write.replace
  split
  · next hempty =>
    simp only [hempty]
    exact fun _ _ => .refused _
  · next hne =>
    split
    · next e he =>
      rw [he]
      simp only [Except.isOk, Except.toBool, Bool.and_false]
      exact fun _ _ => .refused e
    · next he =>
      rw [he]
      apply wp.bind
      refine (rewrites_casRewrite hw).mono fun a h' w' hdone => ?_
      have hatomic := Atomic.of_finished hdone
      simp only [Except.isOk, Except.toBool, hne, ne_eq, not_false_eq_true, decide_true, Bool.and_true]
      cases a with
      | error e => exact fun _ _ => hatomic
      | ok r => exact fun _ _ => hatomic

/-- Among any other clients, a PATCH or replace that succeeds changed the store once: it replaced
the bytes that were there by their splice, which for an append is these bytes and its body. One that
fails, unless it is only the report that failed, changed nothing. A rewrite makes at most three
attempts; with an `If-Match` exactly one, or none if it is refused before. -/
theorem rewrite_atomic {json : ManifestJson} {S : Semantics} (hS : S.IdentifiesBytes)
    {sinks : WriteSinks} {w w' : World} (hw : w.store.IdentifiedBy Version.bytes)
    {tr : List Event} :
    (∀ request result,
      Prog.Exec S.Step (Others S) w (Write.patch json sinks request) tr w' (.ret result) →
        Atomic (request.kb, request.path)
          (fun bytes => Write.applyPatch request.patchMode bytes request.maxPatchableSize)
          (Write.validateCallerIfMatch request.patchMode request.callerConditionals).isOk
          request.callerConditionals.ifMatch tr result ∧
        ∀ body outcome, request.patchMode = .append body → result = .ok outcome →
          StoredOnce (request.kb, request.path) (fun bytes => .ok (bytes ++ body)) outcome.etag tr) ∧
    (∀ request result,
      Prog.Exec S.Step (Others S) w (Write.replace json sinks request) tr w' (.ret result) →
        Atomic (request.kb, request.path)
          (fun bytes => (Write.replaceIn bytes (Utf8.encode request.oldString)
            (Utf8.encode request.newString) request.replaceAll request.maxPatchableSize).map
              Prod.fst)
          (decide (request.oldString ≠ []) &&
            (Write.requireStrongIfMatch request.callerConditionals).isOk)
          request.callerConditionals.ifMatch tr (result.map (·.putOutcome))) := by
  have henv : ∀ w w', Others S w w' → bytesRely.rel w w' := by
    rintro w w' ⟨server, h⟩
    exact hS.env h
  refine ⟨?_, ?_⟩
  · intro request result hrun
    have hatomic := (rewrites_patch hw request).exec_ret hrun henv
    refine ⟨hatomic, ?_⟩
    rintro body outcome hmode rfl
    obtain ⟨before, e, after, v, v', htr, hv, hsplice, hrest⟩ := hatomic.settles
    refine ⟨before, e, after, v, v', htr, hv, ?_, hrest⟩
    rw [hmode] at hsplice
    rw [applyPatch_append hsplice]
  · intro request result hrun
    exact (rewrites_replace hw request).exec_ret hrun henv

/-! ## A request that is refused, and one that is not -/

/-- Append a byte to `a.md`. -/
def appendRequest (ifMatch : Option Text) : Write.PatchRequest where
  kb := KbSlug.notes
  path := ObjectPath.aMd
  patchMode := .append [9]
  callerConditionals := { ifMatch := ifMatch }
  maxPatchableSize := 100
  callerContentType := none

def noJson : ManifestJson := ⟨fun _ => .error "expected value at line 1 column 1", fun _ => []⟩

/-- With `If-Match: *` a PATCH makes no attempt. -/
theorem starred_no_attempt : ∃ tr w' result,
    Prog.Exec CopyConditions.identifyingSemantics.Step (Others CopyConditions.identifyingSemantics)
      World.empty (Write.patch noJson ⟨false, .http⟩ (appendRequest (some ['*']))) tr w'
      (.ret result) ∧
    attempts (KbSlug.notes, ObjectPath.aMd) tr = 0 :=
  ⟨[], _, _, .done _ _, rfl⟩

open CopyConditions (twoNotes sourceVersion copyStamp identifyingSemantics)

theorem identifiesBytes_identifying : identifyingSemantics.IdentifiesBytes := by
  intro s effect h
  cases effect with
  | unchanged => trivial
  | erased k => trivial
  | stored k v => exact fun v' hv' hetag => congrArg Version.bytes (h v' hv' hetag)

theorem twoNotes_bytes : twoNotes.store.IdentifiedBy Version.bytes := fun k v v' hv hv' hetag =>
  congrArg Version.bytes (CopyConditions.twoNotes_identified k v v' hv hv' hetag)

/-- `a.md` after the append. -/
def appendedVersion : Version :=
  ⟨[1, 9], some "text/markdown".toList, copyStamp.etag, copyStamp.lastModified⟩

/-- The same append with the tag `a.md` has is applied to the byte that is there. -/
theorem rewrite_atomic_append : ∃ tr w' outcome,
    Prog.Exec identifyingSemantics.Step (Others identifyingSemantics) twoNotes
      (Write.patch noJson ⟨false, .http⟩ (appendRequest (some sourceVersion.etag.val))) tr w'
      (.ret (.ok outcome)) ∧
    attempts (KbSlug.notes, ObjectPath.aMd) tr = 1 ∧
    StoredOnce (KbSlug.notes, ObjectPath.aMd) (fun bytes => .ok (bytes ++ [9])) outcome.etag tr := by
  have hvalid : Write.validateCallerIfMatch
      (appendRequest (some sourceVersion.etag.val)).patchMode
      (appendRequest (some sourceVersion.etag.val)).callerConditionals = .ok () := by decide
  have hput : identifyingSemantics.Step twoNotes (.storage (.put KbSlug.notes ObjectPath.aMd [1, 9]
      (some "text/markdown".toList) (.ofIfMatch sourceVersion.etag.val)))
      (.ok ⟨some copyStamp.etag.val, false⟩)
      (twoNotes.apply (.stored (KbSlug.notes, ObjectPath.aMd) appendedVersion)) :=
    @Semantics.Step.of_eval _ _ _ copyStamp _ (.stored _ appendedVersion) (by decide)
      (.of_history (by decide))
  have hhead : identifyingSemantics.Step twoNotes (.storage (.head KbSlug.notes ObjectPath.aMd {}))
      (.ok (sourceVersion.objectMeta ObjectPath.aMd sourceVersion.size)) twoNotes :=
    @Semantics.Step.of_eval _ _ _ copyStamp _ .unchanged (by decide) trivial
  have hget : identifyingSemantics.Step twoNotes (.storage (.get KbSlug.notes ObjectPath.aMd none
      (.ofIfMatch sourceVersion.etag.val))) (.ok (sourceVersion.wholeRead ObjectPath.aMd)) twoNotes :=
    @Semantics.Step.of_eval _ _ _ copyStamp _ .unchanged (by decide) trivial
  obtain ⟨tr, w', hrun⟩ : ∃ tr w', Prog.Exec identifyingSemantics.Step
      (Others identifyingSemantics) twoNotes
      (Write.patch noJson ⟨false, .http⟩ (appendRequest (some sourceVersion.etag.val))) tr w'
      (.ret (.ok ⟨some copyStamp.etag.val, false⟩)) := by
    apply Exists.intro
    apply Exists.intro
    simp only [Write.patch, hvalid, Write.casRewrite]
    rw [Write.casAttempt]
    apply Prog.Exec.step hhead
    apply Prog.Exec.step hget
    apply Prog.Exec.step hput
    apply Prog.Exec.step (.other (.trySend _) copyStamp (by simp))
    exact .done _ _
  have hatomic := (rewrite_atomic identifiesBytes_identifying twoNotes_bytes).1 _ _ hrun
  exact ⟨_, _, _, hrun, hatomic.1.attempts_eq rfl, hatomic.2 _ _ rfl rfl⟩

end Rewrites
