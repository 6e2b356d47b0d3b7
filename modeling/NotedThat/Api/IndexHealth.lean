-- SUMMARY: The index health route of the HTTP API: what a caller is told of a knowledge base's record, and which records it does not tell apart.
import NotedThat.Api.Errors
import NotedThat.Core.Decisions
import NotedThat.Indexer.Health

/-!
# Index health

The record of a knowledge base is aggregate state, but some of it names or counts keys. The key of a
failure is shown to a caller who may list it, and its summary to a caller whose grant spans the knowledge
base. What a reconciliation pass counted is shown to a caller who may list what it walked. For a pass
over a prefix that is judged by the prefix, taken as a key, and keys below it may be denied all the same.
-/

namespace Api

-- ---------------------------------------------------------------------------
-- Times
-- ---------------------------------------------------------------------------

/-- A number in decimal, filled up with zeros. -/
def padded (width : Nat) (n : Int) : String :=
  let digits := toString n
  "".pushn '0' (width - digits.length) ++ digits

def unixToRfc3339 (secs : Int) : String :=
  let secs := max secs 0
  let days := secs / 86400
  let rem := secs % 86400
  -- the epoch is shifted to 0000-03-01, so that leap days land at the end of the year
  let z := days + 719468
  let era := z / 146097
  let doe := z % 146097
  let yoe := (doe - doe / 1460 + doe / 36524 - doe / 146096) / 365
  let doy := doe - (365 * yoe + yoe / 4 - yoe / 100)
  let mp := (5 * doy + 2) / 153
  let day := doy - (153 * mp + 2) / 5 + 1
  let month := if mp < 10 then mp + 3 else mp - 9
  let year := yoe + era * 400 + if month ≤ 2 then 1 else 0
  padded 4 year ++ "-" ++ padded 2 month ++ "-" ++ padded 2 day ++ "T" ++
    padded 2 (rem / 3600) ++ ":" ++ padded 2 (rem % 3600 / 60) ++ ":" ++ padded 2 (rem % 60) ++ "Z"

example : unixToRfc3339 1709210096 = "2024-02-29T12:34:56Z" := by decide

-- ---------------------------------------------------------------------------
-- The response
-- ---------------------------------------------------------------------------

/-- One knowledge base's record at the moment of the call. -/
structure KbHealthSnapshot where
  state : IndexState
  pending : Nat
  workerAlive : Bool
  lastIndexedAt : Option Int
  lastFailure : Option IndexFailure
  lastBackpressureAt : Option Int
  staleSince : Option Int
  lastReconcile : Option ReconcileSummary
deriving DecidableEq

def snapshot (health : IndexHealth) (kb : KbSlug) (now : Int) : KbHealthSnapshot :=
  let record := health.kbs kb
  ⟨deriveState record health.workerAlive now, record.pending, health.workerAlive, record.lastIndexedAt,
    record.lastFailure, record.lastBackpressureAt, record.staleSince, record.lastReconcile⟩

/-- The shared indexing queue at this moment. -/
structure QueueView where
  depth : Nat
  capacity : Nat
deriving DecidableEq

structure FailureView where
  atTime : String
  objectKey : Option Text
  summary : Option String
deriving DecidableEq

structure ReconcileView where
  atTime : String
  scope : Option Text
  objectsOnDisk : Option Nat
  unchanged : Option Nat
  changed : Option Nat
  orphaned : Option Nat
deriving DecidableEq

inductive WorkerState where
  | running
  | stopped
deriving DecidableEq

structure IndexHealthResponse where
  kbSlug : Text
  state : IndexState
  pending : Nat
  queue : QueueView
  worker : WorkerState
  lastIndexedAt : Option String
  lastFailure : Option FailureView
  lastReconcile : Option ReconcileView
deriving DecidableEq

def rank : IndexState → Nat
  | .healthy => 0
  | .indexing => 1
  | .backpressured => 2
  | .stale => 3
  | .failed => 4

def failureView (access : KbAccess) (failure : IndexFailure) : FailureView where
  atTime := unixToRfc3339 failure.atTime
  objectKey := if access.allows .list failure.objectKey.val then some failure.objectKey.val else none
  summary := if (access.filter .list).coversWholeKb then some failure.summary else none

/-- Whether the caller may see what a pass counted, and over what. -/
def reconcileVisible (access : KbAccess) : Option Text → Bool
  | some pre => access.allows .list pre
  | none => (access.filter .list).coversWholeKb

def reconcileView (access : KbAccess) (summary : ReconcileSummary) : ReconcileView :=
  let visible := reconcileVisible access summary.scope
  let counted (count : Nat) := if visible then some count else none
  { atTime := unixToRfc3339 summary.atTime
    scope := summary.scope.filter fun _ => visible
    objectsOnDisk := counted summary.report.objectsOnDisk
    unchanged := counted summary.report.unchanged
    changed := counted summary.report.changed
    orphaned := counted summary.report.orphaned }

def render (access : KbAccess) (kbSlug : Text) (snapshot : KbHealthSnapshot) (queue : QueueView) :
    IndexHealthResponse where
  kbSlug := kbSlug
  -- a full queue backpressures every knowledge base, and may only raise the state
  state :=
    if queue.capacity ≤ queue.depth ∧ rank snapshot.state < rank .backpressured then .backpressured
    else snapshot.state
  pending := snapshot.pending
  queue := queue
  worker := if snapshot.workerAlive then .running else .stopped
  lastIndexedAt := snapshot.lastIndexedAt.map unixToRfc3339
  lastFailure := snapshot.lastFailure.map (failureView access)
  lastReconcile := snapshot.lastReconcile.map (reconcileView access)

def KbAccess.requireVisible (access : KbAccess) : Except ApiError Unit :=
  if access.policy.visibleInListing access.principal then .ok () else .error access.denial

/-- `GET /api/v1/knowledgebases/{kb_slug}/index`. -/
def getIndexHealth (access : KbAccess) (health : IndexHealth) (now : Int) (queue : QueueView) :
    Except ApiError IndexHealthResponse := do
  access.requireVisible
  return render access access.kb.val (snapshot health access.kb now) queue

-- ---------------------------------------------------------------------------
-- Views
-- ---------------------------------------------------------------------------

variable {access : KbAccess}

/-- What is not visible leaves nothing in the view but the time. -/
theorem reconcileView_hidden {p : ReconcileSummary} (h : reconcileVisible access p.scope = false) :
    reconcileView access p = ⟨unixToRfc3339 p.atTime, none, none, none, none, none⟩ := by
  unfold reconcileView
  rw [h]
  cases p.scope <;> rfl

/-- What is visible is shown whole. -/
theorem reconcileView_visible {p : ReconcileSummary} (h : reconcileVisible access p.scope = true) :
    reconcileView access p = ⟨unixToRfc3339 p.atTime, p.scope, some p.report.objectsOnDisk,
      some p.report.unchanged, some p.report.changed, some p.report.orphaned⟩ := by
  unfold reconcileView
  rw [h]
  cases p.scope <;> rfl

/-- Two passes of one time are told apart, unless neither is visible. -/
theorem reconcileView_eq_iff {p p' : ReconcileSummary} (htime : p.atTime = p'.atTime) :
    reconcileView access p = reconcileView access p' ↔
      p = p' ∨ reconcileVisible access p.scope = false ∧ reconcileVisible access p'.scope = false := by
  constructor
  · intro h
    have hcount := congrArg ReconcileView.objectsOnDisk h
    cases hvisible : reconcileVisible access p.scope with
    | false =>
      cases hvisible' : reconcileVisible access p'.scope with
      | false => exact Or.inr ⟨rfl, rfl⟩
      | true =>
        rw [reconcileView_hidden hvisible, reconcileView_visible hvisible'] at hcount
        cases hcount
    | true =>
      cases hvisible' : reconcileVisible access p'.scope with
      | false =>
        rw [reconcileView_visible hvisible, reconcileView_hidden hvisible'] at hcount
        cases hcount
      | true =>
        rw [reconcileView_visible hvisible, reconcileView_visible hvisible'] at h
        simp only [ReconcileView.mk.injEq, Option.some.injEq] at h
        obtain ⟨-, hscope, hobjects, hunchanged, hchanged, horphaned⟩ := h
        obtain ⟨atTime, scope, objectsOnDisk, unchanged, changed, orphaned⟩ := p
        obtain ⟨atTime', scope', objectsOnDisk', unchanged', changed', orphaned'⟩ := p'
        cases htime
        cases hscope
        cases hobjects
        cases hunchanged
        cases hchanged
        cases horphaned
        exact Or.inl rfl
  · rintro (rfl | ⟨h, h'⟩)
    · rfl
    · rw [reconcileView_hidden h, reconcileView_hidden h', htime]

-- ---------------------------------------------------------------------------
-- What is not told apart
-- ---------------------------------------------------------------------------

/-- A key that a pass over a scope walks: outside the internal namespace, and under the scope. -/
def Walks (scope : Option Text) (key : Text) : Prop := isInternalPath key = false ∧ scope.getD [] <+: key

/-- Two records that differ only in what the caller may not list: in the scope and the counts of a pass
that walked some such key, in the key of a failure, or in its summary while there is such a key. -/
inductive Hidden (access : KbAccess) : KbHealthSnapshot → KbHealthSnapshot → Prop where
  | reconcile (s : KbHealthSnapshot) (p p' : ReconcileSummary) (htime : p.atTime = p'.atTime)
      (hp : ∃ key, Walks p.scope key ∧ access.allows .list key = false)
      (hp' : ∃ key, Walks p'.scope key ∧ access.allows .list key = false) :
      Hidden access { s with lastReconcile := some p } { s with lastReconcile := some p' }
  | failureKey (s : KbHealthSnapshot) (f : IndexFailure) (key : ObjectPath)
      (hf : access.allows .list f.objectKey.val = false) (hkey : access.allows .list key.val = false) :
      Hidden access { s with lastFailure := some f } { s with lastFailure := some { f with objectKey := key } }
  | failureSummary (s : KbHealthSnapshot) (f : IndexFailure) (summary : String)
      (hkey : ∃ key, isInternalPath key = false ∧ access.allows .list key = false) :
      Hidden access { s with lastFailure := some f } { s with lastFailure := some { f with summary := summary } }

/-- The passes of a record over a prefix that is allowed as a key. -/
def ShownScope (access : KbAccess) (s : KbHealthSnapshot) : Prop :=
  ∃ p ∈ s.lastReconcile, ∃ pre, p.scope = some pre ∧ access.allows .list pre = true

theorem not_coversWholeKb {key : Text} (hkey : isInternalPath key = false)
    (hdenied : access.allows .list key = false) : (access.filter .list).coversWholeKb = false := by
  cases hcovers : (access.filter .list).coversWholeKb with
  | false => rfl
  | true =>
    have hallows : access.allows .list key = true := KeyFilter.allows_of_coversWholeKb hcovers hkey
    cases hdenied.symm.trans hallows

/-- A pass that walked a key the caller may not list is visible by its scope only. -/
theorem reconcileVisible_iff {s : KbHealthSnapshot} {p : ReconcileSummary}
    (hp : ∃ key, Walks p.scope key ∧ access.allows .list key = false) :
    reconcileVisible access p.scope = true ↔ ShownScope access { s with lastReconcile := some p } := by
  obtain ⟨key, ⟨hkey, -⟩, hdenied⟩ := hp
  cases hscope : p.scope with
  | none =>
    refine ⟨fun h => ?_, ?_⟩
    · cases (not_coversWholeKb hkey hdenied).symm.trans h
    · rintro ⟨p', hp', pre, hpre, -⟩
      cases hp'
      cases hscope.symm.trans hpre
  | some pre =>
    refine ⟨fun h => ⟨p, rfl, pre, hscope, h⟩, ?_⟩
    rintro ⟨p', hp', pre', hpre', hallowed⟩
    cases hp'
    cases hscope.symm.trans hpre'
    exact hallowed

theorem failureView_key {f : IndexFailure} {key : ObjectPath}
    (hf : access.allows .list f.objectKey.val = false) (hkey : access.allows .list key.val = false) :
    failureView access f = failureView access { f with objectKey := key } := by
  simp [failureView, hf, hkey]

theorem failureView_summary {f : IndexFailure} {summary : String}
    (hcovers : (access.filter .list).coversWholeKb = false) :
    failureView access f = failureView access { f with summary := summary } := by
  simp [failureView, hcovers]

/-- For every policy, caller and two records that differ only in what the caller may not list: the caller is
told the same of both if and only if they have the same last pass, or neither has a pass over a prefix
that, taken as a key, the caller may list. -/
theorem render_same_iff (access : KbAccess) (kbSlug : Text) (queue : QueueView) {s s' : KbHealthSnapshot}
    (h : Hidden access s s') :
    render access kbSlug s queue = render access kbSlug s' queue ↔
      s.lastReconcile = s'.lastReconcile ∨ ¬ ShownScope access s ∧ ¬ ShownScope access s' := by
  cases h with
  | reconcile s p p' htime hp hp' =>
    have hrender : render access kbSlug { s with lastReconcile := some p } queue =
        render access kbSlug { s with lastReconcile := some p' } queue ↔
          reconcileView access p = reconcileView access p' := by
      simp [render]
    rw [hrender, reconcileView_eq_iff htime, ← reconcileVisible_iff hp, ← reconcileVisible_iff hp']
    simp
  | failureKey s f key hf hkey =>
    refine ⟨fun _ => Or.inl rfl, fun _ => ?_⟩
    simp [render, failureView_key hf hkey]
  | failureSummary s f summary hkey =>
    obtain ⟨key, hkey, hdenied⟩ := hkey
    refine ⟨fun _ => Or.inl rfl, fun _ => ?_⟩
    simp [render, @failureView_summary access f summary (not_coversWholeKb hkey hdenied)]

/-- Everyone signed in may list everything but what lies in `internal/secret`. -/
def secretPolicy : AccessPolicy where
  rules := [
    AccessRule.new .signedIn [.list],
    { who := .signedIn
      effect := .deny
      verbs := [.list]
      under := [⟨"internal/secret/**".toList,
        [[.literal "internal".toList, .literal "secret".toList, .doubleStar]], by decide⟩] }]

def secretAccess : KbAccess := ⟨.notes, .signedIn (.user ⟨"alice".toList, []⟩), secretPolicy⟩

/-- A healthy record whose last pass found this many changed objects. -/
def passed (scope : Option Text) (changed : Nat) : KbHealthSnapshot :=
  ⟨.healthy, 0, true, none, none, none, none, some ⟨0, scope, { objectsOnDisk := 5, changed := changed }⟩⟩

theorem secret_walked (scope : Option Text) (hscope : scope.getD [] <+: "internal/secret/a.md".toList) :
    ∃ key, Walks scope key ∧ secretAccess.allows .list key = false :=
  ⟨"internal/secret/a.md".toList, ⟨by decide, hscope⟩, by decide⟩

/-- What a pass over everything counted is not told. -/
theorem render_same_whole :
    render secretAccess "notes".toList (passed none 0) ⟨0, 1⟩ =
      render secretAccess "notes".toList (passed none 3) ⟨0, 1⟩ := by
  have hhidden : Hidden secretAccess (passed none 0) (passed none 3) :=
    .reconcile (passed none 0) _ _ rfl (secret_walked none List.nil_prefix) (secret_walked none List.nil_prefix)
  refine (render_same_iff secretAccess "notes".toList ⟨0, 1⟩ hhidden).mpr (Or.inr ⟨?_, ?_⟩)
  · rintro ⟨p, hp, pre, hpre, -⟩
    cases hp
    cases hpre
  · rintro ⟨p, hp, pre, hpre, -⟩
    cases hp
    cases hpre

/-- What a pass over `internal/` counted is told, although it walked the keys in `internal/secret`. -/
theorem secret_counts_told :
    Hidden secretAccess (passed (some "internal/".toList) 0) (passed (some "internal/".toList) 3) ∧
    render secretAccess "notes".toList (passed (some "internal/".toList) 0) ⟨0, 1⟩ ≠
      render secretAccess "notes".toList (passed (some "internal/".toList) 3) ⟨0, 1⟩ := by
  have hwalked := secret_walked (some "internal/".toList) (by decide)
  exact ⟨.reconcile (passed (some "internal/".toList) 0) _ _ rfl hwalked hwalked, by decide⟩

end Api
