-- SUMMARY: The health record of every knowledge base's index: what producers stamp on it and the state derived from it.
import NotedThat.Core.Reconcile
import NotedThat.Indexer.Pipeline

/-!
# Index health

Writers, the worker and the reconciliation passes stamp one small record for each knowledge base.
Each stamp is made under a lock, so it is one step. Times are whole seconds, and counters do not
overflow.
-/

/-- The derived state of an index, most severe first. -/
inductive IndexState where
  | failed
  | stale
  | backpressured
  | indexing
  | healthy
deriving DecidableEq

structure IndexFailure where
  atTime : Int
  objectKey : ObjectPath
  summary : String
deriving DecidableEq

/-- What the last completed reconciliation pass found. `scope` is the key prefix it walked, none for
the whole knowledge base. -/
structure ReconcileSummary where
  atTime : Int
  scope : Option Text
  report : ReconcileReport
deriving DecidableEq

/-- One knowledge base's record. `enqueued` and `completed` only grow. -/
structure KbRecord where
  enqueued : Nat := 0
  completed : Nat := 0
  lastOutcomeFailed : Bool := false
  lastIndexedAt : Option Int := none
  lastFailure : Option IndexFailure := none
  lastBackpressureAt : Option Int := none
  staleSince : Option Int := none
  lastReconcile : Option ReconcileSummary := none
deriving DecidableEq

/-- The shared record. A knowledge base nobody has stamped has the default record. -/
structure IndexHealth where
  kbs : KbSlug → KbRecord
  workerAlive : Bool

namespace IndexHealth

/-- Every knowledge base healthy, the worker alive. -/
def new : IndexHealth := ⟨fun _ => {}, true⟩

variable (health : IndexHealth) (kb : KbSlug) (now : Int)

def record (update : KbRecord → KbRecord) : IndexHealth :=
  { health with kbs := Function.update health.kbs kb (update (health.kbs kb)) }

/-- An event entered the queue. -/
def enqueued : IndexHealth := health.record kb fun r => { r with enqueued := r.enqueued + 1 }

/-- An event completed. -/
def succeeded : IndexHealth :=
  health.record kb fun r =>
    { r with completed := r.completed + 1, lastIndexedAt := some now, lastOutcomeFailed := false }

/-- An event failed. -/
def failed (objectKey : ObjectPath) (summary : String) : IndexHealth :=
  health.record kb fun r =>
    { r with
      completed := r.completed + 1
      lastFailure := some ⟨now, objectKey, Indexer.boundSummary summary⟩
      lastOutcomeFailed := true }

/-- A write was refused because the queue was full. -/
def backpressured : IndexHealth :=
  health.record kb fun r => { r with lastBackpressureAt := some now }

/-- Changes may have gone unobserved. An earlier mark stays. -/
def markStale : IndexHealth :=
  health.record kb fun r => { r with staleSince := r.staleSince.or (some now) }

/-- A reconciliation pass completed. -/
def reconciled (summary : ReconcileSummary) : IndexHealth :=
  health.record kb fun r => { r with lastReconcile := some summary, staleSince := none }

/-- The worker's loop has ended. -/
def workerStopped : IndexHealth := { health with workerAlive := false }

end IndexHealth

/-! ## The derived state -/

/-- How long a refusal is reported, in seconds. -/
def backpressureWindow : Int := 30

/-- Queued and in-flight events. -/
def KbRecord.pending (r : KbRecord) : Nat := r.enqueued - r.completed

def deriveState (r : KbRecord) (workerAlive : Bool) (now : Int) : IndexState :=
  if workerAlive = false then .failed
  else if r.lastOutcomeFailed then .failed
  else if r.staleSince.isSome then .stale
  else if r.lastBackpressureAt.any fun atTime => now - atTime ≤ backpressureWindow then .backpressured
  else if r.pending > 0 then .indexing
  else .healthy

/-- The state of a knowledge base's index now. -/
def IndexHealth.state (health : IndexHealth) (kb : KbSlug) (now : Int) : IndexState :=
  deriveState (health.kbs kb) health.workerAlive now

namespace IndexHealth

variable {health : IndexHealth} {kb kb' : KbSlug}

theorem kbs_record_self (update : KbRecord → KbRecord) :
    (health.record kb update).kbs kb = update (health.kbs kb) := Function.update_self kb _ _

theorem kbs_record_of_ne (update : KbRecord → KbRecord) (h : kb' ≠ kb) :
    (health.record kb update).kbs kb' = health.kbs kb' := Function.update_of_ne h _ _

/-- An update that leaves the mark of its knowledge base leaves every mark. -/
theorem staleSince_record {update : KbRecord → KbRecord}
    (h : ∀ r, (update r).staleSince = r.staleSince) :
    ((health.record kb update).kbs kb').staleSince = (health.kbs kb').staleSince := by
  by_cases hkb : kb' = kb
  · rw [hkb, kbs_record_self, h]
  · rw [kbs_record_of_ne _ hkb]

end IndexHealth

/-- What others than the bridge stamp. -/
inductive HealthStamp where
  | enqueued (kb : KbSlug)
  | succeeded (kb : KbSlug)
  | failed (kb : KbSlug) (objectKey : ObjectPath) (summary : String)
  | backpressured (kb : KbSlug)
  | workerStopped

def HealthStamp.apply (health : IndexHealth) (now : Int) : HealthStamp → IndexHealth
  | .enqueued kb => health.enqueued kb
  | .succeeded kb => health.succeeded kb now
  | .failed kb objectKey summary => health.failed kb now objectKey summary
  | .backpressured kb => health.backpressured kb now
  | .workerStopped => health.workerStopped

/-- Writers and the worker leave every mark. -/
theorem HealthStamp.staleSince_apply (stamp : HealthStamp) (health : IndexHealth) (now : Int)
    (kb : KbSlug) : ((stamp.apply health now).kbs kb).staleSince = (health.kbs kb).staleSince := by
  cases stamp with
  | enqueued kb' =>
    rw [apply, IndexHealth.enqueued]
    exact IndexHealth.staleSince_record fun _ => rfl
  | succeeded kb' =>
    rw [apply, IndexHealth.succeeded]
    exact IndexHealth.staleSince_record fun _ => rfl
  | failed kb' objectKey summary =>
    rw [apply, IndexHealth.failed]
    exact IndexHealth.staleSince_record fun _ => rfl
  | backpressured kb' =>
    rw [apply, IndexHealth.backpressured]
    exact IndexHealth.staleSince_record fun _ => rfl
  | workerStopped => rfl
