-- SUMMARY: The passes that compare a bucket with the index: their tasks, the slot of each knowledge base, and stopping them.
import NotedThat.Indexer.Health
import NotedThat.Lib.Traces

/-!
# The reconciler

A pass runs in a task of its own, at startup or on request, and has the slot of its knowledge base
while it does. A task is polled: it goes on until it has to wait, and before it goes on with a pass it
looks whether it was cancelled. Between two steps of one task the others may take theirs.
-/

namespace Reconciler

variable {T : Type}

/-- Where `run_pass` is, at one of its awaits or between them. -/
inductive Place where
  | reading
  | listing (indexed : List IndexedEtag)
  | sending (keys : List ObjectPath) (report : ReconcileReport)
  /-- A refresh was accepted and is still to be counted on the health record. -/
  | counting (keys : List ObjectPath) (report : ReconcileReport)
deriving DecidableEq

/-- What a task does. `more` are the knowledge bases of a startup pass that are still to come. -/
inductive Body where
  | next (kbs : List KbSlug)
  /-- It has the slot. -/
  | entering (kb : KbSlug) (more : Option (List KbSlug))
  | pass (kb : KbSlug) (place : Place) (more : Option (List KbSlug))
  /-- The pass is over, and the slot is still to be given back. -/
  | leaving (kb : KbSlug) (more : Option (List KbSlug))
deriving DecidableEq

inductive Stage where
  | fresh
  /-- A request that has the slot: has it seen the tracker open? -/
  | asking (kb : KbSlug) (checked : Bool)
  | waiting (body : Body)
  | polled (body : Body)
  | ended
deriving DecidableEq

structure State (T : Type) where
  /-- Who has the slot of a knowledge base. -/
  slots : KbSlug → Option T
  stage : T → Stage
  cancelled : Bool
  closed : Bool
  /-- `stop` has returned. -/
  stopped : Bool
  health : IndexHealth

/-- What a step was. -/
inductive Event (T : Type) where
  | step
  | began (t : T) (kb : KbSlug)
  /-- The index told what it holds. -/
  | read (t : T) (kb : KbSlug) (indexed : List IndexedEtag)
  /-- The bucket was listed to its end. -/
  | listed (t : T) (kb : KbSlug) (inBucket : List (Text × Option Text))
  /-- The index queue accepted a refresh. -/
  | sent (t : T) (kb : KbSlug) (key : ObjectPath)
  | completed (t : T) (kb : KbSlug) (summary : ReconcileSummary)
  | stopped

/-- Nothing has been asked for. -/
def State.new (health : IndexHealth) : State T := ⟨fun _ => none, fun _ => .fresh, false, false, false, health⟩

/-- The tracker counts the task. -/
def Stage.Tracked : Stage → Prop
  | .waiting _ | .polled _ => True
  | _ => False

/-- A place where the pass may have to wait. -/
def Place.Awaits : Place → Prop
  | .reading | .listing _ | .sending (_ :: _) _ => True
  | _ => False

variable [DecidableEq T]

def State.set (s : State T) (t : T) (stage : Stage) : State T :=
  { s with stage := Function.update s.stage t stage }

/-- The task takes the slot, or gives it back. -/
def State.slot (s : State T) (kb : KbSlug) (holder : Option T) : State T :=
  { s with slots := Function.update s.slots kb holder }

/-- What the task does when it has given back the slot. -/
def after : Option (List KbSlug) → Stage
  | none => .ended
  | some kbs => .polled (.next kbs)

/-- One step of a task, of a caller, or of `stop`. -/
inductive Step (declared : KbSlug → Bool) : State T → Event T → State T → Prop where
  -- `spawn_startup_pass`
  | startup {s : State T} {t : T} (kbs : List KbSlug) (now : Int) : s.stage t = .fresh →
      Step declared s .step { s.set t (.waiting (.next kbs)) with
        health := kbs.foldl (fun health kb => health.markStale kb now) s.health }
  -- `trigger`
  | ask {s : State T} {t : T} (kb : KbSlug) : s.stage t = .fresh → declared kb = true → s.slots kb = none →
      Step declared s .step ((s.set t (.asking kb false)).slot kb (some t))
  | busy {s : State T} {t : T} (kb : KbSlug) : s.stage t = .fresh →
      declared kb = false ∨ s.slots kb ≠ none → Step declared s .step (s.set t .ended)
  | check {s : State T} {t : T} {kb : KbSlug} : s.stage t = .asking kb false → s.closed = false →
      Step declared s .step (s.set t (.asking kb true))
  | tooLate {s : State T} {t : T} {kb : KbSlug} : s.stage t = .asking kb false → s.closed = true →
      Step declared s .step ((s.set t .ended).slot kb none)
  | spawn {s : State T} {t : T} {kb : KbSlug} : s.stage t = .asking kb true →
      Step declared s .step (s.set t (.waiting (.entering kb none)))
  -- a pass that waits goes on only if it was not cancelled
  | poll {s : State T} {t : T} {body : Body} : s.stage t = .waiting body →
      (∀ kb place more, body = .pass kb place more → s.cancelled = false) →
      Step declared s .step (s.set t (.polled body))
  | drop {s : State T} {t : T} {kb : KbSlug} {place : Place} {more : Option (List KbSlug)} :
      s.stage t = .waiting (.pass kb place more) → s.cancelled = true →
      Step declared s .step (s.set t (.polled (.leaving kb none)))
  | wait {s : State T} {t : T} {kb : KbSlug} {place : Place} {more : Option (List KbSlug)} :
      s.stage t = .polled (.pass kb place more) → place.Awaits →
      Step declared s .step (s.set t (.waiting (.pass kb place more)))
  | skip {s : State T} {t : T} {kb : KbSlug} {kbs : List KbSlug} : s.stage t = .polled (.next (kb :: kbs)) →
      declared kb = false ∨ s.slots kb ≠ none → Step declared s .step (s.set t (.polled (.next kbs)))
  | enter {s : State T} {t : T} {kb : KbSlug} {kbs : List KbSlug} : s.stage t = .polled (.next (kb :: kbs)) →
      declared kb = true → s.slots kb = none →
      Step declared s .step ((s.set t (.polled (.entering kb (some kbs)))).slot kb (some t))
  | finish {s : State T} {t : T} : s.stage t = .polled (.next []) → Step declared s .step (s.set t .ended)
  | begins {s : State T} {t : T} {kb : KbSlug} {more : Option (List KbSlug)} :
      s.stage t = .polled (.entering kb more) → s.cancelled = false →
      Step declared s (.began t kb) (s.set t (.polled (.pass kb .reading more)))
  | breaks {s : State T} {t : T} {kb : KbSlug} {more : Option (List KbSlug)} :
      s.stage t = .polled (.entering kb more) → s.cancelled = true →
      Step declared s .step (s.set t (.polled (.leaving kb none)))
  -- `run_pass`
  | read {s : State T} {t : T} {kb : KbSlug} {more : Option (List KbSlug)} (indexed : List IndexedEtag) :
      s.stage t = .polled (.pass kb .reading more) →
      Step declared s (.read t kb indexed) (s.set t (.polled (.pass kb (.listing indexed) more)))
  | listed {s : State T} {t : T} {kb : KbSlug} {more : Option (List KbSlug)} {indexed : List IndexedEtag}
      (inBucket : List (Text × Option Text)) : s.stage t = .polled (.pass kb (.listing indexed) more) →
      Step declared s (.listed t kb inBucket) (s.set t (.polled (.pass kb (.sending
        (Reconcile.compare inBucket indexed none).keys (Reconcile.compare inBucket indexed none).report) more)))
  -- the index or the bucket could not be read, or the worker is gone
  | fails {s : State T} {t : T} {kb : KbSlug} {place : Place} {more : Option (List KbSlug)} :
      s.stage t = .polled (.pass kb place more) → place.Awaits →
      Step declared s .step (s.set t (.polled (.leaving kb more)))
  | send {s : State T} {t : T} {kb : KbSlug} {key : ObjectPath} {keys : List ObjectPath}
      {report : ReconcileReport} {more : Option (List KbSlug)} :
      s.stage t = .polled (.pass kb (.sending (key :: keys) report) more) →
      Step declared s (.sent t kb key) (s.set t (.polled (.pass kb (.counting keys report) more)))
  | count {s : State T} {t : T} {kb : KbSlug} {keys : List ObjectPath} {report : ReconcileReport}
      {more : Option (List KbSlug)} : s.stage t = .polled (.pass kb (.counting keys report) more) →
      Step declared s .step { s.set t (.polled (.pass kb (.sending keys report) more)) with
        health := s.health.enqueued kb }
  | completes {s : State T} {t : T} {kb : KbSlug} {report : ReconcileReport} {more : Option (List KbSlug)}
      (now : Int) : s.stage t = .polled (.pass kb (.sending [] report) more) →
      Step declared s (.completed t kb ⟨now, none, report⟩) { s.set t (.polled (.leaving kb more)) with
        health := s.health.reconciled kb ⟨now, none, report⟩ }
  | leave {s : State T} {t : T} {kb : KbSlug} {more : Option (List KbSlug)} :
      s.stage t = .polled (.leaving kb more) →
      Step declared s .step ((s.set t (after more)).slot kb none)
  -- `stop`
  | cancel {s : State T} : Step declared s .step { s with cancelled := true }
  | close {s : State T} : s.cancelled = true → Step declared s .step { s with closed := true }
  | stops {s : State T} : s.closed = true → (∀ t, ¬ (s.stage t).Tracked) →
      Step declared s .stopped { s with stopped := true }
  -- writers and the worker
  | stamped {s : State T} (stamp : HealthStamp) (now : Int) :
      Step declared s .step { s with health := stamp.apply s.health now }

end Reconciler
