-- SUMMARY: The state the server's parts share (store, event log, index queue, vector store) and the atomic operations on it.
import NotedThat.Core.Points
import NotedThat.Lib.RelyGuarantee

/-!
# The shared world

Requests and index handlings are programs over the operations defined here. An operation is one
atomic step on the world. It either does its work, or, where the semantics allows it to fail,
answers with a failure and leaves the world as it was.
-/

/-! ## Events -/

/-- Which surface made a change, or which part of the server reports it. -/
inductive EventSource where
  | http
  | webdav
  | mcp
  | fsWatch
  | reconcile
  | indexer
deriving DecidableEq

/-- What happened to a key. The times an event carries are left out: nothing decides by them. -/
inductive ObjectEventKind where
  | written (etag : Text) (size : Nat) (mime : Text)
  | deleted
  | indexed (etag mime : Text) (chunks : Nat)
  | indexFailed (etag mime : Option Text) (summary : Option String)
deriving DecidableEq

/-- The `ETag` of the version an event is about, when it knows one. -/
def ObjectEventKind.etag : ObjectEventKind → Option Text
  | .written etag _ _ => some etag
  | .deleted => none
  | .indexed etag _ _ => some etag
  | .indexFailed etag _ _ => etag

structure ObjectEvent where
  kb : KbSlug
  objectKey : ObjectPath
  kind : ObjectEventKind
  source : EventSource
deriving DecidableEq

def ObjectEvent.key (e : ObjectEvent) : Key := (e.kb, e.objectKey)

/-- What raised a refresh. -/
inductive RefreshOrigin where
  | watch
  | reconcile
deriving DecidableEq

def RefreshOrigin.source : RefreshOrigin → EventSource
  | .watch => .fsWatch
  | .reconcile => .reconcile

/-- The message type of the indexing queue. -/
inductive IndexEvent where
  | upsert (kb : KbSlug) (objectKey : ObjectPath)
  | refresh (kb : KbSlug) (objectKey : ObjectPath) (origin : RefreshOrigin)
  | tombstone (kb : KbSlug) (objectKey : ObjectPath)
deriving DecidableEq

def IndexEvent.key : IndexEvent → Key
  | .upsert kb objectKey => (kb, objectKey)
  | .refresh kb objectKey _ => (kb, objectKey)
  | .tombstone kb objectKey => (kb, objectKey)

/-- What became of an event offered to the index queue. -/
inductive Offered where
  | queued
  | full
  | closed
deriving DecidableEq

/-! ## Operations -/

/-- The atomic operations of requests and index handlings. Embeddings are only counted, and
`stage` is the private copy an index handling makes of what it read. -/
inductive Op where
  | storage (o : StorageOp)
  | publish (event : ObjectEvent)
  | trySend (event : IndexEvent)
  | upsertPoints (kb : KbSlug) (points : List Point)
  | deletePoints (kb : KbSlug) (selector : PointSelector)
  | indexedEtag (kb : KbSlug) (objectKey : ObjectPath)
  | embed (texts : List Text)
  | stage (bytes : Bytes)
  | remember (k : Key) (etag : Option Text)
  | isNews (k : Key) (etag : Option Text)

namespace Op

abbrev Res : Op → Type
  | .storage o => Except StorageError o.Out
  | .publish _ => Except String Unit
  | .trySend _ => Offered
  | .upsertPoints .. => Except String Unit
  | .deletePoints .. => Except String Unit
  | .indexedEtag .. => Except String (Option Text)
  | .embed _ => Except String Nat
  | .stage _ => Except String Unit
  | .remember .. => Unit
  | .isNews .. => Bool

/-- The answers of an operation that failed. -/
def Failed : (o : Op) → o.Res → Prop
  | .storage _, r => ∃ message, r = .error (.backendUnavailable message) ∨ r = .error (.other message)
  | .publish _, r => ∃ e, r = .error e
  | .trySend _, r => r = .full ∨ r = .closed
  | .upsertPoints .., r => ∃ e, r = .error e
  | .deletePoints .., r => ∃ e, r = .error e
  | .indexedEtag .., r => ∃ e, r = .error e
  | .embed texts, r => r ≠ .ok texts.length
  | .stage _, r => ∃ e, r = .error e
  | .remember .., _ => False
  | .isNews .., _ => False

end Op

/-- Programs over the shared world. -/
abbrev Program (α : Type) := Prog Op Op.Res α

namespace Program

/-- Perform a storage operation. -/
def storage (o : StorageOp) : Program (Except StorageError o.Out) := Prog.call (Op.storage o)

end Program

/-! ## States -/

/-- The objects, with two records no code reads: every version ever current at a key, and
those of them the server stored. -/
structure Store where
  objects : Objects
  history : List (Key × Version)
  written : List (Key × Version)
  recorded : ∀ k v, objects.get k = some v → (k, v) ∈ history
  writtenRecorded : ∀ e ∈ written, e ∈ history

namespace Store

variable (s : Store)

/-- The current version of a key. -/
abbrev get (k : Key) : Option Version := s.objects.get k

/-- Nothing stored yet. -/
def empty : Store where
  objects := Objects.empty
  history := []
  written := []
  recorded := by
    intro k v h
    cases h
  writtenRecorded := by
    intro e he
    cases he

/-- The store after an effect, whether the server or another party had it. -/
def apply (effect : StorageOp.Effect) (server : Bool) : Store :=
  match effect with
  | .unchanged => s
  | .stored k v =>
    { objects := s.objects.put k v
      history := s.history ++ [(k, v)]
      written := if server then s.written ++ [(k, v)] else s.written
      recorded := by
        intro k' v' h
        by_cases hk : k' = k
        · subst hk
          rw [Objects.get_put_self] at h
          cases h
          simp
        · rw [Objects.get_put_of_ne _ _ hk] at h
          exact List.mem_append_left _ (s.recorded k' v' h)
      writtenRecorded := by
        intro e he
        cases server with
        | false => exact List.mem_append_left _ (s.writtenRecorded e he)
        | true =>
          rcases List.mem_append.mp he with he | he
          · exact List.mem_append_left _ (s.writtenRecorded e he)
          · exact List.mem_append_right _ he }
  | .erased k =>
    { objects := s.objects.erase k
      history := s.history
      written := s.written
      recorded := by
        intro k' v' h
        by_cases hk : k' = k
        · rw [hk, Objects.get_erase_self] at h
          cases h
        · rw [Objects.get_erase_of_ne _ hk] at h
          exact s.recorded k' v' h
      writtenRecorded := s.writtenRecorded }

theorem history_subset_apply (effect : StorageOp.Effect) (server : Bool) {e : Key × Version}
    (he : e ∈ s.history) : e ∈ (s.apply effect server).history := by
  cases effect with
  | unchanged => exact he
  | stored k v => exact List.mem_append_left _ he
  | erased k => exact he

theorem get_apply (effect : StorageOp.Effect) (server : Bool) (k : Key) :
    (s.apply effect server).get k =
      match effect with
      | .unchanged => s.get k
      | .stored k' v => if k = k' then some v else s.get k
      | .erased k' => if k = k' then none else s.get k := by
  cases effect with
  | unchanged => rfl
  | stored k' v =>
    by_cases hk : k = k'
    · simp [apply, get, hk]
    · simp [apply, get, hk, Objects.get_put_of_ne]
  | erased k' =>
    by_cases hk : k = k'
    · simp [apply, get, hk, Objects.get_erase_self]
    · simp [apply, get, hk, Objects.get_erase_of_ne]

end Store

/-- The stamps the worker last saw, oldest first. -/
abbrev LastSeen := List (Key × Option Text)

namespace LastSeen

def capacity : Nat := 4096

/-- Record a stamp; beyond the capacity the oldest key is forgotten. -/
def record (seen : LastSeen) (k : Key) (etag : Option Text) : LastSeen :=
  if seen.any (·.1 = k) then seen.map fun e => if e.1 = k then (k, etag) else e
  else
    let seen := seen ++ [(k, etag)]
    seen.drop (seen.length - capacity)

def differs (seen : LastSeen) (k : Key) (etag : Option Text) : Bool :=
  !seen.any fun e => e.1 = k ∧ e.2 = etag

end LastSeen

structure World where
  store : Store
  events : List ObjectEvent
  queue : List IndexEvent
  points : Points
  lastSeen : LastSeen

namespace World

/-- The current version of a key. -/
abbrev get (w : World) (k : Key) : Option Version := w.store.get k

/-- The world before anything happened. -/
def empty : World := ⟨Store.empty, [], [], fun _ => .empty, []⟩

/-- The world after a storage operation of the server. -/
def apply (w : World) (effect : StorageOp.Effect) : World :=
  { w with store := w.store.apply effect true }

@[simp] theorem apply_unchanged (w : World) : w.apply .unchanged = w := rfl

@[simp] theorem apply_store (w : World) (effect : StorageOp.Effect) :
    (w.apply effect).store = w.store.apply effect true := rfl

variable (parseHttpDate : Text → Except String Nat) (stamp : Stamp)

/-- An operation that does its work. -/
def perform (w : World) : (o : Op) → o.Res × World
  | .storage o =>
    let (answer, effect) := o.eval parseHttpDate stamp w.store.objects
    (answer, w.apply effect)
  | .publish event => (.ok (), { w with events := w.events ++ [event] })
  | .trySend event => (.queued, { w with queue := w.queue ++ [event] })
  | .upsertPoints kb points => (.ok (), { w with points := w.points.upsertAll kb points })
  | .deletePoints kb selector => (.ok (), { w with points := w.points.delete kb selector })
  | .indexedEtag kb objectKey => (.ok (w.points (kb, objectKey)).indexedEtag, w)
  | .embed texts => (.ok texts.length, w)
  | .stage _ => (.ok (), w)
  | .remember k etag => ((), { w with lastSeen := w.lastSeen.record k etag })
  | .isNews k etag => (w.lastSeen.differs k etag, w)

end World

/-- How the world may answer: HTTP-dates, the versions the backend may store, and the
operations that may fail. -/
structure Semantics where
  parseHttpDate : Text → Except String Nat
  admissible : Store → StorageOp.Effect → Prop
  mayFail : Op → Prop

namespace Semantics

/-- What an operation may answer and where it may lead. -/
inductive Step (S : Semantics) (w : World) : (o : Op) → o.Res → World → Prop where
  | storage (o : StorageOp) (stamp : Stamp)
      (h : S.admissible w.store (o.eval S.parseHttpDate stamp w.store.objects).2) :
      Step S w (.storage o) (o.eval S.parseHttpDate stamp w.store.objects).1
        (w.apply (o.eval S.parseHttpDate stamp w.store.objects).2)
  | other (o : Op) (stamp : Stamp) (h : ∀ o', o ≠ .storage o') :
      Step S w o (w.perform S.parseHttpDate stamp o).1 (w.perform S.parseHttpDate stamp o).2
  | failed (o : Op) (r : o.Res) (hmay : S.mayFail o) (h : o.Failed r) : Step S w o r w

/-- A backend that never fails, with the versions it may store. -/
def faultless (admissible : Store → StorageOp.Effect → Prop) : Semantics where
  parseHttpDate := fun _ => .error "invalid HTTP-date"
  admissible := admissible
  mayFail := fun _ => False

/-- What another party may do to the store between two operations: any admissible effect. -/
def Env (S : Semantics) (server : Bool) (w w' : World) : Prop :=
  w'.store = w.store ∨
    ∃ effect, S.admissible w.store effect ∧ w'.store = w.store.apply effect server

end Semantics
