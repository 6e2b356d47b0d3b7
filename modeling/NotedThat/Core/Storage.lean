-- SUMMARY: The object store: versions, its six operations as atomic steps, and what each of them changes.
import NotedThat.Core.Conditional
import NotedThat.Core.Kb
import Mathlib.Data.List.Sort

/-!
# The object store

The storage trait as the filesystem adapter implements it, each operation one atomic step. The
stamp of a new version, its entity tag and modification time, is chosen by the backend and so an
argument of the step.
-/

/-- An object of a knowledge base. -/
abbrev Key := KbSlug × ObjectPath

/-- One stored version of an object. -/
structure Version where
  bytes : Bytes
  contentType : Option Text
  etag : ETag
  lastModified : Nat
deriving DecidableEq

namespace Version

def size (v : Version) : Nat := v.bytes.length

/-- The metadata of a version; `size` is the length served, not that of the object. -/
def objectMeta (v : Version) (path : ObjectPath) (size : Nat) : ObjectMeta where
  key := path.val
  size := size
  lastModified := some v.lastModified
  contentType := v.contentType
  etag := some v.etag.val

/-- A version with a one-letter entity tag; a comma is in no tag. -/
def tagged (tag : Char) (bytes : Bytes) : Version :=
  ⟨bytes, some "text/markdown".toList, ETag.ofInner ([tag].filter (· ≠ ',')) (by simp), 0⟩

end Version

/-- What the backend gives a version it stores. -/
structure Stamp where
  etag : ETag
  lastModified : Nat
deriving DecidableEq

/-! ## Contents -/

/-- The stored objects, at most one version for each key. -/
structure Objects where
  entries : List (Key × Version)
  nodup : (entries.map Prod.fst).Nodup

namespace Objects

def empty : Objects := ⟨[], List.nodup_nil⟩

/-- The version stored at a key. -/
def get (s : Objects) (k : Key) : Option Version := (s.entries.find? (·.1 = k)).map Prod.snd

def erase (s : Objects) (k : Key) : Objects where
  entries := s.entries.filter (·.1 ≠ k)
  nodup := (List.filter_sublist.map Prod.fst).nodup s.nodup

def put (s : Objects) (k : Key) (v : Version) : Objects where
  entries := (k, v) :: (s.erase k).entries
  nodup := by
    refine List.nodup_cons.mpr ⟨?_, (s.erase k).nodup⟩
    simp [erase]

@[simp] theorem get_put_self (s : Objects) (k : Key) (v : Version) : (s.put k v).get k = some v := by
  simp [get, put]

theorem get_erase_self (s : Objects) (k : Key) : (s.erase k).get k = none := by
  simp [get, erase]

theorem get_erase_of_ne (s : Objects) {k k' : Key} (h : k' ≠ k) :
    (s.erase k).get k' = s.get k' := by
  simp only [get, erase, List.find?_filter]
  congr 2
  funext e
  by_cases he : e.1 = k'
  · simp [he, h]
  · simp [he]

theorem get_put_of_ne (s : Objects) {k k' : Key} (v : Version) (h : k' ≠ k) :
    (s.put k v).get k' = s.get k' := by
  have hhead : (k = k') = False := eq_false (Ne.symm h)
  rw [← get_erase_of_ne s h]
  simp [get, put, hhead]

theorem get_eq_some {s : Objects} {k : Key} {v : Version} :
    s.get k = some v ↔ (k, v) ∈ s.entries := by
  simp only [get, Option.map_eq_some_iff]
  constructor
  · rintro ⟨⟨k', v'⟩, hfind, rfl⟩
    have hk : k' = k := by simpa using List.find?_some hfind
    exact hk ▸ List.mem_of_find?_eq_some hfind
  · intro hmem
    -- keys are unique, so the first entry with this key is the one given
    obtain ⟨e, he⟩ : ∃ e, s.entries.find? (fun e => decide (e.1 = k)) = some e := by
      rw [← Option.isSome_iff_exists, List.find?_isSome]
      exact ⟨_, hmem, by simp⟩
    have hek : e.1 = k := by simpa using List.find?_some he
    have heq : e = (k, v) :=
      List.inj_on_of_nodup_map s.nodup (List.mem_of_find?_eq_some he) hmem hek
    exact ⟨e, he, by rw [heq]⟩

/-! ## Listing -/

/-- The entries of `kb` whose key starts with `pre` and comes after the cursor, in key order. -/
def matching (s : Objects) (kb : KbSlug) (pre : Text) (cursor : Option Text) :
    List (Key × Version) :=
  (s.entries.filter fun e => e.1.1 = kb ∧ pre.isPrefixOf e.1.2.val ∧
      ∀ after ∈ cursor, after < e.1.2.val).insertionSort
    fun e e' => e.1.2.val ≤ e'.1.2.val

theorem mem_matching {s : Objects} {kb : KbSlug} {pre : Text} {cursor : Option Text}
    {e : Key × Version} : e ∈ s.matching kb pre cursor ↔
      e ∈ s.entries ∧ e.1.1 = kb ∧ pre.isPrefixOf e.1.2.val ∧
        ∀ after ∈ cursor, after < e.1.2.val := by
  simp [matching, List.mem_insertionSort]

end Objects

/-! ## Operations -/

structure CopyObjectOptions where
  sourceIfMatch : Option Text
  destinationIfNoneMatch : Option Text
  contentType : Option Text
deriving DecidableEq

structure ObjectRead where
  bytes : Bytes
  objectMeta : ObjectMeta
  contentRange : Option String
deriving DecidableEq

/-- A read of the whole version. -/
def Version.wholeRead (v : Version) (path : ObjectPath) : ObjectRead :=
  ⟨v.bytes, v.objectMeta path v.size, none⟩

/-- A page of a listing; `truncated` exactly when there is a cursor. -/
structure ListResponse where
  objects : List ObjectMeta
  truncated : Bool
  nextCursor : Option Text
deriving DecidableEq

inductive DeleteOutcome where
  | deleted
  | notFound
deriving DecidableEq

structure PutOutcome where
  etag : Option Text
  created : Bool
deriving DecidableEq

/-- The operations of the storage trait. A staged body and a body in memory are stored the same
way, and a streamed read serves the bytes of the version it opened, as a whole read does. -/
inductive StorageOp where
  | head (kb : KbSlug) (path : ObjectPath) (conditionals : ConditionalHeaders)
  | get (kb : KbSlug) (path : ObjectPath) (range : Option ByteRange)
      (conditionals : ConditionalHeaders)
  | put (kb : KbSlug) (path : ObjectPath) (bytes : Bytes) (contentType : Option Text)
      (conditionals : ConditionalHeaders)
  | copy (kb : KbSlug) (source destination : ObjectPath) (options : CopyObjectOptions)
  | delete (kb : KbSlug) (path : ObjectPath) (conditionals : ConditionalHeaders)
  | list (kb : KbSlug) (pre : Option Text) (limit : Nat) (cursor : Option Text)

namespace StorageOp

/-- What an operation answers when it succeeds. -/
abbrev Out : StorageOp → Type
  | .head .. => ObjectMeta
  | .get .. => ObjectRead
  | .put .. => PutOutcome
  | .copy .. => PutOutcome
  | .delete .. => DeleteOutcome
  | .list .. => ListResponse

/-- The most objects one page of a listing holds. -/
def maxListLimit : Nat := 1000

def listPage (s : Objects) (kb : KbSlug) (pre : Option Text) (limit : Nat)
    (cursor : Option Text) : ListResponse :=
  let capped := min limit maxListLimit
  let found := s.matching kb (pre.getD []) cursor
  let page := found.take capped
  let nextCursor :=
    if found.length > capped then page.getLast?.map fun e => e.1.2.val else none
  { objects := page.map fun e =>
      { e.2.objectMeta e.1.2 e.2.size with contentType := none, etag := none }
    truncated := nextCursor.isSome
    nextCursor := nextCursor }

/-- A read of `v`, whole or cut to a range. -/
def readVersion (path : ObjectPath) (v : Version) (range : Option ByteRange) :
    Except StorageError ObjectRead := do
  match ← ByteRange.resolveRange v.size range with
  | none => .ok (v.wholeRead path)
  | some ((start, stop), contentRange) =>
    let bytes := (v.bytes.drop start).take (stop - start)
    .ok ⟨bytes, v.objectMeta path bytes.length, some contentRange⟩

/-- What an operation does to the objects. -/
inductive Effect where
  | unchanged
  | stored (k : Key) (v : Version)
  | erased (k : Key)
deriving DecidableEq

variable (parseHttpDate : Text → Except String Nat) (stamp : Stamp)

/-- One atomic step of the store: the answer, and its effect on the objects. -/
def eval (s : Objects) : (o : StorageOp) → Except StorageError o.Out × Effect
  | .head kb path conditionals =>
    match s.get (kb, path) with
    | none => (.error (.notFound path.val), .unchanged)
    | some v =>
      match Preconditions.evaluateReadPreconditions parseHttpDate v.etag.val v.lastModified
          conditionals with
      | .error e => (.error e, .unchanged)
      | .ok () => (.ok (v.objectMeta path v.size), .unchanged)
  | .get kb path range conditionals =>
    match s.get (kb, path) with
    | none => (.error (.notFound path.val), .unchanged)
    | some v =>
      match Preconditions.evaluateReadPreconditions parseHttpDate v.etag.val v.lastModified
          conditionals with
      | .error e => (.error e, .unchanged)
      | .ok () => (readVersion path v range, .unchanged)
  | .put kb path bytes contentType conditionals =>
    let current := s.get (kb, path)
    match Preconditions.evaluateWritePreconditions (current.map (·.etag.val)) conditionals with
    | .error e => (.error e, .unchanged)
    | .ok () =>
      (.ok ⟨some stamp.etag.val, current.isNone⟩,
        .stored (kb, path) ⟨bytes, contentType, stamp.etag, stamp.lastModified⟩)
  | .copy kb source destination options =>
    match s.get (kb, source) with
    | none => (.error (.notFound source.val), .unchanged)
    | some v =>
      if options.sourceIfMatch.any fun expected =>
          !Preconditions.matchesIfMatch v.etag.val expected then
        (.error .preconditionFailed, .unchanged)
      else
        let current := s.get (kb, destination)
        match Preconditions.evaluateWritePreconditions (current.map (·.etag.val))
            { ifNoneMatch := options.destinationIfNoneMatch } with
        | .error e => (.error e, .unchanged)
        | .ok () =>
          (.ok ⟨some stamp.etag.val, current.isNone⟩,
            .stored (kb, destination)
              ⟨v.bytes, options.contentType.or v.contentType, stamp.etag, stamp.lastModified⟩)
  | .delete kb path conditionals =>
    match s.get (kb, path) with
    | none => (.ok .notFound, .unchanged)
    | some v =>
      if conditionals.ifMatch.any fun expected =>
          !Preconditions.matchesIfMatch v.etag.val expected then
        (.error .preconditionFailed, .unchanged)
      else (.ok .deleted, .erased (kb, path))
  | .list kb pre limit cursor => (.ok (listPage s kb pre limit cursor), .unchanged)

/-! ## What each operation does -/

variable {parseHttpDate stamp} {s : Objects} {kb : KbSlug} {path : ObjectPath}
variable {c : ConditionalHeaders}

@[simp] theorem eval_head_effect :
    (eval parseHttpDate stamp s (.head kb path c)).2 = .unchanged := by
  simp only [eval]
  split
  · rfl
  · split <;> rfl

@[simp] theorem eval_get_effect {range : Option ByteRange} :
    (eval parseHttpDate stamp s (.get kb path range c)).2 = .unchanged := by
  simp only [eval]
  split
  · rfl
  · split <;> rfl

@[simp] theorem eval_list_effect {pre : Option Text} {limit : Nat} {cursor : Option Text} :
    (eval parseHttpDate stamp s (.list kb pre limit cursor)).2 = .unchanged := rfl

theorem eval_head_ok {m : ObjectMeta}
    (h : (eval parseHttpDate stamp s (.head kb path c)).1 = .ok m) :
    ∃ v, s.get (kb, path) = some v ∧ m = v.objectMeta path v.size := by
  simp only [eval] at h
  split at h
  · cases h
  · next v hv =>
    split at h
    · cases h
    · cases h
      exact ⟨v, hv, rfl⟩

theorem eval_head_error {e : StorageError}
    (h : (eval parseHttpDate stamp s (.head kb path {})).1 = .error e) :
    s.get (kb, path) = none := by
  simp only [eval] at h
  split at h
  · next hv => exact hv
  · simp at h

theorem eval_get_ok {range : Option ByteRange} {read : ObjectRead}
    (h : (eval parseHttpDate stamp s (.get kb path range c)).1 = .ok read) :
    ∃ v, s.get (kb, path) = some v ∧
      Preconditions.evaluateReadPreconditions parseHttpDate v.etag.val v.lastModified c = .ok () ∧
      readVersion path v range = .ok read := by
  simp only [eval] at h
  split at h
  · cases h
  · next v hv =>
    split at h
    · cases h
    · next hpre => exact ⟨v, hv, hpre, h⟩

/-- An unconditional HEAD describes the current version. -/
theorem eval_head {v : Version} (hv : s.get (kb, path) = some v) :
    eval parseHttpDate stamp s (.head kb path {}) = (.ok (v.objectMeta path v.size), .unchanged) := by
  simp [eval, hv]

/-- An unconditional read serves the current version. -/
theorem eval_get {range : Option ByteRange} {v : Version} (hv : s.get (kb, path) = some v) :
    eval parseHttpDate stamp s (.get kb path range {}) = (readVersion path v range, .unchanged) := by
  simp [eval, hv]

/-- A put that is answered with success stored the bytes; any other put changed nothing. -/
theorem eval_put_cases {bytes : Bytes} {contentType : Option Text} :
    (∃ e, eval parseHttpDate stamp s (.put kb path bytes contentType c) = (.error e, .unchanged)) ∨
      Preconditions.evaluateWritePreconditions ((s.get (kb, path)).map (·.etag.val)) c = .ok () ∧
      eval parseHttpDate stamp s (.put kb path bytes contentType c) =
        (.ok ⟨some stamp.etag.val, (s.get (kb, path)).isNone⟩,
          .stored (kb, path) ⟨bytes, contentType, stamp.etag, stamp.lastModified⟩) := by
  simp only [eval]
  split
  · next e he => exact .inl ⟨e, rfl⟩
  · next he => exact .inr ⟨he, rfl⟩

/-- The version a copy stores. -/
def copied (v : Version) (options : CopyObjectOptions) (stamp : Stamp) : Version :=
  ⟨v.bytes, options.contentType.or v.contentType, stamp.etag, stamp.lastModified⟩

theorem eval_copy_cases {source destination : ObjectPath} {options : CopyObjectOptions} :
    (∃ e, eval parseHttpDate stamp s (.copy kb source destination options) =
        (.error e, .unchanged)) ∨
      ∃ v, s.get (kb, source) = some v ∧
        (∀ expected ∈ options.sourceIfMatch,
          Preconditions.matchesIfMatch v.etag.val expected = true) ∧
        Preconditions.evaluateWritePreconditions ((s.get (kb, destination)).map (·.etag.val))
          { ifNoneMatch := options.destinationIfNoneMatch } = .ok () ∧
        eval parseHttpDate stamp s (.copy kb source destination options) =
          (.ok ⟨some stamp.etag.val, (s.get (kb, destination)).isNone⟩,
            .stored (kb, destination) (copied v options stamp)) := by
  simp only [eval]
  split
  · exact .inl ⟨_, rfl⟩
  · next v hv =>
    split
    · exact .inl ⟨_, rfl⟩
    · next hmatch =>
      split
      · next e he => exact .inl ⟨e, rfl⟩
      · next he =>
        refine .inr ⟨v, hv, fun expected hmem => ?_, he, rfl⟩
        simpa [Option.mem_def.mp hmem] using hmatch

theorem eval_copy_ok {source destination : ObjectPath} {options : CopyObjectOptions} {v : Version}
    (hv : s.get (kb, source) = some v)
    (hmatch : ∀ expected ∈ options.sourceIfMatch,
      Preconditions.matchesIfMatch v.etag.val expected = true)
    (hpre : Preconditions.evaluateWritePreconditions ((s.get (kb, destination)).map (·.etag.val))
      { ifNoneMatch := options.destinationIfNoneMatch } = .ok ()) :
    eval parseHttpDate stamp s (.copy kb source destination options) =
      (.ok ⟨some stamp.etag.val, (s.get (kb, destination)).isNone⟩,
        .stored (kb, destination) (copied v options stamp)) := by
  have hnone : (options.sourceIfMatch.any fun expected =>
      !Preconditions.matchesIfMatch v.etag.val expected) = false := by
    cases hopt : options.sourceIfMatch with
    | none => rfl
    | some expected => simp [hmatch expected hopt]
  simp only [eval, hv, hnone, Bool.false_eq_true, if_false, hpre, copied]

theorem eval_delete_cases :
    (∃ e, eval parseHttpDate stamp s (.delete kb path c) = (.error e, .unchanged)) ∨
      (s.get (kb, path) = none ∧
        eval parseHttpDate stamp s (.delete kb path c) = (.ok .notFound, .unchanged)) ∨
      ∃ v, s.get (kb, path) = some v ∧
        (∀ expected ∈ c.ifMatch, Preconditions.matchesIfMatch v.etag.val expected = true) ∧
        eval parseHttpDate stamp s (.delete kb path c) = (.ok .deleted, .erased (kb, path)) := by
  simp only [eval]
  split
  · next hv => exact .inr (.inl ⟨hv, rfl⟩)
  · next v hv =>
    split
    · exact .inl ⟨_, rfl⟩
    · next hmatch =>
      refine .inr (.inr ⟨v, hv, fun expected hmem => ?_, rfl⟩)
      simpa [Option.mem_def.mp hmem] using hmatch

end StorageOp

/-- The objects after an effect. -/
def Objects.apply (s : Objects) : StorageOp.Effect → Objects
  | .unchanged => s
  | .stored k v => s.put k v
  | .erased k => s.erase k
