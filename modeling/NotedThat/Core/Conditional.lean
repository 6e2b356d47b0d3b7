-- SUMMARY: Conditional request headers, entity tags, precondition evaluation and byte ranges.
import NotedThat.Core.Names

/-!
# Conditional requests

The preconditions a backend without a server behind it evaluates itself, and the range a read is
cut to. `httpdate` is a parameter: it reads an HTTP-date as Unix seconds.
-/

structure ConditionalHeaders where
  ifMatch : Option Text := none
  ifNoneMatch : Option Text := none
  ifModifiedSince : Option Text := none
  ifUnmodifiedSince : Option Text := none
deriving DecidableEq

namespace ConditionalHeaders

/-- The headers a read evaluates: a date condition its entity-tag counterpart supersedes is
removed. -/
def forRead (c : ConditionalHeaders) : ConditionalHeaders where
  ifMatch := c.ifMatch
  ifNoneMatch := c.ifNoneMatch
  ifModifiedSince := c.ifModifiedSince.filter fun _ => c.ifNoneMatch.isNone
  ifUnmodifiedSince := c.ifUnmodifiedSince.filter fun _ => c.ifMatch.isNone

/-- The one condition `If-Match: etag`. -/
def ofIfMatch (etag : Text) : ConditionalHeaders := { ifMatch := some etag }

end ConditionalHeaders

/-! ## Entity tags -/

/-- A strong entity tag as the backends make them: quoted, without a comma. -/
structure ETag where
  val : Text
  quoted : ∃ inner, val = '"' :: (inner ++ ['"']) ∧ ',' ∉ inner

namespace ETag

@[ext] theorem ext {e f : ETag} (h : e.val = f.val) : e = f := by
  obtain ⟨v, hv⟩ := e
  cases h
  rfl

instance : DecidableEq ETag := fun e f =>
  decidable_of_iff (e.val = f.val) ⟨ETag.ext, fun h => h ▸ rfl⟩

/-- The entity tag with the given text between its quotes. -/
def ofInner (inner : Text) (h : ',' ∉ inner) : ETag := ⟨'"' :: (inner ++ ['"']), inner, rfl, h⟩

theorem trim_val (e : ETag) : Text.trim e.val = e.val := by
  obtain ⟨inner, hval, -⟩ := e.quoted
  rw [hval]
  refine Text.trim_eq_self (fun c hc => ?_) fun c hc => ?_
  · cases hc
    decide
  · rw [← List.cons_append, List.getLast?_concat] at hc
    cases hc
    decide

theorem comma_not_mem (e : ETag) : ',' ∉ e.val := by
  obtain ⟨inner, hval, hinner⟩ := e.quoted
  rw [hval]
  simp [hinner]

theorem splitOn_val (e : ETag) : e.val.splitOn ',' = [e.val] := List.splitOn_eq_singleton e.comma_not_mem

theorem val_ne_star (e : ETag) : e.val ≠ ['*'] := by
  obtain ⟨v, inner, rfl, h⟩ := e
  simp

end ETag

namespace Preconditions

/-- Strong comparison, for `If-Match`. -/
def matchesIfMatch (currentEtag ifMatchValue : Text) : Bool :=
  Text.trim ifMatchValue = ['*'] ||
    (ifMatchValue.splitOn ',').any fun tag => Text.trim tag = currentEtag

/-- `trim_start_matches("W/")`: every leading `W/` is dropped. -/
def dropWeak : Text → Text
  | 'W' :: '/' :: rest => dropWeak rest
  | text => text

/-- Weak comparison, for `If-None-Match`. -/
def matchesIfNoneMatch (currentEtag : Option Text) (ifNoneMatchValue : Text) : Bool :=
  match currentEtag with
  | none => false
  | some current =>
    Text.trim ifNoneMatchValue = ['*'] ||
      (ifNoneMatchValue.splitOn ',').any fun tag => dropWeak (Text.trim tag) = dropWeak current

/-- The preconditions that gate a write; `state` is the current entity tag, if there is an
object. -/
def evaluateWritePreconditions (state : Option Text) (conditionals : ConditionalHeaders) :
    Except StorageError Unit :=
  match conditionals.ifMatch.filter fun value =>
      !(state.any fun etag => matchesIfMatch etag value) with
  | some _ => .error .preconditionFailed
  | none =>
    match conditionals.ifNoneMatch.filter fun value => matchesIfNoneMatch state value with
    | some _ => .error .preconditionFailed
    | none => .ok ()

section Read

variable (parseHttpDate : Text → Except String Nat)

def parseHttpDateOrErr (value : Text) : Except StorageError Nat :=
  match parseHttpDate value with
  | .ok seconds => .ok seconds
  | .error e => .error (.other ("invalid HTTP-date '" ++ String.ofList value ++ "': " ++ e))

/-- The preconditions that gate a read, in the order of RFC 9110 §13.2.2. -/
def evaluateReadPreconditions (etag : Text) (lastModified : Nat)
    (conditionals : ConditionalHeaders) : Except StorageError Unit := do
  let conditionals := conditionals.forRead
  let notModified := StorageError.notModified ⟨some etag, some lastModified⟩
  match conditionals.ifMatch.filter fun value => !matchesIfMatch etag value with
  | some _ => .error .preconditionFailed
  | none => .ok ()
  match conditionals.ifUnmodifiedSince with
  | some value =>
    let threshold ← parseHttpDateOrErr parseHttpDate value
    if lastModified > threshold then .error .preconditionFailed
  | none => .ok ()
  match conditionals.ifNoneMatch.filter fun value => matchesIfNoneMatch (some etag) value with
  | some _ => .error notModified
  | none => .ok ()
  match conditionals.ifModifiedSince with
  | some value =>
    let threshold ← parseHttpDateOrErr parseHttpDate value
    if lastModified ≤ threshold then .error notModified
  | none => .ok ()

/-- Whether an `If-Range` validator still describes an object: entity tags are compared strongly, and a
date must be the modification time itself. -/
def ifRangeMatches (ifRange : Text) (etag : Option Text) (lastModified : Option Int) : Bool :=
  let ifRange := Text.trim ifRange
  if ['"'].isPrefixOf ifRange || ['W', '/'].isPrefixOf ifRange then
    !(['W', '/'].isPrefixOf ifRange) &&
      etag.any fun current => !(['W', '/'].isPrefixOf current) && current = ifRange
  else
    match parseHttpDate ifRange with
    | .ok date => lastModified = some (date : Int)
    | .error _ => false

variable {parseHttpDate}

@[simp] theorem evaluateReadPreconditions_default (etag : Text) (lastModified : Nat) :
    evaluateReadPreconditions parseHttpDate etag lastModified {} = .ok () := rfl

theorem parseHttpDateOrErr_ne_range {value : Text} {length : Nat} :
    parseHttpDateOrErr parseHttpDate value ≠ .error (.rangeNotSatisfiable length) := by
  intro h
  unfold parseHttpDateOrErr at h
  split at h
  · cases h
  · cases h

/-- No precondition of a read is about its range. -/
theorem evaluateReadPreconditions_ne_range {etag : Text} {lastModified length : Nat}
    {c : ConditionalHeaders} : evaluateReadPreconditions parseHttpDate etag lastModified c ≠
      .error (.rangeNotSatisfiable length) := by
  intro h
  unfold evaluateReadPreconditions at h
  simp only [bind, Except.bind, pure, Except.pure] at h
  repeat' split at h
  all_goals cases h
  all_goals exact absurd ‹_› parseHttpDateOrErr_ne_range

end Read

/-- Comparing against one of the backends' own entity tags is equality. -/
@[simp] theorem matchesIfMatch_etag (current expected : ETag) :
    matchesIfMatch current.val expected.val = true ↔ current = expected := by
  simp only [matchesIfMatch, ETag.splitOn_val, ETag.trim_val, ETag.val_ne_star, decide_false,
    Bool.false_or, List.any_cons, List.any_nil, Bool.or_false, decide_eq_true_eq]
  exact ⟨fun h => ETag.ext h.symm, fun h => by rw [h]⟩

/-- A read pinned to one of the backends' own entity tags. -/
theorem evaluateReadPreconditions_ofIfMatch {parseHttpDate : Text → Except String Nat}
    (current expected : ETag) (lastModified : Nat) :
    evaluateReadPreconditions parseHttpDate current.val lastModified (.ofIfMatch expected.val) =
      if current = expected then .ok () else .error .preconditionFailed := by
  by_cases h : current = expected
  · have hm : matchesIfMatch current.val expected.val = true := matchesIfMatch_etag .. |>.mpr h
    simp [evaluateReadPreconditions, ConditionalHeaders.ofIfMatch, ConditionalHeaders.forRead, h,
      h ▸ hm, Option.filter]
    rfl
  · have hm : matchesIfMatch current.val expected.val = false := by
      rw [← Bool.not_eq_true, matchesIfMatch_etag]
      exact h
    simp [evaluateReadPreconditions, ConditionalHeaders.ofIfMatch, ConditionalHeaders.forRead, h,
      hm, Option.filter]
    rfl

/-- `If-None-Match: *` matches any object. -/
theorem matchesIfNoneMatch_star (etag : Text) : matchesIfNoneMatch (some etag) ['*'] = true := by
  have htrim : Text.trim ['*'] = ['*'] := by decide
  simp [matchesIfNoneMatch, htrim]

@[simp] theorem evaluateWritePreconditions_default (state : Option Text) :
    evaluateWritePreconditions state {} = .ok () := rfl

theorem evaluateWritePreconditions_ok_iff {state : Option Text} {c : ConditionalHeaders} :
    evaluateWritePreconditions state c = .ok () ↔
      (∀ value ∈ c.ifMatch, ∃ etag ∈ state, matchesIfMatch etag value = true) ∧
      ∀ value ∈ c.ifNoneMatch, matchesIfNoneMatch state value = false := by
  unfold evaluateWritePreconditions
  cases hm : c.ifMatch with
  | none =>
    cases hn : c.ifNoneMatch with
    | none => simp
    | some n => by_cases hw : matchesIfNoneMatch state n = true <;> simp [Option.filter, hw]
  | some m =>
    cases hn : c.ifNoneMatch with
    | none =>
      cases state with
      | none => simp [Option.filter]
      | some e => by_cases hw : matchesIfMatch e m = true <;> simp [Option.filter, hw]
    | some n =>
      by_cases hw : matchesIfNoneMatch state n = true
      · cases state with
        | none => simp [Option.filter]
        | some e => by_cases hw' : matchesIfMatch e m = true <;> simp [Option.filter, hw, hw']
      · cases state with
        | none => simp [Option.filter]
        | some e => by_cases hw' : matchesIfMatch e m = true <;> simp [Option.filter, hw, hw']

end Preconditions

/-! ## Ranges -/

/-- A byte range with inclusive bounds. -/
inductive ByteRange where
  | fromStart (first last : Nat)
  | fromStartOpen (first : Nat)
  | suffix (length : Nat)
deriving DecidableEq

namespace ByteRange

/-- The range as start and exclusive end within an object of `totalSize` bytes. -/
def toExclusiveRange (range : ByteRange) (totalSize : Nat) : Option (Nat × Nat) :=
  match range with
  | .fromStart first last =>
    if first > last ∨ first ≥ totalSize then none
    else some (first, min last (totalSize - 1) + 1)
  | .fromStartOpen first => if first ≥ totalSize then none else some (first, totalSize)
  | .suffix length =>
    if length = 0 ∨ totalSize = 0 then none else some (totalSize - length, totalSize)

/-- The start and end to serve with the `Content-Range` value to report, or `none` for the whole
body. -/
def resolveRange (totalSize : Nat) (range : Option ByteRange) :
    Except StorageError (Option ((Nat × Nat) × String)) :=
  match range with
  | none => .ok none
  | some range =>
    match range.toExclusiveRange totalSize with
    | none => .error (.rangeNotSatisfiable totalSize)
    | some (start, stop) =>
      .ok (some ((start, stop), "bytes " ++ toString start ++ "-" ++ toString (stop - 1) ++ "/" ++
        toString totalSize))

end ByteRange
