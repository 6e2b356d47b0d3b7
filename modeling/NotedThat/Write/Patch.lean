-- SUMMARY: The two in-place rewrites, PATCH and replace, with the splices they hand to the rewrite loop.
import NotedThat.Write.Commit

/-!
# PATCH and replace

Byte counts are natural numbers: a buffer in memory is shorter than `2 ^ 64` bytes, so the
conversions and sums the code checks never fail. Line numbers are those a 64-bit header value can
hold.
-/

/-! ## Lines -/

/-- A line range with 1-based inclusive bounds. -/
inductive LineRange where
  | fromStart (first last : Nat)
  | fromStartOpen (first : Nat)
  | suffix (length : Nat)
  | insert (before : Nat)
deriving DecidableEq

/-- The byte offsets at which the lines of a buffer begin. -/
structure LineIndex where
  lineStarts : List Nat
  totalLines : Nat
  totalBytes : Nat
deriving DecidableEq

namespace LineIndex

/-- The offsets after each line end that still has a byte behind it; `\r\n` is one line end. -/
def lineStartsFrom : Nat → Bytes → List Nat
  | _, [] => []
  | i, 0x0D :: 0x0A :: rest =>
    if rest = [] then [] else (i + 2) :: lineStartsFrom (i + 2) rest
  | i, 0x0A :: rest => if rest = [] then [] else (i + 1) :: lineStartsFrom (i + 1) rest
  | i, _ :: rest => lineStartsFrom (i + 1) rest

def fromBytes (bytes : Bytes) : LineIndex :=
  let lineStarts := if bytes = [] then [] else 0 :: lineStartsFrom 0 bytes
  ⟨lineStarts, lineStarts.length, bytes.length⟩

/-- The line range as start and exclusive end in bytes. -/
def byteRange (index : LineIndex) : LineRange → Option (Nat × Nat)
  | .fromStart first last =>
    if first = 0 ∨ first > index.totalLines ∨ first > last + 1 then none
    else do
      let clampedLast := min last index.totalLines
      let start ← index.lineStarts[first - 1]?
      let stop ← if clampedLast = index.totalLines then some index.totalBytes
        else index.lineStarts[clampedLast]?
      some (start, stop)
  | .fromStartOpen first =>
    if first = 0 ∨ first > index.totalLines then none
    else do
      let start ← index.lineStarts[first - 1]?
      some (start, index.totalBytes)
  | .suffix length =>
    if length = 0 ∨ index.totalLines = 0 then none
    else do
      let start ← index.lineStarts[index.totalLines - min length index.totalLines]?
      some (start, index.totalBytes)
  | .insert before =>
    if before = 0 ∨ before > index.totalLines + 1 then none
    else if before = index.totalLines + 1 then some (index.totalBytes, index.totalBytes)
    else do
      let offset ← index.lineStarts[before - 1]?
      some (offset, offset)

end LineIndex

namespace Write

/-! ## PATCH -/

/-- How an object's bytes are spliced. -/
inductive PatchMode where
  | bytes (range : ByteRange) (body : Bytes)
  | lines (range : LineRange) (body : Bytes)
  | append (body : Bytes)

structure PatchRequest where
  kb : KbSlug
  path : ObjectPath
  patchMode : PatchMode
  callerConditionals : ConditionalHeaders
  maxPatchableSize : Nat
  callerContentType : Option Text

/-- `If-Match: *` and lists of tags are refused. -/
def checkSingleTag (etag : Text) : Except WriteError Unit :=
  if etag = ['*'] ∨ ',' ∈ etag then
    .error (.patchInvalidRange
      "If-Match: * and multi-value If-Match not supported on PATCH in v1")
  else .ok ()

/-- The check PATCH and replace share: an `If-Match` is there and is a single strong tag. -/
def requireStrongIfMatch (callerConditionals : ConditionalHeaders) : Except WriteError Unit :=
  match callerConditionals.ifMatch with
  | none => .error (.preconditionRequired
      "If-Match is required on PATCH (bytes/lines mode) and replace")
  | some etag => checkSingleTag etag

def validateCallerIfMatch (patchMode : PatchMode) (callerConditionals : ConditionalHeaders) :
    Except WriteError Unit :=
  match patchMode with
  | .bytes .. | .lines .. => requireStrongIfMatch callerConditionals
  | .append _ =>
    match callerConditionals.ifMatch with
    | some etag => checkSingleTag etag
    | none => .ok ()

/-- The line bounds an error reports. -/
def lineRangeBounds : LineRange → Nat × Nat
  | .fromStart first last => (first, last)
  | .fromStartOpen first => (first, 2 ^ 64 - 1)
  | .suffix length => (0, length)
  | .insert before => (before, before - 1)

/-- The bytes to replace, `none` for an append, and the length of the result. -/
def splicePlan (patchMode : PatchMode) (bytes : Bytes) :
    Except WriteError (Option (Nat × Nat) × Nat) :=
  match patchMode with
  | .bytes range body =>
    match range.toExclusiveRange bytes.length with
    | none => .error (.patchInvalidRange
        ("byte range unsatisfiable at size " ++ toString bytes.length))
    | some (start, stop) => .ok (some (start, stop), bytes.length - (stop - start) + body.length)
  | .lines range body =>
    let index := LineIndex.fromBytes bytes
    match index.byteRange range with
    | none =>
      let (first, last) := lineRangeBounds range
      .error (.patchLineOutOfRange first last index.totalLines index.totalBytes)
    | some (start, stop) => .ok (some (start, stop), bytes.length - (stop - start) + body.length)
  | .append body => .ok (none, bytes.length + body.length)

def spliceBytes (src : Bytes) (start stop : Nat) (body : Bytes) : Bytes :=
  src.take start ++ body ++ src.drop stop

/-- Splice `patchMode` into `src`, refusing a result larger than `max` before building it. -/
def applyPatch (patchMode : PatchMode) (src : Bytes) (max : Nat) : Except WriteError Bytes := do
  let (byteRange, newLen) ← splicePlan patchMode src
  if newLen > max then .error (.patchTooLarge newLen max)
  else
    match patchMode, byteRange with
    | .bytes _ body, some (start, stop) => .ok (spliceBytes src start stop body)
    | .lines _ body, some (start, stop) => .ok (spliceBytes src start stop body)
    | .append body, none => .ok (src ++ body)
    | _, _ => .error (.patchInvalidRange "internal patch mode/range contradiction")

/-- Apply one optimistic PATCH. -/
def patch (json : ManifestJson) (sinks : WriteSinks) (request : PatchRequest) :
    Program (Except WriteError PutOutcome) :=
  match validateCallerIfMatch request.patchMode request.callerConditionals with
  | .error e => .error e
  | .ok () => do
    let target : CasRewrite := ⟨request.kb, request.path, request.callerConditionals.ifMatch,
      request.maxPatchableSize, request.callerContentType⟩
    match ← casRewrite json sinks target fun src =>
        (applyPatch request.patchMode src request.maxPatchableSize).map fun bytes => (bytes, ()) with
    | .error e => .error e
    | .ok (outcome, ()) => .ok outcome

/-- A PATCH is refused before it starts, or it is a rewrite. -/
theorem patch_cases {json : ManifestJson} {sinks : WriteSinks} {request : PatchRequest}
    {P : Program (Except WriteError PutOutcome) → Prop} (hrefused : ∀ e, P (.ret (.error e)))
    (hrewrite : ∀ target (splice : Bytes → Except WriteError (Bytes × Unit)),
      P ((casRewrite json sinks target splice).bind fun a => .ret (a.map Prod.fst))) :
    P (patch json sinks request) := by
  unfold patch
  split
  · exact hrefused _
  · refine (congrArg P (congrArg (Prog.bind _) (funext fun a => ?_))).mp (hrewrite _ _)
    cases a with
    | error e => rfl
    | ok r => rfl

/-! ## Replace -/

structure ReplaceRequest where
  kb : KbSlug
  path : ObjectPath
  oldString : Text
  newString : Text
  replaceAll : Bool
  callerConditionals : ConditionalHeaders
  maxPatchableSize : Nat
  callerContentType : Option Text

structure ReplaceOutcome where
  putOutcome : PutOutcome
  matchCount : Nat

/-- The scan of `memmem::find_iter`: leftmost matches, the bytes of a match skipped. -/
def matchesFrom (needle : Bytes) : (offset skip : Nat) → Bytes → List Nat
  | _, _, [] => []
  | offset, skip + 1, _ :: rest => matchesFrom needle (offset + 1) skip rest
  | offset, 0, byte :: rest =>
    if needle.isPrefixOf (byte :: rest) then
      offset :: matchesFrom needle (offset + 1) (needle.length - 1) rest
    else matchesFrom needle (offset + 1) 0 rest

/-- Start offsets of every non-overlapping, leftmost-first match; the needle is not empty. -/
def findNonOverlappingMatches (haystack needle : Bytes) : List Nat :=
  matchesFrom needle 0 0 haystack

/-- Copy `haystack` from `prevEnd` on, with the bytes of each match replaced. -/
def spliceMatches (haystack : Bytes) (needleLen : Nat) (replacement : Bytes) :
    (prevEnd : Nat) → List Nat → Bytes
  | prevEnd, [] => haystack.drop prevEnd
  | prevEnd, matchedAt :: rest =>
    (haystack.take matchedAt).drop prevEnd ++ replacement ++
      spliceMatches haystack needleLen replacement (matchedAt + needleLen) rest

def spliceReplacement (haystack needle replacement : Bytes) (found : List Nat)
    (maxPatchableSize : Nat) : Except WriteError Bytes :=
  -- the products are not checked: a release build wraps them
  let replacedBytes := found.length * needle.length % 2 ^ 64
  let addedBytes := found.length * replacement.length % 2 ^ 64
  if replacedBytes > haystack.length ∨ haystack.length - replacedBytes + addedBytes ≥ 2 ^ 64 then
    .error (.patchInvalidRange "replace: length arithmetic overflow")
  else
    let newLen := haystack.length - replacedBytes + addedBytes
    if newLen > maxPatchableSize then .error (.patchTooLarge newLen maxPatchableSize)
    else .ok (spliceMatches haystack needle.length replacement 0 found)

/-- Replace `needle`, once or everywhere, and count the matches replaced. -/
def replaceIn (haystack needle replacement : Bytes) (replaceAll : Bool) (maxPatchableSize : Nat) :
    Except WriteError (Bytes × Nat) :=
  let found := findNonOverlappingMatches haystack needle
  if found.length = 0 then .error .replaceNoMatch
  else if found.length ≥ 2 ∧ !replaceAll then .error (.replaceAmbiguous found.length)
  else
    let matchBound := if replaceAll then found.length else 1
    match spliceReplacement haystack needle replacement (found.take matchBound)
        maxPatchableSize with
    | .error e => .error e
    | .ok newBytes => .ok (newBytes, matchBound)

/-- Replace exact occurrences of a text in an object. -/
def replace (json : ManifestJson) (sinks : WriteSinks) (request : ReplaceRequest) :
    Program (Except WriteError ReplaceOutcome) :=
  if request.oldString = [] then
    .error (.patchInvalidRange "old_string must be non-empty (would match every byte position)")
  else
    match requireStrongIfMatch request.callerConditionals with
    | .error e => .error e
    | .ok () => do
      let target : CasRewrite := ⟨request.kb, request.path, request.callerConditionals.ifMatch,
        request.maxPatchableSize, request.callerContentType⟩
      match ← casRewrite json sinks target fun src =>
          replaceIn src (Utf8.encode request.oldString) (Utf8.encode request.newString)
            request.replaceAll request.maxPatchableSize with
      | .error e => .error e
      | .ok (putOutcome, matchCount) => .ok ⟨putOutcome, matchCount⟩

/-- A replace is refused before it starts, or it is a rewrite. -/
theorem replace_cases {json : ManifestJson} {sinks : WriteSinks} {request : ReplaceRequest}
    {P : Program (Except WriteError ReplaceOutcome) → Prop} (hrefused : ∀ e, P (.ret (.error e)))
    (hrewrite : ∀ target (splice : Bytes → Except WriteError (Bytes × Nat)),
      P ((casRewrite json sinks target splice).bind fun a => .ret (a.map fun r => ⟨r.1, r.2⟩))) :
    P (replace json sinks request) := by
  unfold replace
  split
  · exact hrefused _
  · split
    · exact hrefused _
    · refine (congrArg P (congrArg (Prog.bind _) (funext fun a => ?_))).mp (hrewrite _ _)
      cases a with
      | error e => rfl
      | ok r => rfl

end Write
