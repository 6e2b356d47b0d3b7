-- SUMMARY: The range arguments of the read and edit tools, the headers they are sent as, and what these headers ask the API for.
import NotedThat.Api.WriteObject

/-!
# Range arguments

A range is four optional numbers on the wire. A span is what they mean: it carries the rule its numbers
keep, so a span that exists can be sent. Bytes end before `stop`, lines end with it, and a line range whose
end is one below its start is the point before the start.
-/

namespace Mcp

namespace RangeMessage

def mixed : String :=
  "line_* and byte_* arguments are mutually exclusive; provide one pair or the other"

def lineEndAlone : String := "line_end requires line_start; provide both or omit both"

def byteEndAlone : String := "byte_end requires byte_start; provide both or omit both"

def lineZero : String := "line numbers are 1-based; line_start must be >= 1"

def linesReversed : String :=
  "line_start must be <= line_end + 1 (set line_end = line_start - 1 for insert)"

end RangeMessage

/-- The four range arguments as the caller sent them. -/
structure RangeArgs where
  lineStart : Option UInt64
  lineEnd : Option UInt64
  byteStart : Option UInt64
  byteEnd : Option UInt64
deriving DecidableEq

/-- The line pair and the byte pair. -/
def RangeArgs.pairs (args : RangeArgs) :
    (Option UInt64 × Option UInt64) × (Option UInt64 × Option UInt64) :=
  ((args.lineStart, args.lineEnd), (args.byteStart, args.byteEnd))

/-- A line range is 1-based and ascending, or it is an insert point. -/
def LinesOrdered (start stop : UInt64) : Prop := start ≠ 0 ∧ start.toNat ≤ stop.toNat + 1

def checkLineStart (start : UInt64) : Except String (PLift (start ≠ 0)) :=
  if h : start = 0 then .error RangeMessage.lineZero else .ok ⟨h⟩

def checkLines (start stop : UInt64) : Except String (PLift (LinesOrdered start stop)) := do
  let ⟨hstart⟩ ← checkLineStart start
  if h : start.toNat > Api.saturatingAdd stop.toNat 1 then .error RangeMessage.linesReversed
  else .ok ⟨hstart, by unfold Api.saturatingAdd at h; omega⟩

/-- What an `edit` replaces. -/
inductive EditSpan where
  | lines (start stop : UInt64) (ordered : LinesOrdered start stop)
  | bytes (start stop : UInt64) (ordered : start < stop)
deriving DecidableEq

/-- What a `read` fetches. A missing end reads to the end of the object. -/
inductive ReadSpan where
  | whole
  | lines (start : UInt64) (stop : Option UInt64) (ordered : start ≠ 0 ∧ ∀ stop' ∈ stop, LinesOrdered start stop')
  | bytes (start : UInt64) (stop : Option UInt64) (ordered : ∀ stop' ∈ stop, start < stop')
deriving DecidableEq

namespace EditSpan

/-- An `edit` names exactly one complete pair. -/
def parse (args : RangeArgs) : Except String EditSpan :=
  match args.pairs with
  | ((some start, some stop), (none, none)) => do
    let ⟨ordered⟩ ← checkLines start stop
    .ok (.lines start stop ordered)
  | ((none, none), (some start, some stop)) =>
    if ordered : start < stop then .ok (.bytes start stop ordered)
    else .error ("byte_start must be strictly less than byte_end; byte-mode insert (zero-width range) is " ++
      "not supported in v1 — the PATCH byte-range wire contract cannot represent it")
  | ((none, none), (none, none)) => .error
    "edit requires either (line_start, line_end) or (byte_start, byte_end); use append for EOF-only writes"
  | ((some _, none), (none, none)) => .error "line_start requires line_end; provide both or omit both"
  | ((none, some _), (none, none)) => .error RangeMessage.lineEndAlone
  | ((none, none), (some _, none)) => .error "byte_start requires byte_end; provide both or omit both"
  | ((none, none), (none, some _)) => .error RangeMessage.byteEndAlone
  | _ => .error RangeMessage.mixed

/-- The `Content-Range` of the PATCH; the byte form's end is inclusive. -/
def contentRange : EditSpan → Text
  | .lines start stop _ =>
    "lines ".toList ++ Nat.toDigits 10 start.toNat ++ '-' :: Nat.toDigits 10 stop.toNat ++ "/*".toList
  | .bytes start stop _ =>
    "bytes ".toList ++ Nat.toDigits 10 start.toNat ++ '-' :: Nat.toDigits 10 (stop.toNat - 1) ++ "/*".toList

end EditSpan

namespace ReadSpan

/-- A `read` names at most one pair, whose end may be omitted. -/
def parse (args : RangeArgs) : Except String ReadSpan :=
  match args.pairs with
  | ((none, none), (none, none)) => .ok .whole
  | ((some start, some stop), (none, none)) => do
    let ⟨ordered⟩ ← checkLines start stop
    .ok (.lines start (some stop) ⟨ordered.1, by simpa using ordered⟩)
  | ((some start, none), (none, none)) => do
    let ⟨hstart⟩ ← checkLineStart start
    .ok (.lines start none ⟨hstart, by simp⟩)
  | ((none, some _), (none, none)) => .error RangeMessage.lineEndAlone
  | ((none, none), (some start, some stop)) =>
    if ordered : start < stop then .ok (.bytes start (some stop) (by simpa using ordered))
    else .error ("byte_start (" ++ toString start.toNat ++ ") must be less than byte_end (" ++
      toString stop.toNat ++ ")")
  | ((none, none), (some start, none)) => .ok (.bytes start none (by simp))
  | ((none, none), (none, some _)) => .error RangeMessage.byteEndAlone
  | _ => .error RangeMessage.mixed

/-- The `Range` header of the GET, `none` for the whole object; the byte form's end is inclusive. -/
def rangeHeader : ReadSpan → Option Text
  | .whole => none
  | .lines start none _ => some ("lines=".toList ++ Nat.toDigits 10 start.toNat ++ ['-'])
  | .lines start (some stop) _ =>
    some ("lines=".toList ++ Nat.toDigits 10 start.toNat ++ '-' :: Nat.toDigits 10 stop.toNat)
  | .bytes start none _ => some ("bytes=".toList ++ Nat.toDigits 10 start.toNat ++ ['-'])
  | .bytes start (some stop) _ =>
    some ("bytes=".toList ++ Nat.toDigits 10 start.toNat ++ '-' :: Nat.toDigits 10 (stop.toNat - 1))

end ReadSpan

end Mcp
