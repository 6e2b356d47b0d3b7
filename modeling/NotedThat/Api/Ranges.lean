-- SUMMARY: The ranges of requests: the `Range` header of a GET and the `Content-Range` header of a PATCH.
import NotedThat.Lib.Lines
import NotedThat.Write.Patch

/-!
# Range headers

The parsers of the two headers that name a part of an object. Bytes count from 0 and lines from 1, both
ends are inclusive, and a last line one below the first names the point before the first.
-/

inductive RangeParseError where
  | empty
  | missingEquals
  | noRanges
  | invalidSpec (spec : Text)
  | overflowU64
deriving DecidableEq

def RangeParseError.display : RangeParseError → String
  | .empty => "empty Range header value"
  | .missingEquals => "Range header missing '=' separator"
  | .noRanges => "Range header has no range specs after '='"
  | .invalidSpec spec => "invalid range spec: " ++ String.ofList spec
  | .overflowU64 => "range spec overflows u64"

structure ParsedRange where
  unit : Text
  range : Option ByteRange
deriving DecidableEq

namespace Range

def parseU64 (component spec : Text) : Except RangeParseError Nat :=
  if component = [] ∨ !component.all Char.isDigit then .error (.invalidSpec spec)
  else
    match Text.parseU64 component with
    | some n => .ok n
    | none => .error .overflowU64

def parseByteRangeSpec (spec : Text) : Except RangeParseError ByteRange :=
  match Text.splitOnce '-' spec with
  | none => .error (.invalidSpec spec)
  | some (start, stop) =>
    if '-' ∈ stop ∨ (start = [] ∧ stop = []) then .error (.invalidSpec spec)
    else if start = [] then do
      let length ← parseU64 stop spec
      .ok (.suffix length)
    else do
      let first ← parseU64 start spec
      if stop = [] then .ok (.fromStartOpen first)
      else
        let last ← parseU64 stop spec
        if last < first then .error (.invalidSpec spec) else .ok (.fromStart first last)

/-- The unit and what follows it, which is not empty. -/
def splitUnit (value : Text) : Except RangeParseError (Text × Text) :=
  if value = [] then .error .empty
  else
    match Text.splitOnce '=' value with
    | none => .error .missingEquals
    | some (unit, rangeSet) => if rangeSet = [] then .error .noRanges else .ok (unit, rangeSet)

/-- Parse a `Range` header that carries a single range; the range of another unit than `bytes` is not
read. -/
def parseRangeHeader (value : Text) : Except RangeParseError ParsedRange := do
  let (unit, rangeSet) ← splitUnit value
  let unit := Text.toAsciiLowercase unit
  if unit ≠ "bytes".toList then .ok ⟨unit, none⟩
  else if ',' ∈ rangeSet then
    .error (.invalidSpec
      "one byte range per request; a range set (multipart/byteranges) is not supported".toList)
  else
    let range ← parseByteRangeSpec (Text.trim rangeSet)
    .ok ⟨unit, some range⟩

/-- What follows `lines=`. -/
def parseLineRangeSpec (rangeSet : Text) : Except RangeParseError LineRange :=
  if ',' ∈ rangeSet then .error (.invalidSpec "multi-range lines= not supported".toList)
  else
    match Text.splitOnce '-' rangeSet with
    | none => .error (.invalidSpec rangeSet)
    | some (start, stop) =>
      if start = [] ∧ stop = [] then .error (.invalidSpec rangeSet)
      else if start = [] then do
        let length ← parseU64 stop rangeSet
        .ok (.suffix length)
      else do
        let first ← parseU64 start rangeSet
        -- lines are 1-based, so line 0 is a syntax error on every form
        if first = 0 then .error (.invalidSpec rangeSet)
        else if stop = [] then .ok (.fromStartOpen first)
        else
          let last ← parseU64 stop rangeSet
          if last < first - 1 then .error (.invalidSpec rangeSet)
          else if last = first - 1 then .ok (.insert first)
          else .ok (.fromStart first last)

def parseLineRangeHeader (value : Text) : Except RangeParseError LineRange := do
  let (_, rangeSet) ← splitUnit value
  parseLineRangeSpec (Text.trim rangeSet)

end Range

/-- The value a `Content-Range` reports for a line range. -/
def LineIndex.contentRangeString (index : LineIndex) : LineRange → Text
  | .fromStart first last =>
    "lines ".toList ++ Nat.toDigits 10 first ++ '-' :: Nat.toDigits 10 (min last index.totalLines) ++
      '/' :: Nat.toDigits 10 index.totalLines
  | .fromStartOpen first =>
    "lines ".toList ++ Nat.toDigits 10 first ++ '-' :: Nat.toDigits 10 index.totalLines ++
      '/' :: Nat.toDigits 10 index.totalLines
  | .suffix length =>
    let actualFirst := index.totalLines - min length index.totalLines + 1
    "lines ".toList ++ Nat.toDigits 10 actualFirst ++ '-' :: Nat.toDigits 10 index.totalLines ++
      '/' :: Nat.toDigits 10 index.totalLines
  | .insert before =>
    "lines ".toList ++ Nat.toDigits 10 before ++ '-' :: Nat.toDigits 10 (before - 1) ++
      '/' :: Nat.toDigits 10 index.totalLines

/-! ## The lines of an object -/

/-- The lines of an object. A carriage return ends none of its own. -/
def objectLines (bytes : Bytes) : List Bytes := Lines.split (fun b => b = 0x0A) bytes

theorem flatten_objectLines (bytes : Bytes) : (objectLines bytes).flatten = bytes := Lines.flatten_split bytes

namespace LineIndex

variable {bytes : Bytes}

/-- Behind a line end, the rest begins a line unless it is empty. -/
theorem starts_objectLines {i : Nat} (hne : bytes ≠ []) :
    Lines.starts i (objectLines bytes) = i :: (Lines.starts i (objectLines bytes)).tail :=
  Lines.starts_eq_cons (fun hnil => hne (Lines.split_eq_nil.mp hnil)) i

theorem lineStartsFrom_eq (i : Nat) (bytes : Bytes) :
    lineStartsFrom i bytes = (Lines.starts i (objectLines bytes)).tail := by
  have hfeed : ∀ j (rest : Bytes), (Lines.starts j (objectLines (0x0A :: rest))).tail =
      Lines.starts (j + 1) (objectLines rest) := by
    intro j rest
    rw [objectLines, Lines.split_cons_end rfl]
    rfl
  fun_induction lineStartsFrom i bytes with
  | case1 i => rfl
  | case2 i =>
    rw [objectLines, Lines.starts_split_cons rfl, ← objectLines, hfeed]
    rfl
  | case3 i rest hne ih => rw [objectLines, Lines.starts_split_cons rfl, ← objectLines, hfeed,
      starts_objectLines hne, ih]
  | case4 i => rw [hfeed]; rfl
  | case5 i rest hne ih => rw [hfeed, starts_objectLines hne, ih]
  | case6 i b rest hreturn hother ih =>
    rw [objectLines, Lines.starts_split_cons (by simpa using hother), ← objectLines, ih]

theorem fromBytes_lineStarts : (fromBytes bytes).lineStarts = Lines.starts 0 (objectLines bytes) := by
  unfold fromBytes
  dsimp only
  split
  · next hnil =>
    rw [hnil]
    rfl
  · next hne => rw [lineStartsFrom_eq, ← starts_objectLines hne]

theorem fromBytes_totalLines : (fromBytes bytes).totalLines = (objectLines bytes).length := by
  rw [← Lines.length_starts 0, ← fromBytes_lineStarts]
  rfl

/-- Where the line of this number ends, counted from 1. -/
def endOf (bytes : Bytes) (n : Nat) : Nat := Lines.offset (objectLines bytes) n

theorem endOf_all {n : Nat} (h : (objectLines bytes).length ≤ n) : endOf bytes n = bytes.length := by
  rw [endOf, Lines.offset_of_length_le h, flatten_objectLines]

theorem lineStart {n : Nat} (h : n < (objectLines bytes).length) :
    (fromBytes bytes).lineStarts[n]? = some (endOf bytes n) := by
  rw [fromBytes_lineStarts, Lines.getElem?_starts h, Nat.zero_add, endOf]

theorem endOf_mono {m n : Nat} (h : m ≤ n) : endOf bytes m ≤ endOf bytes n := Lines.offset_mono h

theorem endOf_le (n : Nat) : endOf bytes n ≤ bytes.length := by
  have hle : endOf bytes n ≤ (objectLines bytes).flatten.length := Lines.offset_le n
  rwa [flatten_objectLines] at hle

/-- Between the ends of two lines are the lines behind the one, up to the other. -/
theorem take_drop_endOf {m n : Nat} (h : m ≤ n) :
    (bytes.drop (endOf bytes m)).take (endOf bytes n - endOf bytes m) =
      (((objectLines bytes).drop m).take (n - m)).flatten := by
  have hlines : ((objectLines bytes).flatten.drop (endOf bytes m)).take (endOf bytes n - endOf bytes m) = _ :=
    Lines.take_drop_flatten h
  rwa [flatten_objectLines] at hlines

theorem byteRange_fromStart (first last : Nat) :
    (fromBytes bytes).byteRange (.fromStart first last) =
      if first = 0 ∨ first > (objectLines bytes).length ∨ first > last + 1 then none
      else some (endOf bytes (first - 1), endOf bytes (min last (objectLines bytes).length)) := by
  simp only [byteRange, fromBytes_totalLines]
  split
  · rfl
  · next h =>
    rw [lineStart (by omega)]
    split
    · next hall =>
      rw [hall, endOf_all (le_refl _)]
      rfl
    · next hpart =>
      rw [lineStart (by omega)]
      rfl

theorem byteRange_fromStartOpen (first : Nat) :
    (fromBytes bytes).byteRange (.fromStartOpen first) =
      if first = 0 ∨ first > (objectLines bytes).length then none
      else some (endOf bytes (first - 1), bytes.length) := by
  simp only [byteRange, fromBytes_totalLines]
  split
  · rfl
  · next h =>
    rw [lineStart (by omega)]
    rfl

theorem byteRange_suffix (length : Nat) :
    (fromBytes bytes).byteRange (.suffix length) =
      if length = 0 ∨ (objectLines bytes).length = 0 then none
      else some (endOf bytes ((objectLines bytes).length - min length (objectLines bytes).length),
        bytes.length) := by
  simp only [byteRange, fromBytes_totalLines]
  split
  · rfl
  · next h =>
    rw [lineStart (by omega)]
    rfl

theorem byteRange_insert (before : Nat) :
    (fromBytes bytes).byteRange (.insert before) =
      if before = 0 ∨ before > (objectLines bytes).length + 1 then none
      else some (endOf bytes (before - 1), endOf bytes (before - 1)) := by
  simp only [byteRange, fromBytes_totalLines]
  split
  · rfl
  · next h =>
    split
    · next hlast =>
      rw [hlast, Nat.add_sub_cancel, endOf_all (le_refl _)]
      rfl
    · next hinside =>
      rw [lineStart (by omega)]
      rfl

end LineIndex

namespace Api

/-- The splice a PATCH names in its `Content-Range`. -/
def parsePatchContentRange (contentRange : Text) (body : Bytes) : Except String Write.PatchMode :=
  match Text.splitOnce ' ' contentRange with
  | none => .error ("malformed Content-Range: " ++ String.ofList contentRange)
  | some (unit, rangePart) =>
    match Text.splitOnce '/' rangePart with
    | none => .error ("malformed Content-Range: " ++ String.ofList contentRange)
    | some (rangeStr, _) =>
      if unit = "bytes".toList then
        match Text.splitOnce '-' rangeStr with
        | none => .error ("malformed Content-Range bytes range: " ++ String.ofList rangeStr)
        | some (start, stop) =>
          match Text.parseU64 start with
          | none => .error ("invalid byte range start: " ++ String.ofList start)
          | some first =>
            match Text.parseU64 stop with
            | none => .error ("invalid byte range end: " ++ String.ofList stop)
            | some last =>
              if last < first then
                .error ("malformed Content-Range bytes range: " ++ String.ofList rangeStr ++
                  ": last precedes first")
              else .ok (.bytes (.fromStart first last) body)
      else if unit = "lines".toList then
        match Range.parseLineRangeHeader ("lines=".toList ++ rangeStr) with
        | .error e => .error ("malformed Content-Range lines range: " ++ String.ofList rangeStr ++ ": " ++
            e.display)
        | .ok lineRange => .ok (.lines lineRange body)
      else .error ("Content-Range unit must be 'bytes' or 'lines', got: " ++ String.ofList unit)

end Api
