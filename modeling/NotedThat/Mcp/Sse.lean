-- SUMMARY: The incremental event stream parser of the MCP server: bytes decoded as they arrive, cut at blank lines and read field by field.
import NotedThat.Lib.LossyUtf8
import NotedThat.Lib.Needles

/-!
# The event stream parser

A parser keeps the text that has not ended in a blank line, and the bytes that end in the middle of a
character. Each chunk is decoded behind them, and the frames it completes are taken out. Positions in a
text count characters; what is pending is counted in bytes.
-/

namespace Mcp

namespace Sse

-- ---------------------------------------------------------------------------
-- Blocks
-- ---------------------------------------------------------------------------

/-- One complete frame. -/
structure SseEvent where
  id : Option Text
  event : Option Text
  data : Text
  retry : Option Nat
deriving DecidableEq

def SseEvent.default : SseEvent := ⟨none, none, [], none⟩

/-- The most a parser holds for a frame that has not ended, in bytes. -/
def maxPending : Nat := 1024 * 1024

/-- The blank lines, with their lengths. -/
def separators : List (Text × Nat) :=
  [("\r\n\r\n".toList, 4), ("\n\n".toList, 2), ("\r\n\n".toList, 3), ("\n\r\n".toList, 3)]

/-- The first blank line: where the block before it ends, and how long the separator is. -/
def findBlankLine (text : Text) : Option (Nat × Nat) := Needles.firstOf separators text

/-- What has been read of a block. -/
structure Fields where
  event : SseEvent
  dataLines : List Text
  sawField : Bool

def Fields.empty : Fields := ⟨.default, [], false⟩

/-- A line's field and value. -/
def fieldOf (line : Text) : Text × Text :=
  match Text.splitOnce ':' line with
  | some (field, value) => (field, (Text.stripPrefix [' '] value).getD value)
  | none => (line, [])

def setField (fields : Fields) (field value : Text) : Fields :=
  if field = "data".toList then { fields with dataLines := fields.dataLines ++ [value] }
  else if field = "event".toList then { fields with event := { fields.event with event := some value } }
  else if field = "id".toList then { fields with event := { fields.event with id := some value } }
  else if field = "retry".toList then
    { fields with event := { fields.event with retry := Text.parseU64 value } }
  else fields

def parseLine (fields : Fields) (line : Text) : Fields :=
  let line := (Text.stripSuffix '\r' line).getD line
  if line.isEmpty || line.head? = some ':' then fields
  else setField { fields with sawField := true } (fieldOf line).1 (fieldOf line).2

/-- One block between blank lines; nothing when it held only comments. -/
def parseBlock (block : Text) : Option SseEvent :=
  let fields := (block.splitOn '\n').foldl parseLine .empty
  if fields.sawField then some { fields.event with data := ['\n'].intercalate fields.dataLines } else none

theorem separators_ne_nil : ∀ separator ∈ separators, separator.1 ≠ [] := by decide

/-- A separator is found in a text, and it is not empty. -/
theorem findBlankLine_advances {text : Text} {stop len : Nat} (h : findBlankLine text = some (stop, len)) :
    (text.drop (stop + len)).length < text.length := by
  obtain ⟨separator, hmem, hbegins⟩ := Needles.firstOf_eq_some separators_ne_nil h
  have hlen : ∀ separator ∈ separators, 0 < separator.2 ∧ 0 < separator.1.length := by decide
  obtain ⟨hpos, hsep⟩ := hlen _ hmem
  have hle := hbegins.length_le
  rw [List.length_drop] at hle ⊢
  dsimp only at hpos hsep
  omega

/-- Take out every frame that is complete, in order. -/
def drain (text : Text) : List SseEvent × Text :=
  match _h : findBlankLine text with
  | some (stop, len) =>
    let (events, rest) := drain (text.drop (stop + len))
    ((parseBlock (text.take stop)).toList ++ events, rest)
  | none => ([], text)
termination_by text.length
decreasing_by exact findBlankLine_advances _h

-- ---------------------------------------------------------------------------
-- The parser
-- ---------------------------------------------------------------------------

structure SseParser where
  /-- Decoded text of frames not yet ended by a blank line. -/
  text : Text
  /-- `partial`: bytes that end in the middle of a character. -/
  part : Bytes

namespace SseParser

def new : SseParser := ⟨[], []⟩

/-- Decode as much of the bytes as is complete, keeping a trailing part of a character. -/
def decode (p : SseParser) (bytes : Bytes) : SseParser :=
  match _h : Utf8.fromUtf8 bytes with
  | .valid text => { p with text := p.text ++ text }
  | .invalid valid _ =>
    let text := p.text ++ (Utf8.decode? (bytes.take valid)).getD []
    match _hlen : Utf8.errorLen (bytes.drop valid) with
    | none => ⟨text, p.part ++ bytes.drop valid⟩
    | some len => decode ⟨text ++ [Utf8.replacementCharacter], p.part⟩ (bytes.drop (valid + len))
termination_by bytes.length
decreasing_by
  obtain ⟨t, -, -, hstuck⟩ := Utf8.fromUtf8_eq_invalid _h
  obtain ⟨-, hpos, hle⟩ := Utf8.errorLen_append hstuck.1 _hlen []
  rw [List.length_drop] at hle ⊢
  omega

/-- How many bytes are pending. -/
def pending (p : SseParser) : Nat := (Utf8.encode p.text).length + p.part.length

/-- `feed` up to where it looks at how much is pending. -/
def absorb (p : SseParser) (bytes : Bytes) : SseParser × List SseEvent :=
  let p := if p.part.isEmpty then p.decode bytes else { p with part := [] }.decode (p.part ++ bytes)
  let (events, text) := drain p.text
  ({ p with text := text }, events)

/-- Append bytes and return every frame that is now complete, in order. -/
def feed (p : SseParser) (bytes : Bytes) : SseParser × List SseEvent :=
  let (p, events) := p.absorb bytes
  if maxPending < p.pending then (.new, events) else (p, events)

/-- Feed chunks, one after the other. -/
def feedAll (p : SseParser) : List Bytes → SseParser × List SseEvent
  | [] => (p, [])
  | chunk :: chunks =>
    let (p, events) := p.feed chunk
    let (p, more) := p.feedAll chunks
    (p, events ++ more)

/-- No more than `maxPending` bytes are ever pending. -/
def Within (p : SseParser) : List Bytes → Prop
  | [] => True
  | chunk :: chunks => (p.absorb chunk).1.pending ≤ maxPending ∧ (p.feed chunk).1.Within chunks

end SseParser

end Sse

end Mcp
