-- SUMMARY: The heading scanner: it reads a document in pieces of any size and keeps a bounded part of a line and of a paragraph.
import NotedThat.Indexer.BlockSyntax
import NotedThat.Indexer.Chunker
import NotedThat.Lib.Window

/-!
# The heading scanner

The scanner takes one byte at a time. Of a line it captures a front of bounded length; that a marker
of HTML goes by is noticed behind it too, in a window of the last bytes. At the end of a line it
looks at what was captured: a line in a block of HTML or of code is passed over, any other may be a
heading, or underline one. The Markdown parser is a parameter: what it reports of a text, and where
in it. Errors of the reader are left out.
-/

namespace Chunker

def readBufferBytes : Nat := 8 * 1024

def lineCaptureBytes : Nat := 16 * 1024

def lineTailBytes : Nat := 64

def lineFeed : UInt8 := 0x0A

/-! ## The parser of a heading -/

inductive HeadingLevel where
  | h1 | h2 | h3 | h4 | h5 | h6
deriving DecidableEq

def HeadingLevel.depth : HeadingLevel → Nat
  | h1 => 1
  | h2 => 2
  | _ => 3

/-- What the parser reports of a text, in its order. -/
inductive Event where
  | startHeading (level : HeadingLevel)
  | endHeading
  | text (text : Text)
  | code (text : Text)
  | other

/-- A Markdown parser: the events of a text, each with the byte it starts at. -/
abbrev Markdown := Text → List (Event × Nat)

/-- As much of the text as the label has room for. -/
def addToLabel (labelCharCap : Nat) (text : Text) (active : Nat × Nat × Text) : Nat × Nat × Text :=
  (active.1, active.2.1, active.2.2 ++ text.take (labelCharCap - active.2.2.length))

/-- Where the first heading that ends in the events starts, its depth and its label. -/
def firstHeading (labelCharCap : Nat) : Option (Nat × Nat × Text) → List (Event × Nat) →
    Option (Nat × Nat × Text)
  | _, [] => none
  | active, (event, start) :: events =>
    match event with
    | .startHeading level => firstHeading labelCharCap (some (start, level.depth, [])) events
    | .text text => firstHeading labelCharCap (active.map (addToLabel labelCharCap text)) events
    | .code text => firstHeading labelCharCap (active.map (addToLabel labelCharCap text)) events
    | .endHeading => active
    | .other => firstHeading labelCharCap active events

def parseHeading (parser : Markdown) (labelCharCap : Nat) (markdown : Text) : Option (Nat × Nat × Text) :=
  firstHeading labelCharCap none (parser markdown)

/-! ## The state of the scanner -/

/-- The front of a paragraph, or of a line. -/
structure CapturedParagraph where
  start : Nat
  bytes : Bytes
  overflowed : Bool

/-- What is open where a line begins. -/
structure Blocks where
  paragraph : Option CapturedParagraph := none
  fence : Option Fence := none
  html : Option HtmlEnd := none
  htmlQuoteDepth : Nat := 0

structure HeadingScanner where
  position : Nat
  lineStart : Nat
  line : Bytes
  lineTail : Bytes
  htmlMarkerSeen : HtmlMarker → Bool
  lineOverflowed : Bool
  blocks : Blocks
  eof : Bool

def HeadingScanner.new : HeadingScanner where
  position := 0
  lineStart := 0
  line := []
  lineTail := []
  htmlMarkerSeen := fun _ => false
  lineOverflowed := false
  blocks := {}
  eof := false

/-- The bytes as text, without a last character that is cut off; nothing if they are no text. -/
def capturedUtf8 (bytes : Bytes) : Text :=
  match Utf8.fromUtf8 bytes with
  | .valid text => text
  | .invalid upTo truncated => if truncated then (Utf8.decode? (bytes.take upTo)).getD [] else []

/-! ## The end of a line -/

section

variable (parser : Markdown) (labelCharCap : Nat)

/-- The heading that the line is by itself. -/
def lineHeading (current : CapturedParagraph) : Option Heading :=
  let line := capturedUtf8 current.bytes
  if current.overflowed = false then
    (parseHeading parser labelCharCap line).map fun (offset, depth, label) =>
      ⟨current.start + offset, depth, label⟩
  else
    let content := containerContent line
    (parseGiantAtx content labelCharCap).map fun (depth, label) =>
      ⟨current.start + ((Utf8.encode line).length - (Utf8.encode content).length), depth, label⟩

/-- The paragraph as far as it is text, with a line end. -/
def paragraphSpan (paragraph : CapturedParagraph) : Bytes :=
  let valid := Utf8.encode (capturedUtf8 paragraph.bytes)
  if valid.getLast? = some lineFeed then valid else valid ++ [lineFeed]

/-- The heading that the line underlines. -/
def underlinedHeading (paragraph : CapturedParagraph) (current : Bytes) : Option Heading :=
  (parseHeading parser labelCharCap (capturedUtf8 (paragraphSpan paragraph ++ current))).map
    fun (offset, depth, label) => ⟨paragraph.start + offset, depth, label⟩

/-- The paragraph with a further line, as far as there is room. -/
def CapturedParagraph.extend (paragraph current : CapturedParagraph) : CapturedParagraph :=
  let copied := min (lineCaptureBytes - paragraph.bytes.length) current.bytes.length
  { paragraph with
    bytes := paragraph.bytes ++ current.bytes.take copied
    overflowed := paragraph.overflowed || current.overflowed || copied < current.bytes.length }

/-- What a line that is no heading leaves of the paragraph. -/
def nextParagraph (paragraph : Option CapturedParagraph) (content : Text) (current : CapturedParagraph) :
    Option CapturedParagraph :=
  if (Text.trim content).isEmpty then none
  else some ((paragraph.map fun paragraph => paragraph.extend current).getD current)

/-- A line outside of code and HTML. -/
def Blocks.finishText (content : Text) (current : CapturedParagraph) (b : Blocks) : Option Heading × Blocks :=
  match lineHeading parser labelCharCap current with
  | some heading => (some heading, { b with paragraph := none })
  | none =>
    if isSetextUnderline content then
      -- the paragraph is taken, also where it turns out to be no heading
      match b.paragraph.bind fun paragraph => underlinedHeading parser labelCharCap paragraph current.bytes with
      | some heading => (some heading, { b with paragraph := none })
      | none => (none, { b with paragraph := nextParagraph none content current })
    else (none, { b with paragraph := nextParagraph b.paragraph content current })

/-- The end of a line: the heading it is or underlines, and what is open behind it. -/
def Blocks.finishLine (current : CapturedParagraph) (htmlMarkerSeen : HtmlMarker → Bool) (b : Blocks) :
    Option Heading × Blocks :=
  let line := capturedUtf8 current.bytes
  let content := containerContent line
  let depth := quoteDepth line
  match b.html.filter fun _ => depth ≥ b.htmlQuoteDepth with
  | some stop =>
    (none, { b with
      html := if htmlContinues stop content htmlMarkerSeen then some stop else none
      paragraph := none })
  | none =>
    -- a block of HTML or code ends with the quote it is in
    let b := { b with html := none }
    match b.fence.filter fun fence => depth ≥ fence.quoteDepth with
    | some fence =>
      (none, { b with
        fence := if !closesFence content fence && fenceContinues fence line then some fence else none
        paragraph := none })
    | none =>
      let b := { b with fence := none }
      match opensFence content depth (listFenceIndent line) with
      | some fence => (none, { b with fence := some fence, paragraph := none })
      | none =>
        match opensHtml content with
        | some stop =>
          if htmlContinues stop content htmlMarkerSeen then
            (none, { b with html := some stop, htmlQuoteDepth := depth, paragraph := none })
          else (none, { b with paragraph := none })
        | none => b.finishText parser labelCharCap content current

end

/-! ## Reading -/

/-- `u8::to_ascii_lowercase`. -/
def asciiLower (byte : UInt8) : UInt8 := if 0x41 ≤ byte ∧ byte ≤ 0x5A then byte + 0x20 else byte

/-- Whether the window ends with the marker, in whatever case. -/
def endsWithMarker (lineTail : Bytes) (marker : Text) : Bool :=
  lineTail.length ≥ (Utf8.encode marker).length &&
    (lineTail.reverse.zip (Utf8.encode marker).reverse).all fun pair =>
      asciiLower pair.1 = asciiLower pair.2

namespace HeadingScanner

variable (parser : Markdown) (labelCharCap : Nat)

/-- One byte of a line. -/
def takeByte (s : HeadingScanner) (byte : UInt8) : HeadingScanner :=
  let lineTail := Window.push lineTailBytes s.lineTail byte
  { s with
    position := s.position + 1
    line := if s.line.length < lineCaptureBytes then s.line ++ [byte] else s.line
    lineOverflowed := s.lineOverflowed || s.line.length ≥ lineCaptureBytes
    lineTail := lineTail
    htmlMarkerSeen := fun marker => s.htmlMarkerSeen marker || endsWithMarker lineTail marker.text }

def finishLine (s : HeadingScanner) : Option Heading × HeadingScanner :=
  let (heading, blocks) :=
    s.blocks.finishLine parser labelCharCap ⟨s.lineStart, s.line, s.lineOverflowed⟩ s.htmlMarkerSeen
  (heading, { s with
    line := []
    lineTail := []
    htmlMarkerSeen := fun _ => false
    lineOverflowed := false
    blocks := blocks })

/-- The bytes of a buffer, up to the first heading. -/
def consume : Bytes → HeadingScanner → Option Heading × HeadingScanner
  | [], s => (none, s)
  | byte :: buffer, s =>
    let s := s.takeByte byte
    if byte = lineFeed then
      let (heading, s) := s.finishLine parser labelCharCap
      let s := { s with lineStart := s.position }
      match heading with
      | some heading => (some heading, s)
      | none => consume buffer s
    else consume buffer s

/-- Seek and read until a heading is found; `sizes` are how many bytes the reads give, one by one.
None if there are not enough of them. -/
def readOn (source : Bytes) : List Nat → HeadingScanner →
    Option (Option Heading × HeadingScanner × List Nat)
  | [], _ => none
  | size :: sizes, s =>
    match (source.drop s.position).take (min size readBufferBytes) with
    | [] =>
      let s := { s with eof := true }
      if s.position > s.lineStart then
        let (heading, s) := s.finishLine parser labelCharCap
        some (heading, s, sizes)
      else some (none, s, sizes)
    | byte :: buffer =>
      match consume parser labelCharCap (byte :: buffer) s with
      | (some heading, s) => some (some heading, s, sizes)
      | (none, s) => readOn source sizes s

def nextHeading (source : Bytes) (sizes : List Nat) (s : HeadingScanner) :
    Option (Option Heading × HeadingScanner × List Nat) :=
  if s.eof then some (none, s, sizes) else readOn parser labelCharCap source sizes s

/-- All headings, as the chunker asks for one after the other, and the scanner behind the last. -/
def scanAll (source : Bytes) : Nat → List Nat → HeadingScanner → Option (List Heading × HeadingScanner)
  | 0, _, _ => none
  | fuel + 1, sizes, s =>
    match nextHeading parser labelCharCap source sizes s with
    | none => none
    | some (none, s, _) => some ([], s)
    | some (some heading, s, sizes) =>
      (scanAll source fuel sizes s).map fun (headings, s) => (heading :: headings, s)

end HeadingScanner

end Chunker
