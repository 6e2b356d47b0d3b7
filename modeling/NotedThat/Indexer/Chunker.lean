-- SUMMARY: The streaming chunker: sections between headings, read through a bounded buffer, cut into chunks and merged.
import NotedThat.Lib.Utf8Slices
import NotedThat.Core.Points

/-!
# The streaming chunker

A document is read through a window of bounded size. A section ends where the next heading starts;
a short one is extended over the sections after it. From the window the chunker cuts as many
characters as a chunk may have, at a paragraph or at white space if it can, and the window may end
in the middle of a character. Each chunk is held until the next is known, so that a short one, or
one of white space only, can be merged. What finds the headings is a parameter: the list of what it
finds. An I/O error is its message.
-/

namespace Chunker

/-- The values of `usize` are below. -/
def usizeLimit : Nat := 2 ^ 64

structure Heading where
  start : Nat
  depth : Nat
  label : Text
deriving DecidableEq

structure Boundary where
  start : Nat
  headingPath : List Text

/-- The part of the document between two headings that is being chunked, or several of them. -/
structure Section where
  cursor : Nat
  stop : Nat
  boundaries : List Boundary
  lookahead : Bytes

structure Config where
  maxChars : Nat
  minChars : Nat
  maxReadBytes : Nat
  sourceBaseOffset : Nat

/-- The state of the iterator; `upcoming` is what the heading scanner has yet to find. -/
structure ChunkIter where
  currentSection : Option Section
  nextHeading : Option Heading
  upcoming : List Heading
  headingPath : List Text
  held : Option Chunk
  started : Bool
  finished : Bool

/-- A new iterator over a document with these headings. -/
def streamChunks (headings : List Heading) (maxChars sourceBaseOffset : Nat) :
    Except String (Config × ChunkIter) :=
  if maxChars = 0 then .error "chunk character bound must be greater than zero"
  else if maxChars * 4 < usizeLimit then
    .ok (⟨maxChars, maxChars / 4, maxChars * 4, sourceBaseOffset⟩,
      ⟨none, none, headings, [], none, false, false⟩)
  else .error "chunk character bound is too large"

/-- The minimum chunk size, at most a quarter of the bound. -/
def Config.withMinChars (config : Config) (minChars : Nat) : Config :=
  { config with minChars := min minChars (config.maxChars / 4) }

/-! ## Where to cut -/

/-- Whether a `\r` may be half of a CRLF pair: `\n` follows, or the text ends and is not complete. -/
def crPending (complete : Bool) (character : Char) (rest : Text) : Bool :=
  character = '\r' &&
    match rest with
    | next :: _ => next = '\n'
    | [] => !complete

/-- What the scan for a cut has seen. -/
structure Scan where
  count : Nat := 0
  byte : Nat := 0
  whitespace : Option Nat := none
  paragraph : Option Nat := none
  seenLineEnd : Bool := false
  lineBlank : Bool := true

/-- One character further. -/
def Scan.next (scan : Scan) (maxChars : Nat) (complete : Bool) (character : Char) (rest : Text) : Scan :=
  let count := scan.count + 1
  let stop := scan.byte + (String.utf8EncodeChar character).length
  let pending := crPending complete character rest
  let lineEnd := character = '\n' ∨ character = '\r' ∧ pending = false
  let preferred := count ≥ maxChars * 3 / 4 ∧ Text.isWhitespace character ∧ pending = false
  { count := count
    byte := stop
    whitespace := if preferred then some stop else scan.whitespace
    paragraph :=
      if preferred ∧ lineEnd ∧ scan.seenLineEnd ∧ scan.lineBlank then some stop else scan.paragraph
    seenLineEnd := scan.seenLineEnd || lineEnd
    lineBlank := if lineEnd then true else scan.lineBlank && Text.isWhitespace character }

/-- The preferred cut, or `hard`. -/
def Scan.cut (scan : Scan) (hard : Nat) : Nat := (scan.paragraph.or scan.whitespace).getD hard

/-- Scan up to `limit` characters. -/
def scanCut (maxChars limit : Nat) (complete : Bool) : Scan → Text → Nat
  | scan, [] => scan.cut scan.byte
  | scan, character :: rest =>
    let scan' := scan.next maxChars complete character rest
    if scan'.count = limit then
      -- cutting before a leading `\r` would make an empty chunk and never advance
      scan'.cut (if crPending complete character rest ∧ scan.byte > 0 then scan.byte else scan'.byte)
    else scanCut maxChars limit complete scan' rest

/-- Where the next chunk ends: at a paragraph or at white space in the last quarter before the bound,
else at the bound. When the text is the rest of the section, at least `minTail` characters stay. -/
def splitByte (text : Text) (maxChars minTail : Nat) (complete : Bool) : Nat :=
  if complete ∧ text.length ≤ maxChars then (Utf8.encode text).length
  else
    let limit := if complete then min maxChars (text.length - minTail) else maxChars
    scanCut maxChars limit complete {} text

/-! ## Sections -/

def Section.new (start stop : Nat) (headingPath : List Text) : Section :=
  ⟨start, stop, [⟨start, headingPath⟩], []⟩

/-- The heading path of the merged section that the cursor is in. -/
def Section.takeHeadingPath (s : Section) : List Text × Section :=
  let passed := ((s.boundaries.drop 1).takeWhile fun boundary => boundary.start ≤ s.cursor).length
  let boundaries := s.boundaries.drop passed
  ((boundaries.head?.map Boundary.headingPath).getD [], { s with boundaries := boundaries })

/-- Extend the section over the one from `start` to `stop`. -/
def Section.extend (s : Section) (blank : Bool) (start stop : Nat) (headingPath : List Text) : Section :=
  { s with
    stop := stop
    boundaries :=
      -- white space carries no heading of its own
      if blank then [⟨s.cursor, headingPath⟩] else s.boundaries ++ [⟨start, headingPath⟩] }

/-- Seek, and read a number of bytes. -/
def readExact (source : Bytes) (offset n : Nat) : Except String Bytes :=
  if offset + n ≤ source.length then .ok ((source.drop offset).take n)
  else .error "failed to fill whole buffer"

/-- Read the unread part of the section into its lookahead, up to `maxBytes`. -/
def fill (source : Bytes) (s : Section) (maxBytes : Nat) : Except String Section :=
  let bufferedEnd := s.cursor + s.lookahead.length
  let request := min (s.stop - bufferedEnd) (maxBytes - s.lookahead.length)
  if request > 0 then do
    let bytes ← readExact source bufferedEnd request
    .ok { s with lookahead := s.lookahead ++ bytes }
  else .ok s

/-- Whether the unread part of the section is shorter than `minChars`, and if so whether it is only
white space. -/
def shortSpan (source : Bytes) (s : Section) (minChars : Nat) : Except String (Option Bool × Section) :=
  if s.stop - s.cursor ≥ min (minChars * 4) (usizeLimit - 1) then .ok (none, s)
  else do
    let s ← fill source s (s.stop - s.cursor)
    match Utf8.fromUtf8 s.lookahead with
    | .valid text =>
      if text.length < minChars then .ok (some (Text.trim text).isEmpty, s) else .ok (none, s)
    | .invalid _ _ => .ok (none, s)

namespace ChunkIter

/-- Move the heading path into the heading. -/
def enter (iter : ChunkIter) (heading : Heading) : ChunkIter :=
  { iter with headingPath := iter.headingPath.take (heading.depth - 1) ++ [heading.label] }

/-- Scan for the next heading, which is where the current section ends. -/
def scanSectionEnd (iter : ChunkIter) (source : Bytes) : Nat × ChunkIter :=
  ((iter.upcoming.head?.map Heading.start).getD source.length,
    { iter with nextHeading := iter.upcoming.head?, upcoming := iter.upcoming.tail })

/-- How many sections are left to enter. -/
def sectionsLeft (iter : ChunkIter) : Nat :=
  (!iter.started).toNat + iter.nextHeading.toList.length + iter.upcoming.length

theorem sectionsLeft_scan (iter : ChunkIter) (source : Bytes) :
    (iter.scanSectionEnd source).2.sectionsLeft = (!iter.started).toNat + iter.upcoming.length := by
  unfold scanSectionEnd sectionsLeft
  cases iter.upcoming with
  | nil => rfl
  | cons heading upcoming =>
    simp only [List.head?_cons, Option.toList_some, List.length_cons, List.length_nil, List.tail_cons]
    omega

/-- Entering the next heading leaves one section less. -/
theorem sectionsLeft_enter_scan {iter : ChunkIter} {heading : Heading} (source : Bytes)
    (h : iter.nextHeading = some heading) :
    (({ iter with nextHeading := none }.enter heading).scanSectionEnd source).2.sectionsLeft <
      iter.sectionsLeft := by
  rw [sectionsLeft_scan]
  simp only [enter, sectionsLeft, h, Option.toList_some, List.length_cons, List.length_nil]
  omega

/-- So does starting. -/
theorem sectionsLeft_start {iter : ChunkIter} (source : Bytes) (h : iter.started = false) :
    ({ iter with started := true }.scanSectionEnd source).2.sectionsLeft < iter.sectionsLeft := by
  rw [sectionsLeft_scan]
  simp only [sectionsLeft, h, Bool.not_true, Bool.not_false, Bool.toNat_true, Bool.toNat_false]
  omega

/-- Go to the next section that is not empty. -/
def prepareSection (source : Bytes) (iter : ChunkIter) : Bool × ChunkIter :=
  if hstarted : iter.started = true then
    match hnext : iter.nextHeading with
    | none => (false, { iter with finished := true })
    | some heading =>
      let scanned := ({ iter with nextHeading := none }.enter heading).scanSectionEnd source
      if heading.start < scanned.1 then
        (true, { scanned.2 with
          currentSection := some (.new heading.start scanned.1 scanned.2.headingPath) })
      else prepareSection source scanned.2
  else
    let scanned := { iter with started := true }.scanSectionEnd source
    if 0 < scanned.1 then
      (true, { scanned.2 with currentSection := some (.new 0 scanned.1 scanned.2.headingPath) })
    else prepareSection source scanned.2
termination_by iter.sectionsLeft
decreasing_by
  · exact sectionsLeft_enter_scan source hnext
  · exact sectionsLeft_start source (Bool.eq_false_of_not_eq_true hstarted)

/-- Extend the unread part of the current section over the sections after it while it is shorter than
the minimum chunk size. -/
def absorbShortSpan (config : Config) (source : Bytes) (iter : ChunkIter) : Except String ChunkIter :=
  match hnext : iter.nextHeading with
  | none => .ok iter
  | some heading =>
    match iter.currentSection with
    | none => .ok iter
    | some s =>
      match shortSpan source s config.minChars with
      | .error error => .error error
      | .ok (none, s) => .ok { iter with currentSection := some s }
      | .ok (some blank, s) =>
        let scanned := ({ iter with nextHeading := none }.enter heading).scanSectionEnd source
        absorbShortSpan config source
          { scanned.2 with
            currentSection := some (s.extend blank heading.start scanned.1 scanned.2.headingPath) }
termination_by iter.sectionsLeft
decreasing_by exact sectionsLeft_enter_scan source hnext

end ChunkIter

/-! ## Chunks -/

def overflowed : String := "absolute chunk byte offset overflowed usize"

/-- Where a byte of the reader is in the whole document. -/
def absoluteOffset (base position : Nat) : Except String Nat :=
  if base + position < usizeLimit then .ok (base + position)
  else .error overflowed

def notUtf8 (byte : Nat) : String := "Markdown input is not UTF-8 at byte " ++ toString byte

/-- The front of the lookahead that is UTF-8; only its last character may be cut off. -/
def Section.validFront (s : Section) : Except String Text :=
  match Utf8.fromUtf8 s.lookahead with
  | .valid text => .ok text
  | .invalid upTo truncated =>
    if truncated = false ∨ upTo = 0 then .error (notUtf8 (s.cursor + upTo))
    else ((Utf8.decode? (s.lookahead.take upTo)).elim (.error (notUtf8 s.cursor)) .ok)

/-- Cut a chunk from the section. -/
def Section.cut (s : Section) (config : Config) : Except String (Chunk × Section) := do
  let front ← s.validFront
  let split := splitByte front config.maxChars config.minChars
    (s.stop - s.cursor = (Utf8.encode front).length)
  let text ← (Utf8.decode? (s.lookahead.take split)).elim (.error (notUtf8 s.cursor)) .ok
  let (headingPath, s) := s.takeHeadingPath
  let byteStart ← absoluteOffset config.sourceBaseOffset s.cursor
  let byteEnd ← absoluteOffset config.sourceBaseOffset (s.cursor + split)
  .ok (⟨text, byteStart, byteEnd, headingPath⟩,
    { s with cursor := s.cursor + split, lookahead := s.lookahead.drop split })

namespace ChunkIter

/-- Whether the current section has been chunked. -/
def sectionDone (iter : ChunkIter) : Bool := iter.currentSection.all fun s => s.cursor = s.stop

/-- The next chunk of the current section. -/
def cutSection (config : Config) (source : Bytes) (iter : ChunkIter) :
    Except String (Option Chunk × ChunkIter) := do
  let iter ← iter.absorbShortSpan config source
  match iter.currentSection with
  | none => .error "chunk iterator reached an invalid empty section state"
  | some s =>
    let s ← fill source s config.maxReadBytes
    let (chunk, s) ← s.cut config
    .ok (some chunk, { iter with currentSection := some s })

def nextChunk (config : Config) (source : Bytes) (iter : ChunkIter) :
    Except String (Option Chunk × ChunkIter) :=
  if iter.finished then .ok (none, iter)
  else
    let prepared := if iter.sectionDone then iter.prepareSection source else (true, iter)
    if prepared.1 = false then .ok (none, prepared.2)
    else prepared.2.cutSection config source

end ChunkIter

/-- Whether `next` may be merged into the chunk before it. -/
def mergeable (config : Config) (held next : Chunk) : Bool :=
  config.minChars > 0 ∧
    ((Text.trim held.text).isEmpty ∨ next.text.length < config.minChars ∨
      (Text.trim next.text).isEmpty) ∧
    held.text.length + next.text.length ≤ config.maxChars

/-- Two chunks as one. -/
def merge (held next : Chunk) : Chunk :=
  { held with
    headingPath := if (Text.trim held.text).isEmpty then next.headingPath else held.headingPath
    text := held.text ++ next.text
    byteEnd := next.byteEnd }

/-- White space that was merged into nothing is dropped. -/
def dropped (config : Config) (chunk : Chunk) : Bool :=
  config.minChars > 0 ∧ (Text.trim chunk.text).isEmpty

namespace ChunkIter

/-- The next chunk, each one held back until the next is known. The loop makes one pass for each unit
of `fuel`; none when it is used up. -/
def nextMerged (config : Config) (source : Bytes) :
    Nat → ChunkIter → Option (Except String (Option Chunk) × ChunkIter)
  | 0, _ => none
  | fuel + 1, iter =>
    match iter.nextChunk config source with
    -- the chunk that is held back is not taken
    | .error error => some (.error error, iter)
    | .ok (next, iter') =>
      match iter'.held, next with
      | none, none => some (.ok none, iter')
      | some held, none =>
        if dropped config held then nextMerged config source fuel { iter' with held := none }
        else some (.ok (some held), { iter' with held := none })
      | none, some next => nextMerged config source fuel { iter' with held := some next }
      | some held, some next =>
        if mergeable config held next then
          nextMerged config source fuel { iter' with held := some (merge held next) }
        else if dropped config held then
          nextMerged config source fuel { iter' with held := some next }
        else some (.ok (some held), { iter' with held := some next })

/-- `Iterator::next`. What an error leaves of the section cannot be seen any more. -/
def next (config : Config) (source : Bytes) (fuel : Nat) (iter : ChunkIter) :
    Option (Option (Except String Chunk) × ChunkIter) :=
  (iter.nextMerged config source fuel).map fun
    | (.ok (some chunk), iter) => (some (.ok chunk), iter)
    | (.ok none, iter) => (none, iter)
    | (.error error, iter) => (some (.error error), { iter with finished := true })

/-- Iterate to exhaustion. -/
def items (config : Config) (source : Bytes) : Nat → ChunkIter → Option (List (Except String Chunk))
  | 0, _ => none
  | fuel + 1, iter =>
    match iter.next config source (fuel + 1) with
    | none => none
    | some (none, _) => some []
    | some (some item, iter') => (items config source fuel iter').map (item :: ·)

/-- Collect the chunks up to the end or the first error. -/
def collect (config : Config) (source : Bytes) : Nat → ChunkIter → Option (Except String (List Chunk))
  | 0, _ => none
  | fuel + 1, iter =>
    match iter.next config source (fuel + 1) with
    | none => none
    | some (none, _) => some (.ok [])
    | some (some (.error error), _) => some (.error error)
    | some (some (.ok chunk), iter') => (collect config source fuel iter').map (Except.map (chunk :: ·))

end ChunkIter

end Chunker
