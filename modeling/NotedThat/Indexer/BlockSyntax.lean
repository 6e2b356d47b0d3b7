-- SUMMARY: The block syntax of Markdown as the heading scanner reads it, a line at a time: containers, fences, HTML, underlines.
import NotedThat.Lib.Text

/-!
# Block syntax

What a line is, without the lines around it: how deep it is quoted, what it holds behind its quote
and list markers, whether it opens or closes a fence, opens a block of HTML, or underlines a heading.
-/

namespace Chunker

def isSpaceOrTab (c : Char) : Bool := c = ' ' ∨ c = '\t'

/-- Up to three spaces of indentation do not matter. -/
def markdownIndent (line : Text) : Text :=
  let spaces := (line.takeWhile (· = ' ')).length
  if spaces ≤ 3 then line.drop spaces else line

/-- A digit or more, with `.` or `)` behind. -/
def isNumbered (value : Text) : Bool :=
  ((Text.stripSuffix '.' value).or (Text.stripSuffix ')' value)).any fun digits =>
    !digits.isEmpty && digits.all Char.isDigit

def isListMarker (value : Text) : Bool :=
  (value = ['-'] ∨ value = ['+'] ∨ value = ['*']) || isNumbered value

/-- What follows a quote marker. -/
def unquoted (line : Text) : Option Text :=
  match markdownIndent line with
  | '>' :: rest => some ((Text.stripPrefix [' '] rest).getD rest)
  | _ => none

/-- Where a list marker ends. -/
def markerEnd (trimmed : Text) : Option Nat :=
  (trimmed.findIdx? isSpaceOrTab).filter fun stop => isListMarker (trimmed.take stop)

theorem length_markdownIndent_le (line : Text) : (markdownIndent line).length ≤ line.length := by
  unfold markdownIndent
  dsimp only
  split
  · rw [List.length_drop]
    omega
  · exact Nat.le_refl _

theorem length_unquoted {line rest : Text} (h : unquoted line = some rest) : rest.length < line.length := by
  have hindent := length_markdownIndent_le line
  unfold unquoted at h
  split at h
  · next quoted hquoted =>
    obtain rfl := Option.some.inj h
    rw [hquoted, List.length_cons] at hindent
    cases hstrip : Text.stripPrefix [' '] quoted with
    | none => exact hindent
    | some rest =>
      obtain rfl := Text.stripPrefix_eq_some.mp hstrip
      simp only [List.length_append, List.length_cons, List.length_nil] at hindent ⊢
      simp only [Option.getD_some]
      omega
  · cases h

theorem markerEnd_pos {trimmed : Text} {stop : Nat} (h : markerEnd trimmed = some stop) :
    0 < stop ∧ stop < trimmed.length := by
  obtain ⟨hfind, hmarker⟩ := Option.filter_eq_some_iff.mp h
  obtain ⟨hlt, -⟩ := List.findIdx?_eq_some_iff_getElem.mp hfind
  refine ⟨Nat.pos_of_ne_zero fun hzero => ?_, hlt⟩
  rw [hzero, List.take_zero] at hmarker
  exact absurd hmarker (by decide)

theorem length_behind_marker {line : Text} {stop : Nat} (h : markerEnd (markdownIndent line) = some stop) :
    (Text.trimStartMatches isSpaceOrTab ((markdownIndent line).drop stop)).length < line.length := by
  have hindent := length_markdownIndent_le line
  obtain ⟨hpos, hlt⟩ := markerEnd_pos h
  refine Nat.lt_of_le_of_lt (List.dropWhile_sublist _).length_le ?_
  rw [List.length_drop]
  omega

/-- What the line holds behind its quote and list markers. -/
def containerContent (line : Text) : Text :=
  match _ : unquoted line with
  | some rest => containerContent rest
  | none =>
    match _ : markerEnd (markdownIndent line) with
    | some stop =>
      containerContent (Text.trimStartMatches isSpaceOrTab ((markdownIndent line).drop stop))
    | none => markdownIndent line
termination_by line.length
decreasing_by
  · exact length_unquoted ‹_›
  · exact length_behind_marker ‹_›

/-- How many quote markers the line begins with. -/
def quoteDepth (line : Text) : Nat :=
  match _ : unquoted line with
  | some rest => quoteDepth rest + 1
  | none => 0
termination_by line.length
decreasing_by exact length_unquoted ‹_›

/-- The indentation behind the list marker, if there is one behind the quote markers. -/
def listFenceIndent (line : Text) : Option Nat :=
  match _ : unquoted line with
  | some rest => listFenceIndent rest
  | none =>
    let trimmed := markdownIndent line
    (markerEnd trimmed).map fun stop => stop + ((trimmed.drop stop).takeWhile isSpaceOrTab).length
termination_by line.length
decreasing_by exact length_unquoted ‹_›

/-- The indentation behind the quote markers. -/
def listContinuationIndent (line : Text) : Nat :=
  match _ : unquoted line with
  | some rest => listContinuationIndent rest
  | none => (line.takeWhile (· = ' ')).length
termination_by line.length
decreasing_by exact length_unquoted ‹_›

/-! ## Fences -/

structure Fence where
  marker : Char
  count : Nat
  quoteDepth : Nat
  listIndent : Option Nat
deriving DecidableEq

def backtick : Char := '\x60'

def opensFence (content : Text) (quoteDepth : Nat) (listIndent : Option Nat) : Option Fence :=
  match content with
  | [] => none
  | marker :: _ =>
    if marker ≠ backtick ∧ marker ≠ '~' then none
    else
      let count := (content.takeWhile (· = marker)).length
      if marker = backtick ∧ backtick ∈ content.drop count then none
      else if count ≥ 3 then some ⟨marker, count, quoteDepth, listIndent⟩
      else none

/-- A fence in a list goes on as long as the lines are indented as far. -/
def fenceContinues (fence : Fence) (line : Text) : Bool :=
  fence.listIndent.all fun indent => listContinuationIndent line ≥ indent

def closesFence (content : Text) (fence : Fence) : Bool :=
  let trimmed := Text.trim content
  let count := (trimmed.takeWhile (· = fence.marker)).length
  count ≥ fence.count && (Text.trim (trimmed.drop count)).isEmpty

/-! ## Blocks of HTML -/

inductive HtmlMarker where
  | comment | processingInstruction | cdata | declaration | script | pre | style | textarea
deriving DecidableEq

/-- What ends a block of HTML. -/
inductive HtmlEnd where
  | marker (marker : HtmlMarker)
  | blankLine
deriving DecidableEq

/-- The text of a marker, with `HTML_MARKERS` in the order of the markers. -/
def HtmlMarker.text : HtmlMarker → Text
  | comment => "-->".toList
  | processingInstruction => "?>".toList
  | cdata => "]]>".toList
  | declaration => ">".toList
  | script => "</script>".toList
  | pre => "</pre>".toList
  | style => "</style>".toList
  | textarea => "</textarea>".toList

/-- The tag, and behind it nothing that would make it another. -/
def startsHtmlTag (lower tag : Text) : Bool :=
  (Text.stripPrefix tag lower).any fun suffix =>
    suffix.head?.all fun c => c = ' ' ∨ c = '\t' ∨ c = '\r' ∨ c = '\n' ∨ c = '/' ∨ c = '>'

def blockTags : List String :=
  ["address", "article", "aside", "base", "basefont", "blockquote", "body", "caption", "center",
    "col", "colgroup", "dd", "details", "dialog", "dir", "div", "dl", "dt", "fieldset",
    "figcaption", "figure", "footer", "form", "frame", "frameset", "h1", "h2", "h3", "h4", "h5",
    "h6", "head", "header", "hr", "html", "iframe", "legend", "li", "link", "main", "menu",
    "menuitem", "nav", "noframes", "ol", "optgroup", "option", "p", "param", "search", "section",
    "summary", "table", "tbody", "td", "tfoot", "th", "thead", "title", "tr", "track", "ul"]

def isBlockHtmlTag (lower : Text) : Bool :=
  let tag := (Text.stripPrefix ['<'] lower).elim [] fun value =>
    ((Text.stripPrefix ['/'] value).getD value).takeWhile Char.isAlphanum
  blockTags.any fun name => name.toList = tag

def opensHtml (content : Text) : Option HtmlEnd :=
  let lower := Text.toAsciiLowercase content
  if "<!--".toList.isPrefixOf lower then some (.marker .comment)
  else if "<?".toList.isPrefixOf lower then some (.marker .processingInstruction)
  else if "<![cdata[".toList.isPrefixOf lower then some (.marker .cdata)
  else if "<!".toList.isPrefixOf lower then some (.marker .declaration)
  else if startsHtmlTag lower "<script".toList then some (.marker .script)
  else if startsHtmlTag lower "<pre".toList then some (.marker .pre)
  else if startsHtmlTag lower "<style".toList then some (.marker .style)
  else if startsHtmlTag lower "<textarea".toList then some (.marker .textarea)
  else if isBlockHtmlTag lower then some .blankLine
  else none

/-- Whether the block goes on behind the line; `markersSeen` are the markers the line has. -/
def htmlContinues (stop : HtmlEnd) (content : Text) (markersSeen : HtmlMarker → Bool) : Bool :=
  match stop with
  | .marker marker => !markersSeen marker
  | .blankLine => !(Text.trim content).isEmpty

/-! ## Headings -/

def isSetextUnderline (content : Text) : Bool :=
  match Text.trim content with
  | [] => false
  | marker :: rest => (marker = '=' ∨ marker = '-') && rest.all (· = marker)

def isAsciiWhitespace (c : Char) : Bool := c = ' ' ∨ c = '\t' ∨ c = '\n' ∨ c = '\x0c' ∨ c = '\r'

/-- Headings below the third level count as the third. -/
def depthFromCount (count : Nat) : Nat := if count = 1 then 1 else if count = 2 then 2 else 3

/-- A heading whose line is too long for the parser: its depth and label. -/
def parseGiantAtx (content : Text) (labelCharCap : Nat) : Option (Nat × Text) :=
  let count := (content.takeWhile (· = '#')).length
  if 1 ≤ count ∧ count ≤ 6 ∧ (content.drop count).head?.any isAsciiWhitespace then
    some (depthFromCount count,
      (Text.trimStartMatches Text.isWhitespace (content.drop count)).take labelCharCap)
  else none

/-- The content is the end of the line. -/
theorem containerContent_suffix (line : Text) : containerContent line <:+ line := by
  induction hlength : line.length using Nat.strong_induction_on generalizing line with
  | _ n ih =>
    have hindent : markdownIndent line <:+ line := by
      unfold markdownIndent
      dsimp only
      split
      · exact List.drop_suffix _ _
      · exact List.suffix_refl _
    rw [containerContent]
    split
    · next rest hquote =>
      refine (ih _ (hlength ▸ length_unquoted hquote) rest rfl).trans ((List.IsSuffix.trans ?_ hindent))
      unfold unquoted at hquote
      split at hquote
      · next quoted hquoted =>
        obtain rfl := Option.some.inj hquote
        rw [hquoted]
        refine List.IsSuffix.trans ?_ (List.suffix_cons _ _)
        cases hstrip : Text.stripPrefix [' '] quoted with
        | none => exact List.suffix_refl _
        | some rest => exact Text.stripPrefix_eq_some.mp hstrip ▸ List.suffix_append [' '] rest
      · cases hquote
    · split
      · next stop hmarker =>
        exact (ih _ (hlength ▸ length_behind_marker hmarker) _ rfl).trans
          ((List.dropWhile_suffix _).trans ((List.drop_suffix _ _).trans hindent))
      · exact hindent

end Chunker
