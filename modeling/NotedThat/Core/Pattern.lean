-- SUMMARY: Key patterns, the glob language that scopes an access rule: parsing with brace expansion, and two-pointer matching.
import NotedThat.Core.Names
import NotedThat.Lib.TwoPointer

/-!
# Key patterns

A pattern is parsed once, braces expanded to alternatives, and matched against the segments of a
key. A pattern value carries the proof that its alternatives are what its source parses to.
-/

namespace Pattern

def maxPatternBytes : Nat := 1024
def maxSegments : Nat := 64
def maxAlternatives : Nat := 256

/-- One piece of a pattern segment. -/
inductive Token where
  | star
  | any
  | literal (text : Text)
deriving DecidableEq

/-- One slash-separated piece of a pattern. -/
inductive Segment where
  | doubleStar
  | literal (text : Text)
  | wild (tokens : List Token)
deriving DecidableEq

def invalid {α : Type} (message : String) : Except Error α := .error (.invalidInput message)

/-! ## Matching -/

/-- `literal_at` together with the advance past the literal. -/
def consumeToken : Token → List Char → Option (List Char)
  | .any, _ :: chars => some chars
  | .literal text, chars => Text.stripPrefix text chars
  | _, _ => none

def matchTokens (tokens : List Token) (candidate : Text) : Bool :=
  twoPointerMatch (· = .star) consumeToken tokens candidate

def segmentMatches : Segment → Text → Bool
  | .doubleStar, _ => true
  | .literal text, candidate => text = candidate
  | .wild tokens, candidate => matchTokens tokens candidate

def consumeSegment (segment : Segment) : List Text → Option (List Text)
  | candidate :: key => if segmentMatches segment candidate then some key else none
  | [] => none

def matchSegments (pattern : List Segment) (key : List Text) : Bool :=
  twoPointerMatch (· = .doubleStar) consumeSegment pattern key

/-! ## Parsing -/

/-- The tokens of a segment with wildcards; `literal` is the run of characters read so far. -/
def tokenize : Text → Text → List Token
  | literal, [] => if literal.isEmpty then [] else [.literal literal]
  | literal, ch :: chars =>
    if ch = '*' ∨ ch = '?' then
      let here := [if ch = '*' then Token.star else .any]
      (if literal.isEmpty then here else .literal literal :: here) ++ tokenize [] chars
    else tokenize (literal ++ [ch]) chars

def parseSegment (segment : Text) : Except Error Segment :=
  if segment = ['*', '*'] then .ok .doubleStar
  else if Text.containsText ['*', '*'] segment then
    invalid ("'**' must be a whole segment; found it inside '" ++ String.ofList segment ++ "'")
  else if !(segment.contains '*' || segment.contains '?') then .ok (.literal segment)
  else .ok (.wild (tokenize [] segment))

theorem splitOnce_length {c : Char} {s a b : Text} (h : Text.splitOnce c s = some (a, b)) :
    b.length < s.length := by
  induction s generalizing a b with
  | nil => cases h
  | cons d s ih =>
    simp only [Text.splitOnce] at h
    split at h
    · cases h
      simp
    · simp only [Option.map_eq_some_iff, Prod.mk.injEq] at h
      obtain ⟨⟨a', b'⟩, hs, -, rfl⟩ := h
      exact Nat.lt_succ_of_lt (ih hs)

def tooManyAlternatives {α : Type} : Except Error α :=
  invalid ("pattern expands to more than " ++ toString maxAlternatives ++ " brace alternatives")

/-- The loop of `expand_braces`: `results` are the expansions of what was read, `rest` is what
is left to read. -/
def expandBracesLoop (segment : Text) (results : List Text) (rest : Text) :
    Except Error (List Text) :=
  match h : Text.splitOnce '{' rest with
  | none =>
    if rest.contains '}' then
      invalid ("'\x7d' without a matching '\x7b' in '" ++ String.ofList segment ++ "'")
    else .ok (results.map (· ++ rest))
  | some (literal, innerAndRest) =>
    match h' : Text.splitOnce '}' innerAndRest with
    | none => invalid ("unclosed '\x7b' in '" ++ String.ofList segment ++ "'")
    | some (inner, rest') =>
      if inner.contains '{' then
        invalid ("nested braces are not supported: '" ++ String.ofList segment ++ "'")
      else if Text.containsText ['*', '*'] inner then
        invalid ("'**' must be a whole segment and cannot appear inside braces: '" ++
          String.ofList segment ++ "'")
      else
        let branches := inner.splitOn ','
        if branches.any List.isEmpty then
          invalid ("brace alternation must not contain an empty branch: '" ++
            String.ofList segment ++ "'")
        else if results.length * branches.length > maxAlternatives then tooManyAlternatives
        else
          have : rest'.length < rest.length :=
            Nat.lt_trans (splitOnce_length h') (splitOnce_length h)
          expandBracesLoop segment
            (results.flatMap fun head => branches.map fun branch => head ++ literal ++ branch) rest'
termination_by rest.length

def expandBraces (segment : Text) : Except Error (List Text) :=
  if !segment.contains '{' then
    if segment.contains '}' then
      invalid ("'\x7d' without a matching '\x7b' in '" ++ String.ofList segment ++ "'")
    else .ok [segment]
  else expandBracesLoop segment [[]] segment

/-- The loop of `parse` over the raw segments. -/
def parseSegments : List (List Segment) → List Text → Except Error (List (List Segment))
  | alternatives, [] => .ok alternatives
  | alternatives, raw :: raws => do
    if raw.isEmpty then
      invalid "pattern must not contain empty segments (double slash or trailing slash)"
    else if raw = ['.'] ∨ raw = ['.', '.'] then
      invalid "pattern must not contain '.' or '..' segments; no key can contain them"
    else
      let expansions ← expandBraces raw
      if alternatives.length * expansions.length > maxAlternatives then tooManyAlternatives
      else
        let segments ← expansions.mapM parseSegment
        parseSegments
          (alternatives.flatMap fun head => segments.map fun segment => head ++ [segment]) raws

/-- The alternatives of a pattern's source. -/
def parse (input : Text) : Except Error (List (List Segment)) :=
  if input.isEmpty then invalid "pattern must not be empty"
  else if (Utf8.encode input).length > maxPatternBytes then
    invalid ("pattern exceeds " ++ toString maxPatternBytes ++ " bytes")
  else if input.head? = some '/' then
    invalid "pattern must not start with '/'; keys have no leading slash"
  else if input.contains '\\' then invalid "pattern must not contain backslash"
  else if input.contains '\x00' then invalid "pattern must not contain NUL byte"
  else
    let rawSegments := input.splitOn '/'
    if rawSegments.length > maxSegments then
      invalid ("pattern exceeds " ++ toString maxSegments ++ " segments")
    else parseSegments [[]] rawSegments

end Pattern

/-! ## Patterns -/

/-- A validated glob pattern: its source, and the brace-free alternatives it parses to. -/
structure KeyPattern where
  source : Text
  alternatives : List (List Pattern.Segment)
  parsed : Pattern.parse source = .ok alternatives

namespace KeyPattern

def parse (input : Text) : Except Error KeyPattern :=
  match h : Pattern.parse input with
  | .ok alternatives => .ok ⟨input, alternatives, h⟩
  | .error e => .error e

/-- A pattern is determined by its source. -/
@[ext] theorem ext {p q : KeyPattern} (h : p.source = q.source) : p = q := by
  obtain ⟨source, alternatives, parsed⟩ := p
  obtain ⟨source', alternatives', parsed'⟩ := q
  cases h
  rw [parsed] at parsed'
  cases parsed'
  rfl

instance : DecidableEq KeyPattern := fun p q =>
  decidable_of_iff (p.source = q.source) ⟨KeyPattern.ext, fun h => h ▸ rfl⟩

/-- The pattern granting a whole knowledge base. -/
def wholeKb : KeyPattern := ⟨['*', '*'], [[.doubleStar]], by decide⟩

def isWholeKb (pattern : KeyPattern) : Bool := pattern.source = ['*', '*']

/-- Whether `key`, a knowledge-base-relative key without leading slash, matches. -/
def matchesKey (pattern : KeyPattern) (key : Text) : Bool :=
  let segments := key.splitOn '/'
  pattern.alternatives.any fun alternative => Pattern.matchSegments alternative segments

/-- The loop of `literal_prefix` over the alternatives. -/
def literalPrefixLoop : Option Text → List (List Pattern.Segment) → Option Text
  | shortest, [] => shortest
  | shortest, alternative :: rest =>
    match alternative.head? with
    | some (.literal first) =>
      match shortest with
      | none => literalPrefixLoop (some first) rest
      | some existing =>
        if existing = first then literalPrefixLoop (some existing) rest else none
    | _ => none

/-- The literal first segment that every alternative shares. -/
def literalPrefix (pattern : KeyPattern) : Option Text :=
  literalPrefixLoop none pattern.alternatives

end KeyPattern
