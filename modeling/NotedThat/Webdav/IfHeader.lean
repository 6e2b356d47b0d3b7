-- SUMMARY: The `If` request header: its parser and its evaluation.
import NotedThat.Core.Conditional

/-!
# The `If` header

One or more lists of conditions, each untagged (about the request URI) or tagged with a resource.
The header holds when one list does, and a list when all its conditions do. There are no locks,
so a state token is never current.
-/

/-- One condition inside a list. -/
inductive Condition where
  | etag (expected : Text)
  | stateToken
deriving DecidableEq

structure Term where
  not : Bool
  condition : Condition
deriving DecidableEq

structure ConditionList where
  /-- The resource tag, or `none` for the request URI. -/
  resource : Option Text
  terms : List Term
deriving DecidableEq

structure IfHeader where
  lists : List ConditionList
deriving DecidableEq

namespace IfHeader

/-! ## Evaluation -/

def Condition.holds (etag : Option Text) : Condition → Bool
  | .etag expected => etag.any fun current => !(List.isPrefixOf ['W', '/'] current) && current = expected
  | .stateToken => false

def ConditionList.holds (etag : Option Text) (list : ConditionList) : Bool :=
  list.terms.all fun term => Condition.holds etag term.condition != term.not

/-- The resource tags the header names. -/
def resources (header : IfHeader) : List Text := header.lists.filterMap (·.resource)

/-- Evaluate the header; `currentEtag` answers `none` for a resource that does not exist. -/
def evaluate (header : IfHeader) (currentEtag : Option Text → Option Text) : Bool :=
  header.lists.any fun list => ConditionList.holds (currentEtag list.resource) list

/-- Only the answers for the request URI and the tags the header names matter. -/
theorem evaluate_congr {header : IfHeader} {f g : Option Text → Option Text}
    (h : ∀ list ∈ header.lists, f list.resource = g list.resource) :
    header.evaluate f = header.evaluate g := by
  unfold evaluate
  rw [Bool.eq_iff_iff, List.any_eq_true, List.any_eq_true]
  refine ⟨fun ⟨list, hmem, hholds⟩ => ⟨list, hmem, ?_⟩,
    fun ⟨list, hmem, hholds⟩ => ⟨list, hmem, ?_⟩⟩
  · rwa [← h list hmem]
  · rwa [h list hmem]

/-! ## Parsing

Every parser takes the text still to be read and returns it after what it read. Each round of a
loop reads at least one character, so a round for every character and one more are enough. -/

def skipWhitespace (rest : Text) : Text :=
  Text.trimStartMatches (fun c => c ∈ [' ', '\t', '\r', '\n']) rest

/-- Consume `open ... close` and return what is between. -/
def delimited (opening closing : Char) (rest : Text) : Option (Text × Text) := do
  let body ← Text.stripPrefix [opening] rest
  Text.splitOnce closing body

def angleBracketed (rest : Text) : Option (Text × Text) := do
  let (inner, after) ← delimited '<' '>' rest
  if inner = [] ∨ inner.any Text.isWhitespace then none
  some (inner, after)

def condition (rest : Text) : Option (Condition × Text) :=
  match rest with
  | '<' :: _ => do
    let (_, after) ← angleBracketed rest
    some (.stateToken, after)
  | '[' :: _ => do
    let (inner, after) ← delimited '[' ']' rest
    let etag := Text.trim inner
    if etag = [] then none
    some (.etag etag, after)
  | _ => none

/-- The terms of a list up to its closing bracket. -/
def listTerms : Nat → Text → List Term → Option (List Term × Text)
  | 0, _, _ => none
  | fuel + 1, rest, terms =>
    match skipWhitespace rest with
    | ')' :: after => some (terms, after)
    | rest => do
      let not := Text.toAsciiLowercase (rest.take 3) = "not".toList
      let (condition, after) ← condition (if not then skipWhitespace (rest.drop 3) else rest)
      listTerms fuel after (terms ++ [⟨not, condition⟩])

def list (rest : Text) : Option (List Term × Text) := do
  let body ← Text.stripPrefix ['('] rest
  let (terms, after) ← listTerms (body.length + 1) body []
  if terms = [] then none
  some (terms, after)

/-- The lists of a header; `tagged` says which kind was seen. -/
def parseLists : Nat → Text → Option Text → Option Bool → List ConditionList →
    Option (List ConditionList)
  | 0, _, _, _, _ => none
  | fuel + 1, rest, resource, tagged, lists =>
    match skipWhitespace rest with
    | [] => some lists
    | '<' :: body => do
      if tagged = some false then none
      let (tag, after) ← angleBracketed ('<' :: body)
      -- a resource tag must be followed by at least one list
      if (skipWhitespace after).head? ≠ some '(' then none
      parseLists fuel after (some tag) (some true) lists
    | '(' :: body => do
      let (terms, after) ← list ('(' :: body)
      parseLists fuel after resource (some (tagged.getD false)) (lists ++ [⟨resource, terms⟩])
    | _ :: _ => none

/-- Parse an `If` header value; `none` when it is malformed. -/
def parse (value : Text) : Option IfHeader := do
  let lists ← parseLists (value.length + 1) value none none []
  if lists = [] then none
  some ⟨lists⟩

end IfHeader
