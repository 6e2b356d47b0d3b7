-- SUMMARY: Principals, access rules and the policy evaluator every surface decides with.
import NotedThat.Core.Pattern

/-!
# Access rules

A knowledge base's manifest declares rules, each granting or revoking verbs for a subject under
some patterns. Every authorization decision ends at `KeyFilter.allows`.
-/

/-! ## Principals -/

/-- The identity-provider view of a caller. Its expiry is left out: it ends an event stream and
no decision of the evaluator reads it. -/
structure UserIdentity where
  subject : Text
  groups : List Text
deriving DecidableEq

/-- What a verified credential says about its holder. -/
inductive Identity where
  | serviceToken
  | user (user : UserIdentity)
deriving DecidableEq

/-- The caller a request was authenticated as. -/
inductive Principal where
  | anyone
  | signedIn (identity : Identity)
deriving DecidableEq

/-- How far a principal reaches outside the rules. -/
inductive Reach where
  | anonymous
  | user
  | serviceToken
deriving DecidableEq

namespace Principal

def isAnonymous : Principal → Bool
  | .anyone => true
  | .signedIn _ => false

def isSignedIn : Principal → Bool
  | .anyone => false
  | .signedIn _ => true

def isServiceToken : Principal → Bool
  | .signedIn .serviceToken => true
  | _ => false

def reach : Principal → Reach
  | .anyone => .anonymous
  | .signedIn (.user _) => .user
  | .signedIn .serviceToken => .serviceToken

end Principal

/-! ## Rules -/

/-- Who a rule applies to. -/
inductive Who where
  | anyone
  | signedIn
  | group (name : Text)
  | user (name : Text)
deriving DecidableEq

namespace Who

def matchesPrincipal : Who → Principal → Bool
  | .anyone, .anyone => true
  | .signedIn, .signedIn _ => true
  | .group name, .signedIn (.user caller) => caller.groups.contains name
  | .user name, .signedIn (.user caller) => caller.subject = name
  | _, _ => false

/-- The manifest spelling of a subject. -/
def display : Who → Text
  | .anyone => "anyone".toList
  | .signedIn => "signed-in".toList
  | .group name => "group:".toList ++ name
  | .user name => "user:".toList ++ name

end Who

/-- What a rule grants. -/
inductive Verb where
  | list
  | read
  | write
  | delete
  | search
deriving DecidableEq, Repr

namespace Verb

def all : List Verb := [.list, .read, .write, .delete, .search]

def isMutating : Verb → Bool
  | .write | .delete => true
  | _ => false

/-- The manifest spelling of a verb. -/
def serdeVerb : Verb → String
  | .list => "list"
  | .read => "read"
  | .write => "write"
  | .delete => "delete"
  | .search => "search"

end Verb

/-- Whether a rule grants its verbs or takes them away. -/
inductive Effect where
  | allow
  | deny
deriving DecidableEq

/-- One rule; the verbs are a set, kept in the order of `Verb.all`. -/
structure AccessRule where
  who : Who
  effect : Effect
  verbs : List Verb
  under : List KeyPattern
deriving DecidableEq

namespace AccessRule

def wholeKbPatterns : List KeyPattern := [KeyPattern.wholeKb]

/-- A rule granting `verbs` to `who` across the whole knowledge base. -/
def new (who : Who) (verbs : List Verb) : AccessRule := ⟨who, .allow, verbs, wholeKbPatterns⟩

/-- Whether this rule applies to `principal` and speaks about `verb`. -/
def covers (rule : AccessRule) (principal : Principal) (verb : Verb) : Bool :=
  rule.who.matchesPrincipal principal && rule.verbs.contains verb

def isWholeKb (rule : AccessRule) : Bool := rule.under.any KeyPattern.isWholeKb

/-- What `AccessPolicy::validate` checks of one rule. -/
def validate (rule : AccessRule) : Except Error Unit :=
  if rule.verbs.isEmpty then
    .error (.config ("an access rule for `" ++ String.ofList rule.who.display ++
      "` names no verbs; remove it or name a verb"))
  else if rule.under.isEmpty then
    .error (.config ("an access rule has an empty `under`; omit the field to grant the whole " ++
      "knowledge base, or name a pattern"))
  else
    match if rule.who = .anyone then rule.verbs.find? Verb.isMutating else none with
    | some verb =>
      let spelling := match rule.effect with
        | .allow => "grants"
        | .deny => "revokes"
      .error (.config ("an access rule " ++ spelling ++ " `" ++ verb.serdeVerb ++
        "` for `anyone`; anonymous writes are never honoured, so this rule cannot mean what it " ++
        "says"))
    | none =>
      match rule.under.find? fun pattern => pattern.literalPrefix = some ".notedthat".toList with
      | some pattern =>
        .error (.config ("an access rule scopes `" ++ String.ofList rule.who.display ++ "` to `" ++
          String.ofList pattern.source ++ "`; the `.notedthat` namespace is not addressable by " ++
          "a rule — the service token always reaches it and nobody else ever does"))
      | none => .ok ()

end AccessRule

/-! ## The evaluator -/

/-- A compiled `(principal, verb)` predicate over object keys. -/
structure KeyFilter where
  reach : Reach
  allow : List KeyPattern
  deny : List KeyPattern
deriving DecidableEq

namespace KeyFilter

def allows (filter : KeyFilter) (key : Text) : Bool :=
  if isInternalPath key then filter.reach = .serviceToken
  else
    filter.allow.any (·.matchesKey key) && !filter.deny.any (·.matchesKey key)

/-- Whether the grant spans the whole knowledge base: an unscoped allow and no deny. -/
def coversWholeKb (filter : KeyFilter) : Bool :=
  filter.deny.isEmpty && filter.allow.any KeyPattern.isWholeKb

/-- Whether every key is allowed. -/
def isAllowAll (filter : KeyFilter) : Bool :=
  filter.reach = .serviceToken && filter.deny.isEmpty && filter.allow.any KeyPattern.isWholeKb

/-- Whether no key can ever be allowed. -/
def isDenyAll (filter : KeyFilter) : Bool :=
  filter.reach ≠ .serviceToken &&
    (filter.allow.isEmpty || filter.deny.any KeyPattern.isWholeKb)

/-- The loop of `literal_prefix_hint` over the allow patterns. -/
def literalPrefixHintLoop : Option Text → List KeyPattern → Option Text
  | shared, [] => shared
  | shared, pattern :: rest =>
    match pattern.literalPrefix with
    | none => none
    | some first =>
      match shared with
      | none => literalPrefixHintLoop (some first) rest
      | some existing =>
        if existing = first then literalPrefixHintLoop (some existing) rest else none

/-- The key prefix every grant of the filter shares, if there is one. -/
def literalPrefixHint (filter : KeyFilter) : Option Text :=
  literalPrefixHintLoop none filter.allow

end KeyFilter

/-- The access rules of one knowledge base, in manifest order. -/
structure AccessPolicy where
  rules : List AccessRule
deriving DecidableEq

namespace AccessPolicy

/-- The policy granting nothing to anyone. -/
def empty : AccessPolicy := ⟨[]⟩

/-- The default when a manifest declares no `access` field. -/
def signedInFull : AccessPolicy := ⟨[AccessRule.new .signedIn Verb.all]⟩

/-- The first refusal among the rules. -/
def validateRules : List AccessRule → Except Error Unit
  | [] => .ok ()
  | rule :: rules => do
    rule.validate
    validateRules rules

def validate (policy : AccessPolicy) : Except Error Unit := validateRules policy.rules

/-- The patterns of the rules with a given effect that cover a principal and a verb. -/
def patterns (policy : AccessPolicy) (effect : Effect) (principal : Principal) (verb : Verb) :
    List KeyPattern :=
  (policy.rules.filter fun rule => rule.covers principal verb && rule.effect = effect).flatMap
    AccessRule.under

/-- A per-key predicate, compiled once per request. -/
def keyFilter (policy : AccessPolicy) (principal : Principal) (verb : Verb) : KeyFilter :=
  if principal.reach = .anonymous ∧ verb.isMutating then ⟨principal.reach, [], []⟩
  else
    ⟨principal.reach, policy.patterns .allow principal verb, policy.patterns .deny principal verb⟩

/-- Whether `principal` may apply `verb` to `key`. -/
def allows (policy : AccessPolicy) (principal : Principal) (verb : Verb) (key : Text) : Bool :=
  (policy.keyFilter principal verb).allows key

/-- The loop of `grants_any` over the rules that cover the principal and the verb. -/
def grantsAnyLoop : Bool → List AccessRule → Bool
  | granted, [] => granted
  | granted, rule :: rules =>
    match rule.effect with
    | .allow => grantsAnyLoop true rules
    | .deny => if rule.isWholeKb then false else grantsAnyLoop granted rules

/-- Whether any declared rule grants `principal` this verb on any path. -/
def grantsAny (policy : AccessPolicy) (principal : Principal) (verb : Verb) : Bool :=
  if principal.isAnonymous ∧ verb.isMutating then false
  else grantsAnyLoop false (policy.rules.filter fun rule => rule.covers principal verb)

/-- Whether the knowledge base appears in a listing for `principal`. -/
def visibleInListing (policy : AccessPolicy) (principal : Principal) : Bool :=
  principal.isServiceToken || Verb.all.any fun verb => policy.grantsAny principal verb

end AccessPolicy
