-- SUMMARY: The manifest's spelling of access rules: how a policy is read and written, and that what was read once is read back from what is written of it.
import NotedThat.Core.Access
import NotedThat.Lib.Serde

/-!
# Policies in manifests

A rule is read from an object, or from an array with its fields in order. It names either what a subject
may or what it may not, and an omitted `under` is the whole knowledge base. It is written as an object,
without an `under` that means that. What is written need not be what was read, but it reads back the same.
-/

/-- A function's own refusal, as the text that a reader reports. -/
def displayed {α : Type} (result : Except Error α) : Except String α := result.mapError Error.display

-- ---------------------------------------------------------------------------
-- Subjects, verbs and patterns
-- ---------------------------------------------------------------------------

namespace Who

/-- A subject with a name, if the source begins like one. -/
def named (source : Text) (start : String) (build : Text → Who) : Option (Except Error Who) :=
  (Text.stripPrefix start.toList source).map fun name =>
    if name.isEmpty then
      .error (.config ("`" ++ String.ofList source ++ "` names nobody; write `" ++ start ++ "<name>`"))
    else .ok (build name)

def fromStr (source : Text) : Except Error Who :=
  if source = "anyone".toList then .ok .anyone
  else if source = "signed-in".toList then .ok .signedIn
  else ((named source "group:" .group).or (named source "user:" .user)).getD
    (.error (.config ("unknown principal `" ++ String.ofList source ++
      "`; expected `anyone`, `signed-in`, `group:<name>` or `user:<name>`")))

def deserialize : Json → Except SerdeError Who := Json.readFrom fun source => displayed (fromStr source)

def serialize (who : Who) : Json := .string who.display

end Who

namespace Verb

def ofVariant (name : Text) : Except SerdeError Verb :=
  match all.find? fun verb => verb.serdeVerb.toList = name with
  | some verb => .ok verb
  | none => .error (.unknownVariant name)

/-- A variant is its name, or an object with its name and nothing in it. -/
def deserialize : Json → Except SerdeError Verb
  | .string name => ofVariant name
  | .object [(name, content)] => do
    let verb ← ofVariant name
    match content with
    | .null => return verb
    | _ => .error (.invalidType "unit".toList)
  | _ => .error (.invalidType "string or map".toList)

def serialize (verb : Verb) : Json := .string verb.serdeVerb.toList

/-- The set of the verbs of a list, in its order. -/
def toSet (verbs : List Verb) : List Verb := all.filter (· ∈ verbs)

def deserializeSet (json : Json) : Except SerdeError (List Verb) := (Json.readSeq deserialize json).map toSet

def serializeSet (verbs : List Verb) : Json := .array (verbs.map serialize)

end Verb

namespace KeyPattern

def deserialize : Json → Except SerdeError KeyPattern := Json.readFrom fun source => displayed (parse source)

def serialize (pattern : KeyPattern) : Json := .string pattern.source

end KeyPattern

-- ---------------------------------------------------------------------------
-- Rules
-- ---------------------------------------------------------------------------

/-- The manifest spelling of a rule. -/
structure RuleRepr where
  who : Who
  may : Option (List Verb)
  mayNot : Option (List Verb)
  under : List KeyPattern

namespace RuleRepr

/-- The fields that an object has given so far. -/
structure Fields where
  who : Option Who
  may : Option (Option (List Verb))
  mayNot : Option (Option (List Verb))
  under : Option (List KeyPattern)

/-- A field's value, if the object has not given it before. -/
def once {α : Type} (name : String) (before : Option α) (value : Except SerdeError α) : Except SerdeError (Option α) :=
  match before with
  | some _ => .error (.duplicateField name.toList)
  | none => value.map some

/-- One member of an object. Members of other names are skipped. -/
def Fields.set (fields : Fields) (name : Text) (json : Json) : Except SerdeError Fields :=
  if name = "who".toList then
    (once "who" fields.who (Who.deserialize json)).map fun who => { fields with who }
  else if name = "may".toList then
    (once "may" fields.may (Json.readOption Verb.deserializeSet json)).map fun may => { fields with may }
  else if name = "may_not".toList then
    (once "may_not" fields.mayNot (Json.readOption Verb.deserializeSet json)).map fun mayNot =>
      { fields with mayNot }
  else if name = "under".toList then
    (once "under" fields.under (Json.readSeq KeyPattern.deserialize json)).map fun under =>
      { fields with under }
  else .ok fields

def Fields.setAll (fields : Fields) : List (Text × Json) → Except SerdeError Fields
  | [] => .ok fields
  | (name, json) :: members => (fields.set name json).bind fun fields => fields.setAll members

/-- The defaults of the fields that an object has left out. -/
def ofFields (fields : Fields) : Except SerdeError RuleRepr :=
  match fields.who with
  | none => .error (.missingField "who".toList)
  | some who => .ok
    { who
      may := fields.may.getD none
      mayNot := fields.mayNot.getD none
      under := fields.under.getD AccessRule.wholeKbPatterns }

/-- The element of an array at a field's place, or the field's default. -/
def element {α : Type} (items : List Json) (i : Nat) (read : Json → Except SerdeError α) (default : α) :
    Except SerdeError α :=
  match items[i]? with
  | some json => read json
  | none => .ok default

def ofItems (items : List Json) : Except SerdeError RuleRepr := do
  match items with
  | [] => .error (.invalidLength 0)
  | who :: _ =>
    let who ← Who.deserialize who
    let may ← element items 1 (Json.readOption Verb.deserializeSet) none
    let mayNot ← element items 2 (Json.readOption Verb.deserializeSet) none
    let under ← element items 3 (Json.readSeq KeyPattern.deserialize) AccessRule.wholeKbPatterns
    if items.length ≤ 4 then return { who, may, mayNot, under } else .error .trailingElements

def deserialize : Json → Except SerdeError RuleRepr
  | .object members => (Fields.setAll ⟨none, none, none, none⟩ members).bind ofFields
  | .array items => ofItems items
  | _ => .error (.invalidType "struct RuleRepr".toList)

def isWholeKbPatterns : List KeyPattern → Bool
  | [only] => only.isWholeKb
  | _ => false

/-- A member that is left out if there is no value. -/
def optional (name : String) (value : Option (List Verb)) : List (Text × Json) :=
  match value with
  | some verbs => [(name.toList, Verb.serializeSet verbs)]
  | none => []

def serialize (repr : RuleRepr) : Json :=
  .object (("who".toList, repr.who.serialize) :: optional "may" repr.may ++ optional "may_not" repr.mayNot ++
    if isWholeKbPatterns repr.under then []
    else [("under".toList, .array (repr.under.map KeyPattern.serialize))])

end RuleRepr

namespace AccessRule

def tryFrom (repr : RuleRepr) : Except Error AccessRule :=
  match repr.may, repr.mayNot with
  | some verbs, none => .ok ⟨repr.who, .allow, verbs, repr.under⟩
  | none, some verbs => .ok ⟨repr.who, .deny, verbs, repr.under⟩
  | some _, some _ => .error (.config ("an access rule for `" ++ String.ofList repr.who.display ++
      "` names both `may` and `may_not`; split it into two rules"))
  | none, none => .error (.config ("an access rule for `" ++ String.ofList repr.who.display ++
      "` names neither `may` nor `may_not`"))

def toRepr (rule : AccessRule) : RuleRepr :=
  match rule.effect with
  | .allow => ⟨rule.who, some rule.verbs, none, rule.under⟩
  | .deny => ⟨rule.who, none, some rule.verbs, rule.under⟩

def deserialize (json : Json) : Except SerdeError AccessRule :=
  (RuleRepr.deserialize json).bind fun repr => (displayed (tryFrom repr)).mapError SerdeError.custom

def serialize (rule : AccessRule) : Json := rule.toRepr.serialize

end AccessRule

namespace AccessPolicy

def deserialize (json : Json) : Except SerdeError AccessPolicy :=
  (Json.readSeq AccessRule.deserialize json).map AccessPolicy.mk

def serialize (policy : AccessPolicy) : Json := .array (policy.rules.map AccessRule.serialize)

/-- The field `access` of a manifest: a manifest without it has the default. It is always written. -/
def ofManifest : Option Json → Except SerdeError AccessPolicy
  | none => .ok signedInFull
  | some json => deserialize json

end AccessPolicy

-- ---------------------------------------------------------------------------
-- Reading back a part of a rule
-- ---------------------------------------------------------------------------

namespace Who

variable {source : Text} {who : Who} {json : Json}

theorem named_eq_ok {start : String} {build : Text → Who} (h : named source start build = some (.ok who)) :
    ∃ name, source = start.toList ++ name ∧ who = build name := by
  obtain ⟨name, hstrip, heq⟩ := Option.map_eq_some_iff.mp h
  refine ⟨name, Text.stripPrefix_eq_some.mp hstrip, ?_⟩
  split at heq
  · cases heq
  · exact (Except.ok.inj heq).symm

/-- A subject is spelled as it was read. -/
theorem display_fromStr (h : fromStr source = .ok who) : who.display = source := by
  unfold fromStr at h
  split at h
  · next hsource =>
    obtain rfl := Except.ok.inj h
    exact hsource.symm
  · split at h
    · next hsource =>
      obtain rfl := Except.ok.inj h
      exact hsource.symm
    · cases hgroup : named source "group:" .group with
      | some result =>
        rw [hgroup, Option.some_or, Option.getD_some] at h
        rw [h] at hgroup
        obtain ⟨name, rfl, rfl⟩ := named_eq_ok hgroup
        rfl
      | none =>
        cases huser : named source "user:" .user with
        | some result =>
          rw [hgroup, huser, Option.none_or, Option.getD_some] at h
          rw [h] at huser
          obtain ⟨name, rfl, rfl⟩ := named_eq_ok huser
          rfl
        | none =>
          rw [hgroup, huser] at h
          cases h

theorem serialize_deserialize (h : deserialize json = .ok who) : who.serialize = json := by
  obtain ⟨source, rfl, hsource⟩ := Json.readFrom_eq_ok h
  rw [serialize, display_fromStr (Except.mapError_eq_ok.mp hsource)]

end Who

namespace Verb

theorem deserialize_serialize (verb : Verb) : deserialize verb.serialize = .ok verb := by
  cases verb <;> rfl

theorem toSet_toSet (verbs : List Verb) : toSet (toSet verbs) = toSet verbs := by
  refine List.filter_congr fun verb hmem => ?_
  rw [toSet, decide_eq_decide, List.mem_filter, decide_eq_true_eq]
  exact and_iff_right hmem

/-- A set that was read is in order. -/
theorem toSet_of_deserializeSet {json : Json} {verbs : List Verb} (h : deserializeSet json = .ok verbs) :
    toSet verbs = verbs := by
  obtain ⟨list, -, rfl⟩ := Except.map_eq_ok.mp h
  exact toSet_toSet list

theorem deserializeSet_serializeSet {verbs : List Verb} (h : toSet verbs = verbs) :
    deserializeSet (serializeSet verbs) = .ok verbs := by
  rw [deserializeSet, serializeSet, Json.readSeq, Json.readAll_map fun verb _ => deserialize_serialize verb]
  exact congrArg Except.ok h

end Verb

namespace KeyPattern

theorem parse_source (pattern : KeyPattern) : parse pattern.source = .ok pattern := by
  unfold parse
  split
  · exact congrArg Except.ok (KeyPattern.ext rfl)
  · next e h =>
    rw [pattern.parsed] at h
    cases h

theorem deserialize_serialize (pattern : KeyPattern) : deserialize pattern.serialize = .ok pattern := by
  rw [deserialize, serialize, Json.readFrom_string, parse_source]
  rfl

end KeyPattern

-- ---------------------------------------------------------------------------
-- What a reader gives
-- ---------------------------------------------------------------------------

/-- A rule that can be spelled: its subject can be read, and its verbs are a set in order. -/
structure AccessRule.Spellable (rule : AccessRule) : Prop where
  who : Who.deserialize rule.who.serialize = .ok rule.who
  verbs : Verb.toSet rule.verbs = rule.verbs

namespace RuleRepr

def InOrder (value : Option (List Verb)) : Prop := ∀ verbs ∈ value, Verb.toSet verbs = verbs

structure Spellable (repr : RuleRepr) : Prop where
  who : Who.deserialize repr.who.serialize = .ok repr.who
  may : InOrder repr.may
  mayNot : InOrder repr.mayNot

structure Fields.Spellable (fields : Fields) : Prop where
  who : ∀ who ∈ fields.who, Who.deserialize who.serialize = .ok who
  may : ∀ may ∈ fields.may, InOrder may
  mayNot : ∀ mayNot ∈ fields.mayNot, InOrder mayNot

theorem who_spellable {json : Json} {who : Who} (h : Who.deserialize json = .ok who) :
    Who.deserialize who.serialize = .ok who := by
  rw [Who.serialize_deserialize h, h]

theorem inOrder_of_readOption {json : Json} {value : Option (List Verb)}
    (h : Json.readOption Verb.deserializeSet json = .ok value) : InOrder value := by
  intro verbs hverbs
  obtain rfl | ⟨set, hset, rfl⟩ := Json.readOption_eq_ok h
  · cases hverbs
  · obtain rfl := Option.some.inj hverbs
    exact Verb.toSet_of_deserializeSet hset

theorem once_eq_ok {α : Type} {name : String} {before after : Option α} {value : Except SerdeError α}
    (h : once name before value = .ok after) : ∃ a, value = .ok a ∧ some a = after := by
  cases before with
  | some _ => cases h
  | none => exact Except.map_eq_ok.mp h

theorem Fields.Spellable.empty : Fields.Spellable ⟨none, none, none, none⟩ where
  who _ h := by cases h
  may _ h := by cases h
  mayNot _ h := by cases h

theorem Fields.Spellable.set {fields fields' : Fields} {name : Text} {json : Json} (h : fields.Spellable)
    (hset : fields.set name json = .ok fields') : fields'.Spellable := by
  unfold Fields.set at hset
  split at hset
  · obtain ⟨_, hwho, rfl⟩ := Except.map_eq_ok.mp hset
    obtain ⟨who, hread, rfl⟩ := once_eq_ok hwho
    refine ⟨fun who' hwho' => ?_, h.may, h.mayNot⟩
    obtain rfl := Option.some.inj hwho'
    exact who_spellable hread
  · split at hset
    · obtain ⟨_, hmay, rfl⟩ := Except.map_eq_ok.mp hset
      obtain ⟨may, hread, rfl⟩ := once_eq_ok hmay
      refine ⟨h.who, fun may' hmay' => ?_, h.mayNot⟩
      obtain rfl := Option.some.inj hmay'
      exact inOrder_of_readOption hread
    · split at hset
      · obtain ⟨_, hmayNot, rfl⟩ := Except.map_eq_ok.mp hset
        obtain ⟨mayNot, hread, rfl⟩ := once_eq_ok hmayNot
        refine ⟨h.who, h.may, fun mayNot' hmayNot' => ?_⟩
        obtain rfl := Option.some.inj hmayNot'
        exact inOrder_of_readOption hread
      · split at hset
        · obtain ⟨_, _, rfl⟩ := Except.map_eq_ok.mp hset
          exact ⟨h.who, h.may, h.mayNot⟩
        · obtain rfl := Except.ok.inj hset
          exact h

theorem Fields.Spellable.setAll {fields fields' : Fields} {members : List (Text × Json)} (h : fields.Spellable)
    (hset : fields.setAll members = .ok fields') : fields'.Spellable := by
  induction members generalizing fields with
  | nil =>
    obtain rfl := Except.ok.inj hset
    exact h
  | cons member members ih =>
    obtain ⟨name, json⟩ := member
    obtain ⟨next, hnext, hrest⟩ := Except.bind_eq_ok.mp hset
    exact ih (h.set hnext) hrest

theorem spellable_of_ofFields {fields : Fields} {repr : RuleRepr} (h : fields.Spellable)
    (hrepr : ofFields fields = .ok repr) : repr.Spellable := by
  unfold ofFields at hrepr
  split at hrepr
  · cases hrepr
  · next who hwho =>
    obtain rfl := Except.ok.inj hrepr
    refine ⟨h.who who hwho, ?_, ?_⟩
    · cases hmay : fields.may with
      | none => exact nofun
      | some may => exact h.may may hmay
    · cases hmayNot : fields.mayNot with
      | none => exact nofun
      | some mayNot => exact h.mayNot mayNot hmayNot

theorem inOrder_of_element {items : List Json} {i : Nat} {value : Option (List Verb)}
    (h : element items i (Json.readOption Verb.deserializeSet) none = .ok value) : InOrder value := by
  unfold element at h
  split at h
  · exact inOrder_of_readOption h
  · obtain rfl := Except.ok.inj h
    exact nofun

theorem spellable_of_ofItems {items : List Json} {repr : RuleRepr} (h : ofItems items = .ok repr) :
    repr.Spellable := by
  cases items with
  | nil => cases h
  | cons who items =>
    obtain ⟨who, hwho, h⟩ := Except.bind_eq_ok.mp h
    obtain ⟨may, hmay, h⟩ := Except.bind_eq_ok.mp h
    obtain ⟨mayNot, hmayNot, h⟩ := Except.bind_eq_ok.mp h
    obtain ⟨under, -, h⟩ := Except.bind_eq_ok.mp h
    split at h
    · obtain rfl := Except.ok.inj h
      exact ⟨who_spellable hwho, inOrder_of_element hmay, inOrder_of_element hmayNot⟩
    · cases h

theorem spellable_of_deserialize {json : Json} {repr : RuleRepr} (h : deserialize json = .ok repr) :
    repr.Spellable := by
  cases json with
  | object members =>
    obtain ⟨fields, hset, hrepr⟩ := Except.bind_eq_ok.mp h
    exact spellable_of_ofFields (Fields.Spellable.empty.setAll hset) hrepr
  | array items => exact spellable_of_ofItems h
  | _ => cases h

end RuleRepr

theorem AccessRule.spellable_of_deserialize {json : Json} {rule : AccessRule} (h : deserialize json = .ok rule) :
    rule.Spellable := by
  obtain ⟨repr, hrepr, hrule⟩ := Except.bind_eq_ok.mp h
  have hspellable := RuleRepr.spellable_of_deserialize hrepr
  have hrule := Except.mapError_eq_ok.mp (Except.mapError_eq_ok.mp hrule)
  unfold tryFrom at hrule
  split at hrule
  · next verbs hmay _ =>
    obtain rfl := Except.ok.inj hrule
    exact ⟨hspellable.who, hspellable.may verbs hmay⟩
  · next verbs _ hmayNot =>
    obtain rfl := Except.ok.inj hrule
    exact ⟨hspellable.who, hspellable.mayNot verbs hmayNot⟩
  · cases hrule
  · cases hrule

-- ---------------------------------------------------------------------------
-- Reading back what was written
-- ---------------------------------------------------------------------------

namespace RuleRepr

variable {fields : Fields} {json : Json}

theorem set_who {who : Who} (hnone : fields.who = none) (hread : Who.deserialize json = .ok who) :
    fields.set "who".toList json = .ok { fields with who := some who } := by
  rw [Fields.set, if_pos rfl, hnone, hread]
  rfl

theorem set_may {verbs : List Verb} (hnone : fields.may = none) (horder : Verb.toSet verbs = verbs) :
    fields.set "may".toList (Verb.serializeSet verbs) = .ok { fields with may := some (some verbs) } := by
  have hread : Json.readOption Verb.deserializeSet (Verb.serializeSet verbs) = .ok (some verbs) :=
    congrArg (Except.map some) (Verb.deserializeSet_serializeSet horder)
  rw [Fields.set, if_neg (by decide), if_pos rfl, hnone, hread]
  rfl

theorem set_mayNot {verbs : List Verb} (hnone : fields.mayNot = none) (horder : Verb.toSet verbs = verbs) :
    fields.set "may_not".toList (Verb.serializeSet verbs) = .ok { fields with mayNot := some (some verbs) } := by
  have hread : Json.readOption Verb.deserializeSet (Verb.serializeSet verbs) = .ok (some verbs) :=
    congrArg (Except.map some) (Verb.deserializeSet_serializeSet horder)
  rw [Fields.set, if_neg (by decide), if_neg (by decide), if_pos rfl, hnone, hread]
  rfl

theorem set_under (patterns : List KeyPattern) (hnone : fields.under = none) :
    fields.set "under".toList (.array (patterns.map KeyPattern.serialize)) =
      .ok { fields with under := some patterns } := by
  have hread : Json.readSeq KeyPattern.deserialize (.array (patterns.map KeyPattern.serialize)) = .ok patterns :=
    Json.readAll_map fun pattern _ => KeyPattern.deserialize_serialize pattern
  rw [Fields.set, if_neg (by decide), if_neg (by decide), if_neg (by decide), if_pos rfl, hnone, hread]
  rfl

/-- Patterns that are left out are the ones that a rule without them has. -/
theorem wholeKbPatterns_of_isWholeKbPatterns {patterns : List KeyPattern} (h : isWholeKbPatterns patterns = true) :
    patterns = AccessRule.wholeKbPatterns := by
  unfold isWholeKbPatterns at h
  split at h
  · next only =>
    have hsource : only = KeyPattern.wholeKb := KeyPattern.ext (of_decide_eq_true h)
    rw [hsource, AccessRule.wholeKbPatterns]
  · cases h

theorem setAll_append (fields : Fields) (members members' : List (Text × Json)) :
    fields.setAll (members ++ members') = (fields.setAll members).bind fun fields => fields.setAll members' := by
  induction members generalizing fields with
  | nil => rfl
  | cons member members ih =>
    obtain ⟨name, json⟩ := member
    rw [List.cons_append, Fields.setAll, Fields.setAll]
    cases fields.set name json with
    | error e => rfl
    | ok next => exact ih next

theorem setAll_may {value : Option (List Verb)} (hnone : fields.may = none) (horder : InOrder value) :
    fields.setAll (optional "may" value) = .ok { fields with may := value.map some } := by
  cases value with
  | none =>
    rw [Option.map_none, ← hnone]
    rfl
  | some verbs =>
    rw [optional, Fields.setAll, set_may hnone (horder verbs rfl)]
    rfl

theorem setAll_mayNot {value : Option (List Verb)} (hnone : fields.mayNot = none) (horder : InOrder value) :
    fields.setAll (optional "may_not" value) = .ok { fields with mayNot := value.map some } := by
  cases value with
  | none =>
    rw [Option.map_none, ← hnone]
    rfl
  | some verbs =>
    rw [optional, Fields.setAll, set_mayNot hnone (horder verbs rfl)]
    rfl

theorem setAll_under (patterns : List KeyPattern) (hnone : fields.under = none) :
    ∃ under, fields.setAll (if isWholeKbPatterns patterns then []
      else [("under".toList, .array (patterns.map KeyPattern.serialize))]) = .ok { fields with under } ∧
        under.getD AccessRule.wholeKbPatterns = patterns := by
  split
  · next h =>
    refine ⟨none, ?_, (wholeKbPatterns_of_isWholeKbPatterns h).symm⟩
    rw [← hnone]
    rfl
  · refine ⟨some patterns, ?_, rfl⟩
    rw [Fields.setAll, set_under patterns hnone]
    rfl

/-- A rule's spelling reads back as it was, whichever of its fields are left out. -/
theorem deserialize_serialize {repr : RuleRepr} (h : repr.Spellable) : deserialize repr.serialize = .ok repr := by
  obtain ⟨who, may, mayNot, under⟩ := repr
  obtain ⟨under', hunder, hdefault⟩ := @setAll_under ⟨some who, may.map some, mayNot.map some, none⟩ under rfl
  rw [serialize, deserialize, List.cons_append, List.cons_append, List.append_assoc, Fields.setAll,
    set_who rfl h.who]
  dsimp only [Except.bind]
  rw [setAll_append, setAll_may rfl h.may]
  dsimp only [Except.bind]
  rw [setAll_append, setAll_mayNot rfl h.mayNot]
  dsimp only [Except.bind]
  rw [hunder]
  dsimp only [ofFields]
  rw [hdefault]
  cases may <;> cases mayNot <;> rfl

end RuleRepr

theorem AccessRule.deserialize_serialize {rule : AccessRule} (h : rule.Spellable) :
    deserialize rule.serialize = .ok rule := by
  obtain ⟨who, effect, verbs, under⟩ := rule
  have hnone : RuleRepr.InOrder none := fun _ hverbs => nomatch hverbs
  have horder : RuleRepr.InOrder (some verbs) := fun verbs' hverbs' => Option.some.inj hverbs' ▸ h.verbs
  rw [deserialize, serialize]
  cases effect with
  | allow =>
    rw [toRepr, RuleRepr.deserialize_serialize ⟨h.who, horder, hnone⟩]
    rfl
  | deny =>
    rw [toRepr, RuleRepr.deserialize_serialize ⟨h.who, hnone, horder⟩]
    rfl

theorem AccessPolicy.deserialize_serialize {policy : AccessPolicy} (h : ∀ rule ∈ policy.rules, rule.Spellable) :
    deserialize policy.serialize = .ok policy := by
  rw [deserialize, serialize, Json.readSeq, Json.readAll_map fun rule hrule =>
    AccessRule.deserialize_serialize (h rule hrule)]
  rfl

/-- The policy of a manifest can be spelled, also the one that a manifest without a policy has. -/
theorem AccessPolicy.spellable_of_ofManifest {field : Option Json} {policy : AccessPolicy}
    (h : ofManifest field = .ok policy) : ∀ rule ∈ policy.rules, rule.Spellable := by
  cases field with
  | none =>
    obtain rfl := Except.ok.inj h
    intro rule hrule
    obtain rfl := List.mem_singleton.mp hrule
    exact ⟨by rfl, by decide⟩
  | some json =>
    obtain ⟨rules, hrules, rfl⟩ := Except.map_eq_ok.mp h
    intro rule hrule
    obtain ⟨item, hitem⟩ := Json.mem_of_readSeq hrules rule hrule
    exact AccessRule.spellable_of_deserialize hitem

/-- Every policy that can be spelled reads back from its spelling. One that was read from a manifest
can, so it is the one that is read from what is written of it, and it decides the same. -/
theorem AccessPolicy.rewrite_exact :
    (∀ policy : AccessPolicy, (∀ rule ∈ policy.rules, rule.Spellable) →
      ofManifest (some policy.serialize) = .ok policy) ∧
    ∀ (field : Option Json) (policy : AccessPolicy), ofManifest field = .ok policy →
      (∀ rule ∈ policy.rules, rule.Spellable) ∧ ofManifest (some policy.serialize) = .ok policy ∧
      ∀ policy', ofManifest (some policy.serialize) = .ok policy' →
        policy' = policy ∧
          ∀ principal verb key, policy'.allows principal verb key = policy.allows principal verb key := by
  refine ⟨fun policy hspell => deserialize_serialize hspell, fun field policy h => ?_⟩
  have hspell := spellable_of_ofManifest h
  have hread := deserialize_serialize hspell
  refine ⟨hspell, hread, fun policy' h' => ?_⟩
  obtain rfl := Except.ok.inj (h'.symm.trans hread)
  exact ⟨rfl, fun principal verb key => rfl⟩

/-- A rule with its fields in order, and one that repeats a verb, spells another as an object and is
scoped. -/
def AccessPolicy.mixedField : Json :=
  .array [.array [.string "user:eve".toList, .null, .array [.string "read".toList]],
    .object [("may".toList, .array [.string "write".toList, .object [("list".toList, .null)],
        .string "write".toList]),
      ("note".toList, .bool true), ("who".toList, .string "group:ops".toList),
      ("under".toList, .array [.string "docs/**".toList])]]

/-- What is read of it: every verb once, in the order of the verbs. -/
def AccessPolicy.mixedPolicy : AccessPolicy :=
  ⟨[⟨.user "eve".toList, .deny, [.read], AccessRule.wholeKbPatterns⟩,
    ⟨.group "ops".toList, .allow, [.list, .write],
      [⟨"docs/**".toList, [[.literal "docs".toList, .doubleStar]], by decide⟩]⟩]⟩

theorem AccessPolicy.rewrite_exact_mixed :
    ofManifest (some mixedField) = .ok mixedPolicy ∧
      ofManifest (some mixedPolicy.serialize) = .ok mixedPolicy := by
  have hread : ofManifest (some mixedField) = .ok mixedPolicy := by decide
  exact ⟨hread, (AccessPolicy.rewrite_exact.2 _ _ hread).2.1⟩
