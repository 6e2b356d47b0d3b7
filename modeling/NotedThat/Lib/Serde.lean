-- SUMMARY: Reading values out of JSON trees: strings, sequences, optional values, and what goes wrong.
import NotedThat.Lib.Prog
import NotedThat.Lib.Text

/-!
# Reading JSON

A document is a tree, with the members of an object in their order. A reader of a type gives back a value
or the first thing that is wrong. A reader undoes a writer if it reads back all that is written.
-/

inductive Json where
  | null
  | bool (value : Bool)
  | number (literal : Text)
  | string (value : Text)
  | array (items : List Json)
  | object (members : List (Text × Json))

inductive SerdeError where
  | invalidType (expected : Text)
  | invalidLength (length : Nat)
  | trailingElements
  | missingField (name : Text)
  | duplicateField (name : Text)
  | unknownVariant (name : Text)
  /-- What a type's own check says. -/
  | custom (message : String)
deriving DecidableEq

namespace Json

variable {α β : Type}

def readString : Json → Except SerdeError Text
  | .string value => .ok value
  | _ => .error (.invalidType "a string".toList)

def readAll (read : Json → Except SerdeError α) : List Json → Except SerdeError (List α)
  | [] => .ok []
  | json :: items => do
    let a ← read json
    let as ← readAll read items
    return a :: as

def readSeq (read : Json → Except SerdeError α) : Json → Except SerdeError (List α)
  | .array items => readAll read items
  | _ => .error (.invalidType "a sequence".toList)

/-- `null` is no value. -/
def readOption (read : Json → Except SerdeError α) : Json → Except SerdeError (Option α)
  | .null => .ok none
  | json => (read json).map some

/-- A value made of a string, by a function that may refuse it. -/
def readFrom (parse : Text → Except String α) (json : Json) : Except SerdeError α :=
  json.readString.bind fun s => (parse s).mapError SerdeError.custom

variable {read : Json → Except SerdeError α} {write : α → Json}

theorem readAll_map {as : List α} (h : ∀ a ∈ as, read (write a) = .ok a) : readAll read (as.map write) = .ok as := by
  induction as with
  | nil => rfl
  | cons a as ih =>
    obtain ⟨ha, has⟩ := List.forall_mem_cons.mp h
    rw [List.map_cons, readAll, ha, ih has]
    rfl

theorem mem_of_readAll {items : List Json} {as : List α} (h : readAll read items = .ok as) :
    ∀ a ∈ as, ∃ json ∈ items, read json = .ok a := by
  induction items generalizing as with
  | nil =>
    obtain rfl := Except.ok.inj h
    exact nofun
  | cons json items ih =>
    obtain ⟨a, hread, h⟩ := Except.bind_eq_ok.mp h
    obtain ⟨as, hrest, h⟩ := Except.bind_eq_ok.mp h
    obtain rfl := Except.ok.inj h
    refine List.forall_mem_cons.mpr ⟨⟨json, List.mem_cons_self, hread⟩, fun b hb => ?_⟩
    obtain ⟨json', hmem, hjson'⟩ := ih hrest b hb
    exact ⟨json', List.mem_cons_of_mem _ hmem, hjson'⟩

theorem mem_of_readSeq {json : Json} {as : List α} (h : readSeq read json = .ok as) :
    ∀ a ∈ as, ∃ item, read item = .ok a := by
  cases json with
  | array items =>
    intro a ha
    obtain ⟨item, -, hread⟩ := mem_of_readAll h a ha
    exact ⟨item, hread⟩
  | _ => cases h

theorem readOption_eq_ok {json : Json} {value : Option α} (h : readOption read json = .ok value) :
    value = none ∨ ∃ a, read json = .ok a ∧ value = some a := by
  unfold readOption at h
  split at h
  · exact .inl (Except.ok.inj h).symm
  · obtain ⟨a, hread, rfl⟩ := Except.map_eq_ok.mp h
    exact .inr ⟨a, hread, rfl⟩

theorem readFrom_string (parse : Text → Except String α) (s : Text) :
    readFrom parse (.string s) = (parse s).mapError SerdeError.custom := rfl

theorem readFrom_eq_ok {parse : Text → Except String α} {json : Json} {a : α} (h : readFrom parse json = .ok a) :
    ∃ s, json = .string s ∧ parse s = .ok a := by
  cases json with
  | string s =>
    exact ⟨s, rfl, Except.mapError_eq_ok.mp h⟩
  | _ => cases h

end Json
