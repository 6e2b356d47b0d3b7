-- SUMMARY: MCP sessions over HTTP: who opened each, and the requests that open, drive and close them one await at a time.
import NotedThat.Core.Access
import NotedThat.Lib.Assoc
import Mathlib.Logic.Function.Basic

/-!
# Sessions

`bind_session` stands between the callers and rmcp. It records who opened a session when rmcp's answer
to `initialize` comes back, and hands rmcp an id it cannot know in place of one that belongs to somebody
else. A step is what a request does between two awaits, what rmcp does with its table, or a request that
is dropped.
-/

namespace Mcp

namespace Sessions

-- ---------------------------------------------------------------------------
-- Owners
-- ---------------------------------------------------------------------------

/-- The part of a principal a session is keyed on. -/
inductive SessionOwner where
  | anonymous
  | serviceToken
  | subject (name : Text)
deriving DecidableEq

def SessionOwner.from : Principal → SessionOwner
  | .anyone => .anonymous
  | .signedIn .serviceToken => .serviceToken
  | .signedIn (.user user) => .subject user.subject

/-- What is put onto a refused request. rmcp's ids are version 4 UUIDs, and this one is not. -/
def noSuchSession : Text := "00000000-0000-0000-0000-000000000000".toList

structure McpSessions where
  /-- rmcp's session table. -/
  sessions : List Text
  owners : Assoc Text SessionOwner
  maxSessions : Nat

namespace McpSessions

def atCapacity (m : McpSessions) : Bool := m.maxSessions ≤ m.sessions.length

def admits (m : McpSessions) (id : Text) (presented : Option SessionOwner) : Bool :=
  match m.owners.get? id with
  | none => true
  | some owner => presented = some owner

/-- The records of the sessions that rmcp still holds. -/
def sweep (m : McpSessions) : Assoc Text SessionOwner := m.owners.retain fun e => m.sessions.contains e.1

def record (m : McpSessions) (id : Text) (owner : SessionOwner) : McpSessions :=
  { m with owners := m.sweep.insert id owner }

def forget (m : McpSessions) (id : Text) : McpSessions := { m with owners := m.owners.erase id }

/-- rmcp drops a session. -/
def close (m : McpSessions) (id : Text) : McpSessions :=
  { m with sessions := m.sessions.filter fun id' => id' ≠ id }

end McpSessions

-- ---------------------------------------------------------------------------
-- Requests
-- ---------------------------------------------------------------------------

/-- `HeaderValue::to_str`: a header's bytes, if they are visible ASCII, blanks or tabs. -/
def headerToStr (value : Bytes) : Option Text :=
  if value.all fun b => (32 ≤ b && b < 127) || b = 9 then some (value.map fun b => Char.ofNat b.toNat)
  else none

inductive Method where
  | get
  | post
  | delete
  | other (name : Text)
deriving DecidableEq

/-- A request. `Rest` is what else rmcp reads of it. -/
structure Request (Rest : Type) where
  principal : Option Principal
  method : Method
  sessionHeader : Option Bytes
  rest : Rest

namespace Request

variable {Rest : Type}

def owner (r : Request Rest) : Option SessionOwner := r.principal.map .from

def presented (r : Request Rest) : Option Text := r.sessionHeader.bind headerToStr

end Request

/-- What is relied on of rmcp's answers. -/
structure Rmcp (Rest Resp : Type) where
  isSuccess : Resp → Bool
  /-- The session header of an answer. -/
  sessionHeader : Resp → Option Bytes
  /-- Its answer to a request with the id of a session that it does not hold, whichever id it is. -/
  unknownSession : Method → Rest → Resp

inductive Answer (Resp : Type) where
  | capacityRefusal (maxSessions : Nat)
  | rmcp (resp : Resp)
deriving DecidableEq

/-- Where a request is. While rmcp has it, `admitted` says whether it has the id it came with. -/
inductive Phase (Resp : Type) where
  | arrived
  | sent (id : Text) (admitted : Bool)
  | found (id : Text) (admitted : Bool)
  | missed (id : Text) (admitted : Bool)
  | opening (created : Option Text)
  | passed
  | opened (id : Text) (resp : Resp)
  | recording (id : Text) (resp : Resp)
  | closing (id : Text) (resp : Resp)
  | answered (answer : Answer Resp)
  | dropped
deriving DecidableEq

namespace Phase

variable {Resp : Type}

/-- The session id that rmcp reads on a request it has. -/
def carried : Phase Resp → Option Text
  | .sent id _ | .found id _ | .missed id _ => some id
  | _ => none

def isOver : Phase Resp → Bool
  | .answered _ | .dropped => true
  | _ => false

end Phase

structure Task (Rest Resp : Type) where
  request : Request Rest
  phase : Phase Resp

-- ---------------------------------------------------------------------------
-- Steps
-- ---------------------------------------------------------------------------

/-- Which request opened a session, and whose it was. -/
structure Opener where
  task : Nat
  owner : Option SessionOwner

/-- The sessions and the requests on them. The last three fields are only there to state properties:
the openers of all sessions there have been, the ids that have been handed to a client, and those that a
request has named. -/
structure State (Rest Resp : Type) extends McpSessions where
  /-- The request that has `owners` locked. -/
  writer : Option Nat
  tasks : List (Task Rest Resp)
  openers : Text → Option Opener
  returned : List Text
  named : List Text

/-- What can happen next. A request is given by its number. -/
inductive Action (Rest Resp : Type) where
  | arrive (request : Request Rest)
  | enter (task : Nat)
  | lookup (task : Nat)
  | create (task : Nat) (id : Text)
  | close (task : Nat)
  | respond (task : Nat) (resp : Resp)
  | lock (task : Nat)
  | record (task : Nat)
  | forget (task : Nat)
  | drop (task : Nat)
  | endSession (id : Text)

/-- The request a step is taken by, or by rmcp for it. -/
def Action.task {Rest Resp : Type} : Action Rest Resp → Option Nat
  | .enter i | .lookup i | .create i _ | .close i | .respond i _ | .lock i | .record i | .forget i
  | .drop i => some i
  | .arrive _ | .endSession _ => none

namespace State

variable {Rest Resp : Type}

def new (maxSessions : Nat) : State Rest Resp where
  sessions := []
  owners := .empty
  maxSessions := maxSessions
  writer := none
  tasks := []
  openers := fun _ => none
  returned := []
  named := []

/-- Whose session it is: who sent the request that opened it. -/
def openedBy (s : State Rest Resp) (id : Text) : Option SessionOwner := (s.openers id).bind Opener.owner

def setPhase (s : State Rest Resp) (i : Nat) (phase : Phase Resp) : State Rest Resp :=
  { s with tasks := s.tasks.modify i fun t => { t with phase } }

/-- A client can name an id that was handed to it, or make one up. -/
def Known (s : State Rest Resp) (id : Text) : Prop := s.openers id = none ∨ id ∈ s.returned

/-- rmcp's ids are new, cannot be guessed, and are not the one that stands for none. -/
def Fresh (s : State Rest Resp) (id : Text) : Prop :=
  s.openers id = none ∧ id ∉ s.named ∧ id ≠ noSuchSession

instance (s : State Rest Resp) (id : Text) : Decidable (s.Known id) :=
  match h : s.openers id with
  | none => .isTrue (Or.inl h)
  | some _ => decidable_of_iff (id ∈ s.returned) ⟨Or.inr, fun hknown => hknown.resolve_left (by simp [h])⟩

instance (s : State Rest Resp) (id : Text) : Decidable (s.Fresh id) :=
  inferInstanceAs (Decidable (_ ∧ _ ∧ _))

variable [DecidableEq Resp]

/-- The first part of `bind_session`, up to where it hands the request to rmcp. -/
def enter (s : State Rest Resp) (i : Nat) (r : Request Rest) : Option (State Rest Resp) :=
  match r.presented with
  | some id =>
    if s.writer = none then
      if s.admits id r.owner then some (s.setPhase i (.sent id true))
      else some (s.setPhase i (.sent noSuchSession false))
    else none
  | none =>
    if r.method = .post then
      if s.atCapacity then some (s.setPhase i (.answered (.capacityRefusal s.maxSessions)))
      else some (s.setPhase i (.opening none))
    else some (s.setPhase i .passed)

/-- `bind_session` has rmcp's answer to a request with a session id. -/
def settle (rmcp : Rmcp Rest Resp) (s : State Rest Resp) (i : Nat) (r : Request Rest) (id : Text)
    (admitted : Bool) (resp : Resp) : State Rest Resp :=
  if admitted ∧ r.method = .delete ∧ rmcp.isSuccess resp then s.setPhase i (.closing id resp)
  else s.setPhase i (.answered (.rmcp resp))

/-- rmcp answers, and `bind_session` goes on to its next await. rmcp has dropped a session before it
answers that it has, and sets a session header only for the session it has just created. -/
def respond (rmcp : Rmcp Rest Resp) (s : State Rest Resp) (i : Nat) (t : Task Rest Resp) (resp : Resp) :
    Option (State Rest Resp) :=
  match t.phase with
  | .found id admitted =>
    if t.request.method = .delete → rmcp.isSuccess resp → id ∉ s.sessions then
      some (s.settle rmcp i t.request id admitted resp)
    else none
  | .missed id admitted =>
    if resp = rmcp.unknownSession t.request.method t.request.rest then
      some (s.settle rmcp i t.request id admitted resp)
    else none
  | .opening created =>
    match (rmcp.sessionHeader resp).bind headerToStr with
    | none => some (s.setPhase i (.answered (.rmcp resp)))
    | some id =>
      if created = some id then
        match t.request.owner with
        | some _ => some (s.setPhase i (.opened id resp))
        -- the session stays without an owner, and its id goes out
        | none =>
          some { s.setPhase i (.answered (.rmcp resp)) with returned := id :: s.returned }
      else none
  | .passed => some (s.setPhase i (.answered (.rmcp resp)))
  | _ => none

/-- What each kind of step does. A step that cannot be taken has no result. -/
def step (rmcp : Rmcp Rest Resp) (s : State Rest Resp) : Action Rest Resp → Option (State Rest Resp)
  | .arrive request =>
    if ∀ id ∈ request.presented, s.Known id then
      some { s with
        tasks := s.tasks ++ [⟨request, .arrived⟩]
        named := request.presented.toList ++ s.named }
    else none
  | .enter i => do
    let t ← s.tasks[i]?
    if t.phase = .arrived then s.enter i t.request else none
  | .lookup i => do
    let t ← s.tasks[i]?
    match t.phase with
    | .sent id admitted =>
      if id ∈ s.sessions then some (s.setPhase i (.found id admitted))
      else some (s.setPhase i (.missed id admitted))
    | _ => none
  | .create i id => do
    let t ← s.tasks[i]?
    if t.phase = .opening none ∧ s.Fresh id then
      some { s.setPhase i (.opening (some id)) with
        sessions := id :: s.sessions
        openers := Function.update s.openers id (some ⟨i, t.request.owner⟩) }
    else none
  | .close i => do
    let t ← s.tasks[i]?
    match t.phase with
    | .found id _ =>
      if t.request.method = .delete then some { s with toMcpSessions := s.toMcpSessions.close id } else none
    | _ => none
  | .respond i resp => do
    let t ← s.tasks[i]?
    s.respond rmcp i t resp
  | .lock i => do
    let t ← s.tasks[i]?
    match t.phase with
    | .opened id resp =>
      if s.writer = none then some { s.setPhase i (.recording id resp) with writer := some i } else none
    | _ => none
  | .record i => do
    let t ← s.tasks[i]?
    match t.phase, t.request.owner with
    | .recording id resp, some owner =>
      some { s.setPhase i (.answered (.rmcp resp)) with
        toMcpSessions := s.toMcpSessions.record id owner
        writer := none
        returned := id :: s.returned }
    | _, _ => none
  | .forget i => do
    let t ← s.tasks[i]?
    match t.phase with
    | .closing id resp =>
      if s.writer = none then
        some { s.setPhase i (.answered (.rmcp resp)) with toMcpSessions := s.toMcpSessions.forget id }
      else none
    | _ => none
  | .drop i => do
    let t ← s.tasks[i]?
    if t.phase.isOver then none
    else some { s.setPhase i .dropped with writer := if s.writer = some i then none else s.writer }
  | .endSession id => some { s with toMcpSessions := s.toMcpSessions.close id }

/-- The steps of a list, one after the other. -/
def run (rmcp : Rmcp Rest Resp) (s : State Rest Resp) : List (Action Rest Resp) → Option (State Rest Resp)
  | [] => some s
  | a :: rest => do
    let s ← s.step rmcp a
    s.run rmcp rest

end State

/-- Every request has a principal, as it has behind the layer that authenticates. -/
def Action.Resolved {Rest Resp : Type} : Action Rest Resp → Prop
  | .arrive request => request.principal ≠ none
  | _ => True

/-- The states that requests with a principal can lead to. -/
inductive Reaches {Rest Resp : Type} [DecidableEq Resp] (rmcp : Rmcp Rest Resp) (s : State Rest Resp) :
    State Rest Resp → Prop where
  | refl : Reaches rmcp s s
  | step {s' s'' : State Rest Resp} {a : Action Rest Resp} :
      Reaches rmcp s s' → a.Resolved → s'.step rmcp a = some s'' → Reaches rmcp s s''

end Sessions

end Mcp
