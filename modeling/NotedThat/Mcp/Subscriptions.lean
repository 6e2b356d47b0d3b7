-- SUMMARY: The resource subscriptions of one MCP session: its watches and stranded keys, and the calls and tasks that change them one lock at a time.
import NotedThat.Lib.Assoc
import NotedThat.Lib.Text
import Mathlib.Logic.Function.Basic

/-!
# Subscriptions

A session holds one watch for each knowledge base and credential, fed by a forwarder of its own. What a
refused watch was feeding is stranded and moved onto the credential presented last. Every step is one
acquisition of the session's lock, or what a task does between two of them.
-/

namespace Mcp

namespace Subscriptions

-- ---------------------------------------------------------------------------
-- Watches
-- ---------------------------------------------------------------------------

/-- A bearer, or nobody. -/
abbrev Credential := Option Text

/-- The knowledge base a forwarder watches, and the credential it does so as. -/
abbrev WatchKey := Text × Credential

/-- How long stranded keys wait, in nanoseconds. -/
def strandedTtl : Nat := 300 * 10 ^ 9

inductive Link where
  | connecting
  | opened
  | refused (status : Nat)
deriving DecidableEq

def Link.isRefused : Link → Bool
  | .refused _ => true
  | _ => false

/-- Where the forwarder of a watch is: reading its stream, or on its way out. -/
inductive Forward where
  | running
  | exited
  | stranded
  | cleared
  | forgotten
  | done
deriving DecidableEq

/-- The forwarder has cleared its watch. -/
def Forward.past : Forward → Bool
  | .cleared | .forgotten | .done => true
  | _ => false

/-- `KbWatch`, with where its forwarder is. -/
structure KbWatch where
  watchKey : WatchKey
  /-- Each subscribed key, with the URI it was subscribed under. -/
  keys : Assoc Text Text
  listChanged : Bool
  alive : Bool
  link : Link
  cancelled : Bool
  forward : Forward

namespace KbWatch

def new (watchKey : WatchKey) : KbWatch where
  watchKey := watchKey
  keys := .empty
  listChanged := false
  alive := true
  link := .connecting
  cancelled := false
  forward := .running

def wanted (w : KbWatch) : Bool := w.listChanged || !w.keys.isEmpty

end KbWatch

structure Stranded where
  keys : Assoc Text Text
  listChanged : Bool
  expires : Nat

namespace Stranded

def new (now : Nat) : Stranded := ⟨.empty, false, now + strandedTtl⟩

def wanted (st : Stranded) : Bool := st.listChanged || !st.keys.isEmpty

def expired (st : Stranded) (now : Nat) : Bool := st.expires ≤ now

end Stranded

-- ---------------------------------------------------------------------------
-- What the keys are held by
-- ---------------------------------------------------------------------------

/-- The part of a session that holds keys. A watch is shared between the map it is registered in and
its forwarder, so the map has its number. -/
structure Holdings where
  now : Nat
  gone : Bool
  cancelled : Bool
  /-- Whether the client can still be sent a notification. -/
  transport : Bool
  kbs : Assoc WatchKey Nat
  stranded : Assoc WatchKey Stranded
  watches : Nat → KbWatch
  /-- How many watches have been started. -/
  started : Nat

namespace Holdings

def stillDeliverable (h : Holdings) : Bool := !h.gone && !h.cancelled

def setWatch (h : Holdings) (id : Nat) (w : KbWatch) : Holdings :=
  { h with watches := Function.update h.watches id w }

/-- The registered watch that `ensure_watch` hands back rather than start another. -/
def usable (h : Holdings) (watchKey : WatchKey) : Option Nat :=
  match h.kbs.get? watchKey with
  | some id =>
    if (h.watches id).alive && !((h.watches id).cancelled || h.cancelled) then some id else none
  | none => none

def ensureWatch (h : Holdings) (watchKey : WatchKey) : Holdings × Nat :=
  match h.usable watchKey with
  | some id => (h, id)
  | none =>
    ({ h with
        kbs := h.kbs.insert watchKey h.started
        watches := Function.update h.watches h.started (.new watchKey)
        started := h.started + 1 }, h.started)

/-- Change the watch for a knowledge base and a credential. -/
def amendWatch (h : Holdings) (watchKey : WatchKey) (f : KbWatch → KbWatch) : Holdings :=
  let (h, id) := h.ensureWatch watchKey
  h.setWatch id (f (h.watches id))

/-- Put a key into the watch for it. -/
def enroll (h : Holdings) (watchKey : WatchKey) (key uri : Text) : Holdings :=
  h.amendWatch watchKey fun w => { w with keys := w.keys.insert key uri }

/-- Have the watch feed `list_changed`. -/
def watchList (h : Holdings) (watchKey : WatchKey) : Holdings :=
  h.amendWatch watchKey fun w => { w with listChanged := true }

/-- A watch of the knowledge base without the key, stopped if that was all it was for. -/
def withoutKey (w : KbWatch) (key : Text) : KbWatch :=
  let w := { w with keys := w.keys.erase key }
  if w.wanted then w else { w with cancelled := true }

def unsubscribe (h : Holdings) (kb key : Text) : Holdings :=
  let registered (id : Nat) : Bool := h.kbs.entries.any fun e => e.1.1 = kb && e.2 = id
  let watches (id : Nat) : KbWatch :=
    if registered id then withoutKey (h.watches id) key else h.watches id
  { h with
    kbs := h.kbs.retain fun e => e.1.1 ≠ kb || (watches e.2).wanted
    stranded := (h.stranded.mapVal fun watchKey st =>
      if watchKey.1 = kb then { st with keys := st.keys.erase key } else st).retain (·.2.wanted)
    watches := watches }

def pruneStranded (h : Holdings) : Holdings :=
  { h with stranded := h.stranded.retain fun e => e.2.wanted && !e.2.expired h.now }

def strand (h : Holdings) (id : Nat) : Holdings :=
  let w := h.watches id
  let h := h.setWatch id { w with forward := .stranded }
  if w.link = .refused 401 && w.wanted then
    let st := (h.stranded.get? w.watchKey).getD (.new h.now)
    { h with
      stranded := h.stranded.insert w.watchKey
        { keys := st.keys.extend w.keys
          listChanged := st.listChanged || w.listChanged
          expires := h.now + strandedTtl } }
  else h

/-- `drop_watch` up to where it takes the session's lock. -/
def clear (h : Holdings) (id : Nat) : Holdings :=
  h.setWatch id
    { h.watches id with
      alive := false
      listChanged := false
      keys := .empty
      cancelled := true
      forward := .cleared }

/-- `drop_watch` under the lock: the watch goes if it is still the one registered. -/
def forget (h : Holdings) (id : Nat) : Holdings :=
  let w := h.watches id
  { h.setWatch id { w with forward := .forgotten } with
    kbs := h.kbs.retain fun e => !(e.1 = w.watchKey && e.2 = id) }

/-- The URI a key is stranded under by another credential than this one: the last one found. -/
def strandedUri (h : Holdings) (kb : Text) (client : Credential) (key : Text) : Option Text :=
  (h.stranded.entries.filterMap fun e =>
    if e.1.1 = kb && e.1.2 ≠ client then e.2.keys.get? key else none).getLast?

/-- Take a key from everything another credential has stranded. -/
def takeStranded (h : Holdings) (kb : Text) (client : Credential) (key : Text) : Holdings :=
  { h with
    stranded := h.stranded.mapVal fun watchKey st =>
      if watchKey.1 = kb ∧ watchKey.2 ≠ client then { st with keys := st.keys.erase key } else st }

/-- The `list_changed` interests another credential has stranded are taken, all at once. -/
def takeLists (h : Holdings) (client : Credential) : Holdings :=
  { h with
    stranded := h.stranded.mapVal fun watchKey st =>
      if watchKey.2 ≠ client then { st with listChanged := false } else st }

def anySubscribed (h : Holdings) : Bool :=
  h.kbs.entries.any (fun e => !(h.watches e.2).keys.isEmpty) ||
    h.stranded.entries.any fun e => !e.2.keys.isEmpty && !e.2.expired h.now

end Holdings

-- ---------------------------------------------------------------------------
-- Calls and tasks
-- ---------------------------------------------------------------------------

/-- A `subscribe` that has been let in, and the watch it waits for once it has put its key there. -/
structure Call where
  kb : Text
  key : Text
  uri : Text
  client : Credential
  watch : Option Nat
  /-- Whether the key was unsubscribed since. -/
  withdrawn : Bool

/-- What a probe found out about a stranded key. -/
inductive Verdict where
  | move
  | drop
  | keep
deriving DecidableEq

/-- A re-home onto a credential: what it has still to probe, once it has looked, and what it found. -/
structure Rehome where
  client : Credential
  pending : Option (List (Text × Text))
  verdicts : List (Text × Text × Verdict)

inductive Keeper where
  | sleeping
  | pinging
deriving DecidableEq

/-- A notification of a key that is on its way: the URI has been taken, and is sent later. -/
structure Notice where
  kb : Text
  key : Text
  uri : Text
deriving DecidableEq

/-- A session with the calls and tasks that run on it. -/
structure State extends Holdings where
  latest : Option Credential
  peer : Bool
  rehoming : Bool
  keeperStarted : Bool
  calls : List Call
  rehomes : List Rehome
  keepers : List Keeper
  notices : List Notice

/-- A new session. No watch has been started, so it does not matter what they are. -/
def State.new : State where
  now := 0
  gone := false
  cancelled := false
  transport := true
  kbs := .empty
  stranded := .empty
  watches := fun _ => { KbWatch.new ([], none) with alive := false, forward := .done }
  started := 0
  latest := none
  peer := false
  rehoming := false
  keeperStarted := false
  calls := []
  rehomes := []
  keepers := []
  notices := []

/-- Why a `subscribe` is refused. -/
inductive Refusal where
  | forbidden
  | unauthorized
  | notFound
  | backendUnavailable
deriving DecidableEq

namespace State

def ensureKeeper (s : State) : State :=
  if s.keeperStarted then s else { s with keeperStarted := true, keepers := s.keepers ++ [.sleeping] }

/-- The keys in `kept` do not count while `tried` is still the latest credential. -/
def rehomeUnlessJustTried (s : State) (tried : Option Credential) (kept : List (Text × Text)) : State :=
  if s.rehoming then s
  else
    match s.latest with
    | none => s
    | some latest =>
      let retrying := tried = some latest
      let due := s.stranded.entries.any fun e => e.1.2 ≠ latest &&
        (e.2.listChanged || e.2.keys.keys.any fun key => !(retrying && kept.contains (e.1.1, key)))
      if due then { s with rehoming := true, rehomes := s.rehomes ++ [⟨latest, none, []⟩] } else s

def rehomeIfDue (s : State) : State := s.rehomeUnlessJustTried none []

/-- What a `subscribe` that waited for a watch answers. -/
def subscribeAnswer (s : State) (id : Nat) : Except Refusal Unit :=
  if s.stillDeliverable then
    match (s.watches id).link with
    | .refused status =>
      if status = 403 then .error .forbidden
      else if status = 401 then .error .unauthorized
      else .error .notFound
    | _ => .ok ()
  else .error .backendUnavailable

/-- One key of a re-home's last part, with the keys kept so far. -/
def settle (client : Credential) (done : State × List (Text × Text)) (found : Text × Text × Verdict) :
    State × List (Text × Text) :=
  let (s, kept) := done
  let (kb, key, verdict) := found
  if verdict = .keep then (s, kept ++ [(kb, key)])
  else
    let taken := s.takeStranded kb client key
    match s.strandedUri kb client key with
    | some uri =>
      if verdict = .move then
        ({ s with
            toHoldings := taken.enroll (kb, client) key uri
            notices := s.notices ++ [⟨kb, key, uri⟩] }, kept)
      else ({ s with toHoldings := taken }, kept)
    | none => ({ s with toHoldings := taken }, kept)

/-- The knowledge bases another credential has stranded a `list_changed` interest in. -/
def strandedLists (s : State) (client : Credential) : List Text :=
  (s.stranded.entries.filter fun e => e.1.2 ≠ client && e.2.listChanged).map (·.1.1)

/-- The last part of a re-home, under the lock. -/
def commit (s : State) (task : Rehome) : State :=
  let s := { s with rehoming := false }
  if s.stillDeliverable && s.peer then
    let (s, kept) := task.verdicts.foldl (settle task.client) (s, [])
    let lists := s.strandedLists task.client
    let moved := lists.foldl (fun h kb => h.watchList (kb, task.client)) (s.takeLists task.client)
    { s with toHoldings := moved.pruneStranded }.rehomeUnlessJustTried (some task.client) kept
  else s

/-- A keeper wakes. The clock is read twice, before and after what has expired is pruned. -/
def standDownIfIdle (s : State) (later : Nat) : Bool × State :=
  let pruned := s.pruneStranded
  let s := { s with toHoldings := { pruned with now := pruned.now + later } }
  if s.anySubscribed then (false, s) else (true, { s with keeperStarted := false })

end State

-- ---------------------------------------------------------------------------
-- Steps
-- ---------------------------------------------------------------------------

/-- What can happen next. A call, a watch, a task or a notice is given by its number. -/
inductive Action where
  | call (kb key uri : Text) (client : Credential)
  | register (call : Nat)
  | answer (call : Nat)
  | unsubscribe (kb key : Text)
  | noteCaller (client : Credential)
  | watchListChanges (kbs : List Text) (client : Credential)
  | streamOpened (watch : Nat)
  | streamRefused (watch status : Nat)
  | streamLeft (watch : Nat)
  | changed (watch : Nat) (key : Text)
  | strand (watch : Nat)
  | clear (watch : Nat)
  | forget (watch : Nat)
  | leave (watch : Nat)
  | send (notice : Nat)
  | beginRehome (task : Nat)
  | probed (task : Nat) (verdict : Verdict)
  | commit (task : Nat)
  | stopRehome (task : Nat)
  | wake (keeper later : Nat)
  | answered (keeper : Nat)
  | unanswered (keeper : Nat)
  | stopKeeper (keeper : Nat)
  | closeTransport
  | shutdown
  | tick (elapsed : Nat)

namespace State

/-- The watch of a running forwarder changes. -/
def whileRunning (s : State) (id : Nat) (f : KbWatch → Option KbWatch) : Option State := do
  let w := s.watches id
  if id < s.started ∧ w.forward = .running then
    let w' ← f w
    return { s with toHoldings := s.setWatch id w' }
  else none

/-- What each kind of step does. A step that cannot be taken has no result. -/
def step (s : State) : Action → Option State
  | .call kb key uri client =>
    if s.stillDeliverable then
      some { s with calls := s.calls ++ [⟨kb, key, uri, client, none, false⟩] }
    else none
  | .register i => do
    let call ← s.calls[i]?
    if call.watch = none then
      let watchKey := (call.kb, call.client)
      let s := { s with
        toHoldings := s.enroll watchKey call.key call.uri
        peer := true
        calls := s.calls.set i { call with watch := some (s.ensureWatch watchKey).2 } }
      return s.ensureKeeper
    else none
  | .answer i => do
    let call ← s.calls[i]?
    let _ ← call.watch
    return { s with calls := s.calls.eraseIdx i }
  | .unsubscribe kb key =>
    some { s with
      toHoldings := s.toHoldings.unsubscribe kb key
      calls := s.calls.map fun call =>
        if call.kb = kb ∧ call.key = key then { call with withdrawn := call.watch.isSome } else call }
  | .noteCaller client =>
    some { s with latest := some client, toHoldings := s.pruneStranded }.rehomeIfDue
  | .watchListChanges kbs client =>
    some { s with
      toHoldings := kbs.foldl (fun h kb => h.watchList (kb, client)) s.toHoldings
      peer := s.peer || !kbs.isEmpty }
  | .streamOpened id => s.whileRunning id fun w => some { w with link := .opened }
  | .streamRefused id status =>
    s.whileRunning id fun w =>
      if status = 401 ∨ status = 403 ∨ status = 404 then
        some { w with link := .refused status, forward := .exited }
      else none
  | .streamLeft id =>
    s.whileRunning id fun w =>
      if w.cancelled || s.cancelled || !s.transport then some { w with forward := .exited } else none
  | .changed id key => do
    let w := s.watches id
    if id < s.started ∧ w.forward = .running ∧ w.link = .opened then
      match w.keys.get? key with
      | some uri => return { s with notices := s.notices ++ [⟨w.watchKey.1, key, uri⟩] }
      | none => return s
    else none
  | .strand id =>
    let w := s.watches id
    if id < s.started ∧ w.forward = .exited ∧ w.link.isRefused then
      some { s with
        toHoldings := s.toHoldings.strand id
        notices := s.notices ++ w.keys.entries.map fun e => ⟨w.watchKey.1, e.1, e.2⟩ }
    else none
  | .clear id =>
    let w := s.watches id
    if id < s.started ∧ (w.forward = .exited ∧ ¬ w.link.isRefused ∨ w.forward = .stranded) then
      some { s with toHoldings := s.toHoldings.clear id }
    else none
  | .forget id =>
    if id < s.started ∧ (s.watches id).forward = .cleared then
      some { s with toHoldings := s.toHoldings.forget id }
    else none
  | .leave id =>
    let w := s.watches id
    if id < s.started ∧ w.forward = .forgotten then
      let s := { s with toHoldings := s.setWatch id { w with forward := .done } }
      some (if w.link = .refused 401 then s.rehomeIfDue else s)
    else none
  | .send i => if i < s.notices.length then some { s with notices := s.notices.eraseIdx i } else none
  | .beginRehome i => do
    let task ← s.rehomes[i]?
    if task.pending = none then
      let pending := s.stranded.entries.flatMap fun e =>
        if e.1.2 ≠ task.client then e.2.keys.keys.map fun key => (e.1.1, key) else []
      return { s with rehomes := s.rehomes.set i { task with pending := some pending } }
    else none
  | .probed i verdict => do
    let task ← s.rehomes[i]?
    match task.pending with
    | some ((kb, key) :: pending) =>
      return { s with
        rehomes := s.rehomes.set i
          { task with
            pending := some pending
            verdicts := task.verdicts ++ [(kb, key, verdict)] } }
    | _ => none
  | .commit i => do
    let task ← s.rehomes[i]?
    if task.pending = some [] then
      return { s with rehomes := s.rehomes.eraseIdx i }.commit task
    else none
  | .stopRehome i =>
    if s.cancelled ∧ i < s.rehomes.length then some { s with rehomes := s.rehomes.eraseIdx i } else none
  | .wake i later => do
    let keeper ← s.keepers[i]?
    if keeper = .sleeping then
      let (idle, s) := s.standDownIfIdle later
      return { s with
        keepers := if idle then s.keepers.eraseIdx i else s.keepers.set i .pinging }
    else none
  | .answered i => do
    let keeper ← s.keepers[i]?
    if keeper = .pinging then return { s with keepers := s.keepers.set i .sleeping } else none
  | .unanswered i => do
    let keeper ← s.keepers[i]?
    if keeper = .pinging then
      return { s with gone := true, cancelled := true, keepers := s.keepers.eraseIdx i }
    else none
  | .stopKeeper i =>
    if s.cancelled ∧ i < s.keepers.length then some { s with keepers := s.keepers.eraseIdx i } else none
  | .closeTransport => some { s with transport := false }
  | .shutdown => some { s with cancelled := true }
  | .tick elapsed => some { s with now := s.now + elapsed }

end State

end Subscriptions

end Mcp
