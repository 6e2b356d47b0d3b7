-- SUMMARY: The bounded ingress of index events with the worker that drains it: permits, the run loop, shutdown and its drain.
import NotedThat.Indexer.Lanes
import NotedThat.Lib.Traces

/-!
# The index queue

A permit is acquired before an event is accepted and travels with it until its handler has finished,
so the bound covers the channel, the lanes and the running handlers alike. Producers acquire and
deliver in two steps; the worker takes turns at its `select!`, until every sender is gone or it is
cancelled, takes what the channel then holds, and drains.
-/

namespace Indexer

/-- How many events wait in all lanes. -/
def Lanes.waitingCount (l : Lanes) : Nat := (l.waiting.entries.map fun lane => lane.2.length).sum

/-- The permits that are free, the accepted events, and whether their receiver is still there. -/
structure IndexQueue where
  capacity : Nat
  permits : Nat
  channel : List IndexEvent
  receiver : Bool

/-- Why an event is given back. -/
inductive TrySendError where
  | full
  | closed
deriving DecidableEq

namespace IndexQueue

/-- `index_queue`. -/
def new (capacity : Nat) : IndexQueue := ⟨capacity, capacity, [], true⟩

/-- A permit, if one is free. `send` waits for it; `try_send` answers `Full` where there is none. -/
def tryAcquire (q : IndexQueue) : Option IndexQueue :=
  if q.permits = 0 then none else some { q with permits := q.permits - 1 }

def release (q : IndexQueue) (count : Nat) : IndexQueue := { q with permits := q.permits + count }

def push (q : IndexQueue) (event : IndexEvent) : IndexQueue := { q with channel := q.channel ++ [event] }

/-- Events accepted but not yet fully handled. -/
def depth (q : IndexQueue) : Nat := q.capacity - q.permits

end IndexQueue

/-- Where the worker is in `run_loop`, or in its `drain`. -/
inductive Control where
  | looping (receiverOpen : Bool)
  | selecting (receiverOpen : Bool)
  /-- Cancelled: it takes what the channel holds. -/
  | receiving
  | draining
  /-- In the drain, for a handler to finish. -/
  | awaiting
  | stopped
deriving DecidableEq

/-- The queue with its producers and its worker. A producer that is `holding` has a permit for its
event and has not delivered it. -/
structure Service (P : Type) where
  queue : IndexQueue
  senders : Bool
  holding : List (P × IndexEvent)
  loop : Loop
  control : Control
  cancelled : Bool

/-- What a step was. -/
inductive QueueEvent (P : Type) where
  | step
  | accepted (p : P) (event : IndexEvent)
  | refused (p : P) (event : IndexEvent) (error : TrySendError)
  /-- A handler finished. -/
  | handled (event : IndexEvent)
  /-- The worker was cancelled and has emptied the channel. -/
  | drains
  /-- The drain's time was over, or a handler's outcome panicked. -/
  | abandoned

namespace Service

variable {P : Type}

def new (capacity : Nat) : Service P := ⟨.new capacity, true, [], .empty, .looping true, false⟩

/-- The worker is dropped, and with it the receiver and all that it held. -/
def stop (s : Service P) : Service P :=
  { s with
    control := .stopped
    loop := { s.loop with lanes := .empty, running := [] }
    queue :=
      { s.queue.release (s.queue.channel.length + s.loop.lanes.waitingCount + s.loop.running.length) with
        channel := [], receiver := false } }

/-- Nothing is left to do. -/
def done (s : Service P) : Bool := s.loop.lanes.isIdle ∧ s.loop.running = []

/-- The next of the accepted events goes to its lane. -/
def take (s : Service P) (event : IndexEvent) (rest : List IndexEvent) (control : Control) : Service P :=
  { s with
    queue := { s.queue with channel := rest }
    loop := s.loop.accept event
    control := control }

/-- A handler has finished, and its permit is free. -/
def finish (s : Service P) (file : Key × IndexEvent) (others : List (Key × IndexEvent))
    (control : Control) : Service P :=
  { s with
    queue := s.queue.release 1
    loop := { s.loop with lanes := s.loop.lanes.finish file.1, running := others }
    control := control }

/-- A step of a producer, of the worker, or of whoever cancels it. -/
inductive Step (concurrency : Nat) : Service P → QueueEvent P → Service P → Prop where
  | acquire {s : Service P} {q : IndexQueue} (p : P) (event : IndexEvent) : s.senders = true →
      s.queue.tryAcquire = some q →
      Step concurrency s .step { s with queue := q, holding := s.holding ++ [(p, event)] }
  | full {s : Service P} (p : P) (event : IndexEvent) : s.senders = true → s.queue.tryAcquire = none →
      Step concurrency s (.refused p event .full) s
  | deliver {s : Service P} {p : P} {event : IndexEvent} {before after : List (P × IndexEvent)} :
      s.holding = before ++ (p, event) :: after → s.queue.receiver = true →
      Step concurrency s (.accepted p event)
        { s with holding := before ++ after, queue := s.queue.push event }
  | closed {s : Service P} {p : P} {event : IndexEvent} {before after : List (P × IndexEvent)} :
      s.holding = before ++ (p, event) :: after → s.queue.receiver = false →
      Step concurrency s (.refused p event .closed)
        { s with holding := before ++ after, queue := s.queue.release 1 }
  | dropSenders {s : Service P} : s.holding = [] → Step concurrency s .step { s with senders := false }
  | cancel {s : Service P} : Step concurrency s .step { s with cancelled := true }
  | startReady {s : Service P} {receiverOpen : Bool} {loop : Loop} : s.control = .looping receiverOpen →
      s.loop.startReady concurrency = .ok loop →
      ¬ (receiverOpen = false ∧ { s with loop := loop }.done = true) →
      Step concurrency s .step { s with loop := loop, control := .selecting receiverOpen }
  -- every sender is gone, and all is handled
  | ends {s : Service P} {loop : Loop} : s.control = .looping false →
      s.loop.startReady concurrency = .ok loop → { s with loop := loop }.done = true →
      Step concurrency s .step { s with loop := loop }.stop
  | receive {s : Service P} {event : IndexEvent} {rest : List IndexEvent} :
      s.control = .selecting true → s.queue.channel = event :: rest →
      Step concurrency s .step (s.take event rest (.looping true))
  | disconnected {s : Service P} : s.control = .selecting true → s.queue.channel = [] →
      s.senders = false → Step concurrency s .step { s with control := .looping false }
  | finished {s : Service P} {receiverOpen : Bool} {file : Key × IndexEvent}
      {before after : List (Key × IndexEvent)} : s.control = .selecting receiverOpen →
      s.loop.running = before ++ file :: after →
      Step concurrency s (.handled file.2) (s.finish file (before ++ after) (.looping receiverOpen))
  | shutdown {s : Service P} {receiverOpen : Bool} : s.control = .selecting receiverOpen →
      s.cancelled = true → Step concurrency s .step { s with control := .receiving }
  | tryRecv {s : Service P} {event : IndexEvent} {rest : List IndexEvent} : s.control = .receiving →
      s.queue.channel = event :: rest → Step concurrency s .step (s.take event rest .receiving)
  | drains {s : Service P} : s.control = .receiving → s.queue.channel = [] →
      Step concurrency s .drains { s with control := .draining }
  | startDraining {s : Service P} {loop : Loop} : s.control = .draining → s.done = false →
      s.loop.startReady concurrency = .ok loop →
      Step concurrency s .step { s with loop := loop, control := .awaiting }
  | finishedDraining {s : Service P} {file : Key × IndexEvent} {before after : List (Key × IndexEvent)} :
      s.control = .awaiting → s.loop.running = before ++ file :: after →
      Step concurrency s (.handled file.2) (s.finish file (before ++ after) .draining)
  | drained {s : Service P} : s.control = .draining → s.done = true → Step concurrency s .step s.stop
  | timeout {s : Service P} : s.control = .draining ∨ s.control = .awaiting →
      Step concurrency s .abandoned s.stop
  | panic {s : Service P} : (∃ receiverOpen, s.control = .selecting receiverOpen) ∨ s.control = .awaiting →
      s.loop.running ≠ [] → Step concurrency s .abandoned s.stop

end Service

end Indexer
