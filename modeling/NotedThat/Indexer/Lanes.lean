-- SUMMARY: The scheduler of index handlings: one FIFO lane for each key, the keys with a running handler, and the keys ready to start.
import NotedThat.Core.World
import Mathlib.Data.List.AList
import Mathlib.Data.Finset.Basic

/-!
# Lanes

The worker accepts index events from its queue and starts at most one handler for each key. The
same facts are kept three times: which events wait, which keys run, and which keys could start
now. `Consistent` says how the three agree, and every operation keeps it.
-/

namespace Indexer

/-- Accepted events waiting to run, the keys with a running handler, and the keys ready to start,
in the order they became ready. -/
structure Lanes where
  waiting : AList fun _ : Key => List IndexEvent
  active : Finset Key
  ready : List Key

namespace Lanes

def empty : Lanes := ⟨∅, ∅, []⟩

/-- The events waiting for a key, oldest first. -/
def lane (l : Lanes) (key : Key) : List IndexEvent := (l.waiting.lookup key).getD []

/-- Queue an accepted event behind any earlier one for the same key. -/
def accept (l : Lanes) (queued : IndexEvent) : Lanes :=
  let key := queued.key
  let lane := l.lane key ++ [queued]
  { waiting := l.waiting.insert key lane
    active := l.active
    ready := if lane.length = 1 ∧ key ∉ l.active then l.ready ++ [key] else l.ready }

/-- Take the oldest ready key's next event and mark the key running. The errors are the texts of
the two `expect`s. -/
def startNext (l : Lanes) : Except String (Option ((Key × IndexEvent) × Lanes)) :=
  match l.ready with
  | [] => .ok none
  | key :: ready =>
    match l.waiting.lookup key with
    | none => .error "a ready key has a lane"
    | some [] => .error "a ready lane holds an event"
    | some (queued :: lane) =>
      .ok (some ((key, queued),
        { waiting := if lane = [] then l.waiting.erase key else l.waiting.insert key lane
          active := insert key l.active
          ready := ready }))

/-- A key's handler finished; it is ready again if more events wait for it. -/
def finish (l : Lanes) (key : Key) : Lanes :=
  { waiting := l.waiting
    active := l.active.erase key
    ready := if key ∈ l.waiting then l.ready ++ [key] else l.ready }

/-- No event is waiting to start. -/
def isIdle (l : Lanes) : Bool := l.waiting.entries.isEmpty

/-! ## The lanes after an operation -/

variable {l l' : Lanes} {key k : Key} {queued : IndexEvent}

theorem lane_accept : (l.accept queued).lane k =
    if k = queued.key then l.lane k ++ [queued] else l.lane k := by
  by_cases hk : k = queued.key
  · subst hk
    simp [lane, accept]
  · simp [lane, accept, hk, AList.lookup_insert_ne]

@[simp] theorem lane_finish : (l.finish key).lane k = l.lane k := rfl

/-- What a start takes: the oldest ready key, and the head of its lane. -/
theorem startNext_eq_some (h : l.startNext = .ok (some ((key, queued), l'))) :
    ∃ ready rest, l.ready = key :: ready ∧ l.waiting.lookup key = some (queued :: rest) ∧
      l' = ⟨if rest = [] then l.waiting.erase key else l.waiting.insert key rest,
        insert key l.active, ready⟩ := by
  unfold startNext at h
  split at h
  · cases h
  · next key' ready hready =>
    split at h
    · cases h
    · cases h
    · next queued' rest hlane =>
      simp only [Except.ok.injEq, Option.some.injEq, Prod.mk.injEq] at h
      obtain ⟨⟨rfl, rfl⟩, rfl⟩ := h
      exact ⟨ready, rest, hready, hlane, rfl⟩

/-- A start takes the head of one lane and leaves the others. -/
theorem lane_startNext (h : l.startNext = .ok (some ((key, queued), l'))) :
    l.lane key = queued :: l'.lane key ∧ ∀ k, k ≠ key → l'.lane k = l.lane k := by
  obtain ⟨ready, rest, -, hlane, rfl⟩ := startNext_eq_some h
  by_cases hrest : rest = []
  · refine ⟨by simp [lane, hlane, hrest, AList.lookup_erase], ?_⟩
    intro k hk
    simp [lane, hrest, AList.lookup_erase_ne hk]
  · refine ⟨by simp [lane, hlane, hrest], ?_⟩
    intro k hk
    simp [lane, hrest, AList.lookup_insert_ne hk]

/-! ## Consistency -/

/-- The three structures agree: no lane is kept empty, and the ready queue lists, once each, the
keys with a waiting event and no running handler. -/
structure Consistent (l : Lanes) : Prop where
  lanes : ∀ key, l.waiting.lookup key ≠ some []
  nodup : l.ready.Nodup
  ready : ∀ key, key ∈ l.ready ↔ l.lane key ≠ [] ∧ key ∉ l.active

theorem Consistent.empty : Lanes.empty.Consistent where
  lanes := by simp [Lanes.empty]
  nodup := List.nodup_nil
  ready := by simp [Lanes.empty, lane]

/-- A key has a lane exactly when an event waits in it. -/
theorem Consistent.mem_waiting (h : l.Consistent) : key ∈ l.waiting ↔ l.lane key ≠ [] := by
  rw [← AList.lookup_isSome]
  have := h.lanes key
  cases hlane : l.waiting.lookup key with
  | none => simp [lane, hlane]
  | some events =>
    rw [hlane] at this
    simpa [lane, hlane] using this

/-- Both `expect`s hold, and a start is possible exactly when some key is ready. -/
theorem Consistent.startNext_ok (h : l.Consistent) :
    (l.ready = [] ∧ l.startNext = .ok none) ∨
      ∃ key queued l', l.startNext = .ok (some ((key, queued), l')) := by
  unfold startNext
  split
  · next hready => exact .inl ⟨hready, rfl⟩
  · next key ready hready =>
    have hlane := ((h.ready key).mp (by simp [hready])).1
    split
    · next hnone => simp [lane, hnone] at hlane
    · next hnil => simp [lane, hnil] at hlane
    · exact .inr ⟨_, _, _, rfl⟩

theorem Consistent.accept (h : l.Consistent) (queued : IndexEvent) :
    (l.accept queued).Consistent where
  lanes := by
    intro key
    by_cases hk : key = queued.key
    · subst hk
      simp [Lanes.accept]
    · simpa [Lanes.accept, AList.lookup_insert_ne hk] using h.lanes key
  nodup := by
    simp only [Lanes.accept]
    split
    · next hnew =>
      -- the key was not ready: nothing waited for it
      have : queued.key ∉ l.ready := by
        rw [h.ready]
        simp_all
      exact h.nodup.append (List.nodup_singleton _) (by simpa using this)
    · exact h.nodup
  ready := by
    intro key
    have hready := h.ready key
    rw [lane_accept]
    simp only [Lanes.accept]
    by_cases hk : key = queued.key
    · subst hk
      split
      · simp_all
      · next hold =>
        simp only [List.length_append, List.length_singleton, Nat.add_eq_right,
          List.length_eq_zero_iff, not_and, not_not] at hold
        have : l.lane queued.key ++ [queued] ≠ [] := by simp
        simp only [hready, if_true]
        tauto
    · split
      · simpa [hk] using hready
      · simpa [hk] using hready

theorem Consistent.startNext (h : l.Consistent)
    (hs : l.startNext = .ok (some ((key, queued), l'))) : l'.Consistent := by
  obtain ⟨hhead, hother⟩ := lane_startNext hs
  obtain ⟨ready, rest, hready, hlane, rfl⟩ := startNext_eq_some hs
  have hnodup := h.nodup
  rw [hready, List.nodup_cons] at hnodup
  refine ⟨?_, hnodup.2, ?_⟩
  · intro k
    by_cases hrest : rest = []
    · by_cases hk : k = key
      · subst hk
        simp [hrest, AList.lookup_erase]
      · simpa [hrest, AList.lookup_erase_ne hk] using h.lanes k
    · by_cases hk : k = key
      · subst hk
        simp [hrest]
      · simpa [hrest, AList.lookup_insert_ne hk] using h.lanes k
  · intro k
    have hk := h.ready k
    rw [hready, List.mem_cons] at hk
    by_cases heq : k = key
    · subst heq
      simp [hnodup.1]
    · rw [hother k heq]
      simpa [heq] using hk

theorem Consistent.finish (h : l.Consistent) (hkey : key ∈ l.active) :
    (l.finish key).Consistent where
  lanes := h.lanes
  nodup := by
    simp only [Lanes.finish]
    split
    · have : key ∉ l.ready := fun hr => ((h.ready key).mp hr).2 hkey
      exact h.nodup.append (List.nodup_singleton _) (by simpa using this)
    · exact h.nodup
  ready := by
    intro k
    have hk := h.ready k
    have hwait : key ∈ l.waiting ↔ l.lane key ≠ [] := h.mem_waiting
    rw [lane_finish]
    simp only [Lanes.finish]
    by_cases heq : k = key
    · subst heq
      split
      · simp_all
      · simp_all
    · split
      · simpa [heq] using hk
      · simpa [heq] using hk

/-- Nothing waits when nothing runs and nothing is ready. -/
theorem Consistent.isIdle (h : l.Consistent) (hactive : l.active = ∅) (hready : l.ready = []) :
    l.isIdle = true := by
  rw [Lanes.isIdle, List.isEmpty_iff, List.eq_nil_iff_forall_not_mem]
  intro e he
  have hmem : e.1 ∈ l.waiting := List.mem_map.mpr ⟨e, he, rfl⟩
  have := (h.ready e.1).mpr ⟨h.mem_waiting.mp hmem, by simp [hactive]⟩
  rw [hready] at this
  cases this

end Lanes

/-! ## The run loop -/

/-- The worker between two operations: its lanes, the handlers in flight, and two records no code
reads, the events accepted and the events started, in order. -/
structure Loop where
  lanes : Lanes
  running : List (Key × IndexEvent)
  accepted : List IndexEvent
  started : List IndexEvent

namespace Loop

def empty : Loop := ⟨.empty, [], [], []⟩

def accept (s : Loop) (queued : IndexEvent) : Loop :=
  { s with lanes := s.lanes.accept queued, accepted := s.accepted ++ [queued] }

/-- A file's handler enters the futures in flight. -/
def launch (s : Loop) (file : Key × IndexEvent) (lanes : Lanes) : Loop :=
  { s with lanes := lanes, running := s.running ++ [file], started := s.started ++ [file.2] }

/-- The states reached by operations on the lanes, in any order, where only a key with a running
handler finishes. -/
inductive Run : Loop → Prop where
  | empty : Run Loop.empty
  | accept {s : Loop} (queued : IndexEvent) : Run s → Run (s.accept queued)
  | startNext {s : Loop} {file : Key × IndexEvent} {lanes : Lanes} :
      Run s → s.lanes.startNext = .ok (some (file, lanes)) → Run (s.launch file lanes)
  | finish {s : Loop} {file : Key × IndexEvent} {before after : List (Key × IndexEvent)} :
      Run s → s.running = before ++ file :: after →
        Run { s with lanes := s.lanes.finish file.1, running := before ++ after }

/-- Start waiting files, oldest first, until every slot is taken. -/
def startReady (concurrency : Nat) (s : Loop) : Except String Loop :=
  if s.running.length < concurrency then
    match s.lanes.startNext with
    | .error e => .error e
    | .ok none => .ok s
    | .ok (some (file, lanes)) => startReady concurrency (s.launch file lanes)
  else .ok s
termination_by concurrency - s.running.length
decreasing_by
  simp only [launch, List.length_append, List.length_singleton]
  omega

/-- The states of the run loop and of its drain: between two calls of `startReady` they accept
what the queue holds and take back the keys of finished handlers. -/
inductive RunLoop (concurrency : Nat) : Loop → Prop where
  | empty : RunLoop concurrency Loop.empty
  | startReady {s s' : Loop} :
      RunLoop concurrency s → s.startReady concurrency = .ok s' → RunLoop concurrency s'
  | accept {s : Loop} (queued : IndexEvent) :
      RunLoop concurrency s → RunLoop concurrency (s.accept queued)
  | finish {s : Loop} {file : Key × IndexEvent} {before after : List (Key × IndexEvent)} :
      RunLoop concurrency s → s.running = before ++ file :: after →
        RunLoop concurrency { s with lanes := s.lanes.finish file.1, running := before ++ after }

/-! ## What every operation keeps -/

/-- The events of one key among some events. -/
def ofKey (key : Key) (events : List IndexEvent) : List IndexEvent :=
  events.filter fun e => decide (e.key = key)

/-- The lanes are consistent, the handlers in flight are those of the active keys, one each, and
the events accepted for a key are those started for it followed by those still waiting. -/
structure Sound (s : Loop) : Prop where
  lanes : s.lanes.Consistent
  active : ∀ key, key ∈ s.lanes.active ↔ key ∈ s.running.map (·.1)
  single : (s.running.map (·.1)).Nodup
  own : ∀ file ∈ s.running, file.2.key = file.1
  order : ∀ key, ofKey key s.accepted = ofKey key s.started ++ s.lanes.lane key

variable {s s' : Loop} {file : Key × IndexEvent} {before after : List (Key × IndexEvent)}

theorem Sound.empty : Loop.empty.Sound where
  lanes := .empty
  active := by simp [Loop.empty, Lanes.empty]
  single := by simp [Loop.empty]
  own := by simp [Loop.empty]
  order := by simp [Loop.empty, Lanes.empty, ofKey, Lanes.lane]

theorem Sound.accept (h : s.Sound) (queued : IndexEvent) : (s.accept queued).Sound where
  lanes := h.lanes.accept queued
  active := h.active
  single := h.single
  own := h.own
  order := by
    intro key
    simp only [Loop.accept, Lanes.lane_accept, ofKey, List.filter_append]
    have hkey := h.order key
    simp only [ofKey] at hkey
    by_cases hk : key = queued.key
    · subst hk
      simp [hkey]
    · simp [hkey, hk, Ne.symm hk]

theorem Sound.launch (h : s.Sound) {lanes : Lanes}
    (hs : s.lanes.startNext = .ok (some (file, lanes))) : (s.launch file lanes).Sound := by
  obtain ⟨key, queued⟩ := file
  obtain ⟨hhead, hother⟩ := Lanes.lane_startNext hs
  obtain ⟨ready, rest, hready, hlane, hl⟩ := Lanes.startNext_eq_some hs
  have hactive : lanes.active = insert key s.lanes.active := by rw [hl]
  have hidle := ((h.lanes.ready key).mp (by simp [hready])).2
  -- the event stands in the lane of its key, so it was accepted for that key
  have hown : queued.key = key := by
    have hmem : queued ∈ ofKey key s.accepted := by simp [h.order key, hhead]
    simpa [ofKey] using (List.mem_filter.mp hmem).2
  refine ⟨h.lanes.startNext hs, ?_, ?_, ?_, ?_⟩
  · intro k
    have hk := h.active k
    simp only [Loop.launch, hactive, Finset.mem_insert, hk, List.map_append, List.mem_append,
      List.map_cons, List.map_nil, List.mem_singleton]
    tauto
  · rw [h.active] at hidle
    simp only [Loop.launch, List.map_append, List.map_cons, List.map_nil]
    exact h.single.append (List.nodup_singleton _) (by simpa using hidle)
  · intro file hfile
    rcases List.mem_append.mp hfile with hfile | hfile
    · exact h.own file hfile
    · cases List.mem_singleton.mp hfile
      exact hown
  · intro k
    have hk := h.order k
    simp only [Loop.launch, ofKey, List.filter_append] at hk ⊢
    by_cases heq : k = key
    · subst heq
      simp [hk, hhead, hown]
    · have hne : queued.key ≠ k := hown ▸ Ne.symm heq
      simp [hk, hother k heq, hne]

theorem Sound.finish (h : s.Sound) (hrun : s.running = before ++ file :: after) :
    Sound { s with lanes := s.lanes.finish file.1, running := before ++ after } := by
  have hsingle := h.single
  simp only [hrun, List.map_append, List.map_cons] at hsingle
  have hnodup := List.nodup_middle.mp hsingle
  rw [List.nodup_cons] at hnodup
  refine ⟨h.lanes.finish ((h.active _).mpr (by simp [hrun])), ?_, ?_, ?_, h.order⟩
  · intro k
    have hk := h.active k
    simp only [Lanes.finish, Finset.mem_erase, hk, hrun, List.map_append, List.map_cons,
      List.mem_append, List.mem_cons]
    by_cases heq : k = file.1
    · subst heq
      simpa using hnodup.1
    · simp [heq]
  · simpa using hnodup.2
  · intro f hf
    refine h.own f ?_
    rw [hrun]
    rcases List.mem_append.mp hf with hf | hf
    · simp [hf]
    · simp [hf]

theorem Run.sound (h : Run s) : s.Sound := by
  induction h with
  | empty => exact .empty
  | accept queued _ ih => exact ih.accept queued
  | startNext _ hs ih => exact ih.launch hs
  | finish _ hrun ih => exact ih.finish hrun

/-- `startReady` is a number of starts, and it stops at the bound. -/
theorem Run.startReady {concurrency : Nat} (h : Run s) (hle : s.running.length ≤ concurrency)
    (hs : s.startReady concurrency = .ok s') : Run s' ∧ s'.running.length ≤ concurrency := by
  fun_induction Loop.startReady concurrency s with
  | case1 => cases hs
  | case2 =>
    cases hs
    exact ⟨h, hle⟩
  | case3 s hlt file lanes hnext ih =>
    refine ih (.startNext h hnext) ?_ hs
    simp only [launch, List.length_append, List.length_singleton]
    omega
  | case4 =>
    cases hs
    exact ⟨h, hle⟩

theorem RunLoop.run {concurrency : Nat} (h : RunLoop concurrency s) :
    Run s ∧ s.running.length ≤ concurrency := by
  induction h with
  | empty => exact ⟨.empty, Nat.zero_le _⟩
  | startReady _ hs ih => exact ih.1.startReady ih.2 hs
  | accept queued _ ih => exact ⟨.accept queued ih.1, ih.2⟩
  | finish _ hrun ih =>
    refine ⟨.finish ih.1 hrun, ?_⟩
    have hle := ih.2
    rw [hrun] at hle
    simp only [List.length_append, List.length_cons] at hle ⊢
    omega

theorem Run.startReady_ok {concurrency : Nat} (h : Run s) (e : String) :
    s.startReady concurrency ≠ .error e := by
  fun_induction Loop.startReady concurrency s with
  | case1 s hlt e' hnext =>
    rcases h.sound.lanes.startNext_ok with ⟨-, hnone⟩ | ⟨_, _, _, hsome⟩
    · simp [hnone] at hnext
    · simp [hsome] at hnext
  | case2 => simp
  | case3 s hlt file lanes hnext ih => exact ih (.startNext h hnext)
  | case4 => simp

/-- The ready queue lists, once each, the keys with a waiting event and no running handler; no
`expect` fails; a key has at most one handler; its events start in the order they were accepted,
none lost and none twice; nothing waits once nothing runs and nothing is ready; and the run loop
keeps to its concurrency. -/
theorem scheduling (s : Loop) :
    (Run s →
      (s.lanes.ready.Nodup ∧
        ∀ key, key ∈ s.lanes.ready ↔ s.lanes.lane key ≠ [] ∧ key ∉ s.running.map (·.1)) ∧
      (∀ e, s.lanes.startNext ≠ .error e) ∧
      (s.running.map (·.1)).Nodup ∧
      (∀ key, ofKey key s.accepted = ofKey key s.started ++ s.lanes.lane key) ∧
      (s.running = [] → s.lanes.ready = [] → s.lanes.isIdle = true)) ∧
    ∀ concurrency, RunLoop concurrency s →
      Run s ∧ s.running.length ≤ concurrency ∧ ∀ e, s.startReady concurrency ≠ .error e := by
  refine ⟨?_, ?_⟩
  · intro h
    have hs := h.sound
    refine ⟨⟨hs.lanes.nodup, ?_⟩, ?_, hs.single, hs.order, ?_⟩
    · intro key
      rw [hs.lanes.ready key, hs.active key]
    · intro e he
      rcases hs.lanes.startNext_ok with ⟨-, hnone⟩ | ⟨_, _, _, hsome⟩
      · simp [hnone] at he
      · simp [hsome] at he
    · intro hrun hready
      refine hs.lanes.isIdle (Finset.eq_empty_iff_forall_notMem.mpr ?_) hready
      intro key hkey
      rw [hs.active, hrun] at hkey
      cases hkey
  · intro concurrency h
    obtain ⟨hrun, hle⟩ := h.run
    exact ⟨hrun, hle, hrun.startReady_ok⟩

/-- A write and a deletion of one document, both accepted before a handler starts. -/
def twoOfOne : Loop :=
  (Loop.empty.accept (.upsert .notes ObjectPath.a)).accept
    (.tombstone .notes ObjectPath.a)

theorem scheduling_twoOfOne : ∃ s, RunLoop 1 s ∧ s.running.length = 1 ∧
    (∀ key, ofKey key s.accepted = ofKey key s.started ++ s.lanes.lane key) ∧
    ∀ e, s.startReady 1 ≠ .error e := by
  have hloop : RunLoop 1 twoOfOne := .accept _ (.accept _ .empty)
  have hrun := hloop.run.1
  rcases hs : twoOfOne.startReady 1 with e | s
  · exact absurd hs (hrun.startReady_ok e)
  · have hlen : s.running.length = 1 := by
      rw [startReady, if_pos (by decide)] at hs
      rcases hrun.sound.lanes.startNext_ok with ⟨hready, -⟩ | ⟨key, queued, lanes, hnext⟩
      · exact absurd hready (by decide)
      · rw [hnext] at hs
        simp only at hs
        rw [startReady, if_neg (by simp [launch])] at hs
        cases hs
        rfl
    have hloop' := hloop.startReady hs
    have h := scheduling s
    exact ⟨s, hloop', hlen, (h.1 hloop'.run.1).2.2.2.1, (h.2 1 hloop').2.2⟩

end Loop

end Indexer
