-- SUMMARY: What each step of a session does to what its keys are held by, as a few kinds of effects, and the invariant they keep.
import NotedThat.Mcp.Subscriptions

/-!
# Effects on what holds keys

The steps of a session change what holds its keys in a few ways only. A step comes down to a list of
such effects, so that what is true of every effect where it is allowed is true of every step.
-/

namespace Mcp

namespace Subscriptions

inductive Effect where
  | enroll (watchKey : WatchKey) (key uri : Text)
  | move (kb : Text) (client : Credential) (key uri : Text)
  | take (kb : Text) (client : Credential) (key : Text)
  | takeLists (client : Credential)
  | watchList (watchKey : WatchKey)
  | unsubscribe (kb key : Text)
  | prune
  | opened (watch : Nat)
  | refused (watch status : Nat)
  | left (watch : Nat)
  | strand (watch : Nat)
  | clear (watch : Nat)
  | forget (watch : Nat)
  | done (watch : Nat)
  | giveUp
  | shutdown
  | closeTransport
  | tick (elapsed : Nat)

namespace Effect

def apply (h : Holdings) : Effect → Holdings
  | .enroll watchKey key uri => h.enroll watchKey key uri
  | .move kb client key uri => (h.takeStranded kb client key).enroll (kb, client) key uri
  | .take kb client key => h.takeStranded kb client key
  | .takeLists client => h.takeLists client
  | .watchList watchKey => h.watchList watchKey
  | .unsubscribe kb key => h.unsubscribe kb key
  | .prune => h.pruneStranded
  | .opened id => h.setWatch id { h.watches id with link := .opened }
  | .refused id status => h.setWatch id { h.watches id with link := .refused status, forward := .exited }
  | .left id => h.setWatch id { h.watches id with forward := .exited }
  | .strand id => h.strand id
  | .clear id => h.clear id
  | .forget id => h.forget id
  | .done id => h.setWatch id { h.watches id with forward := .done }
  | .giveUp => { h with gone := true, cancelled := true }
  | .shutdown => { h with cancelled := true }
  | .closeTransport => { h with transport := false }
  | .tick elapsed => { h with now := h.now + elapsed }

/-- When an effect can take place. -/
def Allowed (h : Holdings) : Effect → Prop
  | .move kb client key uri => h.strandedUri kb client key = some uri
  | .opened id => id < h.started ∧ (h.watches id).forward = .running
  | .refused id status =>
    id < h.started ∧ (h.watches id).forward = .running ∧ (status = 401 ∨ status = 403 ∨ status = 404)
  | .left id =>
    id < h.started ∧ (h.watches id).forward = .running ∧
      ((h.watches id).cancelled = true ∨ h.cancelled = true ∨ h.transport = false)
  | .strand id =>
    id < h.started ∧ (h.watches id).forward = .exited ∧ (h.watches id).link.isRefused = true
  | .clear id =>
    id < h.started ∧ ((h.watches id).forward = .exited ∧ (h.watches id).link.isRefused = false ∨
      (h.watches id).forward = .stranded)
  | .forget id => id < h.started ∧ (h.watches id).forward = .cleared
  | .done id => id < h.started ∧ (h.watches id).forward = .forgotten
  | _ => True

/-- What is behind the effects that add keys, let them go or let time pass. -/
def From (s : State) (a : Action) : Effect → Prop
  | .enroll watchKey key _ =>
    ∃ i call, a = .register i ∧ s.calls[i]? = some call ∧ watchKey = (call.kb, call.client) ∧ key = call.key
  | .move kb client key _ =>
    ∃ i task, a = .commit i ∧ s.rehomes[i]? = some task ∧ client = task.client ∧
      (kb, key, .move) ∈ task.verdicts
  | .take kb _ key =>
    ∃ i task, a = .commit i ∧ s.rehomes[i]? = some task ∧ (kb, key, .drop) ∈ task.verdicts
  | .unsubscribe kb key => a = .unsubscribe kb key
  | .refused id status => a = .streamRefused id status
  | .tick elapsed => a = .tick elapsed ∨ ∃ i, a = .wake i elapsed
  | _ => True

end Effect

/-- Effects one after the other. -/
inductive Effects : Holdings → List Effect → Holdings → Prop where
  | nil {h : Holdings} : Effects h [] h
  | cons {h h' : Holdings} {e : Effect} {es : List Effect} :
      e.Allowed h → Effects (e.apply h) es h' → Effects h (e :: es) h'

namespace Effects

variable {h h' h'' : Holdings} {e : Effect} {es es' : List Effect}

theorem single (hallowed : e.Allowed h) : Effects h [e] (e.apply h) := .cons hallowed .nil

theorem append (hes : Effects h es h') (hes' : Effects h' es' h'') : Effects h (es ++ es') h'' := by
  induction hes with
  | nil => exact hes'
  | cons hallowed _ ih => exact .cons hallowed (ih hes')

/-- What every allowed effect keeps is kept. -/
theorem invariant {I : Holdings → Prop} (hes : Effects h es h')
    (hstep : ∀ e ∈ es, ∀ h, e.Allowed h → I h → I (e.apply h)) (hI : I h) : I h' := by
  induction hes with
  | nil => exact hI
  | cons hallowed _ ih =>
    exact ih (fun e he => hstep e (List.mem_cons_of_mem _ he)) (hstep _ List.mem_cons_self _ hallowed hI)

end Effects

-- ---------------------------------------------------------------------------
-- The effects of a step
-- ---------------------------------------------------------------------------

@[simp] theorem State.ensureKeeper_toHoldings (s : State) : s.ensureKeeper.toHoldings = s.toHoldings := by
  unfold State.ensureKeeper
  split <;> rfl

@[simp] theorem State.ensureKeeper_calls (s : State) : s.ensureKeeper.calls = s.calls := by
  unfold State.ensureKeeper
  split <;> rfl

/-- Only whether a re-home runs changes. -/
theorem State.rehomeUnlessJustTried_eq (s : State) (tried : Option Credential)
    (kept : List (Text × Text)) :
    s.rehomeUnlessJustTried tried kept =
      { s with
        rehoming := (s.rehomeUnlessJustTried tried kept).rehoming
        rehomes := (s.rehomeUnlessJustTried tried kept).rehomes } := by
  unfold State.rehomeUnlessJustTried
  split
  · rfl
  · split
    · rfl
    · dsimp only
      split <;> rfl

@[simp] theorem State.rehomeUnlessJustTried_toHoldings (s : State) (tried : Option Credential)
    (kept : List (Text × Text)) : (s.rehomeUnlessJustTried tried kept).toHoldings = s.toHoldings := by
  rw [State.rehomeUnlessJustTried_eq]

@[simp] theorem State.rehomeIfDue_toHoldings (s : State) : s.rehomeIfDue.toHoldings = s.toHoldings :=
  s.rehomeUnlessJustTried_toHoldings none []

theorem mem_of_strandedUri {h : Holdings} {kb key uri : Text} {client : Credential}
    (huri : h.strandedUri kb client key = some uri) :
    ∃ credential st, ((kb, credential), st) ∈ h.stranded ∧ credential ≠ client ∧
      st.keys.contains key = true := by
  obtain ⟨⟨⟨kb', credential⟩, st⟩, hmem, hfound⟩ :=
    List.mem_filterMap.mp (List.mem_of_getLast? huri)
  split_ifs at hfound with hforeign
  simp only [Bool.and_eq_true, decide_eq_true_eq] at hforeign
  obtain ⟨rfl, hne⟩ := hforeign
  exact ⟨credential, st, hmem, hne, Assoc.contains_iff.mpr ⟨uri, Assoc.get?_eq_some.mp hfound⟩⟩

theorem not_contains_of_strandedUri {h : Holdings} {kb key : Text} {client credential : Credential}
    {st : Stranded} (huri : h.strandedUri kb client key = none)
    (hmem : ((kb, credential), st) ∈ h.stranded) (hne : credential ≠ client) :
    st.keys.contains key = false := by
  rw [Bool.eq_false_iff]
  intro hkey
  obtain ⟨uri, huri'⟩ := Assoc.contains_iff.mp hkey
  have hnone := List.filterMap_eq_nil_iff.mp (List.getLast?_eq_none_iff.mp huri) _ hmem
  rw [if_pos (by simp [hne]), Assoc.get?_eq_some.mpr huri'] at hnone
  cases hnone

theorem takeStranded_eq_self {h : Holdings} {kb key : Text} {client : Credential}
    (huri : h.strandedUri kb client key = none) : h.takeStranded kb client key = h := by
  unfold Holdings.takeStranded
  rw [Assoc.mapVal_eq_self]
  rintro ⟨kb', credential⟩ st hmem
  split_ifs with hforeign
  · obtain ⟨rfl, hne⟩ := hforeign
    rw [Assoc.erase_eq_self (not_contains_of_strandedUri huri hmem hne)]
  · rfl

/-- What the last part of a re-home does with one key. -/
theorem settle_effects_one (client : Credential) (s : State) (kept : List (Text × Text)) (kb key : Text)
    (verdict : Verdict) :
    ∃ es, Effects s.toHoldings es (State.settle client (s, kept) (kb, key, verdict)).1.toHoldings ∧
      ∀ e ∈ es, (∃ uri, e = .move kb client key uri ∧ verdict = .move) ∨
        e = .take kb client key ∧ verdict = .drop := by
  unfold State.settle
  dsimp only
  cases verdict with
  | keep => exact ⟨[], .nil, by simp⟩
  | drop =>
    refine ⟨[.take kb client key], ?_, by simp⟩
    rw [if_neg (by decide)]
    cases s.strandedUri kb client key <;> exact Effects.single trivial
  | move =>
    rw [if_neg (by decide)]
    cases huri : s.strandedUri kb client key with
    | none =>
      refine ⟨[], ?_, by simp⟩
      simp only [takeStranded_eq_self huri]
      exact .nil
    | some uri => exact ⟨[.move kb client key uri], Effects.single huri, by simp⟩

theorem settle_effects (client : Credential) (verdicts : List (Text × Text × Verdict))
    (done : State × List (Text × Text)) :
    ∃ es, Effects done.1.toHoldings es (verdicts.foldl (State.settle client) done).1.toHoldings ∧
      ∀ e ∈ es, (∃ kb key uri, e = .move kb client key uri ∧ (kb, key, .move) ∈ verdicts) ∨
        ∃ kb key, e = .take kb client key ∧ (kb, key, .drop) ∈ verdicts := by
  induction verdicts generalizing done with
  | nil => exact ⟨[], .nil, by simp⟩
  | cons found verdicts ih =>
    obtain ⟨s, kept⟩ := done
    obtain ⟨kb, key, verdict⟩ := found
    obtain ⟨es, hes, hform⟩ := settle_effects_one client s kept kb key verdict
    obtain ⟨es', hes', hform'⟩ := ih (State.settle client (s, kept) (kb, key, verdict))
    refine ⟨es ++ es', hes.append hes', ?_⟩
    intro e he
    rcases List.mem_append.mp he with he | he
    · rcases hform e he with ⟨uri, rfl, rfl⟩ | ⟨rfl, rfl⟩
      · exact Or.inl ⟨kb, key, uri, rfl, List.mem_cons_self⟩
      · exact Or.inr ⟨kb, key, rfl, List.mem_cons_self⟩
    · rcases hform' e he with ⟨kb', key', uri, rfl, hmem⟩ | ⟨kb', key', rfl, hmem⟩
      · exact Or.inl ⟨kb', key', uri, rfl, List.mem_cons_of_mem _ hmem⟩
      · exact Or.inr ⟨kb', key', rfl, List.mem_cons_of_mem _ hmem⟩

theorem watchList_effects (client : Credential) (kbs : List Text) (h : Holdings) :
    Effects h (kbs.map fun kb => .watchList (kb, client))
      (kbs.foldl (fun h kb => h.watchList (kb, client)) h) := by
  induction kbs generalizing h with
  | nil => exact .nil
  | cons kb kbs ih => exact .cons trivial (ih _)

theorem commit_effects (s : State) (task : Rehome) :
    ∃ es, Effects s.toHoldings es (s.commit task).toHoldings ∧
      ∀ e ∈ es, (∃ kb key uri, e = .move kb task.client key uri ∧ (kb, key, .move) ∈ task.verdicts) ∨
        (∃ kb key, e = .take kb task.client key ∧ (kb, key, .drop) ∈ task.verdicts) ∨
        e = .takeLists task.client ∨ (∃ kb, e = .watchList (kb, task.client)) ∨ e = .prune := by
  unfold State.commit
  dsimp only
  split
  · obtain ⟨es, hes, hform⟩ :=
      settle_effects task.client task.verdicts ({ s with rehoming := false }, [])
    rw [State.rehomeUnlessJustTried_toHoldings]
    refine ⟨_, hes.append (.cons (e := .takeLists task.client) trivial
      ((watchList_effects task.client _ _).append (Effects.single (e := .prune) trivial))), ?_⟩
    intro e he
    simp only [List.mem_append, List.mem_cons, List.mem_map, List.not_mem_nil, or_false] at he
    rcases he with he | rfl | ⟨kb, -, rfl⟩ | rfl
    · rcases hform e he with hmove | htake
      · exact Or.inl hmove
      · exact Or.inr (Or.inl htake)
    · simp
    · simp
    · simp
  · exact ⟨[], .nil, by simp⟩

theorem whileRunning_eq_some {s s' : State} {id : Nat} {f : KbWatch → Option KbWatch}
    (h : s.whileRunning id f = some s') :
    id < s.started ∧ (s.watches id).forward = .running ∧
      ∃ w, f (s.watches id) = some w ∧ s' = { s with toHoldings := s.setWatch id w } := by
  unfold State.whileRunning at h
  simp only [Option.bind_eq_bind, Option.ite_none_right_eq_some, Option.bind_eq_some_iff] at h
  obtain ⟨⟨hid, hrunning⟩, w, hw, hs'⟩ := h
  cases hs'
  exact ⟨hid, hrunning, w, hw, rfl⟩

/-- What each kind of step needs, and what it makes of the state. -/
inductive State.Moves (s : State) : Action → State → Prop where
  | call {kb key uri : Text} {client : Credential} (hlive : s.stillDeliverable = true) :
      s.Moves (.call kb key uri client) { s with calls := s.calls ++ [⟨kb, key, uri, client, none, false⟩] }
  | register {i : Nat} {call : Call} (hcall : s.calls[i]? = some call) (hnew : call.watch = none) :
      s.Moves (.register i) (State.ensureKeeper { s with
        toHoldings := s.enroll (call.kb, call.client) call.key call.uri
        peer := true
        calls := s.calls.set i { call with watch := some (s.ensureWatch (call.kb, call.client)).2 } })
  | answer {i id : Nat} {call : Call} (hcall : s.calls[i]? = some call) (hwatch : call.watch = some id) :
      s.Moves (.answer i) { s with calls := s.calls.eraseIdx i }
  | unsubscribe {kb key : Text} : s.Moves (.unsubscribe kb key) { s with
      toHoldings := s.toHoldings.unsubscribe kb key
      calls := s.calls.map fun call =>
        if call.kb = kb ∧ call.key = key then { call with withdrawn := call.watch.isSome } else call }
  | noteCaller {client : Credential} : s.Moves (.noteCaller client)
      (State.rehomeIfDue { s with latest := some client, toHoldings := s.pruneStranded })
  | watchListChanges {kbs : List Text} {client : Credential} : s.Moves (.watchListChanges kbs client) { s with
      toHoldings := kbs.foldl (fun h kb => h.watchList (kb, client)) s.toHoldings
      peer := s.peer || !kbs.isEmpty }
  | streamOpened {id : Nat} (hid : id < s.started) (hrunning : (s.watches id).forward = .running) :
      s.Moves (.streamOpened id) { s with
        toHoldings := s.setWatch id { s.watches id with link := .opened } }
  | streamRefused {id status : Nat} (hid : id < s.started) (hrunning : (s.watches id).forward = .running)
      (hstatus : status = 401 ∨ status = 403 ∨ status = 404) :
      s.Moves (.streamRefused id status) { s with
        toHoldings := s.setWatch id { s.watches id with link := .refused status, forward := .exited } }
  | streamLeft {id : Nat} (hid : id < s.started) (hrunning : (s.watches id).forward = .running)
      (hwhy : (s.watches id).cancelled = true ∨ s.cancelled = true ∨ s.transport = false) :
      s.Moves (.streamLeft id) { s with
        toHoldings := s.setWatch id { s.watches id with forward := .exited } }
  | changed {id : Nat} {key uri : Text} (hid : id < s.started) (hrunning : (s.watches id).forward = .running)
      (hopened : (s.watches id).link = .opened) (hkey : (s.watches id).keys.get? key = some uri) :
      s.Moves (.changed id key) { s with notices := s.notices ++ [⟨(s.watches id).watchKey.1, key, uri⟩] }
  | changedOther {id : Nat} {key : Text} (hid : id < s.started) (hrunning : (s.watches id).forward = .running)
      (hopened : (s.watches id).link = .opened) (hkey : (s.watches id).keys.get? key = none) :
      s.Moves (.changed id key) s
  | strand {id : Nat} (hid : id < s.started) (hexited : (s.watches id).forward = .exited)
      (hrefused : (s.watches id).link.isRefused = true) :
      s.Moves (.strand id) { s with
        toHoldings := s.toHoldings.strand id
        notices := s.notices ++
          (s.watches id).keys.entries.map fun e => ⟨(s.watches id).watchKey.1, e.1, e.2⟩ }
  | clear {id : Nat} (hid : id < s.started)
      (hover : (s.watches id).forward = .exited ∧ (s.watches id).link.isRefused = false ∨
        (s.watches id).forward = .stranded) :
      s.Moves (.clear id) { s with toHoldings := s.toHoldings.clear id }
  | forget {id : Nat} (hid : id < s.started) (hcleared : (s.watches id).forward = .cleared) :
      s.Moves (.forget id) { s with toHoldings := s.toHoldings.forget id }
  | leave {id : Nat} (hid : id < s.started) (hforgotten : (s.watches id).forward = .forgotten) :
      s.Moves (.leave id) (if (s.watches id).link = .refused 401 then
        State.rehomeIfDue { s with toHoldings := s.setWatch id { s.watches id with forward := .done } }
        else { s with toHoldings := s.setWatch id { s.watches id with forward := .done } })
  | send {i : Nat} (hi : i < s.notices.length) : s.Moves (.send i) { s with notices := s.notices.eraseIdx i }
  | beginRehome {i : Nat} {task : Rehome} (htask : s.rehomes[i]? = some task) (hnew : task.pending = none) :
      s.Moves (.beginRehome i) { s with rehomes := s.rehomes.set i { task with
        pending := some (s.stranded.entries.flatMap fun e =>
          if e.1.2 ≠ task.client then e.2.keys.keys.map fun key => (e.1.1, key) else []) } }
  | probed {i : Nat} {verdict : Verdict} {task : Rehome} {kb key : Text} {pending : List (Text × Text)}
      (htask : s.rehomes[i]? = some task) (hpending : task.pending = some ((kb, key) :: pending)) :
      s.Moves (.probed i verdict) { s with rehomes := s.rehomes.set i { task with
        pending := some pending, verdicts := task.verdicts ++ [(kb, key, verdict)] } }
  | commit {i : Nat} {task : Rehome} (htask : s.rehomes[i]? = some task) (hdone : task.pending = some []) :
      s.Moves (.commit i) (State.commit { s with rehomes := s.rehomes.eraseIdx i } task)
  | stopRehome {i : Nat} (hcancelled : s.cancelled = true) (hi : i < s.rehomes.length) :
      s.Moves (.stopRehome i) { s with rehomes := s.rehomes.eraseIdx i }
  | wake {i later : Nat} (hkeeper : s.keepers[i]? = some .sleeping) :
      s.Moves (.wake i later) { (s.standDownIfIdle later).2 with
        keepers := if (s.standDownIfIdle later).1 then (s.standDownIfIdle later).2.keepers.eraseIdx i
          else (s.standDownIfIdle later).2.keepers.set i .pinging }
  | answered {i : Nat} (hkeeper : s.keepers[i]? = some .pinging) :
      s.Moves (.answered i) { s with keepers := s.keepers.set i .sleeping }
  | unanswered {i : Nat} (hkeeper : s.keepers[i]? = some .pinging) :
      s.Moves (.unanswered i) { s with gone := true, cancelled := true, keepers := s.keepers.eraseIdx i }
  | stopKeeper {i : Nat} (hcancelled : s.cancelled = true) (hi : i < s.keepers.length) :
      s.Moves (.stopKeeper i) { s with keepers := s.keepers.eraseIdx i }
  | closeTransport : s.Moves .closeTransport { s with transport := false }
  | shutdown : s.Moves .shutdown { s with cancelled := true }
  | tick {elapsed : Nat} : s.Moves (.tick elapsed) { s with now := s.now + elapsed }

/-- Every step is one of these. -/
theorem step_moves {s s' : State} {a : Action} (hstep : s.step a = some s') : s.Moves a s' := by
  cases a with
  | call kb key uri client =>
    simp only [State.step, Option.ite_none_right_eq_some, Option.some.injEq] at hstep
    obtain ⟨hlive, rfl⟩ := hstep
    exact .call hlive
  | register i =>
    simp only [State.step, Option.bind_eq_bind, Option.bind_eq_some_iff,
      Option.ite_none_right_eq_some] at hstep
    obtain ⟨call, hcall, hnew, hs'⟩ := hstep
    cases hs'
    exact .register hcall hnew
  | answer i =>
    simp only [State.step, Option.bind_eq_bind, Option.bind_eq_some_iff] at hstep
    obtain ⟨call, hcall, id, hwatch, hs'⟩ := hstep
    cases hs'
    exact .answer hcall hwatch
  | unsubscribe kb key =>
    cases hstep
    exact .unsubscribe
  | noteCaller client =>
    cases hstep
    exact .noteCaller
  | watchListChanges kbs client =>
    cases hstep
    exact .watchListChanges
  | streamOpened id =>
    rw [State.step] at hstep
    obtain ⟨hid, hrunning, w, hw, rfl⟩ := whileRunning_eq_some hstep
    cases hw
    exact .streamOpened hid hrunning
  | streamRefused id status =>
    rw [State.step] at hstep
    obtain ⟨hid, hrunning, w, hw, rfl⟩ := whileRunning_eq_some hstep
    simp only [Option.ite_none_right_eq_some] at hw
    obtain ⟨hstatus, hw⟩ := hw
    cases hw
    exact .streamRefused hid hrunning hstatus
  | streamLeft id =>
    rw [State.step] at hstep
    obtain ⟨hid, hrunning, w, hw, rfl⟩ := whileRunning_eq_some hstep
    simp only [Option.ite_none_right_eq_some, Bool.or_eq_true, Bool.not_eq_true', or_assoc] at hw
    obtain ⟨hwhy, hw⟩ := hw
    cases hw
    exact .streamLeft hid hrunning hwhy
  | changed id key =>
    simp only [State.step, Option.ite_none_right_eq_some] at hstep
    obtain ⟨⟨hid, hrunning, hopened⟩, hs'⟩ := hstep
    split at hs'
    · next uri hkey =>
      cases hs'
      exact .changed hid hrunning hopened hkey
    · next hkey =>
      cases hs'
      exact .changedOther hid hrunning hopened hkey
  | strand id =>
    simp only [State.step, Option.ite_none_right_eq_some] at hstep
    obtain ⟨⟨hid, hexited, hrefused⟩, hs'⟩ := hstep
    cases hs'
    exact .strand hid hexited hrefused
  | clear id =>
    simp only [State.step, Option.ite_none_right_eq_some, Bool.not_eq_true] at hstep
    obtain ⟨⟨hid, hover⟩, hs'⟩ := hstep
    cases hs'
    exact .clear hid hover
  | forget id =>
    simp only [State.step, Option.ite_none_right_eq_some] at hstep
    obtain ⟨⟨hid, hcleared⟩, hs'⟩ := hstep
    cases hs'
    exact .forget hid hcleared
  | leave id =>
    simp only [State.step, Option.ite_none_right_eq_some] at hstep
    obtain ⟨⟨hid, hforgotten⟩, hs'⟩ := hstep
    cases hs'
    exact .leave hid hforgotten
  | send i =>
    simp only [State.step, Option.ite_none_right_eq_some] at hstep
    obtain ⟨hi, hs'⟩ := hstep
    cases hs'
    exact .send hi
  | beginRehome i =>
    simp only [State.step, Option.bind_eq_bind, Option.bind_eq_some_iff,
      Option.ite_none_right_eq_some] at hstep
    obtain ⟨task, htask, hnew, hs'⟩ := hstep
    cases hs'
    exact .beginRehome htask hnew
  | probed i verdict =>
    simp only [State.step, Option.bind_eq_bind, Option.bind_eq_some_iff] at hstep
    obtain ⟨task, htask, hs'⟩ := hstep
    split at hs'
    · next hpending =>
      cases hs'
      exact .probed htask hpending
    · cases hs'
  | commit i =>
    simp only [State.step, Option.bind_eq_bind, Option.bind_eq_some_iff,
      Option.ite_none_right_eq_some] at hstep
    obtain ⟨task, htask, hdone, hs'⟩ := hstep
    cases hs'
    exact .commit htask hdone
  | stopRehome i =>
    simp only [State.step, Option.ite_none_right_eq_some] at hstep
    obtain ⟨⟨hcancelled, hi⟩, hs'⟩ := hstep
    cases hs'
    exact .stopRehome hcancelled hi
  | wake i later =>
    simp only [State.step, Option.bind_eq_bind, Option.bind_eq_some_iff,
      Option.ite_none_right_eq_some] at hstep
    obtain ⟨keeper, hkeeper, rfl, hs'⟩ := hstep
    cases hs'
    exact .wake hkeeper
  | answered i =>
    simp only [State.step, Option.bind_eq_bind, Option.bind_eq_some_iff,
      Option.ite_none_right_eq_some] at hstep
    obtain ⟨keeper, hkeeper, rfl, hs'⟩ := hstep
    cases hs'
    exact .answered hkeeper
  | unanswered i =>
    simp only [State.step, Option.bind_eq_bind, Option.bind_eq_some_iff,
      Option.ite_none_right_eq_some] at hstep
    obtain ⟨keeper, hkeeper, rfl, hs'⟩ := hstep
    cases hs'
    exact .unanswered hkeeper
  | stopKeeper i =>
    simp only [State.step, Option.ite_none_right_eq_some] at hstep
    obtain ⟨⟨hcancelled, hi⟩, hs'⟩ := hstep
    cases hs'
    exact .stopKeeper hcancelled hi
  | closeTransport =>
    cases hstep
    exact .closeTransport
  | shutdown =>
    cases hstep
    exact .shutdown
  | tick elapsed =>
    cases hstep
    exact .tick

theorem standDownIfIdle_toHoldings (s : State) (later : Nat) :
    (s.standDownIfIdle later).2.toHoldings = Effect.apply (Effect.apply s.toHoldings .prune) (.tick later) := by
  unfold State.standDownIfIdle
  dsimp only
  split <;> rfl

/-- Every step comes down to allowed effects, with the action behind them. -/
theorem step_effects {s s' : State} {a : Action} (hstep : s.step a = some s') :
    ∃ es, Effects s.toHoldings es s'.toHoldings ∧ ∀ e ∈ es, e.From s a := by
  cases step_moves hstep with
  | @register i call hcall hnew =>
    rw [State.ensureKeeper_toHoldings]
    refine ⟨_, Effects.single (e := .enroll (call.kb, call.client) call.key call.uri) trivial, ?_⟩
    intro e he
    cases List.mem_singleton.mp he
    exact ⟨i, call, rfl, hcall, rfl, rfl⟩
  | @unsubscribe kb key =>
    exact ⟨_, Effects.single (e := .unsubscribe kb key) trivial, by simp [Effect.From]⟩
  | noteCaller =>
    rw [State.rehomeIfDue_toHoldings]
    exact ⟨_, Effects.single (e := .prune) trivial, by simp [Effect.From]⟩
  | @watchListChanges kbs client =>
    exact ⟨_, watchList_effects client kbs s.toHoldings, by simp [Effect.From]⟩
  | @streamOpened id hid hrunning =>
    exact ⟨_, Effects.single (e := .opened id) ⟨hid, hrunning⟩, by simp [Effect.From]⟩
  | @streamRefused id status hid hrunning hstatus =>
    exact ⟨_, Effects.single (e := .refused id status) ⟨hid, hrunning, hstatus⟩, by simp [Effect.From]⟩
  | @streamLeft id hid hrunning hwhy =>
    exact ⟨_, Effects.single (e := .left id) ⟨hid, hrunning, hwhy⟩, by simp [Effect.From]⟩
  | @strand id hid hexited hrefused =>
    exact ⟨_, Effects.single (e := .strand id) ⟨hid, hexited, hrefused⟩, by simp [Effect.From]⟩
  | @clear id hid hover =>
    exact ⟨_, Effects.single (e := .clear id) ⟨hid, hover⟩, by simp [Effect.From]⟩
  | @forget id hid hcleared =>
    exact ⟨_, Effects.single (e := .forget id) ⟨hid, hcleared⟩, by simp [Effect.From]⟩
  | @leave id hid hforgotten =>
    refine ⟨[.done id], ?_, by simp [Effect.From]⟩
    split
    · rw [State.rehomeIfDue_toHoldings]
      exact Effects.single (e := .done id) ⟨hid, hforgotten⟩
    · exact Effects.single (e := .done id) ⟨hid, hforgotten⟩
  | @commit i task htask hdone =>
    obtain ⟨es, hes, hform⟩ := commit_effects { s with rehomes := s.rehomes.eraseIdx i } task
    refine ⟨es, hes, ?_⟩
    intro e he
    rcases hform e he with ⟨kb, key, uri, rfl, hmem⟩ | ⟨kb, key, rfl, hmem⟩ | rfl | ⟨kb, rfl⟩ | rfl
    · exact ⟨i, task, rfl, htask, rfl, hmem⟩
    · exact ⟨i, task, rfl, htask, hmem⟩
    · trivial
    · trivial
    · trivial
  | @wake i later hkeeper =>
    refine ⟨[.prune, .tick later], ?_, by simp [Effect.From]⟩
    dsimp only
    rw [standDownIfIdle_toHoldings]
    exact .cons trivial (Effects.single trivial)
  | unanswered => exact ⟨_, Effects.single (e := .giveUp) trivial, by simp [Effect.From]⟩
  | closeTransport => exact ⟨_, Effects.single (e := .closeTransport) trivial, by simp [Effect.From]⟩
  | shutdown => exact ⟨_, Effects.single (e := .shutdown) trivial, by simp [Effect.From]⟩
  | @tick elapsed => exact ⟨_, Effects.single (e := .tick elapsed) trivial, by simp [Effect.From]⟩
  | _ => exact ⟨[], .nil, by simp⟩

-- ---------------------------------------------------------------------------
-- What a step leaves alone
-- ---------------------------------------------------------------------------

/-- The steps that change which notices are on their way. -/
def Action.changesNotices : Action → Bool
  | .changed .. | .strand _ | .send _ | .commit _ => true
  | _ => false

/-- The steps that change which keepers run. -/
def Action.changesKeepers : Action → Bool
  | .register _ | .wake .. | .answered _ | .unanswered _ | .stopKeeper _ => true
  | _ => false

/-- The steps that change which calls wait. -/
def Action.changesCalls : Action → Bool
  | .call .. | .register _ | .answer _ | .unsubscribe .. => true
  | _ => false

structure Frame (s : State) (a : Action) (s' : State) : Prop where
  notices : a.changesNotices = false → s'.notices = s.notices
  keepers : a.changesKeepers = false → s'.keeperStarted = s.keeperStarted ∧ s'.keepers = s.keepers
  calls : a.changesCalls = false → s'.calls = s.calls

theorem settle_frame (client : Credential) (verdicts : List (Text × Text × Verdict))
    (done : State × List (Text × Text)) :
    (verdicts.foldl (State.settle client) done).1.keeperStarted = done.1.keeperStarted ∧
      (verdicts.foldl (State.settle client) done).1.keepers = done.1.keepers ∧
      (verdicts.foldl (State.settle client) done).1.calls = done.1.calls := by
  induction verdicts generalizing done with
  | nil => exact ⟨rfl, rfl, rfl⟩
  | cons found verdicts ih =>
    obtain ⟨s, kept⟩ := done
    obtain ⟨kb, key, verdict⟩ := found
    have hone : (State.settle client (s, kept) (kb, key, verdict)).1.keeperStarted = s.keeperStarted ∧
        (State.settle client (s, kept) (kb, key, verdict)).1.keepers = s.keepers ∧
        (State.settle client (s, kept) (kb, key, verdict)).1.calls = s.calls := by
      unfold State.settle
      dsimp only
      split
      · exact ⟨rfl, rfl, rfl⟩
      · split
        · split <;> exact ⟨rfl, rfl, rfl⟩
        · exact ⟨rfl, rfl, rfl⟩
    obtain ⟨hstarted, hkeepers, hcalls⟩ := ih (State.settle client (s, kept) (kb, key, verdict))
    rw [List.foldl_cons, hstarted, hkeepers, hcalls]
    exact hone

theorem commit_frame (s : State) (task : Rehome) :
    (s.commit task).keeperStarted = s.keeperStarted ∧ (s.commit task).keepers = s.keepers ∧
      (s.commit task).calls = s.calls := by
  unfold State.commit
  dsimp only
  split
  · rw [State.rehomeUnlessJustTried_eq]
    exact settle_frame task.client task.verdicts ({ s with rehoming := false }, [])
  · exact ⟨rfl, rfl, rfl⟩

theorem step_frame {s s' : State} {a : Action} (hstep : s.step a = some s') : Frame s a s' := by
  have hsame : ∀ {h : Holdings} {rehoming : Bool} {rehomes : List Rehome} {latest peer},
      Frame s a { s with toHoldings := h, rehoming, rehomes, latest, peer } :=
    ⟨fun _ => rfl, fun _ => ⟨rfl, rfl⟩, fun _ => rfl⟩
  cases step_moves hstep with
  | call => exact ⟨fun _ => rfl, fun _ => ⟨rfl, rfl⟩, nofun⟩
  | register =>
    refine ⟨fun _ => ?_, nofun, nofun⟩
    unfold State.ensureKeeper
    split <;> rfl
  | answer => exact ⟨fun _ => rfl, fun _ => ⟨rfl, rfl⟩, nofun⟩
  | unsubscribe => exact ⟨fun _ => rfl, fun _ => ⟨rfl, rfl⟩, nofun⟩
  | noteCaller =>
    rw [State.rehomeIfDue, State.rehomeUnlessJustTried_eq]
    exact hsame
  | leave =>
    split
    · rw [State.rehomeIfDue, State.rehomeUnlessJustTried_eq]
      exact hsame
    · exact hsame
  | changed => exact ⟨nofun, fun _ => ⟨rfl, rfl⟩, fun _ => rfl⟩
  | strand => exact ⟨nofun, fun _ => ⟨rfl, rfl⟩, fun _ => rfl⟩
  | send => exact ⟨nofun, fun _ => ⟨rfl, rfl⟩, fun _ => rfl⟩
  | @commit i task =>
    obtain ⟨hstarted, hkeepers, hcalls⟩ := commit_frame { s with rehomes := s.rehomes.eraseIdx i } task
    exact ⟨nofun, fun _ => ⟨hstarted, hkeepers⟩, fun _ => hcalls⟩
  | wake =>
    refine ⟨fun _ => ?_, nofun, fun _ => ?_⟩
    · unfold State.standDownIfIdle
      dsimp only
      split <;> rfl
    · unfold State.standDownIfIdle
      dsimp only
      split <;> rfl
  | answered => exact ⟨fun _ => rfl, nofun, fun _ => rfl⟩
  | unanswered => exact ⟨fun _ => rfl, nofun, fun _ => rfl⟩
  | stopKeeper => exact ⟨fun _ => rfl, nofun, fun _ => rfl⟩
  | _ => exact hsame

-- ---------------------------------------------------------------------------
-- The invariant
-- ---------------------------------------------------------------------------

/-- Registered watches are started and registered under their own key; a watch that was stopped has no
keys, and neither has one that is not registered, while the session is not cancelled. A forwarder that
has cleared its watch has stopped it. -/
structure Holdings.Inv (h : Holdings) : Prop where
  started : ∀ watchKey id, (watchKey, id) ∈ h.kbs → id < h.started
  named : ∀ watchKey id, (watchKey, id) ∈ h.kbs → (h.watches id).watchKey = watchKey
  stopped : ∀ id, (h.watches id).alive = false ∨ (h.watches id).cancelled = true →
    ∀ key, (h.watches id).keys.contains key = false
  unregistered : h.cancelled = false → ∀ id, (∀ watchKey, (watchKey, id) ∉ h.kbs) →
    ∀ key, (h.watches id).keys.contains key = false
  cleared : ∀ id, (h.watches id).forward.past = true → (h.watches id).alive = false

namespace Holdings

variable {h h' : Holdings}

@[simp] theorem setWatch_kbs (id : Nat) (w : KbWatch) : (h.setWatch id w).kbs = h.kbs := rfl
@[simp] theorem setWatch_stranded (id : Nat) (w : KbWatch) : (h.setWatch id w).stranded = h.stranded := rfl
@[simp] theorem setWatch_started (id : Nat) (w : KbWatch) : (h.setWatch id w).started = h.started := rfl
@[simp] theorem setWatch_now (id : Nat) (w : KbWatch) : (h.setWatch id w).now = h.now := rfl
@[simp] theorem setWatch_cancelled (id : Nat) (w : KbWatch) :
    (h.setWatch id w).cancelled = h.cancelled := rfl

@[simp] theorem setWatch_self (id : Nat) (w : KbWatch) : (h.setWatch id w).watches id = w :=
  Function.update_self ..

theorem setWatch_of_ne {id id' : Nat} (hne : id' ≠ id) (w : KbWatch) :
    (h.setWatch id w).watches id' = h.watches id' := Function.update_of_ne hne ..

theorem usable_eq_some {watchKey : WatchKey} {id : Nat} :
    h.usable watchKey = some id ↔ (watchKey, id) ∈ h.kbs ∧ (h.watches id).alive = true ∧
      (h.watches id).cancelled = false ∧ h.cancelled = false := by
  unfold usable
  constructor
  · intro husable
    cases hget : h.kbs.get? watchKey with
    | none =>
      rw [hget] at husable
      cases husable
    | some id' =>
      simp only [hget, Option.ite_none_right_eq_some, Bool.and_eq_true, Bool.not_eq_true',
        Bool.or_eq_false_iff] at husable
      obtain ⟨⟨halive, hlive, hsession⟩, heq⟩ := husable
      cases heq
      exact ⟨Assoc.get?_eq_some.mp hget, halive, hlive, hsession⟩
  · rintro ⟨hmem, halive, hlive, hsession⟩
    simp [Assoc.get?_eq_some.mpr hmem, halive, hlive, hsession]

/-- The watch that is changed is a live registered one, or a new one. -/
theorem amendWatch_cases (h : Holdings) (watchKey : WatchKey) (f : KbWatch → KbWatch) :
    (∃ id, h.usable watchKey = some id ∧ h.amendWatch watchKey f = h.setWatch id (f (h.watches id))) ∨
    (h.usable watchKey = none ∧ h.amendWatch watchKey f =
      { h.setWatch h.started (f (.new watchKey)) with
        kbs := h.kbs.insert watchKey h.started
        started := h.started + 1 }) := by
  unfold amendWatch ensureWatch
  cases husable : h.usable watchKey with
  | some id => exact Or.inl ⟨id, rfl, rfl⟩
  | none =>
    refine Or.inr ⟨rfl, ?_⟩
    simp [setWatch, Function.update_idem]

/-- Only watches and where they are registered change. -/
theorem amendWatch_frame (h : Holdings) (watchKey : WatchKey) (f : KbWatch → KbWatch) :
    (h.amendWatch watchKey f).gone = h.gone ∧ (h.amendWatch watchKey f).cancelled = h.cancelled ∧
      (h.amendWatch watchKey f).transport = h.transport ∧ (h.amendWatch watchKey f).now = h.now ∧
      (h.amendWatch watchKey f).stranded = h.stranded := by
  rcases h.amendWatch_cases watchKey f with ⟨id, -, heq⟩ | ⟨-, heq⟩ <;> rw [heq] <;>
    exact ⟨rfl, rfl, rfl, rfl, rfl⟩

/-- A session that notifications do not reach, or that was given up on, stays so. -/
theorem flags_of_apply (h : Holdings) (e : Effect) :
    ((e.apply h).gone = false → h.gone = false) ∧
      ((e.apply h).cancelled = false → h.cancelled = false) ∧
      ((e.apply h).transport = true → h.transport = true) := by
  have hamend : ∀ (h : Holdings) watchKey f,
      ((h.amendWatch watchKey f).gone = false → h.gone = false) ∧
        ((h.amendWatch watchKey f).cancelled = false → h.cancelled = false) ∧
        ((h.amendWatch watchKey f).transport = true → h.transport = true) := by
    intro h watchKey f
    obtain ⟨hgone, hcancelled, htransport, -⟩ := h.amendWatch_frame watchKey f
    rw [hgone, hcancelled, htransport]
    exact ⟨fun hlive => hlive, fun hlive => hlive, fun hlive => hlive⟩
  cases e with
  | enroll watchKey key uri => exact hamend h watchKey _
  | watchList watchKey => exact hamend h watchKey _
  | move kb client key uri => exact hamend (h.takeStranded kb client key) (kb, client) _
  | strand id =>
    unfold Effect.apply Holdings.strand
    dsimp only
    split <;> exact ⟨fun hlive => hlive, fun hlive => hlive, fun hlive => hlive⟩
  | giveUp => exact ⟨nofun, nofun, fun hlive => hlive⟩
  | shutdown => exact ⟨fun hlive => hlive, nofun, fun hlive => hlive⟩
  | closeTransport => exact ⟨fun hlive => hlive, fun hlive => hlive, nofun⟩
  | _ => exact ⟨fun hlive => hlive, fun hlive => hlive, fun hlive => hlive⟩

theorem stillDeliverable_iff : h.stillDeliverable = true ↔ h.gone = false ∧ h.cancelled = false := by
  simp [stillDeliverable]

/-- Watches that hold the same keys in the same way. -/
def SameKeys (w w' : KbWatch) : Prop :=
  w'.watchKey = w.watchKey ∧ w'.keys = w.keys ∧ w'.alive = w.alive ∧ w'.cancelled = w.cancelled ∧
    (w'.forward.past = true → w.forward.past = true)

theorem SameKeys.rfl {w : KbWatch} : SameKeys w w := ⟨Eq.refl _, Eq.refl _, Eq.refl _, Eq.refl _, id⟩

theorem sameKeys_setWatch {id : Nat} {w : KbWatch} (hw : SameKeys (h.watches id) w) (id' : Nat) :
    SameKeys (h.watches id') ((h.setWatch id w).watches id') := by
  by_cases hid : id' = id
  · cases hid
    rw [setWatch_self]
    exact hw
  · rw [setWatch_of_ne hid]
    exact .rfl

/-- The invariant is about the registered watches and their keys only. -/
theorem Inv.of_sameKeys (hinv : h.Inv) (hkbs : h'.kbs = h.kbs) (hstarted : h'.started = h.started)
    (hcancelled : h'.cancelled = false → h.cancelled = false)
    (hsame : ∀ id, SameKeys (h.watches id) (h'.watches id)) : h'.Inv where
  started watchKey id hmem := by
    rw [hstarted]
    exact hinv.started watchKey id (hkbs ▸ hmem)
  named watchKey id hmem := by
    rw [(hsame id).1]
    exact hinv.named watchKey id (hkbs ▸ hmem)
  stopped id hstopped key := by
    obtain ⟨-, hkeys, halive, hcancel, -⟩ := hsame id
    rw [halive, hcancel] at hstopped
    rw [hkeys]
    exact hinv.stopped id hstopped key
  unregistered hlive id hnot key := by
    rw [(hsame id).2.1]
    refine hinv.unregistered (hcancelled hlive) id (fun watchKey hmem => hnot watchKey ?_) key
    rw [hkbs]
    exact hmem
  cleared id hcleared := by
    obtain ⟨-, -, halive, -, hforward⟩ := hsame id
    rw [halive]
    exact hinv.cleared id (hforward hcleared)

/-- A live registered watch changes only what it holds. -/
theorem Inv.setUsable (hinv : h.Inv) {watchKey : WatchKey} {id : Nat} (husable : h.usable watchKey = some id)
    {w : KbWatch} (hkey : w.watchKey = (h.watches id).watchKey) (halive : w.alive = (h.watches id).alive)
    (hcancel : w.cancelled = (h.watches id).cancelled) (hforward : w.forward = (h.watches id).forward) :
    (h.setWatch id w).Inv := by
  obtain ⟨hmem, halive', hlive, -⟩ := usable_eq_some.mp husable
  constructor
  · exact hinv.started
  · intro watchKey' id' hmem'
    by_cases hid : id' = id
    · cases hid
      rw [setWatch_self, hkey]
      exact hinv.named watchKey' id hmem'
    · rw [setWatch_of_ne hid]
      exact hinv.named watchKey' id' hmem'
  · intro id' hstopped key
    by_cases hid : id' = id
    · cases hid
      rw [setWatch_self, halive, hcancel, halive', hlive] at hstopped
      simp at hstopped
    · rw [setWatch_of_ne hid] at hstopped ⊢
      exact hinv.stopped id' hstopped key
  · intro hsession id' hnot key
    by_cases hid : id' = id
    · cases hid
      exact absurd hmem (hnot watchKey)
    · rw [setWatch_of_ne hid]
      exact hinv.unregistered hsession id' hnot key
  · intro id' hcleared
    by_cases hid : id' = id
    · cases hid
      rw [setWatch_self, hforward] at hcleared
      rw [setWatch_self, halive]
      exact hinv.cleared id hcleared
    · rw [setWatch_of_ne hid] at hcleared ⊢
      exact hinv.cleared id' hcleared

/-- A watch that a new one takes the place of was stopped. -/
theorem stopped_of_not_usable {watchKey : WatchKey} {id : Nat} (husable : h.usable watchKey = none)
    (hsession : h.cancelled = false) (hmem : (watchKey, id) ∈ h.kbs) :
    (h.watches id).alive = false ∨ (h.watches id).cancelled = true := by
  cases halive : (h.watches id).alive with
  | false => exact Or.inl rfl
  | true =>
    cases hcancel : (h.watches id).cancelled with
    | true => exact Or.inr rfl
    | false =>
      rw [usable_eq_some.mpr ⟨hmem, halive, hcancel, hsession⟩] at husable
      cases husable

theorem Inv.startWatch (hinv : h.Inv) {watchKey : WatchKey} (husable : h.usable watchKey = none) {w : KbWatch}
    (hkey : w.watchKey = watchKey) (halive : w.alive = true) (hcancel : w.cancelled = false)
    (hforward : w.forward = .running) :
    ({ h.setWatch h.started w with
      kbs := h.kbs.insert watchKey h.started
      started := h.started + 1 } : Holdings).Inv := by
  constructor
  · intro watchKey' id' hmem'
    rcases Assoc.mem_insert.mp hmem' with ⟨hold, -⟩ | hnew
    · exact Nat.lt_succ_of_lt (hinv.started watchKey' id' hold)
    · cases hnew
      exact Nat.lt_succ_self _
  · intro watchKey' id' hmem'
    rcases Assoc.mem_insert.mp hmem' with ⟨hold, -⟩ | hnew
    · have hid : id' ≠ h.started := (hinv.started watchKey' id' hold).ne
      simp only [setWatch_of_ne hid]
      exact hinv.named watchKey' id' hold
    · cases hnew
      simp only [setWatch_self, hkey]
  · intro id' hstopped key
    by_cases hid : id' = h.started
    · cases hid
      simp only [setWatch_self, halive, hcancel] at hstopped
      rcases hstopped with hstopped | hstopped <;> cases hstopped
    · simp only [setWatch_of_ne hid] at hstopped ⊢
      exact hinv.stopped id' hstopped key
  · intro hsession id' hnot key
    by_cases hid : id' = h.started
    · cases hid
      exact absurd (Assoc.mem_insert.mpr (Or.inr rfl)) (hnot watchKey)
    · simp only [setWatch_of_ne hid]
      by_cases hreg : ∃ watchKey', (watchKey', id') ∈ h.kbs
      · -- it was registered under the same key, and is not usable: it has been stopped
        obtain ⟨watchKey', hmem⟩ := hreg
        have hreplaced : watchKey' = watchKey := by
          by_contra hne
          exact hnot watchKey' (Assoc.mem_insert.mpr (Or.inl ⟨hmem, hne⟩))
        cases hreplaced
        exact hinv.stopped id' (stopped_of_not_usable husable hsession hmem) key
      · exact hinv.unregistered hsession id' (fun watchKey' hmem => hreg ⟨watchKey', hmem⟩) key
  · intro id' hcleared
    by_cases hid : id' = h.started
    · cases hid
      simp only [setWatch_self, hforward] at hcleared
      cases hcleared
    · simp only [setWatch_of_ne hid] at hcleared ⊢
      exact hinv.cleared id' hcleared

theorem Inv.amendWatch (hinv : h.Inv) (watchKey : WatchKey) {f : KbWatch → KbWatch}
    (hf : ∀ w, (f w).watchKey = w.watchKey ∧ (f w).alive = w.alive ∧ (f w).cancelled = w.cancelled ∧
      (f w).forward = w.forward) :
    (h.amendWatch watchKey f).Inv := by
  rcases h.amendWatch_cases watchKey f with ⟨id, husable, heq⟩ | ⟨husable, heq⟩
  · obtain ⟨hkey, halive, hcancel, hforward⟩ := hf (h.watches id)
    rw [heq]
    exact hinv.setUsable husable hkey halive hcancel hforward
  · obtain ⟨hkey, halive, hcancel, hforward⟩ := hf (.new watchKey)
    rw [heq]
    exact hinv.startWatch husable hkey halive hcancel hforward

theorem Inv.enroll (hinv : h.Inv) (watchKey : WatchKey) (key uri : Text) :
    (h.enroll watchKey key uri).Inv := by
  unfold Holdings.enroll
  exact hinv.amendWatch watchKey fun w => ⟨rfl, rfl, rfl, rfl⟩

theorem Inv.watchList (hinv : h.Inv) (watchKey : WatchKey) : (h.watchList watchKey).Inv := by
  unfold Holdings.watchList
  exact hinv.amendWatch watchKey fun w => ⟨rfl, rfl, rfl, rfl⟩

theorem wanted_iff {w : KbWatch} :
    w.wanted = true ↔ w.listChanged = true ∨ ∃ key, w.keys.contains key = true := by
  unfold KbWatch.wanted
  rw [Bool.or_eq_true, Bool.not_eq_true', Bool.eq_false_iff, ne_eq, Assoc.isEmpty_iff]
  simp

@[simp] theorem withoutKey_watchKey (w : KbWatch) (key : Text) :
    (withoutKey w key).watchKey = w.watchKey := by
  unfold withoutKey
  dsimp only
  split <;> rfl

@[simp] theorem withoutKey_keys (w : KbWatch) (key : Text) :
    (withoutKey w key).keys = w.keys.erase key := by
  unfold withoutKey
  dsimp only
  split <;> rfl

@[simp] theorem withoutKey_listChanged (w : KbWatch) (key : Text) :
    (withoutKey w key).listChanged = w.listChanged := by
  unfold withoutKey
  dsimp only
  split <;> rfl

@[simp] theorem withoutKey_alive (w : KbWatch) (key : Text) : (withoutKey w key).alive = w.alive := by
  unfold withoutKey
  dsimp only
  split <;> rfl

@[simp] theorem withoutKey_forward (w : KbWatch) (key : Text) :
    (withoutKey w key).forward = w.forward := by
  unfold withoutKey
  dsimp only
  split <;> rfl

@[simp] theorem withoutKey_link (w : KbWatch) (key : Text) : (withoutKey w key).link = w.link := by
  unfold withoutKey
  dsimp only
  split <;> rfl

theorem withoutKey_cancelled (w : KbWatch) (key : Text) :
    (withoutKey w key).cancelled = true ↔ w.cancelled = true ∨ (withoutKey w key).wanted = false := by
  have hwanted : (withoutKey w key).wanted = { w with keys := w.keys.erase key }.wanted := by
    simp [KbWatch.wanted]
  rw [hwanted]
  unfold withoutKey
  dsimp only
  split
  · next h => simp [h]
  · next h => simp [h]

theorem unsubscribe_of_mem {kb key : Text} {credential : Credential} {id : Nat}
    (hmem : ((kb, credential), id) ∈ h.kbs) :
    (h.unsubscribe kb key).watches id = withoutKey (h.watches id) key := by
  unfold unsubscribe
  dsimp only
  rw [if_pos]
  exact List.any_eq_true.mpr ⟨_, hmem, by simp⟩

theorem unsubscribe_of_not_mem {kb key : Text} {id : Nat}
    (hnot : ∀ credential, ((kb, credential), id) ∉ h.kbs) :
    (h.unsubscribe kb key).watches id = h.watches id := by
  unfold unsubscribe
  dsimp only
  rw [if_neg]
  intro hany
  obtain ⟨⟨⟨kb', credential⟩, id'⟩, hmem, heq⟩ := List.any_eq_true.mp hany
  simp only [Bool.and_eq_true, decide_eq_true_eq] at heq
  obtain ⟨rfl, rfl⟩ := heq
  exact hnot credential hmem

theorem mem_unsubscribe_kbs {kb key kb' : Text} {credential : Credential} {id : Nat} :
    ((kb', credential), id) ∈ (h.unsubscribe kb key).kbs ↔ ((kb', credential), id) ∈ h.kbs ∧
      (kb' ≠ kb ∨ ((h.unsubscribe kb key).watches id).wanted = true) := by
  unfold unsubscribe
  dsimp only
  rw [Assoc.mem_retain]
  simp

theorem Inv.unsubscribe (hinv : h.Inv) (kb key : Text) : (h.unsubscribe kb key).Inv := by
  have hcases : ∀ id, (∃ credential, ((kb, credential), id) ∈ h.kbs) ∨
      ∀ credential, ((kb, credential), id) ∉ h.kbs := fun id => by
    rw [← not_exists]
    exact em _
  constructor
  · rintro ⟨kb', credential⟩ id hmem
    exact hinv.started _ id (mem_unsubscribe_kbs.mp hmem).1
  · rintro ⟨kb', credential⟩ id hmem
    have hnamed := hinv.named _ id (mem_unsubscribe_kbs.mp hmem).1
    rcases hcases id with ⟨credential', hreg⟩ | hnot
    · rw [unsubscribe_of_mem hreg, withoutKey_watchKey, hnamed]
    · rw [unsubscribe_of_not_mem hnot, hnamed]
  · intro id hstopped key'
    rcases hcases id with ⟨credential', hreg⟩ | hnot
    · rw [unsubscribe_of_mem hreg] at hstopped ⊢
      rw [withoutKey_alive, withoutKey_cancelled, ← or_assoc] at hstopped
      rcases hstopped with hstopped | hunwanted
      · rw [Bool.eq_false_iff, withoutKey_keys, ne_eq, Assoc.contains_erase,
          hinv.stopped id hstopped key']
        simp
      · rw [Bool.eq_false_iff] at hunwanted ⊢
        exact fun hkey => hunwanted (wanted_iff.mpr (Or.inr ⟨key', hkey⟩))
    · rw [unsubscribe_of_not_mem hnot] at hstopped ⊢
      exact hinv.stopped id hstopped key'
  · intro hsession id hnot key'
    rcases hcases id with ⟨credential', hreg⟩ | hout
    · have hunwanted := hnot (kb, credential')
      rw [mem_unsubscribe_kbs, not_and_or] at hunwanted
      rcases hunwanted with hunwanted | hunwanted
      · exact absurd hreg hunwanted
      · rw [Bool.eq_false_iff]
        exact fun hkey => hunwanted (Or.inr (wanted_iff.mpr (Or.inr ⟨key', hkey⟩)))
    · rw [unsubscribe_of_not_mem hout]
      refine hinv.unregistered hsession id ?_ key'
      rintro ⟨kb', credential⟩ hmem
      by_cases hkb : kb' = kb
      · cases hkb
        exact hout credential hmem
      · exact hnot _ (mem_unsubscribe_kbs.mpr ⟨hmem, Or.inl hkb⟩)
  · intro id hcleared
    rcases hcases id with ⟨credential', hreg⟩ | hout
    · rw [unsubscribe_of_mem hreg] at hcleared ⊢
      rw [withoutKey_forward] at hcleared
      rw [withoutKey_alive]
      exact hinv.cleared id hcleared
    · rw [unsubscribe_of_not_mem hout] at hcleared ⊢
      exact hinv.cleared id hcleared

theorem Inv.clear (hinv : h.Inv) (id : Nat) : (h.clear id).Inv := by
  unfold Holdings.clear
  constructor
  · exact hinv.started
  · intro watchKey id' hmem
    by_cases hid : id' = id
    · cases hid
      rw [setWatch_self]
      exact hinv.named watchKey id hmem
    · rw [setWatch_of_ne hid]
      exact hinv.named watchKey id' hmem
  · intro id' hstopped key
    by_cases hid : id' = id
    · cases hid
      rw [setWatch_self]
      rfl
    · rw [setWatch_of_ne hid] at hstopped ⊢
      exact hinv.stopped id' hstopped key
  · intro hsession id' hnot key
    by_cases hid : id' = id
    · cases hid
      rw [setWatch_self]
      rfl
    · rw [setWatch_of_ne hid]
      exact hinv.unregistered hsession id' hnot key
  · intro id' hcleared
    by_cases hid : id' = id
    · cases hid
      rw [setWatch_self]
    · rw [setWatch_of_ne hid] at hcleared ⊢
      exact hinv.cleared id' hcleared

theorem mem_forget_kbs {watchKey : WatchKey} {id id' : Nat} :
    (watchKey, id') ∈ (h.forget id).kbs ↔
      (watchKey, id') ∈ h.kbs ∧ ¬ (watchKey = (h.watches id).watchKey ∧ id' = id) := by
  unfold forget
  dsimp only
  rw [Assoc.mem_retain]
  simp [imp_iff_not_or]

theorem sameKeys_forget {id : Nat} (hcleared : (h.watches id).forward = .cleared) (id' : Nat) :
    SameKeys (h.watches id') ((h.forget id).watches id') :=
  @sameKeys_setWatch h id { h.watches id with forward := .forgotten }
    ⟨rfl, rfl, rfl, rfl, fun _ => by rw [hcleared]; rfl⟩ id'

theorem Inv.forget (hinv : h.Inv) {id : Nat} (hcleared : (h.watches id).forward = .cleared) :
    (h.forget id).Inv := by
  constructor
  · intro watchKey id' hmem
    exact hinv.started watchKey id' (mem_forget_kbs.mp hmem).1
  · intro watchKey id' hmem
    rw [(sameKeys_forget hcleared id').1]
    exact hinv.named watchKey id' (mem_forget_kbs.mp hmem).1
  · intro id' hstopped key
    obtain ⟨-, hkeys, halive, hcancel, -⟩ := sameKeys_forget hcleared id'
    rw [halive, hcancel] at hstopped
    rw [hkeys]
    exact hinv.stopped id' hstopped key
  · intro hsession id' hnot key
    rw [(sameKeys_forget hcleared id').2.1]
    by_cases hid : id' = id
    · cases hid
      exact hinv.stopped id (Or.inl (hinv.cleared id (by rw [hcleared]; rfl))) key
    · refine hinv.unregistered hsession id' (fun watchKey hmem => hnot watchKey ?_) key
      exact mem_forget_kbs.mpr ⟨hmem, fun hsame => hid hsame.2⟩
  · intro id' hcleared'
    obtain ⟨-, -, halive, -, hforward⟩ := sameKeys_forget hcleared id'
    rw [halive]
    exact hinv.cleared id' (hforward hcleared')

theorem Inv.apply (hinv : h.Inv) {e : Effect} (hallowed : e.Allowed h) : (e.apply h).Inv := by
  have hmark : ∀ id w, SameKeys (h.watches id) w → (h.setWatch id w).Inv := fun id w hw =>
    hinv.of_sameKeys rfl rfl (fun hlive => hlive) (sameKeys_setWatch hw)
  cases e with
  | enroll watchKey key uri => exact hinv.enroll watchKey key uri
  | move kb client key uri =>
    have htaken : (h.takeStranded kb client key).Inv :=
      hinv.of_sameKeys rfl rfl (fun hlive => hlive) fun _ => .rfl
    exact htaken.enroll (kb, client) key uri
  | take kb client key => exact hinv.of_sameKeys rfl rfl (fun hlive => hlive) fun _ => .rfl
  | takeLists client => exact hinv.of_sameKeys rfl rfl (fun hlive => hlive) fun _ => .rfl
  | watchList watchKey => exact hinv.watchList watchKey
  | unsubscribe kb key => exact hinv.unsubscribe kb key
  | prune => exact hinv.of_sameKeys rfl rfl (fun hlive => hlive) fun _ => .rfl
  | opened id => exact hmark id _ ⟨rfl, rfl, rfl, rfl, fun hforward => hforward⟩
  | refused id status => exact hmark id _ ⟨rfl, rfl, rfl, rfl, nofun⟩
  | left id => exact hmark id _ ⟨rfl, rfl, rfl, rfl, nofun⟩
  | strand id =>
    have hmarked := hmark id { h.watches id with forward := .stranded }
      ⟨rfl, rfl, rfl, rfl, nofun⟩
    unfold Effect.apply Holdings.strand
    dsimp only
    split
    · exact hmarked.of_sameKeys rfl rfl (fun hlive => hlive) fun _ => .rfl
    · exact hmarked
  | clear id => exact hinv.clear id
  | forget id => exact hinv.forget hallowed.2
  | done id => exact hmark id _ ⟨rfl, rfl, rfl, rfl, fun _ => by rw [hallowed.2]; rfl⟩
  | giveUp => exact hinv.of_sameKeys rfl rfl nofun fun _ => .rfl
  | shutdown => exact hinv.of_sameKeys rfl rfl nofun fun _ => .rfl
  | closeTransport => exact hinv.of_sameKeys rfl rfl (fun hlive => hlive) fun _ => .rfl
  | tick elapsed => exact hinv.of_sameKeys rfl rfl (fun hlive => hlive) fun _ => .rfl

@[simp] theorem strand_kbs (id : Nat) : (h.strand id).kbs = h.kbs := by
  unfold Holdings.strand
  dsimp only
  split <;> rfl

theorem strand_watches (id : Nat) :
    (h.strand id).watches = (h.setWatch id { h.watches id with forward := .stranded }).watches := by
  unfold Holdings.strand
  dsimp only
  split <;> rfl

/-- What is stranded afterwards was stranded before, or comes from the watch. -/
theorem contains_of_mem_strand {id : Nat} {watchKey : WatchKey} {st : Stranded} {key : Text}
    (hmem : (watchKey, st) ∈ (h.strand id).stranded) (hkey : st.keys.contains key = true) :
    (∃ st', (watchKey, st') ∈ h.stranded ∧ st'.keys.contains key = true) ∨
      (watchKey = (h.watches id).watchKey ∧ (h.watches id).keys.contains key = true) := by
  unfold Holdings.strand at hmem
  dsimp only at hmem
  split at hmem
  · rcases Assoc.mem_insert.mp hmem with ⟨hold, -⟩ | hnew
    · exact Or.inl ⟨st, hold, hkey⟩
    · cases hnew
      rcases Assoc.contains_extend.mp hkey with hkey | hkey
      · cases hget : h.stranded.get? (h.watches id).watchKey with
        | none => simp [hget, Stranded.new] at hkey
        | some st' =>
          simp only [setWatch_stranded, hget, Option.getD_some] at hkey
          exact Or.inl ⟨st', Assoc.get?_eq_some.mp hget, hkey⟩
      · exact Or.inr ⟨rfl, hkey⟩
  · exact Or.inl ⟨st, hmem, hkey⟩

theorem Inv.effects (hinv : h.Inv) {es : List Effect} (hes : Effects h es h') : h'.Inv :=
  hes.invariant (fun _ _ _ hallowed hinv => hinv.apply hallowed) hinv

end Holdings

theorem Effects.flags {h h' : Holdings} {es : List Effect} (hes : Effects h es h') :
    (h'.gone = false → h.gone = false) ∧ (h'.cancelled = false → h.cancelled = false) ∧
      (h'.transport = true → h.transport = true) := by
  induction hes with
  | nil => exact ⟨fun hlive => hlive, fun hlive => hlive, fun hlive => hlive⟩
  | @cons h h' e es _ _ ih =>
    obtain ⟨hgone, hcancelled, htransport⟩ := h.flags_of_apply e
    exact ⟨fun hlive => hgone (ih.1 hlive), fun hlive => hcancelled (ih.2.1 hlive),
      fun hlive => htransport (ih.2.2 hlive)⟩

-- ---------------------------------------------------------------------------
-- Runs
-- ---------------------------------------------------------------------------

/-- The states reached by steps that are allowed where they are taken. -/
inductive Reaches (allowed : State → Action → Prop) (s : State) : State → Prop where
  | refl : Reaches allowed s s
  | step {s' s'' : State} {a : Action} :
      Reaches allowed s s' → allowed s' a → s'.step a = some s'' → Reaches allowed s s''

/-- Any step. -/
def anyAction : State → Action → Prop := fun _ _ => True

/-- The steps of a list, one after the other. -/
def State.run (s : State) : List Action → Option State
  | [] => some s
  | a :: rest => do
    let s ← s.step a
    s.run rest

namespace Reaches

variable {allowed : State → Action → Prop} {s s' s'' : State}

/-- What every allowed step keeps is kept. -/
theorem invariant {I : State → Prop} (hreach : Reaches allowed s s')
    (hstep : ∀ s a s', allowed s a → s.step a = some s' → I s → I s') (hI : I s) : I s' := by
  induction hreach with
  | refl => exact hI
  | step _ hallowed hs ih => exact hstep _ _ _ hallowed hs ih

theorem trans (hreach : Reaches allowed s s') (hreach' : Reaches allowed s' s'') : Reaches allowed s s'' := by
  induction hreach' with
  | refl => exact hreach
  | step _ hallowed hs ih => exact ih.step hallowed hs

theorem of_run {actions : List Action} (hrun : s.run actions = some s')
    (hall : ∀ a ∈ actions, ∀ s, allowed s a) : Reaches allowed s s' := by
  induction actions generalizing s with
  | nil =>
    cases hrun
    exact .refl
  | cons a rest ih =>
    simp only [State.run, Option.bind_eq_bind, Option.bind_eq_some_iff] at hrun
    obtain ⟨next, hs, hrest⟩ := hrun
    have hfirst := Reaches.refl.step (hall a List.mem_cons_self s) hs
    exact hfirst.trans (ih hrest fun a ha => hall a (List.mem_cons_of_mem _ ha))

theorem inv (hreach : Reaches allowed State.new s) : s.Inv := by
  refine hreach.invariant (I := fun s => s.Inv) (fun s a s' _ hs hinv => ?_) ?_
  · obtain ⟨es, hes, -⟩ := step_effects hs
    exact hinv.effects hes
  · exact ⟨fun _ _ hmem => absurd hmem Assoc.not_mem_empty, fun _ _ hmem => absurd hmem Assoc.not_mem_empty,
      fun _ _ _ => rfl, fun _ _ _ _ => rfl, fun _ _ => rfl⟩

end Reaches

section Notes

def notes : Text := "notes".toList

def aMd : Text := "a.md".toList

def aUri : Text := "notedthat://notes/a.md".toList

/-- The credential a client had, and the one it has now. -/
def oldToken : Credential := some "old".toList

def newToken : Credential := some "new".toList

/-- `a.md` is subscribed as the old credential. -/
def subscribed : List Action :=
  [.call notes aMd aUri oldToken, .register 0, .streamOpened 0, .answer 0]

end Notes

end Subscriptions

end Mcp
