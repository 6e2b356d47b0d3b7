-- SUMMARY: A session is driven only by the principal that opened it, in every interleaving of requests and session endings.
import NotedThat.Mcp.Sessions

/-!
# The binding of sessions

A session nobody is on record for is open to everybody, so the record must be there from when a client
can know the id to when rmcp drops the session. What a request may do is settled when it is let in, and
stays right because the id of a session that is named is never created anew.
-/

namespace Mcp

namespace Sessions

variable {Rest Resp : Type} {rmcp : Rmcp Rest Resp}

-- ---------------------------------------------------------------------------
-- What holds in every state
-- ---------------------------------------------------------------------------

namespace State

/-- Sessions and records agree with who opened what. -/
structure Ledger (s : State Rest Resp) : Prop where
  issued : ∀ id ∈ s.sessions, s.openers id ≠ none
  noSuchSession : s.openers noSuchSession = none
  handedOut : ∀ id ∈ s.returned, s.openers id ≠ none
  recorded : ∀ id ∈ s.sessions, id ∈ s.returned → s.owners.get? id ≠ none
  owned : ∀ id o, s.owners.get? id = some o → s.openedBy id = some o ∧ id ∈ s.returned

/-- The request may have this id: its sender opened the session, or there is neither a session nor a
record. -/
def Rightful (s : State Rest Resp) (r : Request Rest) (id : Text) : Prop :=
  s.openedBy id = r.owner ∨ id ∉ s.sessions ∧ s.owners.get? id = none

/-- The answer is rmcp's to an unknown session, unless the sender opened the one it named. -/
def Told (rmcp : Rmcp Rest Resp) (s : State Rest Resp) (r : Request Rest) (resp : Resp) : Prop :=
  ∀ id ∈ r.presented, s.openedBy id = r.owner ∨ resp = rmcp.unknownSession r.method r.rest

end State

/-- What holds of request number `i` where it is. -/
def Phase.Inv (rmcp : Rmcp Rest Resp) (s : State Rest Resp) (i : Nat) (r : Request Rest) :
    Phase Resp → Prop
  | .arrived | .dropped => True
  | .sent id true => r.presented = some id ∧ s.Rightful r id
  | .sent id false => id = noSuchSession
  | .found id admitted => admitted = true ∧ r.presented = some id ∧ s.openedBy id = r.owner
  | .missed id true => r.presented = some id ∧ id ∉ s.sessions ∧ s.Rightful r id
  | .missed id false => id = noSuchSession
  | .opening none | .passed => r.presented = none
  | .opening (some id) | .opened id _ | .recording id _ =>
    r.presented = none ∧ s.openers id = some ⟨i, r.owner⟩ ∧ id ∉ s.returned
  | .closing id resp => r.presented = some id ∧ id ∉ s.sessions ∧ s.Rightful r id ∧ s.Told rmcp r resp
  | .answered (.capacityRefusal _) => r.presented = none
  | .answered (.rmcp resp) => s.Told rmcp r resp

structure Task.Inv (rmcp : Rmcp Rest Resp) (s : State Rest Resp) (i : Nat) (t : Task Rest Resp) : Prop where
  resolved : t.request.owner ≠ none
  names : ∀ id ∈ t.request.presented, id ∈ s.named ∧ s.Known id
  phase : t.phase.Inv rmcp s i t.request

structure State.Inv (rmcp : Rmcp Rest Resp) (s : State Rest Resp) : Prop where
  ledger : s.Ledger
  tasks : ∀ (i : Nat) (t : Task Rest Resp), s.tasks[i]? = some t → t.Inv rmcp s i

-- ---------------------------------------------------------------------------
-- What a step changes for the other requests
-- ---------------------------------------------------------------------------

/-- From one state to a later one nothing happens to an id that was named, but that its session and its
record may go. Only the request `who`, if any, hands out an id. -/
structure Later (s s' : State Rest Resp) (who : Option Nat) : Prop where
  openers : ∀ id, id ∈ s.named ∨ s.openers id ≠ none → s'.openers id = s.openers id
  named : ∀ id ∈ s.named, id ∈ s'.named
  returned : ∀ id ∈ s.returned, id ∈ s'.returned
  handed : ∀ id ∈ s'.returned, id ∈ s.returned ∨ ∃ i o, who = some i ∧ s.openers id = some ⟨i, o⟩
  closed : ∀ id ∈ s.named, id ∉ s.sessions → id ∉ s'.sessions
  unrecorded : ∀ id ∈ s.named, s.Known id → s.owners.get? id = none → s'.owners.get? id = none

namespace Later

variable {s s' : State Rest Resp} {who : Option Nat} {id : Text} {r : Request Rest} {i : Nat}

/-- Nothing of it changes. -/
theorem of_same (hsessions : s'.sessions = s.sessions) (howners : s'.owners = s.owners)
    (hopeners : s'.openers = s.openers) (hreturned : s'.returned = s.returned)
    (hnamed : ∀ id ∈ s.named, id ∈ s'.named) : Later s s' who where
  openers _ _ := by rw [hopeners]
  named := hnamed
  returned _ hid := hreturned ▸ hid
  handed _ hid := Or.inl (hreturned ▸ hid)
  closed _ _ hid := hsessions ▸ hid
  unrecorded _ _ _ hid := by rw [howners, hid]

theorem openedBy (hlater : Later s s' who) (hid : id ∈ s.named) : s'.openedBy id = s.openedBy id := by
  unfold State.openedBy
  rw [hlater.openers id (Or.inl hid)]

theorem known (hlater : Later s s' who) (hid : id ∈ s.named) (hknown : s.Known id) : s'.Known id := by
  rcases hknown with hnone | hreturned
  · exact Or.inl ((hlater.openers id (Or.inl hid)).trans hnone)
  · exact Or.inr (hlater.returned id hreturned)

theorem rightful (hlater : Later s s' who) (hid : id ∈ s.named) (hknown : s.Known id)
    (hright : s.Rightful r id) : s'.Rightful r id := by
  rcases hright with howner | ⟨hclosed, hnone⟩
  · exact Or.inl ((hlater.openedBy hid).trans howner)
  · exact Or.inr ⟨hlater.closed id hid hclosed, hlater.unrecorded id hid hknown hnone⟩

/-- A session that was opened by another request than `who`, and not handed out, is still not. -/
theorem opening (hlater : Later s s' who) (hother : who ≠ some i) {o : Option SessionOwner}
    (hopener : s.openers id = some ⟨i, o⟩) (hreturned : id ∉ s.returned) :
    s'.openers id = some ⟨i, o⟩ ∧ id ∉ s'.returned := by
  refine ⟨(hlater.openers id (Or.inr (by simp [hopener]))).trans hopener, fun hid => ?_⟩
  rcases hlater.handed id hid with hold | ⟨j, o', hwho, hopener'⟩
  · exact hreturned hold
  · rw [hopener] at hopener'
    cases hopener'
    exact hother hwho

theorem told (hlater : Later s s' who) (hnames : ∀ id ∈ r.presented, id ∈ s.named ∧ s.Known id)
    {resp : Resp} (htold : s.Told rmcp r resp) : s'.Told rmcp r resp := by
  intro id hid
  rw [hlater.openedBy (hnames id hid).1]
  exact htold id hid

/-- What holds of a request goes on to hold while others take their steps. -/
theorem task (hlater : Later s s' who) (hother : who ≠ some i) {t : Task Rest Resp}
    (ht : t.Inv rmcp s i) : t.Inv rmcp s' i := by
  obtain ⟨r, phase⟩ := t
  obtain ⟨hresolved, hnames, hphase⟩ := ht
  dsimp only at hresolved hnames hphase
  refine ⟨hresolved, fun id hid => ?_, ?_⟩
  · obtain ⟨hnamed, hknown⟩ := hnames id hid
    exact ⟨hlater.named id hnamed, hlater.known hnamed hknown⟩
  cases phase with
  | arrived => trivial
  | dropped => trivial
  | passed => exact hphase
  | sent id admitted =>
    cases admitted with
    | false => exact hphase
    | true =>
      obtain ⟨hpresented, hright⟩ := hphase
      obtain ⟨hnamed, hknown⟩ := hnames id hpresented
      exact ⟨hpresented, hlater.rightful hnamed hknown hright⟩
  | found id admitted =>
    obtain ⟨hadmitted, hpresented, howner⟩ := hphase
    exact ⟨hadmitted, hpresented, (hlater.openedBy (hnames id hpresented).1).trans howner⟩
  | missed id admitted =>
    cases admitted with
    | false => exact hphase
    | true =>
      obtain ⟨hpresented, hclosed, hright⟩ := hphase
      obtain ⟨hnamed, hknown⟩ := hnames id hpresented
      exact ⟨hpresented, hlater.closed id hnamed hclosed, hlater.rightful hnamed hknown hright⟩
  | opening created =>
    cases created with
    | none => exact hphase
    | some id => exact ⟨hphase.1, hlater.opening hother hphase.2.1 hphase.2.2⟩
  | opened id resp => exact ⟨hphase.1, hlater.opening hother hphase.2.1 hphase.2.2⟩
  | recording id resp => exact ⟨hphase.1, hlater.opening hother hphase.2.1 hphase.2.2⟩
  | closing id resp =>
    obtain ⟨hpresented, hclosed, hright, htold⟩ := hphase
    obtain ⟨hnamed, hknown⟩ := hnames id hpresented
    exact ⟨hpresented, hlater.closed id hnamed hclosed, hlater.rightful hnamed hknown hright,
      hlater.told hnames htold⟩
  | answered answer =>
    cases answer with
    | capacityRefusal maxSessions => exact hphase
    | rmcp resp => exact hlater.told hnames hphase

end Later

-- ---------------------------------------------------------------------------
-- What a step can do
-- ---------------------------------------------------------------------------

/-- What each kind of step needs, and what it makes of the state. -/
inductive State.Moves [DecidableEq Resp] (rmcp : Rmcp Rest Resp) (s : State Rest Resp) :
    Action Rest Resp → State Rest Resp → Prop where
  | arrive {request : Request Rest} (hknown : ∀ id ∈ request.presented, s.Known id) :
      s.Moves rmcp (.arrive request) { s with
        tasks := s.tasks ++ [⟨request, .arrived⟩]
        named := request.presented.toList ++ s.named }
  | enter {i : Nat} {t : Task Rest Resp} {s' : State Rest Resp} (ht : s.tasks[i]? = some t)
      (harrived : t.phase = .arrived) (hs : s.enter i t.request = some s') : s.Moves rmcp (.enter i) s'
  | found {i : Nat} {t : Task Rest Resp} {id : Text} {admitted : Bool} (ht : s.tasks[i]? = some t)
      (hsent : t.phase = .sent id admitted) (hlive : id ∈ s.sessions) :
      s.Moves rmcp (.lookup i) (s.setPhase i (.found id admitted))
  | missed {i : Nat} {t : Task Rest Resp} {id : Text} {admitted : Bool} (ht : s.tasks[i]? = some t)
      (hsent : t.phase = .sent id admitted) (hgone : id ∉ s.sessions) :
      s.Moves rmcp (.lookup i) (s.setPhase i (.missed id admitted))
  | create {i : Nat} {t : Task Rest Resp} {id : Text} (ht : s.tasks[i]? = some t)
      (hopening : t.phase = .opening none) (hfresh : s.Fresh id) :
      s.Moves rmcp (.create i id) { s.setPhase i (.opening (some id)) with
        sessions := id :: s.sessions
        openers := Function.update s.openers id (some ⟨i, t.request.owner⟩) }
  | close {i : Nat} {t : Task Rest Resp} {id : Text} {admitted : Bool} (ht : s.tasks[i]? = some t)
      (hfound : t.phase = .found id admitted) (hdelete : t.request.method = .delete) :
      s.Moves rmcp (.close i) { s with toMcpSessions := s.toMcpSessions.close id }
  | respond {i : Nat} {t : Task Rest Resp} {resp : Resp} {s' : State Rest Resp}
      (ht : s.tasks[i]? = some t) (hs : s.respond rmcp i t resp = some s') :
      s.Moves rmcp (.respond i resp) s'
  | lock {i : Nat} {t : Task Rest Resp} {id : Text} {resp : Resp} (ht : s.tasks[i]? = some t)
      (hopened : t.phase = .opened id resp) (hfree : s.writer = none) :
      s.Moves rmcp (.lock i) { s.setPhase i (.recording id resp) with writer := some i }
  | record {i : Nat} {t : Task Rest Resp} {id : Text} {resp : Resp} {owner : SessionOwner}
      (ht : s.tasks[i]? = some t) (hrecording : t.phase = .recording id resp)
      (howner : t.request.owner = some owner) :
      s.Moves rmcp (.record i) { s.setPhase i (.answered (.rmcp resp)) with
        toMcpSessions := s.toMcpSessions.record id owner
        writer := none
        returned := id :: s.returned }
  | forget {i : Nat} {t : Task Rest Resp} {id : Text} {resp : Resp} (ht : s.tasks[i]? = some t)
      (hclosing : t.phase = .closing id resp) (hfree : s.writer = none) :
      s.Moves rmcp (.forget i) { s.setPhase i (.answered (.rmcp resp)) with
        toMcpSessions := s.toMcpSessions.forget id }
  | drop {i : Nat} {t : Task Rest Resp} (ht : s.tasks[i]? = some t) (hrunning : ¬ t.phase.isOver = true) :
      s.Moves rmcp (.drop i) { s.setPhase i .dropped with
        writer := if s.writer = some i then none else s.writer }
  | endSession {id : Text} :
      s.Moves rmcp (.endSession id) { s with toMcpSessions := s.toMcpSessions.close id }

/-- Every step is one of these. -/
theorem step_moves [DecidableEq Resp] {s s' : State Rest Resp} {a : Action Rest Resp}
    (hs : s.step rmcp a = some s') : s.Moves rmcp a s' := by
  cases a with
  | arrive request =>
    simp only [State.step, Option.ite_none_right_eq_some] at hs
    obtain ⟨hknown, hs⟩ := hs
    cases hs
    exact .arrive hknown
  | enter i =>
    simp only [State.step, Option.bind_eq_bind, Option.bind_eq_some_iff,
      Option.ite_none_right_eq_some] at hs
    obtain ⟨t, ht, harrived, hs⟩ := hs
    exact .enter ht harrived hs
  | lookup i =>
    simp only [State.step, Option.bind_eq_bind, Option.bind_eq_some_iff] at hs
    obtain ⟨t, ht, hs⟩ := hs
    split at hs
    · next id admitted hsent =>
      split at hs
      · next hlive =>
        cases hs
        exact .found ht hsent hlive
      · next hgone =>
        cases hs
        exact .missed ht hsent hgone
    · cases hs
  | create i id =>
    simp only [State.step, Option.bind_eq_bind, Option.bind_eq_some_iff,
      Option.ite_none_right_eq_some] at hs
    obtain ⟨t, ht, ⟨hopening, hfresh⟩, hs⟩ := hs
    cases hs
    exact .create ht hopening hfresh
  | close i =>
    simp only [State.step, Option.bind_eq_bind, Option.bind_eq_some_iff] at hs
    obtain ⟨t, ht, hs⟩ := hs
    split at hs
    · next id admitted hfound =>
      rw [Option.ite_none_right_eq_some] at hs
      obtain ⟨hdelete, hs⟩ := hs
      cases hs
      exact .close ht hfound hdelete
    · cases hs
  | respond i resp =>
    simp only [State.step, Option.bind_eq_bind, Option.bind_eq_some_iff] at hs
    obtain ⟨t, ht, hs⟩ := hs
    exact .respond ht hs
  | lock i =>
    simp only [State.step, Option.bind_eq_bind, Option.bind_eq_some_iff] at hs
    obtain ⟨t, ht, hs⟩ := hs
    split at hs
    · next id resp hopened =>
      rw [Option.ite_none_right_eq_some] at hs
      obtain ⟨hfree, hs⟩ := hs
      cases hs
      exact .lock ht hopened hfree
    · cases hs
  | record i =>
    simp only [State.step, Option.bind_eq_bind, Option.bind_eq_some_iff] at hs
    obtain ⟨t, ht, hs⟩ := hs
    split at hs
    · next id resp owner hrecording howner =>
      cases hs
      exact .record ht hrecording howner
    · cases hs
  | forget i =>
    simp only [State.step, Option.bind_eq_bind, Option.bind_eq_some_iff] at hs
    obtain ⟨t, ht, hs⟩ := hs
    split at hs
    · next id resp hclosing =>
      rw [Option.ite_none_right_eq_some] at hs
      obtain ⟨hfree, hs⟩ := hs
      cases hs
      exact .forget ht hclosing hfree
    · cases hs
  | drop i =>
    simp only [State.step, Option.bind_eq_bind, Option.bind_eq_some_iff, Option.ite_none_left_eq_some] at hs
    obtain ⟨t, ht, hrunning, hs⟩ := hs
    cases hs
    exact .drop ht hrunning
  | endSession id =>
    cases hs
    exact .endSession

-- ---------------------------------------------------------------------------
-- Steps
-- ---------------------------------------------------------------------------

section Steps

variable {s s' : State Rest Resp} {i : Nat} {t : Task Rest Resp} {id : Text}

/-- A ledger only reads the sessions, the records and what was handed out. -/
theorem State.Ledger.of_same (hledger : s.Ledger) (hsessions : s'.sessions = s.sessions)
    (howners : s'.owners = s.owners) (hopeners : s'.openers = s.openers)
    (hreturned : s'.returned = s.returned) : s'.Ledger := by
  obtain ⟨hissued, hnone, hhanded, hrecorded, howned⟩ := hledger
  constructor <;> simp only [State.openedBy, hsessions, howners, hopeners, hreturned] <;> assumption

namespace State.Inv

/-- Request `i` goes to another phase. -/
theorem setPhase (hinv : s.Inv rmcp) (ht : s.tasks[i]? = some t) {phase : Phase Resp}
    (hledger : s'.Ledger) (hlater : Later s s' (some i))
    (htasks : s'.tasks = s.tasks.modify i fun t => { t with phase })
    (hphase : phase.Inv rmcp s' i t.request) : s'.Inv rmcp := by
  refine ⟨hledger, fun j t' ht' => ?_⟩
  rw [htasks, List.getElem?_modify] at ht'
  obtain ⟨old, hold, heq⟩ := Option.map_eq_some_iff.mp ht'
  by_cases hij : i = j
  · cases hij
    rw [ht] at hold
    cases hold
    rw [if_pos rfl] at heq
    cases heq
    obtain ⟨hresolved, hnames, -⟩ := hinv.tasks i t ht
    refine ⟨hresolved, fun id hid => ?_, hphase⟩
    obtain ⟨hnamed, hknown⟩ := hnames id hid
    exact ⟨hlater.named id hnamed, hlater.known hnamed hknown⟩
  · rw [if_neg hij] at heq
    cases heq
    exact hlater.task (fun hwho => hij (Option.some.inj hwho)) (hinv.tasks j t' hold)

/-- It does so and nothing else changes, but for the lock. -/
theorem onlyPhase (hinv : s.Inv rmcp) (ht : s.tasks[i]? = some t) {phase : Phase Resp}
    (writer : Option Nat) (hphase : phase.Inv rmcp s i t.request) :
    ({ s.setPhase i phase with writer := writer } : State Rest Resp).Inv rmcp := by
  refine hinv.setPhase ht (hinv.ledger.of_same rfl rfl rfl rfl) (.of_same rfl rfl rfl rfl fun _ hid => hid)
    rfl ?_
  cases phase <;> exact hphase

/-- A request arrives. -/
theorem arrive (hinv : s.Inv rmcp) {request : Request Rest} (hresolved : request.principal ≠ none)
    (hknown : ∀ id ∈ request.presented, s.Known id) :
    ({ s with
      tasks := s.tasks ++ [⟨request, .arrived⟩]
      named := request.presented.toList ++ s.named } : State Rest Resp).Inv rmcp := by
  refine ⟨hinv.ledger.of_same rfl rfl rfl rfl, fun j t ht => ?_⟩
  rw [List.getElem?_append] at ht
  split at ht
  · have hlater : Later s { s with
        tasks := s.tasks ++ [⟨request, .arrived⟩]
        named := request.presented.toList ++ s.named } none :=
      .of_same rfl rfl rfl rfl fun _ hid => List.mem_append_right _ hid
    exact hlater.task nofun (hinv.tasks j t ht)
  · obtain rfl := List.mem_singleton.mp (List.mem_of_getElem? ht)
    refine ⟨?_, fun id hid => ⟨List.mem_append_left _ (Option.mem_toList.mpr hid), hknown id hid⟩, trivial⟩
    simpa [Request.owner] using hresolved

/-- rmcp drops a session. -/
theorem close (hinv : s.Inv rmcp) (id : Text) :
    ({ s with toMcpSessions := s.toMcpSessions.close id } : State Rest Resp).Inv rmcp := by
  have hkept : ∀ id', id' ∈ (s.toMcpSessions.close id).sessions → id' ∈ s.sessions := fun id' hid' =>
    List.mem_of_mem_filter hid'
  obtain ⟨⟨hissued, hnone, hhanded, hrecorded, howned⟩, htasks⟩ := hinv
  refine ⟨⟨fun id' hid' => hissued id' (hkept id' hid'), hnone, hhanded,
    fun id' hid' => hrecorded id' (hkept id' hid'), howned⟩, fun j t ht => ?_⟩
  have hlater : Later s { s with toMcpSessions := s.toMcpSessions.close id } none :=
    { openers := fun _ _ => rfl
      named := fun _ hid => hid
      returned := fun _ hid => hid
      handed := fun _ hid => Or.inl hid
      closed := fun id' _ hid hid' => hid (hkept id' hid')
      unrecorded := fun _ _ _ hid => hid }
  exact hlater.task nofun (htasks j t ht)

/-- rmcp creates a session. Its id was not named by anybody. -/
theorem create (hinv : s.Inv rmcp) (ht : s.tasks[i]? = some t) (hphase : t.phase = .opening none)
    (hfresh : s.Fresh id) :
    ({ s.setPhase i (.opening (some id)) with
      sessions := id :: s.sessions
      openers := Function.update s.openers id (some ⟨i, t.request.owner⟩) } : State Rest Resp).Inv rmcp := by
  obtain ⟨hnew, hunnamed, hnil⟩ := hfresh
  have hsame : ∀ id', s.openers id' ≠ none →
      Function.update s.openers id (some ⟨i, t.request.owner⟩) id' = s.openers id' := by
    intro id' hid'
    refine Function.update_of_ne ?_ _ _
    rintro rfl
    exact hid' hnew
  have hreturned : id ∉ s.returned := fun hid => hinv.ledger.handedOut id hid hnew
  have hpresented : t.request.presented = none := by
    have hopening := (hinv.tasks i t ht).phase
    rwa [hphase] at hopening
  obtain ⟨hissued, hnone, hhanded, hrecorded, howned⟩ := hinv.ledger
  refine hinv.setPhase ht ⟨?_, ?_, ?_, ?_, ?_⟩ ?_ rfl ⟨hpresented, Function.update_self .., hreturned⟩
  · intro id' hid'
    rcases List.mem_cons.mp hid' with rfl | hold
    · simp
    · simpa only [hsame id' (hissued id' hold)] using hissued id' hold
  · exact (Function.update_of_ne hnil.symm _ _).trans hnone
  · intro id' hid'
    simpa only [hsame id' (hhanded id' hid')] using hhanded id' hid'
  · intro id' hid' hout
    rcases List.mem_cons.mp hid' with rfl | hold
    · exact absurd hout hreturned
    · exact hrecorded id' hold hout
  · intro id' o hget
    obtain ⟨howner, hout⟩ := howned id' o hget
    refine ⟨?_, hout⟩
    unfold State.openedBy
    dsimp only
    rw [hsame id' (hhanded id' hout)]
    exact howner
  · refine ⟨fun id' hid' => ?_, fun _ hid => hid, fun _ hid => hid, fun _ hid => Or.inl hid, ?_,
      fun _ _ _ hid => hid⟩
    · refine Function.update_of_ne ?_ _ _
      rintro rfl
      exact hid'.elim hunnamed fun hne => hne hnew
    · rintro id' hnamed hclosed hid'
      rcases List.mem_cons.mp hid' with rfl | hold
      · exact hunnamed hnamed
      · exact hclosed hold

end State.Inv

/-- Recording an owner leaves the records of the other sessions that rmcp still holds. -/
theorem McpSessions.get?_record {m : McpSessions} {id' : Text} {owner : SessionOwner} :
    (m.record id owner).owners.get? id' =
      if id' = id then some owner else if id' ∈ m.sessions then m.owners.get? id' else none := by
  have hmem : ∀ o, (m.record id owner).owners.get? id' = some o ↔
      (id', o) ∈ m.owners ∧ id' ∈ m.sessions ∧ id' ≠ id ∨ id' = id ∧ o = owner := by
    intro o
    rw [Assoc.get?_eq_some]
    simp [McpSessions.record, McpSessions.sweep, and_assoc]
  refine Option.ext fun o => ?_
  rw [hmem]
  split
  · next heq => simp [heq, eq_comm]
  · next hne =>
    split
    · next hlive => simp [hne, hlive, Assoc.get?_eq_some]
    · next hgone => simp [hne, hgone]

namespace State.Inv

/-- The owner of a session is recorded, and its id handed out. -/
theorem record (hinv : s.Inv rmcp) (ht : s.tasks[i]? = some t) {resp : Resp}
    (hphase : t.phase = .recording id resp) {owner : SessionOwner} (howner : t.request.owner = some owner) :
    ({ s.setPhase i (.answered (.rmcp resp)) with
      toMcpSessions := s.toMcpSessions.record id owner
      writer := none
      returned := id :: s.returned } : State Rest Resp).Inv rmcp := by
  have hrecording := (hinv.tasks i t ht).phase
  rw [hphase] at hrecording
  obtain ⟨hpresented, hopener, hreturned⟩ := hrecording
  rw [howner] at hopener
  obtain ⟨hissued, hnone, hhanded, hrecorded, howned⟩ := hinv.ledger
  refine hinv.setPhase ht ⟨hissued, hnone, ?_, ?_, ?_⟩ ?_ rfl ?_
  · intro id' hid'
    rcases List.mem_cons.mp hid' with rfl | hold
    · have hissued : s.openers id' ≠ none := by simp [hopener]
      exact hissued
    · exact hhanded id' hold
  · intro id' hlive hid'
    rw [McpSessions.get?_record]
    split
    · nofun
    · next hne =>
      have hlive' : id' ∈ s.sessions := hlive
      rw [if_pos hlive']
      exact hrecorded id' hlive' ((List.mem_cons.mp hid').resolve_left hne)
  · intro id' o hget
    rw [McpSessions.get?_record] at hget
    split at hget
    · next heq =>
      cases heq
      cases hget
      have howner : s.openedBy id = some owner := by simp [State.openedBy, hopener]
      exact ⟨howner, List.mem_cons_self⟩
    · split at hget
      · obtain ⟨howner', hout⟩ := howned id' o hget
        exact ⟨howner', List.mem_cons_of_mem _ hout⟩
      · cases hget
  · refine ⟨fun _ _ => rfl, fun _ hid => hid, fun _ hid => List.mem_cons_of_mem _ hid, ?_, fun _ _ hid => hid,
      ?_⟩
    · intro id' hid'
      rcases List.mem_cons.mp hid' with rfl | hold
      · exact Or.inr ⟨i, some owner, rfl, hopener⟩
      · exact Or.inl hold
    · -- an id that a client knows is not the one that is being handed out
      intro id' _ hknown hget
      rw [McpSessions.get?_record, if_neg, hget, ite_self]
      rintro rfl
      rcases hknown with hunissued | hout
      · rw [hopener] at hunissued
        cases hunissued
      · exact hreturned hout
  · intro id' hid'
    rw [hpresented] at hid'
    cases hid'

theorem forget (hinv : s.Inv rmcp) (ht : s.tasks[i]? = some t) {resp : Resp}
    (hphase : t.phase = .closing id resp) :
    ({ s.setPhase i (.answered (.rmcp resp)) with
      toMcpSessions := s.toMcpSessions.forget id } : State Rest Resp).Inv rmcp := by
  have hclosing := (hinv.tasks i t ht).phase
  rw [hphase] at hclosing
  obtain ⟨-, hclosed, -, htold⟩ := hclosing
  have hget : ∀ id' o, (s.owners.erase id).get? id' = some o ↔ s.owners.get? id' = some o ∧ id' ≠ id := by
    intro id' o
    rw [Assoc.get?_eq_some, Assoc.get?_eq_some]
    simp [Assoc.erase]
  obtain ⟨hissued, hnone, hhanded, hrecorded, howned⟩ := hinv.ledger
  refine hinv.setPhase ht ⟨hissued, hnone, hhanded, ?_, ?_⟩ ?_ rfl htold
  · intro id' hlive hout
    obtain ⟨o, ho⟩ := Option.ne_none_iff_exists'.mp (hrecorded id' hlive hout)
    have hne : id' ≠ id := by
      rintro rfl
      exact hclosed hlive
    exact Option.ne_none_iff_exists'.mpr ⟨o, (hget id' o).mpr ⟨ho, hne⟩⟩
  · intro id' o ho
    exact howned id' o ((hget id' o).mp ho).1
  · refine ⟨fun _ _ => rfl, fun _ hid => hid, fun _ hid => hid, fun _ hid => Or.inl hid, fun _ _ hid => hid, ?_⟩
    intro id' _ _ hunrecorded
    rw [Option.eq_none_iff_forall_ne_some]
    intro o ho
    rw [((hget id' o).mp ho).1] at hunrecorded
    cases hunrecorded

/-- A request is let in with the id it came with only where its sender may have it. -/
theorem rightful (hinv : s.Inv rmcp) {r : Request Rest} (hknown : s.Known id)
    (hadmits : s.admits id r.owner = true) : s.Rightful r id := by
  unfold McpSessions.admits at hadmits
  cases hget : s.owners.get? id with
  | none =>
    refine Or.inr ⟨fun hlive => ?_, hget⟩
    have hout := hknown.resolve_left (hinv.ledger.issued id hlive)
    exact hinv.ledger.recorded id hlive hout hget
  | some owner =>
    rw [hget] at hadmits
    have howner : r.owner = some owner := of_decide_eq_true hadmits
    exact Or.inl ((hinv.ledger.owned id owner hget).1.trans howner.symm)

theorem enter (hinv : s.Inv rmcp) (ht : s.tasks[i]? = some t) (hs : s.enter i t.request = some s') :
    s'.Inv rmcp := by
  unfold State.enter at hs
  split at hs
  · next id hpresented =>
    rw [Option.ite_none_right_eq_some] at hs
    obtain ⟨-, hs⟩ := hs
    split at hs
    · next hadmits =>
      cases hs
      have hknown := ((hinv.tasks i t ht).names id hpresented).2
      exact hinv.onlyPhase ht s.writer ⟨hpresented, hinv.rightful hknown hadmits⟩
    · cases hs
      exact hinv.onlyPhase ht s.writer rfl
  · next hpresented =>
    split at hs
    · split at hs
      · cases hs
        exact hinv.onlyPhase ht s.writer hpresented
      · cases hs
        exact hinv.onlyPhase ht s.writer hpresented
    · cases hs
      exact hinv.onlyPhase ht s.writer hpresented

/-- `bind_session` has an answer that is right for the sender. If it is to forget the session, there is
none. -/
theorem settle (hinv : s.Inv rmcp) (ht : s.tasks[i]? = some t) {admitted : Bool} {resp : Resp}
    (hpresented : admitted = true → t.request.presented = some id ∧ s.Rightful t.request id)
    (hclosed : t.request.method = .delete → rmcp.isSuccess resp = true → id ∉ s.sessions)
    (htold : s.Told rmcp t.request resp) : (s.settle rmcp i t.request id admitted resp).Inv rmcp := by
  unfold State.settle
  split
  · next hclosing =>
    obtain ⟨hadmitted, hmethod, hsuccess⟩ := hclosing
    obtain ⟨hid, hright⟩ := hpresented hadmitted
    exact hinv.onlyPhase ht s.writer ⟨hid, hclosed hmethod hsuccess, hright, htold⟩
  · exact hinv.onlyPhase ht s.writer htold

theorem found (hinv : s.Inv rmcp) (ht : s.tasks[i]? = some t) {admitted : Bool}
    (hsent : t.phase = .sent id admitted) (hlive : id ∈ s.sessions) :
    (s.setPhase i (.found id admitted)).Inv rmcp := by
  have hphase := (hinv.tasks i t ht).phase
  rw [hsent] at hphase
  cases admitted with
  | false =>
    cases hphase
    exact absurd hinv.ledger.noSuchSession (hinv.ledger.issued _ hlive)
  | true =>
    obtain ⟨hpresented, howner | ⟨hclosed, -⟩⟩ := hphase
    · exact hinv.onlyPhase ht s.writer ⟨rfl, hpresented, howner⟩
    · exact absurd hlive hclosed

theorem missed (hinv : s.Inv rmcp) (ht : s.tasks[i]? = some t) {admitted : Bool}
    (hsent : t.phase = .sent id admitted) (hgone : id ∉ s.sessions) :
    (s.setPhase i (.missed id admitted)).Inv rmcp := by
  have hphase := (hinv.tasks i t ht).phase
  rw [hsent] at hphase
  cases admitted with
  | false => exact hinv.onlyPhase ht s.writer hphase
  | true => exact hinv.onlyPhase ht s.writer ⟨hphase.1, hgone, hphase.2⟩

variable [DecidableEq Resp]

theorem respond (hinv : s.Inv rmcp) (ht : s.tasks[i]? = some t) {resp : Resp}
    (hs : s.respond rmcp i t resp = some s') : s'.Inv rmcp := by
  obtain ⟨hresolved, -, hphase⟩ := hinv.tasks i t ht
  unfold State.respond at hs
  split at hs
  · next id admitted hfound =>
    rw [hfound] at hphase
    obtain ⟨-, hpresented, howner⟩ := hphase
    rw [Option.ite_none_right_eq_some] at hs
    obtain ⟨hclosed, hs⟩ := hs
    cases hs
    refine hinv.settle ht (fun _ => ⟨hpresented, Or.inl howner⟩) hclosed fun id' hid' => Or.inl ?_
    rw [hpresented] at hid'
    cases hid'
    exact howner
  · next id admitted hmissed =>
    rw [hmissed] at hphase
    rw [Option.ite_none_right_eq_some] at hs
    obtain ⟨hunknown, hs⟩ := hs
    cases hs
    cases admitted with
    | false =>
      cases hphase
      refine hinv.settle ht nofun (fun _ _ hlive => ?_) fun _ _ => Or.inr hunknown
      exact hinv.ledger.issued _ hlive hinv.ledger.noSuchSession
    | true =>
      obtain ⟨hpresented, hclosed, hright⟩ := hphase
      exact hinv.settle ht (fun _ => ⟨hpresented, hright⟩) (fun _ _ => hclosed) fun _ _ => Or.inr hunknown
  · next created hopening =>
    rw [hopening] at hphase
    have hpresented : t.request.presented = none := by
      cases created with
      | none => exact hphase
      | some id => exact hphase.1
    split at hs
    · cases hs
      refine hinv.onlyPhase ht s.writer fun id hid => ?_
      rw [hpresented] at hid
      cases hid
    · next id hheader =>
      rw [Option.ite_none_right_eq_some] at hs
      obtain ⟨hcreated, hs⟩ := hs
      rw [hcreated] at hphase
      split at hs
      · cases hs
        exact hinv.onlyPhase ht s.writer hphase
      · next hnobody => exact absurd hnobody hresolved
  · next hpassed =>
    rw [hpassed] at hphase
    cases hs
    refine hinv.onlyPhase ht s.writer fun id hid => ?_
    rw [hphase] at hid
    cases hid
  · cases hs

theorem step (hinv : s.Inv rmcp) {a : Action Rest Resp} (hresolved : a.Resolved)
    (hs : s.step rmcp a = some s') : s'.Inv rmcp := by
  cases step_moves hs with
  | arrive hknown => exact hinv.arrive hresolved hknown
  | enter ht _ hs => exact hinv.enter ht hs
  | found ht hsent hlive => exact hinv.found ht hsent hlive
  | missed ht hsent hgone => exact hinv.missed ht hsent hgone
  | create ht hopening hfresh => exact hinv.create ht hopening hfresh
  | close => exact hinv.close _
  | respond ht hs => exact hinv.respond ht hs
  | @lock i t id resp ht hopened =>
    have hphase := (hinv.tasks i t ht).phase
    rw [hopened] at hphase
    exact hinv.onlyPhase ht (some i) hphase
  | record ht hrecording howner => exact hinv.record ht hrecording howner
  | forget ht hclosing => exact hinv.forget ht hclosing
  | drop ht => exact hinv.onlyPhase ht _ trivial
  | endSession => exact hinv.close _

end State.Inv

theorem Reaches.inv [DecidableEq Resp] {maxSessions : Nat}
    (hreach : Reaches rmcp (State.new maxSessions) s) : s.Inv rmcp := by
  induction hreach with
  | refl => exact ⟨⟨nofun, rfl, nofun, nofun, nofun⟩, fun i t ht => absurd (List.mem_of_getElem? ht) List.not_mem_nil⟩
  | step _ hresolved hs ih => exact ih.step hresolved hs

theorem Reaches.of_run [DecidableEq Resp] {start : State Rest Resp} {actions : List (Action Rest Resp)}
    (hreach : Reaches rmcp start s) (hrun : s.run rmcp actions = some s')
    (hall : ∀ a ∈ actions, a.Resolved) : Reaches rmcp start s' := by
  induction actions generalizing s with
  | nil =>
    cases hrun
    exact hreach
  | cons a rest ih =>
    simp only [State.run, Option.bind_eq_bind, Option.bind_eq_some_iff] at hrun
    obtain ⟨next, hs, hrest⟩ := hrun
    have hfirst := hreach.step (hall a List.mem_cons_self) hs
    exact ih hfirst hrest fun a ha => hall a (List.mem_cons_of_mem _ ha)

end Steps

-- ---------------------------------------------------------------------------
-- Main result
-- ---------------------------------------------------------------------------

section Binding

variable {s s' : State Rest Resp} {i : Nat} {t : Task Rest Resp} {id : Text}

theorem enter_same {r : Request Rest} (hs : s.enter i r = some s') :
    s'.sessions = s.sessions ∧ s'.owners = s.owners := by
  unfold State.enter at hs
  repeat' split at hs
  all_goals cases hs
  all_goals exact ⟨rfl, rfl⟩

theorem settle_same {r : Request Rest} {admitted : Bool} {resp : Resp} :
    (s.settle rmcp i r id admitted resp).sessions = s.sessions ∧
      (s.settle rmcp i r id admitted resp).owners = s.owners := by
  unfold State.settle
  split <;> exact ⟨rfl, rfl⟩

/-- Where rmcp has a request with the id of a session it holds, the sender opened the session. -/
theorem State.Inv.openedBy_of_carried (hinv : s.Inv rmcp) (ht : s.tasks[i]? = some t)
    (hcarried : t.phase.carried = some id) (hlive : id ∈ s.sessions) : s.openedBy id = t.request.owner := by
  have hphase := (hinv.tasks i t ht).phase
  have hnil : id ≠ noSuchSession := by
    rintro rfl
    exact hinv.ledger.issued _ hlive hinv.ledger.noSuchSession
  cases hp : t.phase with
  | sent id' admitted =>
    rw [hp] at hcarried hphase
    cases hcarried
    cases admitted with
    | false => exact absurd hphase hnil
    | true => exact hphase.2.resolve_right fun hgone => hgone.1 hlive
  | found id' admitted =>
    rw [hp] at hcarried hphase
    cases hcarried
    exact hphase.2.2
  | missed id' admitted =>
    rw [hp] at hcarried hphase
    cases hcarried
    cases admitted with
    | false => exact absurd hphase hnil
    | true => exact absurd hlive hphase.2.1
  | _ =>
    rw [hp] at hcarried
    cases hcarried

variable [DecidableEq Resp]

theorem respond_same {resp : Resp} (hs : s.respond rmcp i t resp = some s') :
    s'.sessions = s.sessions ∧ s'.owners = s.owners := by
  unfold State.respond at hs
  repeat' split at hs
  all_goals cases hs
  all_goals first | exact ⟨rfl, rfl⟩ | exact settle_same

/-- The steps of a request that names a session of somebody else, or none, change nothing. -/
theorem State.Inv.foreign_step (hinv : s.Inv rmcp) (ht : s.tasks[i]? = some t)
    (hpresented : t.request.presented = some id) (hforeign : s.openedBy id ≠ t.request.owner)
    {a : Action Rest Resp} (ha : a.task = some i) (hs : s.step rmcp a = some s') :
    s'.sessions = s.sessions ∧ s'.owners = s.owners := by
  have hphase := (hinv.tasks i t ht).phase
  cases step_moves hs with
  | arrive => cases ha
  | endSession => cases ha
  | enter _ _ hs => exact enter_same hs
  | respond _ hs => exact respond_same hs
  | create ht' hopening =>
    cases ha
    cases ht.symm.trans ht'
    -- only a request without a session opens one
    rw [hopening] at hphase
    cases hpresented.symm.trans hphase
  | close ht' hfound =>
    cases ha
    cases ht.symm.trans ht'
    rw [hfound] at hphase
    obtain ⟨-, hpresented', howner⟩ := hphase
    cases hpresented.symm.trans hpresented'
    exact absurd howner hforeign
  | record ht' hrecording =>
    cases ha
    cases ht.symm.trans ht'
    rw [hrecording] at hphase
    cases hpresented.symm.trans hphase.1
  | forget ht' hclosing =>
    cases ha
    cases ht.symm.trans ht'
    rw [hclosing] at hphase
    obtain ⟨hpresented', -, hright, -⟩ := hphase
    cases hpresented.symm.trans hpresented'
    -- there is no record to forget
    have hnone := (hright.resolve_left hforeign).2
    refine ⟨rfl, Assoc.erase_eq_self ?_⟩
    rw [Bool.eq_false_iff, ne_eq, Assoc.contains_iff]
    rintro ⟨o, ho⟩
    exact Assoc.get?_eq_none.mp hnone o ho
  | _ => exact ⟨rfl, rfl⟩

/-- Recording a session does not touch the record of another that rmcp still holds. -/
theorem State.Inv.record_keeps (hinv : s.Inv rmcp) (hs : s.step rmcp (.record i) = some s')
    (hlive : id ∈ s.sessions) {o : SessionOwner} (hget : s.owners.get? id = some o) :
    s'.owners.get? id = some o := by
  cases step_moves hs with
  | @record _ t id' resp owner ht hrecording =>
    have hphase := (hinv.tasks i t ht).phase
    rw [hrecording] at hphase
    have hne : id ≠ id' := by
      rintro rfl
      exact hphase.2.2 (hinv.ledger.owned id o hget).2
    rw [McpSessions.get?_record, if_neg hne, if_pos hlive]
    exact hget

/-- In every state that requests with a principal lead to, whichever of them are dropped and whichever
sessions end:

- a request that rmcp has with the id of a session it holds was sent by whoever opened the session;
- a request that names a session somebody else opened, or that nobody did, changes neither rmcp's table
  nor the records, and is answered as rmcp answers for a session it does not know;
- recording an owner keeps the owner of every session that rmcp holds, and whoever opened a session has
  been on record since its id was handed out. -/
theorem session_driven_by_opener {maxSessions : Nat} (hreach : Reaches rmcp (State.new maxSessions) s) :
    (∀ (i : Nat) (t : Task Rest Resp) (id : Text), s.tasks[i]? = some t → t.phase.carried = some id →
      id ∈ s.sessions → ∃ o, t.request.owner = some o ∧ s.openedBy id = some o) ∧
    (∀ (i : Nat) (t : Task Rest Resp) (id : Text), s.tasks[i]? = some t → t.request.presented = some id →
      s.openedBy id ≠ t.request.owner →
      (∀ (a : Action Rest Resp) (s' : State Rest Resp), a.task = some i → s.step rmcp a = some s' →
        s'.sessions = s.sessions ∧ s'.owners = s.owners) ∧
      ∀ answer, t.phase = .answered answer →
        answer = .rmcp (rmcp.unknownSession t.request.method t.request.rest)) ∧
    (∀ (i : Nat) (s' : State Rest Resp), s.step rmcp (.record i) = some s' → ∀ id ∈ s.sessions, ∀ o,
      s.owners.get? id = some o → s'.owners.get? id = some o) ∧
    ∀ id ∈ s.sessions, id ∈ s.returned → s.owners.get? id = s.openedBy id ∧ s.openedBy id ≠ none := by
  have hinv := hreach.inv
  refine ⟨fun i t id ht hcarried hlive => ?_, fun i t id ht hpresented hforeign => ⟨?_, ?_⟩, ?_, ?_⟩
  · obtain ⟨o, ho⟩ := Option.ne_none_iff_exists'.mp (hinv.tasks i t ht).resolved
    exact ⟨o, ho, (hinv.openedBy_of_carried ht hcarried hlive).trans ho⟩
  · intro a s' ha hs
    exact hinv.foreign_step ht hpresented hforeign ha hs
  · intro answer hanswered
    have hphase := (hinv.tasks i t ht).phase
    rw [hanswered] at hphase
    cases answer with
    | capacityRefusal maxSessions => cases hpresented.symm.trans hphase
    | rmcp resp => rw [(hphase id hpresented).resolve_left hforeign]
  · intro i s' hs id hlive o hget
    exact hinv.record_keeps hs hlive hget
  · intro id hlive hout
    obtain ⟨o, ho⟩ := Option.ne_none_iff_exists'.mp (hinv.ledger.recorded id hlive hout)
    have howner := (hinv.ledger.owned id o ho).1
    exact ⟨ho.trans howner.symm, by simp [howner]⟩

end Binding

/-- An answer's status and session header. -/
structure Reply where
  status : Nat
  session : Option Bytes
deriving DecidableEq

/-- To close a session it does not hold succeeds; anything else does not find it. -/
def replies : Rmcp Unit Reply where
  isSuccess reply := 200 ≤ reply.status && reply.status < 300
  sessionHeader reply := reply.session
  unknownSession method _ := if method = .delete then ⟨202, none⟩ else ⟨404, none⟩

def aliceSession : Text := "f81d4fae-7dec-41d0-a765-00a0c91e6bf6".toList

def aliceHeader : Bytes := aliceSession.map fun c => c.toNat.toUInt8

def sentBy (name : String) (method : Method) (sessionHeader : Option Bytes) : Request Unit :=
  ⟨some (.signedIn (.user ⟨name.toList, []⟩)), method, sessionHeader, ()⟩

/-- Alice opens a session. Bob tries to close it, and then she listens on it. -/
def bobCloses : List (Action Unit Reply) :=
  [.arrive (sentBy "alice" .post none), .enter 0, .create 0 aliceSession,
    .respond 0 ⟨200, some aliceHeader⟩, .lock 0, .record 0,
    .arrive (sentBy "bob" .delete (some aliceHeader)), .enter 1, .lookup 1, .respond 1 ⟨202, none⟩,
    .arrive (sentBy "alice" .get (some aliceHeader)), .enter 2, .lookup 2]

theorem session_driven_by_opener_alice :
    ∃ s, (State.new 256).run replies bobCloses = some s ∧ s.sessions = [aliceSession] ∧
      s.owners.get? aliceSession = some (.subject "alice".toList) ∧
      s.tasks.map Task.phase = [.answered (.rmcp ⟨200, some aliceHeader⟩),
        .answered (.rmcp (replies.unknownSession .delete ())), .found aliceSession true] ∧
      s.openedBy aliceSession = some (.subject "alice".toList) := by
  have hfinal : ∃ s, (State.new 256).run replies bobCloses = some s ∧ s.sessions = [aliceSession] ∧
      s.owners.get? aliceSession = some (.subject "alice".toList) ∧
      s.tasks.map Task.phase = [.answered (.rmcp ⟨200, some aliceHeader⟩),
        .answered (.rmcp (replies.unknownSession .delete ())), .found aliceSession true] ∧
      s.returned = [aliceSession] := ⟨_, rfl, rfl, rfl, by decide, rfl⟩
  obtain ⟨s, hrun, hsessions, howner, htasks, hreturned⟩ := hfinal
  have hreach : Reaches replies (State.new 256) s :=
    Reaches.of_run .refl hrun (by simp [bobCloses, Action.Resolved, sentBy])
  have hid : aliceSession ∈ [aliceSession] := List.mem_singleton_self _
  have hbound : s.owners.get? aliceSession = s.openedBy aliceSession :=
    ((session_driven_by_opener hreach).2.2.2 aliceSession (hsessions ▸ hid) (hreturned ▸ hid)).1
  exact ⟨s, hrun, hsessions, howner, htasks, hbound.symm.trans howner⟩

end Sessions

end Mcp
