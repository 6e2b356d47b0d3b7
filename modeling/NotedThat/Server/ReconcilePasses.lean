-- SUMMARY: One pass for each knowledge base at a time, a completed one has sent every difference, and none sends after `stop`.
import NotedThat.Server.Reconciler

/-!
# Reconciliation passes

Requests, the startup pass and `stop` in any interleaving: a slot has one holder, what a pass reports is
what it compared and sent, a stale mark is taken away by a completed pass only, and nothing is sent
once `stop` has returned.
-/

namespace Reconciler

open Traces

variable {T : Type} [DecidableEq T] {declared : KbSlug → Bool} {s s' : State T} {events : List (Event T)}
  {event : Event T} {t u : T} {kb : KbSlug} {stage : Stage}

/-! ## Slots -/

/-- The body has the slot of the knowledge base. -/
def Body.Holds (kb : KbSlug) : Body → Prop
  | .next _ => False
  | .entering k _ | .pass k _ _ | .leaving k _ => k = kb

def Stage.Holds (kb : KbSlug) : Stage → Prop
  | .asking k _ => k = kb
  | .waiting body | .polled body => body.Holds kb
  | .fresh | .ended => False

/-- Each slot is with whoever is at its knowledge base. -/
def Slots (s : State T) : Prop := ∀ kb t, s.slots kb = some t ↔ (s.stage t).Holds kb

theorem stage_set : (s.set t stage).stage u = if u = t then stage else s.stage u :=
  Function.update_apply ..

theorem stage_self (s : State T) (t : T) (stage : Stage) : (s.set t stage).stage t = stage :=
  Function.update_self ..

theorem Slots.set (h : Slots s) (hsame : ∀ kb, stage.Holds kb ↔ (s.stage t).Holds kb) : Slots (s.set t stage) := by
  intro kb u
  rw [stage_set]
  split
  · next heq => rw [hsame kb, ← heq]; exact h kb u
  · exact h kb u

/-- A task takes a slot that is free. -/
theorem Slots.take (h : Slots s) (hfree : s.slots kb = none) (hnone : ∀ k, ¬ (s.stage t).Holds k)
    (hholds : ∀ k, stage.Holds k ↔ k = kb) : Slots ((s.set t stage).slot kb (some t)) := by
  intro k u
  have hslots : ((s.set t stage).slot kb (some t)).slots k = if k = kb then some t else s.slots k :=
    Function.update_apply ..
  rw [hslots, show ((s.set t stage).slot kb (some t)).stage u = if u = t then stage else s.stage u from stage_set]
  split
  · next hk =>
    subst hk
    split
    · next hu => simp [hu, hholds]
    · next hu =>
      have hother := h k u
      rw [hfree] at hother
      simpa [Ne.symm hu] using hother
  · next hk =>
    split
    · next hu =>
      subst hu
      rw [h k u, hholds]
      exact ⟨fun hmine => absurd hmine (hnone k), fun heq => absurd heq hk⟩
    · exact h k u

/-- The holder gives its slot back. -/
theorem Slots.give (h : Slots s) (hmine : ∀ k, (s.stage t).Holds k ↔ k = kb) (hnone : ∀ k, ¬ stage.Holds k) :
    Slots ((s.set t stage).slot kb none) := by
  intro k u
  have hslots : ((s.set t stage).slot kb none).slots k = if k = kb then none else s.slots k :=
    Function.update_apply ..
  rw [hslots, show ((s.set t stage).slot kb none).stage u = if u = t then stage else s.stage u from stage_set]
  have hholder : s.slots kb = some t := (h kb t).mpr ((hmine kb).mpr rfl)
  split
  · next hk =>
    subst hk
    split
    · next hu => simp [hnone]
    · next hu =>
      have hother := h k u
      rw [hholder] at hother
      simpa [Ne.symm hu] using hother
  · next hk =>
    split
    · next hu =>
      subst hu
      rw [h k u, hmine]
      exact ⟨fun heq => absurd heq hk, fun hholds => absurd hholds (hnone k)⟩
    · exact h k u

theorem Slots.step (h : Slots s) (hstep : Step declared s event s') : Slots s' := by
  cases hstep with
  | startup kbs now hstage => exact h.set fun kb => by rw [hstage]; rfl
  | ask kb hstage _ hfree =>
    exact h.take hfree (fun k hholds => by rw [hstage] at hholds; exact hholds) fun k => eq_comm
  | busy kb hstage => exact h.set fun kb => by rw [hstage]; rfl
  | check hstage => exact h.set fun kb => by rw [hstage]; rfl
  | tooLate hstage => exact h.give (fun k => by rw [hstage]; exact eq_comm) fun _ hholds => hholds
  | spawn hstage => exact h.set fun kb => by rw [hstage]; rfl
  | poll hstage => exact h.set fun kb => by rw [hstage]; rfl
  | drop hstage => exact h.set fun kb => by rw [hstage]; rfl
  | wait hstage => exact h.set fun kb => by rw [hstage]; rfl
  | skip hstage => exact h.set fun kb => by rw [hstage]; rfl
  | enter hstage _ hfree =>
    exact h.take hfree (fun k hholds => by rw [hstage] at hholds; exact hholds) fun k => eq_comm
  | finish hstage => exact h.set fun kb => by rw [hstage]; rfl
  | begins hstage => exact h.set fun kb => by rw [hstage]; rfl
  | breaks hstage => exact h.set fun kb => by rw [hstage]; rfl
  | read _ hstage => exact h.set fun kb => by rw [hstage]; rfl
  | listed _ hstage => exact h.set fun kb => by rw [hstage]; rfl
  | fails hstage => exact h.set fun kb => by rw [hstage]; rfl
  | send hstage => exact h.set fun kb => by rw [hstage]; rfl
  | count hstage => exact h.set fun kb => by rw [hstage]; rfl
  | completes now hstage => exact h.set fun kb => by rw [hstage]; rfl
  | @leave t kb more hstage =>
    refine h.give (fun k => by rw [hstage]; exact eq_comm) fun k hholds => ?_
    cases more <;> exact hholds
  | cancel | close | stops | stamped => exact h

/-! ## What a pass did -/

/-- The task begins a pass. -/
def Event.Begins (t : T) : Event T → Prop
  | .began u _ => u = t
  | _ => False

/-- The event is what the task did in a pass. -/
def Event.By (t : T) : Event T → Prop
  | .began u _ | .read u _ _ | .listed u _ _ | .sent u _ _ => u = t
  | _ => False

/-- What the task read from the index of a knowledge base. -/
def readBy (t : T) (kb : KbSlug) (events : List (Event T)) : List (List IndexedEtag) :=
  events.filterMap fun
    | .read u k indexed => if u = t ∧ k = kb then some indexed else none
    | _ => none

/-- What the task listed in the bucket of a knowledge base. -/
def listedBy (t : T) (kb : KbSlug) (events : List (Event T)) : List (List (Text × Option Text)) :=
  events.filterMap fun
    | .listed u k inBucket => if u = t ∧ k = kb then some inBucket else none
    | _ => none

/-- What the task sent for a knowledge base. -/
def sentBy (t : T) (kb : KbSlug) (events : List (Event T)) : List ObjectPath :=
  events.filterMap fun
    | .sent u k key => if u = t ∧ k = kb then some key else none
    | _ => none

/-- The task does this since it began its pass over the knowledge base. -/
def Began (events : List (Event T)) (t : T) (kb : KbSlug) (during : List (Event T)) : Prop :=
  (∃ older, events = older ++ .began t kb :: during) ∧ ∀ e ∈ during, ¬ e.Begins t

omit [DecidableEq T] in
theorem Began.append {during : List (Event T)} (h : Began events t kb during) (hother : ¬ event.Begins t) :
    Began (events ++ [event]) t kb (during ++ [event]) := by
  obtain ⟨⟨older, rfl⟩, hnone⟩ := h
  refine ⟨⟨older, by simp⟩, fun e hmem => ?_⟩
  rcases List.mem_append.mp hmem with hmem | hmem
  · exact hnone e hmem
  · rwa [List.mem_singleton.mp hmem]

omit [DecidableEq T] in
/-- The pass that a task is in is the one it began last. -/
theorem Began.unique {k : KbSlug} {during during' : List (Event T)} (h : Began events t kb during)
    (h' : Began events t k during') : during = during' := by
  obtain ⟨⟨older, hevents⟩, hnone⟩ := h
  obtain ⟨⟨older', hevents'⟩, hnone'⟩ := h'
  rcases List.append_eq_append_iff.mp (hevents.symm.trans hevents') with ⟨between, -, h⟩ | ⟨between, -, h⟩
  · cases between with
    | nil => exact (List.cons.inj h).2
    | cons e between =>
      have hmem : .began t k ∈ during := (List.cons.inj h).2 ▸ List.mem_append_right _ List.mem_cons_self
      exact absurd rfl (hnone _ hmem)
  · cases between with
    | nil => exact (List.cons.inj h).2.symm
    | cons e between =>
      have hmem : .began t kb ∈ during' := (List.cons.inj h).2 ▸ List.mem_append_right _ List.mem_cons_self
      exact absurd rfl (hnone' _ hmem)

/-- What a pass did, by where it is: it read the index once, then listed the bucket once, and of what the
comparison of these two found it has sent a front. -/
def Place.Account (t : T) (kb : KbSlug) (during : List (Event T)) : Place → Prop
  | .reading => readBy t kb during = [] ∧ listedBy t kb during = [] ∧ sentBy t kb during = []
  | .listing indexed => readBy t kb during = [indexed] ∧ listedBy t kb during = [] ∧ sentBy t kb during = []
  | .sending keys report | .counting keys report => ∃ inBucket indexed,
      readBy t kb during = [indexed] ∧ listedBy t kb during = [inBucket] ∧
        sentBy t kb during ++ keys = (Reconcile.compare inBucket indexed none).keys ∧
          report = (Reconcile.compare inBucket indexed none).report

def Body.Account (events : List (Event T)) (t : T) : Body → Prop
  | .pass kb place _ => ∃ during, Began events t kb during ∧ place.Account t kb during
  | _ => True

def Stage.Account (events : List (Event T)) (t : T) : Stage → Prop
  | .waiting body | .polled body => body.Account events t
  | _ => True

/-- Every pass has an account of what it did. -/
def Accounts (events : List (Event T)) (s : State T) : Prop := ∀ t, (s.stage t).Account events t

/-- What another task does is none of this one's. -/
theorem nothing_by (h : ¬ event.By t) (kb : KbSlug) (during : List (Event T)) :
    readBy t kb (during ++ [event]) = readBy t kb during ∧
      listedBy t kb (during ++ [event]) = listedBy t kb during ∧
      sentBy t kb (during ++ [event]) = sentBy t kb during := by
  cases event with
  | read u k => simp [readBy, listedBy, sentBy, show u ≠ t from h]
  | listed u k => simp [readBy, listedBy, sentBy, show u ≠ t from h]
  | sent u k => simp [readBy, listedBy, sentBy, show u ≠ t from h]
  | step | began | completed | stopped => simp [readBy, listedBy, sentBy]

theorem Stage.Account.append (h : stage.Account events t) (hother : ¬ event.By t) :
    stage.Account (events ++ [event]) t := by
  have hbegins : ¬ event.Begins t := by
    cases event with
    | began => exact hother
    | step | read | listed | sent | completed | stopped => exact id
  have hbody : ∀ body : Body, body.Account events t → body.Account (events ++ [event]) t := by
    intro body h
    cases body with
    | pass kb place more =>
      obtain ⟨during, hbegan, haccount⟩ := h
      refine ⟨during ++ [event], hbegan.append hbegins, ?_⟩
      obtain ⟨hread, hlisted, hsent⟩ := nothing_by hother kb during
      cases place <;> simpa only [Place.Account, hread, hlisted, hsent] using haccount
    | next | entering | leaving => trivial
  cases stage with
  | waiting body => exact hbody body h
  | polled body => exact hbody body h
  | fresh | asking | ended => trivial

/-- A step of one task, whose account is kept. -/
theorem Accounts.set {slots : KbSlug → Option T} {cancelled closed stopped : Bool} {health : IndexHealth}
    (h : Accounts events s) (hothers : ∀ u, u ≠ t → ¬ event.By u)
    (hmine : stage.Account (events ++ [event]) t) :
    Accounts (events ++ [event]) { s.set t stage with
      slots := slots, cancelled := cancelled, closed := closed, stopped := stopped, health := health } := by
  intro u
  show Stage.Account (events ++ [event]) u ((s.set t stage).stage u)
  rw [stage_set]
  split
  · next hu => rwa [hu]
  · next hu => exact (h u).append (hothers u hu)

omit [DecidableEq T] in
/-- A step that is none of a pass. -/
theorem others_step : ∀ u, u ≠ t → ¬ (Event.step : Event T).By u := fun _ _ => id

theorem Accounts.step (h : Accounts events s) (hstep : Step declared s event s') :
    Accounts (events ++ [event]) s' := by
  have hkept : ∀ {s' : State T} {event : Event T}, s'.stage = s.stage → (∀ u, ¬ event.By u) →
      Accounts (events ++ [event]) s' := by
    intro s' event hstage hby u
    rw [hstage]
    exact (h u).append (hby u)
  -- the account of the task itself, where its step is none of the pass
  have hmine : ∀ {t body}, s.stage t = .waiting body ∨ s.stage t = .polled body →
      body.Account (events ++ [.step]) t := by
    intro t body hstage
    have hsame : (s.stage t).Account (events ++ [.step]) t := (h t).append id
    rcases hstage with hstage | hstage <;> rwa [hstage] at hsame
  cases hstep with
  | startup => exact h.set others_step trivial
  | ask => exact h.set others_step trivial
  | busy => exact h.set others_step trivial
  | check => exact h.set others_step trivial
  | tooLate => exact h.set others_step trivial
  | spawn => exact h.set others_step trivial
  | poll hstage => exact h.set others_step (hmine (.inl hstage))
  | drop => exact h.set others_step trivial
  | wait hstage => exact h.set others_step (hmine (.inr hstage))
  | skip => exact h.set others_step trivial
  | enter => exact h.set others_step trivial
  | finish => exact h.set others_step trivial
  | @begins t kb more hstage =>
    refine h.set (fun u hu heq => hu (Eq.symm heq)) ?_
    exact ⟨[], ⟨⟨events, rfl⟩, fun _ hmem => absurd hmem List.not_mem_nil⟩, rfl, rfl, rfl⟩
  | breaks => exact h.set others_step trivial
  | @read t kb more indexed hstage =>
    have haccount := h t
    rw [hstage] at haccount
    obtain ⟨during, hbegan, hread, hlisted, hsent⟩ := haccount
    refine h.set (fun u hu heq => hu (Eq.symm heq)) ⟨_, hbegan.append id, ?_, ?_, ?_⟩
    · rw [readBy, List.filterMap_append, ← readBy, hread]
      simp
    · rw [listedBy, List.filterMap_append, ← listedBy, hlisted]
      simp
    · rw [sentBy, List.filterMap_append, ← sentBy, hsent]
      simp
  | @listed t kb more indexed inBucket hstage =>
    have haccount := h t
    rw [hstage] at haccount
    obtain ⟨during, hbegan, hread, hlisted, hsent⟩ := haccount
    refine h.set (fun u hu heq => hu (Eq.symm heq)) ⟨_, hbegan.append id, inBucket, indexed, ?_, ?_, ?_, rfl⟩
    · rw [readBy, List.filterMap_append, ← readBy, hread]
      simp
    · rw [listedBy, List.filterMap_append, ← listedBy, hlisted]
      simp
    · rw [sentBy, List.filterMap_append, ← sentBy, hsent]
      simp
  | fails => exact h.set others_step trivial
  | @send t kb key keys report more hstage =>
    have haccount := h t
    rw [hstage] at haccount
    obtain ⟨during, hbegan, inBucket, indexed, hread, hlisted, hkeys, hreport⟩ := haccount
    refine h.set (fun u hu heq => hu (Eq.symm heq))
      ⟨_, hbegan.append id, inBucket, indexed, ?_, ?_, ?_, hreport⟩
    · rw [readBy, List.filterMap_append, ← readBy, hread]
      simp
    · rw [listedBy, List.filterMap_append, ← listedBy, hlisted]
      simp
    · have hmore : sentBy t kb [.sent t kb key] = [key] := by simp [sentBy]
      rw [sentBy, List.filterMap_append, ← sentBy, ← sentBy, hmore, List.append_assoc, List.singleton_append, hkeys]
  | count hstage =>
    obtain ⟨during, hbegan, haccount⟩ := hmine (.inr hstage)
    exact h.set others_step ⟨during, hbegan, haccount⟩
  | completes => exact h.set (fun _ _ => id) trivial
  | @leave t kb more => exact h.set others_step (by cases more <;> trivial)
  | cancel => exact hkept rfl fun _ => id
  | close => exact hkept rfl fun _ => id
  | stops => exact hkept rfl fun _ => id
  | stamped => exact hkept rfl fun _ => id

/-! ## Marks -/

/-- Changes of the knowledge base may have gone unobserved. -/
def Marked (kb : KbSlug) (s : State T) : Prop := (s.health.kbs kb).staleSince ≠ none

omit [DecidableEq T] in
theorem marked_markStale {health : IndexHealth} {k : KbSlug} {now : Int}
    (h : (health.kbs kb).staleSince ≠ none) : ((health.markStale k now).kbs kb).staleSince ≠ none := by
  by_cases hk : kb = k
  · subst hk
    rw [IndexHealth.markStale, IndexHealth.kbs_record_self]
    cases hstale : (health.kbs kb).staleSince with
    | none => exact absurd hstale h
    | some since => simp
  · rw [IndexHealth.markStale, IndexHealth.kbs_record_of_ne _ hk]
    exact h

omit [DecidableEq T] in
theorem marked_startup {kbs : List KbSlug} {now : Int} (health : IndexHealth)
    (h : (health.kbs kb).staleSince ≠ none) :
    ((kbs.foldl (fun health kb => health.markStale kb now) health).kbs kb).staleSince ≠ none := by
  induction kbs generalizing health with
  | nil => exact h
  | cons k kbs ih => exact ih _ (marked_markStale h)

/-- Only a completed pass takes a mark away. -/
theorem Marked.step (h : Marked kb s) (hstep : Step declared s event s') :
    Marked kb s' ∨ ∃ t summary, event = .completed t kb summary := by
  cases hstep with
  | startup kbs now _ => exact .inl (marked_startup s.health h)
  | @count t k =>
    have hsame := HealthStamp.staleSince_apply (.enqueued k) s.health 0 kb
    exact .inl fun hnone => h (hsame.symm.trans hnone)
  | @completes t k report more now =>
    by_cases hk : kb = k
    · exact .inr ⟨t, _, by rw [hk]⟩
    · have hsame : (s.health.reconciled k ⟨now, none, report⟩).kbs kb = s.health.kbs kb :=
        IndexHealth.kbs_record_of_ne _ hk
      exact .inl fun hnone => h ((congrArg KbRecord.staleSince hsame).symm.trans hnone)
  | stamped stamp now =>
    exact .inl fun hnone => h ((stamp.staleSince_apply s.health now kb).symm.trans hnone)
  | ask | busy | check | tooLate | spawn | poll | drop | wait | skip | enter | finish | begins | breaks |
    read | listed | fails | send | leave | cancel | close | stops => exact .inl h

theorem Marked.run {start : State T} (h : Marked kb start) (hrun : Run (Step declared) start events s) :
    Marked kb s ∨ ∃ t summary, .completed t kb summary ∈ events := by
  induction hrun with
  | start => exact .inl h
  | step _ hstep ih =>
    rcases ih with hmarked | ⟨t, summary, hmem⟩
    · refine (hmarked.step hstep).imp_right ?_
      rintro ⟨t, summary, rfl⟩
      exact ⟨t, summary, List.mem_append_right _ (List.mem_singleton_self _)⟩
    · exact .inr ⟨t, summary, List.mem_append_left _ hmem⟩

/-- The task is in a pass over the knowledge base. -/
def Stage.InPass (kb : KbSlug) : Stage → Prop
  | .waiting (.pass k _ _) | .polled (.pass k _ _) => k = kb
  | _ => False

theorem Stage.InPass.holds (h : stage.InPass kb) : stage.Holds kb := by
  unfold Stage.InPass at h
  split at h
  · exact h
  · exact h
  · exact h.elim

theorem slots_and_accounts {health : IndexHealth} (hrun : Run (Step declared) (.new health) events s) :
    Slots s ∧ Accounts events s := by
  refine hrun.invariant (P := fun events s => Slots s ∧ Accounts events s) ?_ ?_
  · refine ⟨fun kb t => ⟨fun h => ?_, fun h => h.elim⟩, fun t => trivial⟩
    cases h
  · rintro events event s s' ⟨hslots, haccounts⟩ hstep
    exact ⟨hslots.step hstep, haccounts.step hstep⟩

/-- Requests, the startup pass and `stop` in any interleaving: no two passes over one knowledge base at a
time; a completed pass has read the index and listed the bucket once, reports the comparison of what it read
and listed, and has sent every key that differed, in order; and a stale mark is taken away by a completed pass
only. -/
theorem passes_send_every_difference (declared : KbSlug → Bool) (health : IndexHealth) (events : List (Event T))
    (s : State T) (hrun : Run (Step declared) (.new health) events s) :
    (∀ kb t u, (s.stage t).InPass kb → (s.stage u).InPass kb → t = u) ∧
    (∀ front t kb summary rest, events = front ++ .completed t kb summary :: rest →
      ∃ inBucket indexed older during, front = older ++ .began t kb :: during ∧
        (∀ e ∈ during, ¬ e.Begins t) ∧
        readBy t kb during = [indexed] ∧ listedBy t kb during = [inBucket] ∧
        sentBy t kb during = (Reconcile.compare inBucket indexed none).keys ∧
        summary.report = (Reconcile.compare inBucket indexed none).report ∧ summary.scope = none) ∧
    (∀ kb front rest middle, events = front ++ rest → Run (Step declared) middle rest s → Marked kb middle →
      ¬ Marked kb s → ∃ t summary, .completed t kb summary ∈ rest) := by
  refine ⟨fun kb t u ht hu => ?_, fun front t kb summary rest hevents => ?_, ?_⟩
  · have hslots := (slots_and_accounts hrun).1 kb
    exact Option.some.inj (((hslots t).mpr ht.holds).symm.trans ((hslots u).mpr hu.holds))
  · subst hevents
    obtain ⟨middle, next, hbefore, hstep, -⟩ := hrun.at_event
    have haccount := (slots_and_accounts hbefore).2 t
    generalize hevent : Event.completed t kb summary = event at hstep
    cases hstep with
    | completes now hstage =>
      cases hevent
      rw [hstage] at haccount
      obtain ⟨during, ⟨⟨older, hfront⟩, hnone⟩, inBucket, indexed, hread, hlisted, hkeys, hreport⟩ := haccount
      rw [List.append_nil] at hkeys
      exact ⟨inBucket, indexed, older, during, hfront, hnone, hread, hlisted, hkeys, hreport, rfl⟩
    | _ => cases hevent
  · intro kb front rest middle _ hmore hmarked hclear
    exact (hmarked.run hmore).resolve_left hclear

/-! ## After `stop` -/

/-- `stop` cancels before it closes; once it has returned, no pass goes on. -/
structure Barrier (s : State T) : Prop where
  closed : s.closed = true → s.cancelled = true
  stopped : s.stopped = true → s.cancelled = true ∧
    ∀ t kb place more, s.stage t ≠ .polled (.pass kb place more)

/-- The task does not go on with a pass. -/
theorem Barrier.set {slots : KbSlug → Option T} {health : IndexHealth} (h : Barrier s)
    (hnone : s.stopped = true → ∀ kb place more, stage ≠ .polled (.pass kb place more)) :
    Barrier { s.set t stage with slots := slots, health := health } where
  closed := h.closed
  stopped hstopped := by
    refine ⟨(h.stopped hstopped).1, fun u kb place more => ?_⟩
    show (s.set t stage).stage u ≠ _
    rw [stage_set]
    split
    · exact hnone hstopped kb place more
    · exact (h.stopped hstopped).2 u kb place more

theorem Barrier.step (h : Barrier s) (hstep : Step declared s event s') : Barrier s' := by
  -- a step of a pass is none that is taken then
  have hnever : ∀ {t kb place more} {Q : Prop}, s.stage t = .polled (.pass kb place more) →
      s.stopped = true → Q := fun hstage hstopped => absurd hstage ((h.stopped hstopped).2 _ _ _ _)
  cases hstep with
  | startup => exact h.set fun _ _ _ _ heq => nomatch heq
  | ask => exact h.set fun _ _ _ _ heq => nomatch heq
  | busy => exact h.set fun _ _ _ _ heq => nomatch heq
  | check => exact h.set fun _ _ _ _ heq => nomatch heq
  | tooLate => exact h.set fun _ _ _ _ heq => nomatch heq
  | spawn => exact h.set fun _ _ _ _ heq => nomatch heq
  | @poll t body hstage hgoes =>
    refine h.set fun hstopped kb place more heq => ?_
    have hcancelled := hgoes kb place more (by injection heq)
    rw [(h.stopped hstopped).1] at hcancelled
    cases hcancelled
  | drop => exact h.set fun _ _ _ _ heq => nomatch heq
  | wait => exact h.set fun _ _ _ _ heq => nomatch heq
  | skip => exact h.set fun _ _ _ _ heq => nomatch heq
  | enter => exact h.set fun _ _ _ _ heq => nomatch heq
  | finish => exact h.set fun _ _ _ _ heq => nomatch heq
  | begins _ hgoes =>
    refine h.set fun hstopped _ _ _ _ => ?_
    rw [(h.stopped hstopped).1] at hgoes
    cases hgoes
  | breaks => exact h.set fun _ _ _ _ heq => nomatch heq
  | read _ hstage => exact h.set fun hstopped _ _ _ _ => hnever hstage hstopped
  | listed _ hstage => exact h.set fun hstopped _ _ _ _ => hnever hstage hstopped
  | fails => exact h.set fun _ _ _ _ heq => nomatch heq
  | send hstage => exact h.set fun hstopped _ _ _ _ => hnever hstage hstopped
  | count hstage => exact h.set fun hstopped _ _ _ _ => hnever hstage hstopped
  | completes => exact h.set fun _ _ _ _ heq => nomatch heq
  | @leave t kb more => exact h.set fun _ _ _ _ heq => by cases more <;> cases heq
  | cancel => exact ⟨fun _ => rfl, fun hstopped => ⟨rfl, (h.stopped hstopped).2⟩⟩
  | close hcancelled => exact ⟨fun _ => hcancelled, h.stopped⟩
  | stops hclosed hnone =>
    refine ⟨h.closed, fun _ => ⟨h.closed hclosed, fun t kb place more heq => ?_⟩⟩
    have htracked := hnone t
    rw [show s.stage t = _ from heq] at htracked
    exact htracked trivial
  | stamped => exact ⟨h.closed, h.stopped⟩

theorem stopped_step (h : s.stopped = true) (hstep : Step declared s event s') : s'.stopped = true := by
  cases hstep <;> first | exact h | rfl

theorem Barrier.run {health : IndexHealth} (hrun : Run (Step declared) (.new health) events s) : Barrier s :=
  hrun.keeps ⟨nofun, nofun⟩ fun _ _ _ => Barrier.step

/-- A pass begins, reads the index, lists the bucket, sends or reports. -/
def Event.OfPass : Event T → Prop
  | .began _ _ | .read _ _ _ | .listed _ _ _ | .sent _ _ _ | .completed _ _ _ => True
  | .step | .stopped => False

/-- Once `stop` has returned no pass begins, reads, sends or reports, whatever requests raced it; and once it has
cancelled, a pass that waits, for the backends or for room in the queue, gives its slot back without
waiting any longer. -/
theorem stop_is_a_barrier (declared : KbSlug → Bool) (health : IndexHealth) (events : List (Event T))
    (s : State T) (hrun : Run (Step declared) (.new health) events s) :
    (∀ front rest, events = front ++ .stopped :: rest → ∀ e ∈ rest, ¬ e.OfPass) ∧
    (s.cancelled = true → ∀ t kb place more, s.stage t = .waiting (.pass kb place more) →
      (∃ s', Step declared s .step s' ∧ s'.stage t = .polled (.leaving kb none)) ∧
      ∀ event s', Step declared s event s' → s'.stage t = s.stage t ∨ s'.stage t = .polled (.leaving kb none)) := by
  refine ⟨fun front rest hevents e hmem hpass => ?_, fun hcancelled t kb place more hstage => ⟨?_, ?_⟩⟩
  · obtain ⟨during, later, rfl⟩ := List.append_of_mem hmem
    subst hevents
    rw [← List.cons_append, ← List.append_assoc] at hrun
    obtain ⟨middle, next, hbefore, hstep, -⟩ := hrun.at_event
    have hstopped : middle.stopped = true := by
      obtain ⟨first, second, -, hstops, hduring⟩ := hbefore.at_event
      refine hduring.keeps ?_ fun _ _ _ => stopped_step
      generalize hevent : Event.stopped = event at hstops
      cases hstops <;> first | rfl | cases hevent
    obtain ⟨hcancelled, hnone⟩ := (Barrier.run hbefore).stopped hstopped
    cases hstep with
    | begins _ hgoes =>
      rw [hcancelled] at hgoes
      cases hgoes
    | read _ hstage => exact hnone _ _ _ _ hstage
    | listed _ hstage => exact hnone _ _ _ _ hstage
    | send hstage => exact hnone _ _ _ _ hstage
    | completes _ hstage => exact hnone _ _ _ _ hstage
    | _ => exact hpass
  · refine ⟨_, .drop hstage hcancelled, ?_⟩
    exact stage_self _ _ _
  · intro event s' hstep
    -- no other step is one of this task
    have hother : ∀ {u stage stage'}, s.stage u = stage → stage ≠ .waiting (.pass kb place more) →
        (s.set u stage').stage t = s.stage t := by
      rintro u stage stage' rfl hne
      rw [stage_set, if_neg]
      rintro rfl
      exact hne hstage
    cases hstep with
    | startup kbs now h => exact .inl (hother h nofun)
    | ask kb h => exact .inl (hother h nofun)
    | busy kb h => exact .inl (hother h nofun)
    | check h => exact .inl (hother h nofun)
    | tooLate h => exact .inl (hother h nofun)
    | spawn h => exact .inl (hother h nofun)
    | @poll u body h hgoes =>
      refine .inl (hother h fun heq => ?_)
      have hgoes := hgoes kb place more (by injection heq)
      rw [hcancelled] at hgoes
      cases hgoes
    | @drop u k place' more' h =>
      by_cases hu : t = u
      · subst hu
        rw [hstage] at h
        injection h with h
        injection h with h
        subst h
        exact .inr (stage_self _ _ _)
      · exact .inl (by rw [stage_set, if_neg hu])
    | wait h => exact .inl (hother h nofun)
    | skip h => exact .inl (hother h nofun)
    | enter h => exact .inl (hother h nofun)
    | finish h => exact .inl (hother h nofun)
    | begins h => exact .inl (hother h nofun)
    | breaks h => exact .inl (hother h nofun)
    | read _ h => exact .inl (hother h nofun)
    | listed _ h => exact .inl (hother h nofun)
    | fails h => exact .inl (hother h nofun)
    | send h => exact .inl (hother h nofun)
    | count h => exact .inl (hother h nofun)
    | completes _ h => exact .inl (hother h nofun)
    | leave h => exact .inl (hother h nofun)
    | cancel | close | stops | stamped => exact .inl rfl

/-! ## A pass of one request -/

/-- One knowledge base is marked. -/
def oneMarked : IndexHealth := IndexHealth.new.markStale .notes 0

theorem compare_one : Reconcile.compare [(ObjectPath.a.val, some ['1'])] [] none =
    ⟨⟨1, 0, 1, 0⟩, [ObjectPath.a]⟩ := by
  have hstored : Reconcile.storageSide [(ObjectPath.a.val, some ['1'])] =
      [⟨ObjectPath.a.val, ObjectPath.a, some ['1']⟩] := rfl
  rw [Reconcile.compare, hstored, show Reconcile.indexSide [] none = [] from rfl, Reconcile.merge, Reconcile.merge]
  rfl

/-- A bucket with one object, of which the index holds nothing. -/
def oneInBucket : List (Text × Option Text) := [(ObjectPath.a.val, some ['1'])]

/-- A request is granted, and its pass has read and listed. -/
theorem one_listed : ∃ s : State Unit, Run (Step fun _ => true) (.new oneMarked)
    [.step, .step, .step, .step, .began () .notes, .read () .notes [], .listed () .notes oneInBucket] s ∧
      s.stage () = .polled (.pass .notes (.sending [ObjectPath.a] ⟨1, 0, 1, 0⟩) none) ∧
      s.cancelled = false ∧ s.health = oneMarked := by
  have hstart : Run (Step fun _ => true) (.new oneMarked : State Unit) [] (.new oneMarked) := .start
  have hspawned := ((hstart.step (.ask (t := ()) .notes rfl rfl rfl)).step (.check (t := ()) rfl rfl)).step
    (.spawn (t := ()) rfl)
  have hbegan := (hspawned.step (.poll (t := ()) rfl nofun)).step (.begins (t := ()) rfl rfl)
  have hlisted := (hbegan.step (.read (t := ()) [] rfl)).step (.listed (t := ()) oneInBucket rfl)
  refine ⟨_, hlisted, ?_, rfl, rfl⟩
  rw [stage_self, oneInBucket, compare_one]

/-- What its pass does until it has sent the key. -/
def oneDuring : List (Event Unit) :=
  [.read () .notes [], .listed () .notes oneInBucket, .sent () .notes ObjectPath.a, .step]

theorem oneDuring_begins : ∀ e ∈ oneDuring, ¬ e.Begins () := by
  simp [oneDuring, Event.Begins]

/-- It sends the key and completes, and the mark is taken away. -/
theorem passes_send_every_difference_one : ∃ (events : List (Event Unit)) (s : State Unit),
    Run (Step fun _ => true) (.new oneMarked) events s ∧
      (∃ front rest, events = front ++ .completed () .notes ⟨1, none, ⟨1, 0, 1, 0⟩⟩ :: rest ∧
        ∃ older during, front = older ++ .began () .notes :: during ∧
          readBy () .notes during = [[]] ∧ listedBy () .notes during = [oneInBucket] ∧
          sentBy () .notes during = [ObjectPath.a]) ∧
      ∃ t summary, .completed t .notes summary ∈ events := by
  obtain ⟨s, hlisted, hstage, -, hhealth⟩ := one_listed
  have hsent := (hlisted.step (.send hstage)).step (.count (t := ()) rfl)
  have hdone := hsent.step (.completes (t := ()) 1 rfl)
  obtain ⟨-, hcompleted, hmarks⟩ := passes_send_every_difference _ _ _ _ hdone
  refine ⟨_, _, hdone, ⟨_, [], rfl, ?_⟩, hmarks .notes [] _ _ rfl hdone ?_ ?_⟩
  · obtain ⟨inBucket, indexed, older, during, hfront, hnone, hread, hlisted, hkeys, -⟩ := hcompleted _ _ _ _ [] rfl
    have hduring := Began.unique ⟨⟨older, hfront⟩, hnone⟩ ⟨⟨[.step, .step, .step, .step], rfl⟩, oneDuring_begins⟩
    have hindexed : [[]] = [indexed] := (congrArg (readBy () .notes) hduring).symm.trans hread
    have hinBucket : [oneInBucket] = [inBucket] := (congrArg (listedBy () .notes) hduring).symm.trans hlisted
    rw [← List.singleton_inj.mp hindexed, ← List.singleton_inj.mp hinBucket, oneInBucket, compare_one] at hkeys
    exact ⟨older, during, hfront, hread.trans hindexed.symm, hlisted.trans hinBucket.symm, hkeys⟩
  · simp [Marked, State.new, oneMarked, IndexHealth.markStale, IndexHealth.kbs_record_self]
  · intro hmarked
    refine hmarked ?_
    simp [IndexHealth.reconciled, IndexHealth.kbs_record_self]

/-- The pass waits when it is cancelled; `stop` returns, and nothing more is sent. -/
theorem stop_is_a_barrier_one : ∃ (front : List (Event Unit)) (s : State Unit),
    Run (Step fun _ => true) (.new oneMarked) (front ++ [.stopped]) s ∧
      ∀ rest s', Run (Step fun _ => true) s rest s' → ∀ e ∈ rest, ¬ e.OfPass := by
  obtain ⟨s, hlisted, hstage, -, -⟩ := one_listed
  have hwaits := (hlisted.step (.wait hstage trivial)).step .cancel
  have hleaves := (hwaits.step (.drop (t := ()) rfl rfl)).step (.leave (t := ()) rfl)
  have hstops := (hleaves.step (.close rfl)).step (.stops rfl fun _ htracked => htracked)
  refine ⟨_, _, hstops, fun rest s' hmore => ?_⟩
  have hrun := hstops.trans hmore
  rw [List.append_assoc] at hrun
  exact (stop_is_a_barrier _ _ _ _ hrun).1 _ rest rfl

end Reconciler
