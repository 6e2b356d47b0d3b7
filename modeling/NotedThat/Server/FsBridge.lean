-- SUMMARY: The bridge from the filesystem watcher to the index: its passes, and when a stale mark is taken away.
import NotedThat.Indexer.Health
import NotedThat.StorageFs.Pending

/-!
# The filesystem bridge

One task compares every knowledge base with the index at startup and then drains the watcher's
signals, one at a time. A knowledge base is marked stale before a pass over all of it. Completed
passes take the mark away, and passes over a subtree share that call.

The differences that a pass finds go to the index queue through a task of their own, the forwarder of
`reconcile_into`. It is not part of the state. What it tells the health record is among the stamps of
other tasks, a forwarder that has gone shows in what the comparison answers, and what the forwarder
itself comes to is dropped there: a comparison that ended before its forwarder failed has completed.
-/

namespace FsBridge

/-- Why a pass is made. -/
inductive Cause where
  | startup
  | subtreeChanged
  | rescan
deriving DecidableEq

/-- A pass over one knowledge base, or over the keys under a prefix of it. -/
structure Pass where
  kb : KbSlug
  scope : Option Text
  cause : Cause
deriving DecidableEq

/-- Where the bridge is. `starting` are the knowledge bases whose startup pass is still to come. -/
inductive Control where
  | idle (starting : List KbSlug)
  | beginning (pass : Pass) (starting : List KbSlug)
  | reading (pass : Pass) (starting : List KbSlug)
  | comparing (pass : Pass) (indexed : List IndexedEtag) (starting : List KbSlug)
  | sending (kb : KbSlug) (key : ObjectPath)
  | ended

structure State where
  control : Control
  health : IndexHealth

/-- What happens next: the bridge goes on by itself, or is answered by the watcher, the index queue,
the vector store or the comparison; or another task stamps the health record. -/
inductive Input where
  | proceed
  | signal (signal : Option FsSignal)
  | sent (delivered : Bool)
  | read (answer : Except String (List IndexedEtag))
  | compared (answer : Except StorageError (Option ReconcileReport))
  | stamped (stamp : HealthStamp)

/-- The bridge as it starts. -/
def start (kbs : List KbSlug) : State := ⟨.idle kbs, .new⟩

/-- One step of the bridge; none where the input is not what it waits for. -/
def State.step (s : State) (now : Int) : Input → Option State
  | .proceed =>
    match s.control with
    | .idle (kb :: starting) =>
      some ⟨.beginning ⟨kb, none, .startup⟩ starting, s.health.markStale kb now⟩
    | .beginning pass starting => some ⟨.reading pass starting, s.health⟩
    | _ => none
  | .signal signal =>
    match s.control, signal with
    | .idle [], some (.changed kb key) => some ⟨.sending kb key, s.health⟩
    | .idle [], some (.underPrefix kb pre) =>
      some ⟨.beginning ⟨kb, some pre, .subtreeChanged⟩ [], s.health⟩
    | .idle [], some (.kb kb) =>
      -- the watcher has lost events
      some ⟨.beginning ⟨kb, none, .rescan⟩ [], s.health.markStale kb now⟩
    | .idle [], none => some ⟨.ended, s.health⟩
    | _, _ => none
  | .sent delivered =>
    match s.control with
    | .sending kb _ =>
      some (if delivered then ⟨.idle [], s.health.enqueued kb⟩ else ⟨.ended, s.health⟩)
    | _ => none
  | .read answer =>
    match s.control, answer with
    | .reading pass starting, .ok indexed => some ⟨.comparing pass indexed starting, s.health⟩
    -- nothing to compare with
    | .reading _ starting, .error _ => some ⟨.idle starting, s.health⟩
    | _, _ => none
  | .compared answer =>
    match s.control, answer with
    -- the result of the forwarder is not looked at
    | .comparing pass _ starting, .ok (some report) =>
      some ⟨.idle starting, s.health.reconciled pass.kb ⟨now, pass.scope, report⟩⟩
    -- abandoned, or storage could not be read
    | .comparing _ _ starting, _ => some ⟨.idle starting, s.health⟩
    | _, _ => none
  | .stamped stamp => some { s with health := stamp.apply s.health now }

/-- The steps taken, latest first: the state each was taken in, and its input. -/
abbrev History := List (State × Input)

/-- The runs of the bridge over these knowledge bases. -/
inductive Run (kbs : List KbSlug) : History → State → Prop
  | start : Run kbs [] (start kbs)
  | step {past : History} {s s' : State} (now : Int) (input : Input) :
      Run kbs past s → s.step now input = some s' → Run kbs ((s, input) :: past) s'

/-- Every step of the run satisfies `P`: what came before it, where it starts, its input and where it
leads. -/
def Always (P : History → State → Input → State → Prop) : History → State → Prop
  | [], _ => True
  | (s, input) :: past, s' => P past s input s' ∧ Always P past s

/-! ## Marks -/

/-- Since when changes may have gone unobserved. -/
def State.stale (s : State) (kb : KbSlug) : Option Int := (s.health.kbs kb).staleSince

/-- The step completes this pass. -/
def Completes (s : State) (input : Input) (pass : Pass) : Prop :=
  ∃ indexed starting report, s.control = .comparing pass indexed starting ∧
    input = .compared (.ok (some report))

/-- The pass is being made. -/
def State.Underway (s : State) (pass : Pass) : Prop :=
  (∃ starting, s.control = .reading pass starting) ∨
    ∃ indexed starting, s.control = .comparing pass indexed starting

/-- The pass being made began when the mark of `t` was already set, and it has stood since. -/
def BeganMarked (kb : KbSlug) (t : Int) (pass : Pass) (past : History) : Prop :=
  ∃ during s starting older, past = during ++ (s, .proceed) :: older ∧
    s.control = .beginning pass starting ∧ s.stale kb = some t ∧
    ∀ step ∈ during, step.1.Underway pass ∧ step.1.stale kb = some t

/-- If the step takes the mark away, it completes a pass over the whole knowledge base that began after
the mark was set. -/
def ClearedByWholePass (kb : KbSlug) (past : History) (s : State) (input : Input) (s' : State) : Prop :=
  ∀ t, s.stale kb = some t → s'.stale kb = none →
    ∃ pass, Completes s input pass ∧ pass.kb = kb ∧ pass.scope = none ∧ BeganMarked kb t pass past

/-- If the step completes a pass over a subtree, the knowledge base is not marked. -/
def NarrowOnlyUnmarked (kb : KbSlug) (_ : History) (s : State) (input : Input) (_ : State) : Prop :=
  ∀ pass, Completes s input pass → pass.kb = kb → pass.scope ≠ none → s.stale kb = none

/-- No pass is being made or about to be. -/
def Control.Resting : Control → Prop
  | .idle _ | .sending .. | .ended => True
  | .beginning .. | .reading .. | .comparing .. => False

/-- What a step does to the control and to the marks. -/
inductive Moved (s : State) (input : Input) (s' : State) : Prop
  | stayed (stamp : HealthStamp) (hinput : input = .stamped stamp) (hcontrol : s'.control = s.control)
      (hstale : ∀ kb, s'.stale kb = s.stale kb)
  | marked (kb : KbSlug) (cause : Cause) (starting : List KbSlug) (now : Int)
      (hresting : s.control.Resting) (hcontrol : s'.control = .beginning ⟨kb, none, cause⟩ starting)
      (hhealth : s'.health = s.health.markStale kb now)
  | narrowed (kb : KbSlug) (pre : Text) (cause : Cause) (starting : List KbSlug)
      (hresting : s.control.Resting) (hcontrol : s'.control = .beginning ⟨kb, some pre, cause⟩ starting)
      (hhealth : s'.health = s.health)
  | began (pass : Pass) (starting : List KbSlug) (hbefore : s.control = .beginning pass starting)
      (hinput : input = .proceed) (hcontrol : s'.control = .reading pass starting)
      (hhealth : s'.health = s.health)
  | read (pass : Pass) (indexed : List IndexedEtag) (starting : List KbSlug)
      (hbefore : s.control = .reading pass starting)
      (hcontrol : s'.control = .comparing pass indexed starting) (hhealth : s'.health = s.health)
  | completed (pass : Pass) (summary : ReconcileSummary) (hcompletes : Completes s input pass)
      (hcontrol : s'.control.Resting) (hhealth : s'.health = s.health.reconciled pass.kb summary)
  | left (hcontrol : s'.control.Resting) (hstale : ∀ kb, s'.stale kb = s.stale kb)
      (hopen : ∀ pass, ¬ Completes s input pass)

theorem not_completes {s : State} {input : Input} (h : ∀ report, input ≠ .compared (.ok (some report)))
    (pass : Pass) : ¬ Completes s input pass := by
  rintro ⟨_, _, report, -, hinput⟩
  exact h report hinput

theorem State.step_moved {s s' : State} {now : Int} {input : Input} (h : s.step now input = some s') :
    Moved s input s' := by
  obtain ⟨control, health⟩ := s
  cases input with
  | proceed =>
    simp only [step] at h
    split at h
    · cases h
      exact .marked _ _ _ _ trivial rfl rfl
    · cases h
      exact .began _ _ rfl rfl rfl rfl
    · cases h
  | signal signal =>
    simp only [step] at h
    split at h
    · cases h
      exact .left trivial (fun _ => rfl) (not_completes nofun)
    · cases h
      exact .narrowed _ _ _ _ trivial rfl rfl
    · cases h
      exact .marked _ _ _ _ trivial rfl rfl
    · cases h
      exact .left trivial (fun _ => rfl) (not_completes nofun)
    · cases h
  | sent delivered =>
    simp only [step] at h
    split at h
    · cases h
      cases delivered with
      | false => exact .left trivial (fun _ => rfl) (not_completes nofun)
      | true =>
        refine .left trivial (fun kb => ?_) (not_completes nofun)
        exact HealthStamp.staleSince_apply (.enqueued _) health now kb
    · cases h
  | read answer =>
    simp only [step] at h
    split at h
    · cases h
      exact .read _ _ _ rfl rfl rfl
    · cases h
      exact .left trivial (fun _ => rfl) (not_completes nofun)
    · cases h
  | compared answer =>
    simp only [step] at h
    split at h
    · cases h
      exact .completed _ _ ⟨_, _, _, rfl, rfl⟩ trivial rfl
    · next hother =>
      cases h
      refine .left trivial (fun _ => rfl) (not_completes fun report heq => ?_)
      cases heq
      exact hother _ rfl
    · cases h
  | stamped stamp =>
    cases h
    exact .stayed stamp rfl rfl fun kb => stamp.staleSince_apply health now kb

/-! ## What every run keeps -/

variable {kbs : List KbSlug} {past : History} {s s' : State} {input : Input} {now : Int}

/-- Before and while a pass over a whole knowledge base is made, the knowledge base is marked. -/
structure Kept (past : History) (s : State) : Prop where
  beginning : ∀ pass starting, s.control = .beginning pass starting → pass.scope = none →
    ∃ t, s.stale pass.kb = some t
  underway : ∀ pass, s.Underway pass → pass.scope = none →
    ∃ t, s.stale pass.kb = some t ∧ BeganMarked pass.kb t pass past

theorem Control.Resting.not_underway (h : s.control.Resting) (pass : Pass) : ¬ s.Underway pass := by
  rintro (⟨starting, hcontrol⟩ | ⟨indexed, starting, hcontrol⟩)
  · rw [hcontrol] at h
    exact h
  · rw [hcontrol] at h
    exact h

theorem Control.Resting.not_beginning (h : s.control.Resting) {pass : Pass} {starting : List KbSlug} :
    s.control ≠ .beginning pass starting := by
  intro hcontrol
  rw [hcontrol] at h
  exact h

theorem kept_of_resting (h : s.control.Resting) : Kept past s :=
  ⟨fun _ _ hcontrol => absurd hcontrol h.not_beginning, fun pass hunderway => absurd hunderway (h.not_underway pass)⟩

/-- A step that makes the pass and leaves the mark. -/
theorem BeganMarked.cons {kb : KbSlug} {t : Int} {pass : Pass} (h : BeganMarked kb t pass past)
    (hunderway : s.Underway pass) (hstale : s.stale kb = some t) :
    BeganMarked kb t pass ((s, input) :: past) := by
  obtain ⟨during, s₀, starting, older, rfl, hcontrol, hmarked, hduring⟩ := h
  refine ⟨(s, input) :: during, s₀, starting, older, rfl, hcontrol, hmarked, fun step hmem => ?_⟩
  rcases List.mem_cons.mp hmem with rfl | hmem
  · exact ⟨hunderway, hstale⟩
  · exact hduring step hmem

theorem stale_markStale (health : IndexHealth) (kb : KbSlug) (now : Int) :
    ∃ t, ((health.markStale kb now).kbs kb).staleSince = some t := by
  rw [IndexHealth.markStale, IndexHealth.kbs_record_self]
  cases (health.kbs kb).staleSince with
  | none => exact ⟨now, rfl⟩
  | some t => exact ⟨t, rfl⟩

theorem Kept.step (h : Kept past s) (hs : s.step now input = some s') : Kept ((s, input) :: past) s' := by
  cases State.step_moved hs with
  | stayed stamp hinput hcontrol hstale =>
    refine ⟨fun pass starting heq hscope => ?_, fun pass hunderway hscope => ?_⟩
    · rw [hstale]
      exact h.beginning pass starting (hcontrol ▸ heq) hscope
    · have hbefore : s.Underway pass := by
        rw [State.Underway, ← hcontrol]
        exact hunderway
      obtain ⟨t, ht, hbegan⟩ := h.underway pass hbefore hscope
      exact ⟨t, (hstale _).trans ht, hbegan.cons hbefore ht⟩
  | marked kb cause starting now hresting hcontrol hhealth =>
    refine ⟨fun pass starting' heq _ => ?_, fun pass hunderway => ?_⟩
    · cases hcontrol.symm.trans heq
      rw [State.stale, hhealth]
      exact stale_markStale s.health kb now
    · rw [State.Underway, hcontrol] at hunderway
      simp at hunderway
  | narrowed kb pre cause starting hresting hcontrol hhealth =>
    refine ⟨fun pass starting' heq hscope => ?_, fun pass hunderway => ?_⟩
    · cases hcontrol.symm.trans heq
      cases hscope
    · rw [State.Underway, hcontrol] at hunderway
      simp at hunderway
  | began pass starting hbefore hinput hcontrol hhealth =>
    refine ⟨fun pass' starting' heq => ?_, fun pass' hunderway hscope => ?_⟩
    · cases hcontrol.symm.trans heq
    · rw [State.Underway, hcontrol] at hunderway
      obtain ⟨_, heq⟩ := hunderway.resolve_right (by simp)
      cases heq
      obtain ⟨t, ht⟩ := h.beginning pass starting hbefore hscope
      refine ⟨t, by rwa [State.stale, hhealth], [], s, starting, past, by rw [hinput]; rfl, hbefore, ht, ?_⟩
      exact fun step hmem => absurd hmem List.not_mem_nil
  | read pass indexed starting hbefore hcontrol hhealth =>
    refine ⟨fun pass' starting' heq => ?_, fun pass' hunderway hscope => ?_⟩
    · cases hcontrol.symm.trans heq
    · rw [State.Underway, hcontrol] at hunderway
      obtain ⟨_, _, heq⟩ := hunderway.resolve_left (by simp)
      cases heq
      have hreading : s.Underway pass := .inl ⟨starting, hbefore⟩
      obtain ⟨t, ht, hbegan⟩ := h.underway pass hreading hscope
      exact ⟨t, by rwa [State.stale, hhealth], hbegan.cons hreading ht⟩
  | completed pass summary hcompletes hcontrol hhealth => exact kept_of_resting hcontrol
  | left hcontrol hstale hopen => exact kept_of_resting hcontrol

theorem Run.kept (h : Run kbs past s) : Kept past s := by
  induction h with
  | start => exact kept_of_resting trivial
  | step _ _ _ hs ih => exact ih.step hs

theorem stale_reconciled (health : IndexHealth) (kb : KbSlug) (summary : ReconcileSummary) :
    ((health.reconciled kb summary).kbs kb).staleSince = none := by
  rw [IndexHealth.reconciled, IndexHealth.kbs_record_self]

/-- A mark is taken away by the completion of a pass, and of that knowledge base. -/
theorem Moved.cleared {kb : KbSlug} {t : Int} (h : Moved s input s') (hbefore : s.stale kb = some t)
    (hafter : s'.stale kb = none) : ∃ pass, Completes s input pass ∧ pass.kb = kb := by
  have hkept : s'.stale kb ≠ s.stale kb := by
    rw [hbefore, hafter]
    exact nofun
  cases h with
  | stayed stamp hinput hcontrol hstale => exact absurd (hstale kb) hkept
  | marked kb' cause starting now hresting hcontrol hhealth =>
    refine absurd ?_ hkept
    rw [State.stale, hhealth, IndexHealth.markStale]
    by_cases hkb : kb = kb'
    · subst hkb
      rw [IndexHealth.kbs_record_self, hbefore]
      dsimp only
      rw [show (s.health.kbs kb).staleSince = some t from hbefore]
      rfl
    · rw [IndexHealth.kbs_record_of_ne _ hkb]
      rfl
  | narrowed kb' pre cause starting hresting hcontrol hhealth =>
    exact absurd (by rw [State.stale, hhealth]; rfl) hkept
  | began pass starting hcontrol hinput hcontrol' hhealth =>
    exact absurd (by rw [State.stale, hhealth]; rfl) hkept
  | read pass indexed starting hcontrol hcontrol' hhealth =>
    exact absurd (by rw [State.stale, hhealth]; rfl) hkept
  | completed pass summary hcompletes hcontrol hhealth =>
    refine ⟨pass, hcompletes, ?_⟩
    by_contra hkb
    refine absurd ?_ hkept
    rw [State.stale, hhealth, IndexHealth.reconciled, IndexHealth.kbs_record_of_ne _ (Ne.symm hkb)]
    rfl
  | left hcontrol hstale hopen => exact absurd (hstale kb) hkept

theorem Completes.unique {pass pass' : Pass} (h : Completes s input pass) (h' : Completes s input pass') :
    pass = pass' := by
  obtain ⟨_, _, _, hcontrol, -⟩ := h
  obtain ⟨_, _, _, hcontrol', -⟩ := h'
  cases hcontrol.symm.trans hcontrol'
  rfl

theorem Completes.underway {pass : Pass} (h : Completes s input pass) : s.Underway pass := by
  obtain ⟨indexed, starting, _, hcontrol, -⟩ := h
  exact .inr ⟨indexed, starting, hcontrol⟩

theorem Completes.stale {pass : Pass} (h : Completes s input pass) (hs : s.step now input = some s') :
    s'.stale pass.kb = none := by
  obtain ⟨indexed, starting, report, hcontrol, rfl⟩ := h
  simp only [State.step, hcontrol] at hs
  cases hs
  exact stale_reconciled _ _ _

theorem Kept.cleared_iff (h : Kept past s) (hs : s.step now input = some s') (kb : KbSlug) :
    ClearedByWholePass kb past s input s' ↔ NarrowOnlyUnmarked kb past s input s' := by
  constructor
  · rintro hcleared pass hcompletes rfl hscope
    by_contra hmarked
    obtain ⟨t, ht⟩ := Option.ne_none_iff_exists'.mp hmarked
    obtain ⟨pass', hcompletes', -, hwhole, -⟩ := hcleared t ht (hcompletes.stale hs)
    rw [hcompletes.unique hcompletes'] at hscope
    exact hscope hwhole
  · intro hnarrow t ht hnone
    obtain ⟨pass, hcompletes, rfl⟩ := (State.step_moved hs).cleared ht hnone
    have hwhole : pass.scope = none := by
      by_contra hscope
      rw [hnarrow pass hcompletes rfl hscope] at ht
      cases ht
    obtain ⟨t', ht', hbegan⟩ := h.underway pass hcompletes.underway hwhole
    cases ht'.symm.trans ht
    exact ⟨pass, hcompletes, rfl, hwhole, hbegan⟩

/-- In every run, a stale mark is taken away only by a pass over the whole knowledge base that began
after the mark was set, exactly if no pass over a subtree completes while the knowledge base is
marked. -/
theorem stale_until_whole_pass_iff (kbs : List KbSlug) (past : History) (s : State)
    (h : Run kbs past s) (kb : KbSlug) :
    Always (ClearedByWholePass kb) past s ↔ Always (NarrowOnlyUnmarked kb) past s := by
  induction h with
  | start => exact Iff.rfl
  | step _ _ hrun hs ih => exact and_congr (hrun.kept.cleared_iff hs kb) ih

/-! ## One knowledge base -/

/-- The bridge over one knowledge base, marked for its startup pass. -/
def startupMarked : State :=
  ⟨.beginning ⟨KbSlug.notes, none, .startup⟩ [], IndexHealth.new.markStale KbSlug.notes 0⟩

theorem run_startupMarked :
    Run [KbSlug.notes] [(start [KbSlug.notes], .proceed)] startupMarked :=
  .step 0 .proceed .start rfl

/-- The startup pass completes and takes the mark away. -/
theorem stale_until_whole_pass_iff_startup : ∃ past s, Run [KbSlug.notes] past s ∧
    startupMarked.stale KbSlug.notes = some 0 ∧ s.stale KbSlug.notes = none ∧
    Always (ClearedByWholePass KbSlug.notes) past s := by
  have hreading := Run.step 1 .proceed run_startupMarked rfl
  have hcomparing := Run.step 2 (.read (.ok [])) hreading rfl
  have hdone := Run.step 3 (.compared (.ok (some {}))) hcomparing rfl
  refine ⟨_, _, hdone, by decide, by decide, ?_⟩
  refine (stale_until_whole_pass_iff _ _ _ hdone KbSlug.notes).mpr ⟨?_, ?_, ?_, ?_, trivial⟩
  · rintro pass ⟨_, _, _, hcontrol, -⟩ - hscope
    cases hcontrol
    exact absurd rfl hscope
  · exact fun pass hcompletes => absurd hcompletes (not_completes (by simp) pass)
  · exact fun pass hcompletes => absurd hcompletes (not_completes (by simp) pass)
  · exact fun pass hcompletes => absurd hcompletes (not_completes (by simp) pass)

/-- The startup pass fails to read the index. A pass over one directory then takes its mark away. -/
theorem narrow_pass_clears_startup_mark : ∃ past s, Run [KbSlug.notes] past s ∧
    ¬ Always (ClearedByWholePass KbSlug.notes) past s := by
  have hreading := Run.step 1 .proceed run_startupMarked rfl
  have hskipped := Run.step 2 (.read (.error "unavailable")) hreading rfl
  have hsignalled := Run.step 3 (.signal (some (.underPrefix KbSlug.notes ['a', '/']))) hskipped rfl
  have hreading' := Run.step 4 .proceed hsignalled rfl
  have hcomparing := Run.step 5 (.read (.ok [])) hreading' rfl
  have hdone := Run.step 6 (.compared (.ok (some {}))) hcomparing rfl
  refine ⟨_, _, hdone, fun hcleared => ?_⟩
  obtain ⟨pass, ⟨_, _, _, hcontrol, -⟩, -, hscope, -⟩ :=
    hcleared.1 0 (by decide) (by decide)
  cases hcontrol
  cases hscope

end FsBridge
