-- SUMMARY: Pools of interaction programs over a shared state: their steps, their runs, and the rely-guarantee rule for a pool.
import NotedThat.Lib.RelyGuarantee

/-!
# Pools

Any number of programs take turns performing operations on one state. Programs are started and
leave the pool when they have returned, and the environment moves the state on its own. Every
thread has a tag, which says what it is, and every step a label, so that a run can be restricted
to steps that meet a condition.
-/

/-- The threads of a pool with the state they share. -/
structure Pool (σ τ Op : Type) (Res : Op → Type) where
  state : σ
  threads : List (τ × Prog Op Res Unit)

namespace Pool

variable {σ τ Op : Type} {Res : Op → Type}

/-- What a step of a pool was. -/
inductive Label (τ Op : Type) where
  | env
  | spawn (t : τ)
  | op (t : τ) (o : Op)
  | finish (t : τ)

/-- How the state moves: by an operation, on its own, and when a thread starts or leaves. -/
structure System (σ τ Op : Type) (Res : Op → Type) where
  sem : σ → (o : Op) → Res o → σ → Prop
  env : σ → σ → Prop
  spawn : σ → τ → Prog Op Res Unit → σ → Prop
  finish : σ → τ → σ → Prop

variable (Y : System σ τ Op Res)

inductive Step : Pool σ τ Op Res → Label τ Op → Pool σ τ Op Res → Prop where
  | env {s s' : σ} {ts : List (τ × Prog Op Res Unit)} :
      Y.env s s' → Step ⟨s, ts⟩ .env ⟨s', ts⟩
  | spawn {s s' : σ} {t : τ} {p : Prog Op Res Unit} {ts : List (τ × Prog Op Res Unit)} :
      Y.spawn s t p s' → Step ⟨s, ts⟩ (.spawn t) ⟨s', ts ++ [(t, p)]⟩
  | op {s s' : σ} {t : τ} {o : Op} {k : Res o → Prog Op Res Unit} {r : Res o}
      {before after : List (τ × Prog Op Res Unit)} :
      Y.sem s o r s' →
        Step ⟨s, before ++ (t, .op o k) :: after⟩ (.op t o) ⟨s', before ++ (t, k r) :: after⟩
  | finish {s s' : σ} {t : τ} {before after : List (τ × Prog Op Res Unit)} :
      Y.finish s t s' →
        Step ⟨s, before ++ (t, .ret ()) :: after⟩ (.finish t) ⟨s', before ++ after⟩

/-- The pools reached by steps that are allowed where they are taken. -/
inductive Reach (allowed : Pool σ τ Op Res → Label τ Op → Prop) (init : σ → Prop) :
    Pool σ τ Op Res → Prop where
  | init {s : σ} : init s → Reach allowed init ⟨s, []⟩
  | step {P P' : Pool σ τ Op Res} {l : Label τ Op} :
      Reach allowed init P → Step Y P l P' → allowed P l → Reach allowed init P'

/-- Every step is allowed. -/
def anyStep : Pool σ τ Op Res → Label τ Op → Prop := fun _ _ => True

variable {Y} {allowed : Pool σ τ Op Res → Label τ Op → Prop} {init : σ → Prop}

/-- The first thread moves. -/
theorem Step.op_head {s s' : σ} {t : τ} {o : Op} {k : Res o → Prog Op Res Unit} {r : Res o}
    {after : List (τ × Prog Op Res Unit)} (h : Y.sem s o r s') :
    Step Y ⟨s, (t, .op o k) :: after⟩ (.op t o) ⟨s', (t, k r) :: after⟩ :=
  @Step.op _ _ _ _ Y s s' t o k r [] after h

/-- What holds initially and is kept by every allowed step holds of every pool reached. -/
theorem Reach.invariant {I : Pool σ τ Op Res → Prop} (hinit : ∀ s, init s → I ⟨s, []⟩)
    (hstep : ∀ P l P', I P → Step Y P l P' → allowed P l → I P') {P : Pool σ τ Op Res}
    (h : Reach Y allowed init P) : I P := by
  induction h with
  | init hs => exact hinit _ hs
  | step _ hs ha ih => exact hstep _ _ _ ih hs ha

/-- A thread may run on while nobody else moves, as long as its operations are allowed. -/
theorem Reach.run {α : Type} {step : (o : Op) → σ → Res o × σ} {A : Op → Prop} {q : α → Prop}
    (hstep : ∀ o s, Y.sem s o (step o s).1 (step o s).2) {t : τ}
    {before after : List (τ × Prog Op Res Unit)}
    (hallowed : ∀ s o k, A o → allowed ⟨s, before ++ (t, .op o k) :: after⟩ (.op t o))
    {p : Prog Op Res α} (hp : p.Only A q) {f : α → Prog Op Res Unit} {s : σ}
    (h : Reach Y allowed init ⟨s, before ++ (t, p.bind f) :: after⟩) :
    Reach Y allowed init ⟨(p.run step s).2, before ++ (t, f (p.run step s).1) :: after⟩ := by
  induction p generalizing s with
  | ret a => exact h
  | op o k ih => exact ih _ (hp.2 _) (h.step (.op (hstep o s)) (hallowed s o _ hp.1))

/-- A step keeps a state invariant `I` and what is known of each thread, `T`, as long as the thread
that moves keeps both and moves the state within what the other threads stand, `R`. -/
theorem Step.maintains {P P' : Pool σ τ Op Res} {l : Label τ Op} {I : σ → Prop} {R : σ → σ → Prop}
    {T : τ → Prog Op Res Unit → σ → Prop} (hs : Step Y P l P')
    (hT : ∀ th ∈ P.threads, T th.1 th.2 P.state)
    (hstable : ∀ t p s s', R s s' → T t p s → T t p s')
    (henv : Y.env P.state P'.state → I P'.state ∧ R P.state P'.state)
    (hspawn : ∀ t p, Y.spawn P.state t p P'.state →
      I P'.state ∧ R P.state P'.state ∧ T t p P'.state)
    (hop : ∀ t o k r, l = .op t o → T t (.op o k) P.state → Y.sem P.state o r P'.state →
      I P'.state ∧ R P.state P'.state ∧ T t (k r) P'.state)
    (hfinish : ∀ t, Y.finish P.state t P'.state → I P'.state ∧ R P.state P'.state) :
    I P'.state ∧ ∀ th ∈ P'.threads, T th.1 th.2 P'.state := by
  have keep : R P.state P'.state → ∀ th ∈ P.threads, T th.1 th.2 P'.state :=
    fun hR th hth => hstable _ _ _ _ hR (hT th hth)
  cases hs with
  | env he =>
    obtain ⟨hI, hR⟩ := henv he
    exact ⟨hI, keep hR⟩
  | @spawn _ _ t p _ hsp =>
    obtain ⟨hI, hR, hnew⟩ := hspawn t p hsp
    refine ⟨hI, fun th hth => ?_⟩
    rcases List.mem_append.mp hth with hth | hth
    · exact keep hR th hth
    · cases List.mem_singleton.mp hth
      exact hnew
  | @op _ _ t o k r _ _ hsem =>
    obtain ⟨hI, hR, hmoved⟩ := hop t o k r rfl (hT (t, .op o k) (by simp)) hsem
    refine ⟨hI, fun th hth => ?_⟩
    simp only [List.mem_append, List.mem_cons] at hth
    rcases hth with hth | rfl | hth
    · exact keep hR th (by simp [hth])
    · exact hmoved
    · exact keep hR th (by simp [hth])
  | finish hf =>
    obtain ⟨hI, hR⟩ := hfinish _ hf
    refine ⟨hI, fun th hth => keep hR th ?_⟩
    simp only [List.mem_append] at hth
    rcases hth with hth | hth
    · simp [hth]
    · simp [hth]

/-! ## The rely-guarantee rule -/

/-- The obligations of a rely-guarantee proof about a pool: a state invariant `I` and a rely `R`
that every move of the state respects, and a weakest precondition for each program started. -/
structure Obligations (Y : System σ τ Op Res) (init : σ → Prop) (I : σ → Prop) (R : Rely σ)
    (G : Prog.Event σ Op Res → Prop) : Prop where
  init : ∀ s, init s → I s
  env : ∀ s s', I s → Y.env s s' → I s' ∧ R.rel s s'
  spawn : ∀ s t p s', I s → Y.spawn s t p s' → I s' ∧ R.rel s s' ∧
    Prog.wp Y.sem R (fun _ => G) p (fun _ _ _ => True) [] s'
  finish : ∀ s t s', I s → Y.finish s t s' → I s' ∧ R.rel s s'
  rely : ∀ s o r s', Y.sem s o r s' → R.rel s s'
  guarantee : ∀ s o r s', I s → Y.sem s o r s' → G ⟨s, o, r, s'⟩ → I s'

/-- The invariant of a proved pool together with the threads' weakest preconditions. -/
def Proved (Y : System σ τ Op Res) (I : σ → Prop) (R : Rely σ) (G : Prog.Event σ Op Res → Prop)
    (P : Pool σ τ Op Res) : Prop :=
  I P.state ∧ ∀ th ∈ P.threads, ∃ h,
    Prog.wp Y.sem R (fun _ => G) th.2 (fun _ _ _ => True) h P.state

variable {I : σ → Prop} {R : Rely σ} {G : Prog.Event σ Op Res → Prop}

theorem Proved.step (hY : Obligations Y init I R G) {P P' : Pool σ τ Op Res} {l : Label τ Op}
    (hP : Proved Y I R G P) (hs : Step Y P l P') : Proved Y I R G P' := by
  obtain ⟨hI, hwp⟩ := hP
  refine hs.maintains (I := I) (R := R.rel)
    (T := fun _ p s => ∃ h, Prog.wp Y.sem R (fun _ => G) p (fun _ _ _ => True) h s) hwp
    (fun _ _ _ _ hR ⟨h, hth⟩ => ⟨h, hth.stable hR⟩) (hY.env _ _ hI) ?_ ?_
    fun t hf => hY.finish _ t _ hI hf
  · intro t p hsp
    obtain ⟨hI', hR, hnew⟩ := hY.spawn _ _ _ _ hI hsp
    exact ⟨hI', hR, [], hnew⟩
  · rintro t o k r - ⟨h, hmove⟩ hsem
    obtain ⟨hG, hk⟩ := hmove _ (R.refl _) r _ hsem
    exact ⟨hY.guarantee _ _ _ _ hI hsem hG, hY.rely _ _ _ _ hsem, _, hk⟩

/-- In every run of a proved pool the state invariant holds. -/
theorem Reach.proved (hY : Obligations Y init I R G) {P : Pool σ τ Op Res}
    (h : Reach Y allowed init P) : Proved Y I R G P := by
  refine h.invariant (fun s hs => ⟨hY.init s hs, ?_⟩) fun P l P' hP hs _ => hP.step hY hs
  simp

end Pool
