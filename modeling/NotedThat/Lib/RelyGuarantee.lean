-- SUMMARY: Runs of a program in an environment, and the rely-guarantee weakest precondition that is sound for them.
import NotedThat.Lib.Prog

/-!
# Rely-guarantee reasoning

`sem s o r s'` says that the operation `o`, performed atomically in state `s`, may answer
`r` and leave `s'`. Between two operations of a program the environment moves the state
within a rely, a preorder on states. A guarantee judges each operation by the program's
history: the operations it performed before.
-/

/-- What the environment may do between two operations of a program. -/
structure Rely (σ : Type) where
  rel : σ → σ → Prop
  refl : ∀ s, rel s s
  trans : ∀ {s s' s''}, rel s s' → rel s' s'' → rel s s''

/-- The environment may do anything. -/
def Rely.any (σ : Type) : Rely σ := ⟨fun _ _ => True, fun _ => trivial, fun _ _ => trivial⟩

namespace Prog

variable {Op : Type} {Res : Op → Type} {α β σ : Type}
variable (sem : σ → (o : Op) → Res o → σ → Prop)

/-- A run of `p` from `s`, interrupted by environment moves, together with the operations
performed so far. -/
inductive Exec (env : σ → σ → Prop) :
    σ → Prog Op Res α → List (Event σ Op Res) → σ → Prog Op Res α → Prop where
  | done (s : σ) (p : Prog Op Res α) : Exec env s p [] s p
  | env {s s' s'' : σ} {p p' : Prog Op Res α} {tr : List (Event σ Op Res)} :
      env s s' → Exec env s' p tr s'' p' → Exec env s p tr s'' p'
  | step {s s' s'' : σ} {o : Op} {k : Res o → Prog Op Res α} {r : Res o}
      {p' : Prog Op Res α} {tr : List (Event σ Op Res)} :
      sem s o r s' → Exec env s' (k r) tr s'' p' →
        Exec env s (.op o k) (⟨s, o, r, s'⟩ :: tr) s'' p'

variable {sem} in
/-- What the environment and every operation keep, a run keeps. -/
theorem Exec.invariant {env : σ → σ → Prop} {I : σ → Prop} {s s' : σ} {p p' : Prog Op Res α}
    {tr : List (Event σ Op Res)} (hex : Exec sem env s p tr s' p')
    (henv : ∀ s s', I s → env s s' → I s')
    (hsem : ∀ s o r s', I s → sem s o r s' → I s') (hs : I s) : I s' := by
  induction hex with
  | done s p => exact hs
  | env he _ ih => exact ih (henv _ _ hs he)
  | step ho _ ih => exact ih (hsem _ _ _ _ hs ho)

variable {sem} in
/-- A run alone, on a machine whose states show those of the world and whose answers are possible
there. -/
theorem Exec.of_run {τ : Type} {env : σ → σ → Prop} {step : (o : Op) → τ → Res o × τ}
    {view : τ → σ} {P : Op → Prop} {Q : α → Prop}
    (hstep : ∀ o t, P o → sem (view t) o (step o t).1 (view (step o t).2)) {p : Prog Op Res α}
    (hp : p.Only P Q) (t : τ) :
    Exec sem env (view t) p
      ((p.trace step t).map fun e => ⟨view e.pre, e.op, e.res, view e.post⟩)
      (view (p.run step t).2) (.ret (p.run step t).1) := by
  induction p generalizing t with
  | ret a => exact .done _ _
  | op o k ih => exact .step (hstep o t hp.1) (ih _ (hp.2 _) _)

/-- `p` may perform the operations `tr`, starting from `s`. -/
def Traces (env : σ → σ → Prop) (s : σ) (p : Prog Op Res α) (tr : List (Event σ Op Res)) : Prop :=
  ∃ s' p', Exec sem env s p tr s' p'

section Traces

variable {sem} {env : σ → σ → Prop} {s s' : σ} {tr : List (Event σ Op Res)}

theorem Traces.nil {p : Prog Op Res α} : Traces sem env s p [] := ⟨s, p, .done s p⟩

theorem Traces.disturb {p : Prog Op Res α} (h : env s s') (hp : Traces sem env s' p tr) :
    Traces sem env s p tr := by
  obtain ⟨s'', p', hex⟩ := hp
  exact ⟨s'', p', .env h hex⟩

theorem Traces.step {o : Op} {k : Res o → Prog Op Res α} {r : Res o} (h : sem s o r s')
    (hk : Traces sem env s' (k r) tr) : Traces sem env s (.op o k) (⟨s, o, r, s'⟩ :: tr) := by
  obtain ⟨s'', p', hex⟩ := hk
  exact ⟨s'', p', .step h hex⟩

end Traces

variable (R : Rely σ) (G : List (Event σ Op Res) → Event σ Op Res → Prop)

/-- The weakest precondition of `p` for the postcondition `Q`: every operation `p` performs
meets the guarantee `G`, whatever the environment does within `R`, and `Q` holds of the
result, the history and the state once `p` has returned. -/
def wp : Prog Op Res α → (α → List (Event σ Op Res) → σ → Prop) →
    List (Event σ Op Res) → σ → Prop
  | .ret a, Q, h, s => ∀ s', R.rel s s' → Q a h s'
  | .op o k, Q, h, s => ∀ s', R.rel s s' → ∀ r s'', sem s' o r s'' →
      G h ⟨s', o, r, s''⟩ ∧ wp (k r) Q (h ++ [⟨s', o, r, s''⟩]) s''

/-- What is left to show after the operation `o` answered `r` and moved the state from `s` to
`s'`: it meets the guarantee, and the continuation is fine. -/
def Next (o : Op) (k : Res o → Prog Op Res α) (Q : α → List (Event σ Op Res) → σ → Prop)
    (h : List (Event σ Op Res)) (s : σ) (r : Res o) (s' : σ) : Prop :=
  G h ⟨s, o, r, s'⟩ ∧ wp sem R G (k r) Q (h ++ [⟨s, o, r, s'⟩]) s'

variable {sem R G} {Q Q' : α → List (Event σ Op Res) → σ → Prop} {h : List (Event σ Op Res)}
variable {s s' : σ}

/-- The weakest precondition is stable under the rely. -/
theorem wp.stable {p : Prog Op Res α} (hp : wp sem R G p Q h s) (hR : R.rel s s') :
    wp sem R G p Q h s' := by
  cases p with
  | ret a => exact fun s'' hs => hp s'' (R.trans hR hs)
  | op o k => exact fun s'' hs => hp s'' (R.trans hR hs)

theorem wp.mono {p : Prog Op Res α} (hQ : ∀ a h s, Q a h s → Q' a h s)
    (hp : wp sem R G p Q h s) : wp sem R G p Q' h s := by
  induction p generalizing h s with
  | ret a => exact fun s' hs => hQ _ _ _ (hp s' hs)
  | op o k ih =>
    intro s' hs r s'' hsem
    obtain ⟨hG, hk⟩ := hp s' hs r s'' hsem
    exact ⟨hG, ih r hk⟩

theorem wp.bind {p : Prog Op Res α} {f : α → Prog Op Res β}
    {Q : β → List (Event σ Op Res) → σ → Prop}
    (hp : wp sem R G p (fun a h s => wp sem R G (f a) Q h s) h s) :
    wp sem R G (p.bind f) Q h s := by
  induction p generalizing h s with
  | ret a => exact hp s (R.refl s)
  | op o k ih =>
    intro s' hs r s'' hsem
    obtain ⟨hG, hk⟩ := hp s' hs r s'' hsem
    exact ⟨hG, ih r hk⟩

/-- Two postconditions of one program. -/
theorem wp.and {p : Prog Op Res α} (hp : wp sem R G p Q h s) (hp' : wp sem R G p Q' h s) :
    wp sem R G p (fun a h s => Q a h s ∧ Q' a h s) h s := by
  induction p generalizing h s with
  | ret a => exact fun s' hs => ⟨hp s' hs, hp' s' hs⟩
  | op o k ih =>
    intro s' hs r s'' hsem
    obtain ⟨hG, hk⟩ := hp s' hs r s'' hsem
    exact ⟨hG, ih r hk (hp' s' hs r s'' hsem).2⟩

/-- What the rely and the program's operations keep holds once it has returned. -/
theorem wp.of_invariant {P : Op → Prop} {q : α → Prop} {I : σ → Prop} {p : Prog Op Res α}
    (hp : p.Only P q) (hG : ∀ h e, P e.op → G h e) (hR : ∀ s s', R.rel s s' → I s → I s')
    (hsem : ∀ s o r s', P o → sem s o r s' → I s → I s') (hI : I s) :
    wp sem R G p (fun a _ s => q a ∧ I s) h s := by
  induction p generalizing h s with
  | ret a => exact fun s' hs => ⟨hp, hR s s' hs hI⟩
  | op o k ih =>
    intro s' hs r s'' hstep
    exact ⟨hG _ _ hp.1, ih r (hp.2 r) (hsem s' o r s'' hp.1 hstep (hR s s' hs hI))⟩

/-- A program all of whose operations meet the guarantee by themselves: it adds operations of its
kind to the history. -/
theorem wp.of_only {P : Op → Prop} {q : α → Prop} {p : Prog Op Res α}
    (hG : ∀ h e, P e.op → G h e) (hp : p.Only P q)
    (hQ : ∀ a t s', q a → (∀ e ∈ t, P e.op ∧ sem e.pre e.op e.res e.post) → Q a (h ++ t) s') :
    wp sem R G p Q h s := by
  induction p generalizing h s with
  | ret a =>
    intro s' _
    simpa using hQ a [] s' hp (by simp)
  | op o k ih =>
    intro s' _ r s'' hsem
    refine ⟨hG _ _ hp.1, ih r (hp.2 r) fun a t s₁ hq ht => ?_⟩
    have := hQ a (⟨s', o, r, s''⟩ :: t) s₁ hq (List.forall_mem_cons.mpr ⟨⟨hp.1, hsem⟩, ht⟩)
    simpa using this

theorem wp.discard {p : Prog Op Res α} (hp : wp sem R G p (fun _ _ _ => True) h s) :
    wp sem R G p.discard (fun _ _ _ => True) h s :=
  (hp.mono fun _ _ _ _ => fun _ _ => trivial).bind

/-- Every operation of a run in an environment that respects the rely meets the guarantee,
and what is left of the program keeps its weakest precondition. -/
theorem wp.exec {env : σ → σ → Prop} {p p' : Prog Op Res α} {tr : List (Event σ Op Res)}
    (hex : Exec sem env s p tr s' p') (henv : ∀ s s', env s s' → R.rel s s')
    (hp : wp sem R G p Q h s) :
    (∀ pre e post, tr = pre ++ e :: post → G (h ++ pre) e) ∧
      wp sem R G p' Q (h ++ tr) s' := by
  induction hex generalizing h with
  | done s p =>
    refine ⟨fun pre e post heq => ?_, by simpa using hp⟩
    simp at heq
  | env hs _ ih => exact ih (hp.stable (henv _ _ hs))
  | @step s s' _ o k r _ tr hsem _ ih =>
    obtain ⟨hG, hk⟩ := hp s (R.refl s) r s' hsem
    obtain ⟨hev, hwp⟩ := ih hk
    refine ⟨fun pre e post heq => ?_, by simpa using hwp⟩
    cases pre with
    | nil =>
      simp only [List.nil_append, List.cons.injEq] at heq
      rw [← heq.1]
      simpa using hG
    | cons e' pre =>
      simp only [List.cons_append, List.cons.injEq] at heq
      have := hev pre e post heq.2
      rw [← heq.1]
      simpa using this

/-- What a finished run returned meets the postcondition. -/
theorem wp.exec_ret {env : σ → σ → Prop} {p : Prog Op Res α} {a : α} {tr : List (Event σ Op Res)}
    (hex : Exec sem env s p tr s' (.ret a)) (henv : ∀ s s', env s s' → R.rel s s')
    (hp : wp sem R G p Q [] s) : Q a tr s' := by
  have hret := (hp.exec hex henv).2
  simpa using hret s' (R.refl s')

/-- Every operation of a trace meets the guarantee. -/
theorem wp.traces {env : σ → σ → Prop} {p : Prog Op Res α} {tr : List (Event σ Op Res)}
    (htr : Traces sem env s p tr) (henv : ∀ s s', env s s' → R.rel s s')
    (hp : wp sem R G p Q [] s) : ∀ pre e post, tr = pre ++ e :: post → G pre e := by
  obtain ⟨s', p', hex⟩ := htr
  simpa using (hp.exec hex henv).1

end Prog
