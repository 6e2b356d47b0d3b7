-- SUMMARY: Pools whose threads may be dropped while they await: the drop, the operation that may still take effect behind it, and what a dropped thread still owes.
import NotedThat.Lib.Promises

/-!
# Dropped threads

A thread may be dropped while it awaits an operation. Whatever guards it acts at once, and the
thread takes no further step. The operation it awaited is still in flight, though: it may take
effect later, or never. What the thread would have done next is kept as its remnant. Nobody performs
it, but it says what the thread owed.
-/

namespace Pool

/-- What is left of a dropped thread. -/
inductive Remnant (Op : Type) (Res : Op → Type) where
  | flying (o : Op) (k : Res o → Prog Op Res Unit)
  | landed (p : Prog Op Res Unit)

/-- What the thread would have done next. -/
def Remnant.rest {Op : Type} {Res : Op → Type} : Remnant Op Res → Prog Op Res Unit
  | .flying o k => .op o k
  | .landed p => p

end Pool

/-- A pool, and what is left of the threads dropped from it. -/
structure DropPool (σ τ Op : Type) (Res : Op → Type) where
  pool : Pool σ τ Op Res
  dropped : List (Pool.Remnant Op Res)

namespace DropPool

open Pool (System Remnant)

variable {σ τ Op : Type} {Res : Op → Type}

/-- What a step was. -/
inductive Label (τ Op : Type) where
  | thread (l : Pool.Label τ Op)
  | drop (t : τ)
  | late (o : Op)

/-- The operation a step performs for a thread, dropped or not. -/
def Label.op? : Label τ Op → Option Op
  | .thread (.op _ o) => some o
  | .late o => some o
  | _ => none

variable (Y : System σ τ Op Res) (drops : σ → τ → Op → σ → Prop)

/-- The steps of a pool from which threads are dropped: `drops s t o s'` says that `t` may be where it
awaits `o`, and what its guard makes of the state. -/
inductive Step : DropPool σ τ Op Res → Label τ Op → DropPool σ τ Op Res → Prop where
  | thread {P P' : Pool σ τ Op Res} {l : Pool.Label τ Op} {ds : List (Remnant Op Res)} :
      Pool.Step Y P l P' → Step ⟨P, ds⟩ (.thread l) ⟨P', ds⟩
  | drop {s s' : σ} {t : τ} {o : Op} {k : Res o → Prog Op Res Unit}
      {before after : List (τ × Prog Op Res Unit)} {ds : List (Remnant Op Res)} :
      drops s t o s' →
        Step ⟨⟨s, before ++ (t, .op o k) :: after⟩, ds⟩ (.drop t)
          ⟨⟨s', before ++ after⟩, .flying o k :: ds⟩
  | late {s s' : σ} {o : Op} {k : Res o → Prog Op Res Unit} {r : Res o}
      {ts : List (τ × Prog Op Res Unit)} {before after : List (Remnant Op Res)} :
      Y.sem s o r s' →
        Step ⟨⟨s, ts⟩, before ++ .flying o k :: after⟩ (.late o)
          ⟨⟨s', ts⟩, before ++ .landed (k r) :: after⟩

/-- The pools reached by steps that are allowed where they are taken. -/
inductive Reach (allowed : DropPool σ τ Op Res → Label τ Op → Prop) (init : σ → Prop) :
    DropPool σ τ Op Res → Prop where
  | init {s : σ} : init s → Reach allowed init ⟨⟨s, []⟩, []⟩
  | step {D D' : DropPool σ τ Op Res} {l : Label τ Op} :
      Reach allowed init D → Step Y drops D l D' → allowed D l → Reach allowed init D'

/-- Every step is allowed. -/
def anyStep : DropPool σ τ Op Res → Label τ Op → Prop := fun _ _ => True

variable {Y drops} {allowed : DropPool σ τ Op Res → Label τ Op → Prop} {init : σ → Prop}
variable {D D' : DropPool σ τ Op Res} {l : Label τ Op}

/-- The only thread is dropped. -/
theorem Step.drop_only {s s' : σ} {t : τ} {o : Op} {k : Res o → Prog Op Res Unit}
    {ds : List (Remnant Op Res)} (h : drops s t o s') :
    Step Y drops ⟨⟨s, [(t, .op o k)]⟩, ds⟩ (.drop t) ⟨⟨s', []⟩, .flying o k :: ds⟩ :=
  @Step.drop _ _ _ _ Y drops s s' t o k [] [] ds h

/-- The operation of the thread dropped last takes effect. -/
theorem Step.late_head {s s' : σ} {o : Op} {k : Res o → Prog Op Res Unit} {r : Res o}
    {ts : List (τ × Prog Op Res Unit)} {ds : List (Remnant Op Res)} (h : Y.sem s o r s') :
    Step Y drops ⟨⟨s, ts⟩, .flying o k :: ds⟩ (.late o) ⟨⟨s', ts⟩, .landed (k r) :: ds⟩ :=
  @Step.late _ _ _ _ Y drops s s' o k r ts [] ds h

/-- What holds initially and is kept by every allowed step holds of every pool reached. -/
theorem Reach.invariant {I : DropPool σ τ Op Res → Prop} (hinit : ∀ s, init s → I ⟨⟨s, []⟩, []⟩)
    (hstep : ∀ D l D', I D → Step Y drops D l D' → allowed D l → I D')
    (h : Reach Y drops allowed init D) : I D := by
  induction h with
  | init hs => exact hinit _ hs
  | step _ hs ha ih => exact hstep _ _ _ ih hs ha

/-- When no thread runs, a run of the pool may follow from which nobody is dropped. -/
theorem Reach.pool {allowed' : Pool σ τ Op Res → Pool.Label τ Op → Prop}
    {ds : List (Remnant Op Res)} {s : σ} {P : Pool σ τ Op Res}
    (hallowed : ∀ P l, allowed' P l → allowed ⟨P, ds⟩ (.thread l))
    (h : Reach Y drops allowed init ⟨⟨s, []⟩, ds⟩) (hP : Pool.Reach Y allowed' (· = s) P) :
    Reach Y drops allowed init ⟨P, ds⟩ := by
  induction hP with
  | init hs => exact hs ▸ h
  | step _ hs ha ih => exact ih.step (.thread hs) (hallowed _ _ ha)

/-! ## What is owed -/

/-- Some thread performs an operation satisfying `A` before it returns, or would have, had it not
been dropped. -/
def Owed (A : Op → Prop) (D : DropPool σ τ Op Res) : Prop :=
  D.pool.Owed A ∨ ∃ d ∈ D.dropped, d.rest.Will A

/-- A drop pays no debt. -/
theorem Owed.step {A : Op → Prop} (h : D.Owed A) (hs : Step Y drops D l D') :
    D'.Owed A ∨ ∃ o r, l.op? = some o ∧ A o ∧ Y.sem D.pool.state o r D'.pool.state := by
  cases hs with
  | thread hs =>
    rcases h with hpool | hdropped
    · exact (hpool.step hs).imp .inl fun ⟨t, o, r, hl, hA, hsem⟩ => ⟨o, r, by rw [hl]; rfl, hA, hsem⟩
    · exact .inl (.inr hdropped)
  | @drop s s' t o k before after ds hdrop =>
    rcases h with ⟨th, hth, hwill⟩ | ⟨d, hd, hwill⟩
    · simp only [List.mem_append, List.mem_cons] at hth
      rcases hth with hth | rfl | hth
      · exact .inl (.inl ⟨th, by simp [hth], hwill⟩)
      · exact .inl (.inr ⟨.flying o k, by simp, hwill⟩)
      · exact .inl (.inl ⟨th, by simp [hth], hwill⟩)
    · exact .inl (.inr ⟨d, List.mem_cons_of_mem _ hd, hwill⟩)
  | @late s s' o k r ts before after hsem =>
    rcases h with hpool | ⟨d, hd, hwill⟩
    · exact .inl (.inl hpool)
    · simp only [List.mem_append, List.mem_cons] at hd
      rcases hd with hd | rfl | hd
      · exact .inl (.inr ⟨d, by simp [hd], hwill⟩)
      · rcases hwill with hA | hk
        · exact .inr ⟨o, r, rfl, hA, hsem⟩
        · exact .inl (.inr ⟨.landed (k r), by simp, hk r⟩)
      · exact .inl (.inr ⟨d, by simp [hd], hwill⟩)

/-- A property of programs that a dropped thread has, and every answer keeps, holds of all
remnants. -/
theorem Step.remnants {K : Prog Op Res Unit → Prop} (hs : Step Y drops D l D')
    (hdrop : ∀ t o k s', drops D.pool.state t o s' → (t, .op o k) ∈ D.pool.threads → K (.op o k))
    (hlate : ∀ o k r, K (.op o k) → K (k r)) (h : ∀ d ∈ D.dropped, K d.rest) :
    ∀ d ∈ D'.dropped, K d.rest := by
  cases hs with
  | thread hs => exact h
  | drop hd => exact List.forall_mem_cons.mpr ⟨hdrop _ _ _ _ hd (by simp), h⟩
  | @late s s' o k r ts before after hsem =>
    intro d hd
    simp only [List.mem_append, List.mem_cons] at hd
    rcases hd with hd | rfl | hd
    · exact h d (by simp [hd])
    · exact hlate o k r (h (.flying o k) (by simp))
    · exact h d (by simp [hd])

end DropPool
