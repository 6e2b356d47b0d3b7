-- SUMMARY: What a program will still do: operations it cannot return without, the duties an answer puts on it, and what a pool of programs owes.
import NotedThat.Lib.Pool

/-!
# Promises

A program that has changed something may owe the world a message about it. `Prog.Will` says that
a program cannot return before it has performed such an operation, whatever it is answered, and
`Prog.Honours` that it keeps every promise its answers oblige it to. A pool owes what one of its
threads will still do; the debt ends with the operation, and in no other way.
-/

namespace Prog

variable {Op : Type} {Res : Op → Type} {α β : Type}

/-- Whatever is answered, the program performs an operation satisfying `A` before it returns. -/
def Will (A : Op → Prop) : Prog Op Res α → Prop
  | .ret _ => False
  | .op o k => A o ∨ ∀ r, (k r).Will A

/-- Every operation of the program satisfies `P`, and each answer that obliges it to `A`, in the
sense of `D`, is followed by an operation satisfying `A`. -/
def Honours (P : Op → Prop) (D : (o : Op) → Res o → (Op → Prop) → Prop) : Prog Op Res α → Prop
  | .ret _ => True
  | .op o k => P o ∧ ∀ r, (∀ A, D o r A → (k r).Will A) ∧ (k r).Honours P D

variable {A : Op → Prop} {P P' : Op → Prop} {D D' : (o : Op) → Res o → (Op → Prop) → Prop}

theorem Will.bind {p : Prog Op Res α} {f : α → Prog Op Res β} (hp : p.Will A) :
    (p.bind f).Will A := by
  induction p with
  | ret a => exact hp.elim
  | op o k ih => exact hp.imp_right fun hk r => ih r (hk r)

/-- What is done later is still done. -/
theorem Will.later {p : Prog Op Res α} {f : α → Prog Op Res β} (hf : ∀ a, (f a).Will A) :
    (p.bind f).Will A := by
  induction p with
  | ret a => exact hf a
  | op o k ih => exact .inr ih

theorem Honours.bind {p : Prog Op Res α} {f : α → Prog Op Res β} (hp : p.Honours P D)
    (hf : ∀ a, (f a).Honours P D) : (p.bind f).Honours P D := by
  induction p with
  | ret a => exact hf a
  | op o k ih =>
    refine ⟨hp.1, fun r => ⟨fun A hA => ?_, ih r (hp.2 r).2⟩⟩
    exact ((hp.2 r).1 A hA).bind

/-- An operation none of whose answers puts a duty on the program. -/
theorem Honours.call {o : Op} {k : Res o → Prog Op Res α} (ho : P o) (hfree : ∀ r A, ¬ D o r A)
    (hk : ∀ r, (k r).Honours P D) : (call o >>= k).Honours P D :=
  ⟨ho, fun r => ⟨fun A hA => absurd hA (hfree r A), hk r⟩⟩

theorem Honours.discard {p : Prog Op Res α} (hp : p.Honours P D) : p.discard.Honours P D :=
  hp.bind fun _ => trivial

theorem Honours.only {p : Prog Op Res α} (hp : p.Honours P D) : p.Only P fun _ => True := by
  induction p with
  | ret a => trivial
  | op o k ih => exact ⟨hp.1, fun r => ih r (hp.2 r).2⟩

end Prog

namespace Pool

variable {σ τ Op : Type} {Res : Op → Type} {Y : System σ τ Op Res} {P P' : Pool σ τ Op Res}
variable {l : Label τ Op} {t : τ} {o : Op}

/-- Some thread performs an operation satisfying `A` before it returns. -/
def Owed (A : Op → Prop) (P : Pool σ τ Op Res) : Prop := ∃ th ∈ P.threads, th.2.Will A

/-- A debt stays until it is paid. -/
theorem Owed.step {A : Op → Prop} (h : P.Owed A) (hs : Step Y P l P') :
    P'.Owed A ∨ ∃ t o r, l = .op t o ∧ A o ∧ Y.sem P.state o r P'.state := by
  obtain ⟨th, hth, hwill⟩ := h
  cases hs with
  | env he => exact .inl ⟨th, hth, hwill⟩
  | spawn hsp => exact .inl ⟨th, List.mem_append_left _ hth, hwill⟩
  | @op s s' t o k r before after hsem =>
    simp only [List.mem_append, List.mem_cons] at hth
    rcases hth with hth | rfl | hth
    · exact .inl ⟨th, by simp [hth], hwill⟩
    · rcases hwill with hA | hk
      · exact .inr ⟨t, o, r, rfl, hA, hsem⟩
      · exact .inl ⟨(t, k r), by simp, hk r⟩
    · exact .inl ⟨th, by simp [hth], hwill⟩
  | finish hf =>
    simp only [List.mem_append, List.mem_cons] at hth
    rcases hth with hth | rfl | hth
    · exact .inl ⟨th, by simp [hth], hwill⟩
    · exact hwill.elim
    · exact .inl ⟨th, by simp [hth], hwill⟩

/-- The thread that performs an operation, before and after it. -/
theorem Step.op_inv (hs : Step Y P (.op t o) P') :
    ∃ k r before after, Y.sem P.state o r P'.state ∧
      P.threads = before ++ (t, .op o k) :: after ∧ P'.threads = before ++ (t, k r) :: after := by
  cases hs with
  | op hsem => exact ⟨_, _, _, _, hsem, rfl, rfl⟩

/-- A property of programs that holds of what is started and is kept by every answer goes on
holding of all threads. -/
theorem Step.threads {K : τ → Prog Op Res Unit → Prop}
    (hspawn : ∀ t p s', Y.spawn P.state t p s' → K t p)
    (hop : ∀ t o k r, K t (.op o k) → K t (k r)) (h : ∀ th ∈ P.threads, K th.1 th.2)
    (hs : Step Y P l P') : ∀ th ∈ P'.threads, K th.1 th.2 := by
  have hkept := hs.maintains (I := fun _ => True) (R := fun _ _ => True) (T := fun t p _ => K t p) h
    (fun _ _ _ _ _ hK => hK) (fun _ => ⟨trivial, trivial⟩)
    (fun t p hsp => ⟨trivial, trivial, hspawn t p _ hsp⟩)
    (fun t o k r _ hK _ => ⟨trivial, trivial, hop t o k r hK⟩) fun _ _ => ⟨trivial, trivial⟩
  exact hkept.2

end Pool
