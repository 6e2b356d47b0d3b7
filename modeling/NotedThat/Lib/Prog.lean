-- SUMMARY: Interaction programs over atomic operations: sequential runs, runs in an environment, and a rely-guarantee weakest precondition.
import Mathlib.Logic.Relation
import Mathlib.Data.List.Basic

/-!
# Interaction programs

A program is a tree of atomic operations: it has either returned, or it performs one
operation and continues with the answer. The same tree is read in two ways. Run alone
against a deterministic machine it is an ordinary function of the state (`Prog.run`).
Run in an environment, other parties may change the state before every operation
(`Prog.Exec`), and `Prog.wp` is the calculus for that reading: a precondition under which
every operation the program performs meets a guarantee, however the environment moves
within its rely.
-/

/-! ## Results that may fail -/

theorem Except.bind_eq_ok {ε α β : Type} {x : Except ε α} {f : α → Except ε β} {b : β} :
    x >>= f = .ok b ↔ ∃ a, x = .ok a ∧ f a = .ok b := by
  cases x with
  | error e =>
    refine ⟨fun h => ?_, fun ⟨_, h, _⟩ => ?_⟩
    · cases h
    · cases h
  | ok a =>
    refine ⟨fun h => ⟨a, rfl, h⟩, fun ⟨_, h, hf⟩ => ?_⟩
    cases h
    exact hf

theorem Except.bind_eq_error {ε α β : Type} {x : Except ε α} {f : α → Except ε β} {e : ε} :
    x >>= f = .error e ↔ x = .error e ∨ ∃ a, x = .ok a ∧ f a = .error e := by
  cases x with
  | error e' => simp [bind, Except.bind]
  | ok a => simp [bind, Except.bind]

theorem Except.map_eq_ok {ε α β : Type} {x : Except ε α} {f : α → β} {b : β} :
    x.map f = .ok b ↔ ∃ a, x = .ok a ∧ f a = b := by
  cases x with
  | error e => simp [Except.map]
  | ok a => simp [Except.map]

theorem Except.mapError_eq_ok {ε ε' α : Type} {x : Except ε α} {f : ε → ε'} {a : α} :
    x.mapError f = .ok a ↔ x = .ok a := by
  cases x with
  | error e => simp [Except.mapError]
  | ok b => simp [Except.mapError]

/-- `Q` holds of the result, unless it is an error. -/
def Except.OnOk {ε α : Type} (Q : α → Prop) : Except ε α → Prop
  | .ok a => Q a
  | .error _ => True

/-! ## Runs that come to an end -/

/-- Steps that decrease a measure lead to a state without a step. -/
theorem Relation.exists_stuck {α : Type} {r : α → α → Prop} (μ : α → Nat)
    (hμ : ∀ a b, r a b → μ b < μ a) (a : α) : ∃ b, Relation.ReflTransGen r a b ∧ ∀ c, ¬ r b c := by
  induction hn : μ a using Nat.strongRecOn generalizing a with
  | ind n ih =>
    by_cases hstep : ∃ b, r a b
    · obtain ⟨b, hb⟩ := hstep
      obtain ⟨c, hc, hstuck⟩ := ih (μ b) (hn ▸ hμ a b hb) b rfl
      exact ⟨c, .head hb hc, hstuck⟩
    · exact ⟨a, .refl, fun c hc => hstep ⟨c, hc⟩⟩

/-! ## Programs -/

/-- A program over the operations `Op`, where `Res o` is what `o` answers. -/
inductive Prog (Op : Type) (Res : Op → Type) (α : Type) : Type where
  | ret (a : α) : Prog Op Res α
  | op (o : Op) (k : Res o → Prog Op Res α) : Prog Op Res α

namespace Prog

variable {Op : Type} {Res : Op → Type} {α β : Type}

/-! ## Monad structure -/

def bind : Prog Op Res α → (α → Prog Op Res β) → Prog Op Res β
  | .ret a, f => f a
  | .op o k, f => .op o fun r => (k r).bind f

instance : Monad (Prog Op Res) where
  pure := Prog.ret
  bind := Prog.bind

/-- The program that performs `o` and returns its answer. -/
def call (o : Op) : Prog Op Res (Res o) := .op o .ret

@[simp] theorem pure_eq (a : α) : (pure a : Prog Op Res α) = .ret a := rfl

@[simp] theorem bind_eq (p : Prog Op Res α) (f : α → Prog Op Res β) : p >>= f = p.bind f := rfl

@[simp] theorem ret_bind (a : α) (f : α → Prog Op Res β) : (Prog.ret a).bind f = f a := rfl

@[simp] theorem op_bind (o : Op) (k : Res o → Prog Op Res α) (f : α → Prog Op Res β) :
    (Prog.op o k).bind f = .op o fun r => (k r).bind f := rfl

@[simp] theorem call_bind (o : Op) (f : Res o → Prog Op Res β) :
    (call o).bind f = .op o f := rfl

theorem bind_ret (p : Prog Op Res α) : p.bind .ret = p := by
  induction p with
  | ret a => rfl
  | op o k ih =>
    simp only [op_bind]
    exact congrArg _ (funext ih)

theorem bind_assoc {γ : Type} (p : Prog Op Res α) (f : α → Prog Op Res β) (g : β → Prog Op Res γ) :
    (p.bind f).bind g = p.bind fun a => (f a).bind g := by
  induction p with
  | ret a => rfl
  | op o k ih =>
    simp only [op_bind]
    exact congrArg _ (funext ih)

/-- The program without its result. -/
def discard (p : Prog Op Res α) : Prog Op Res Unit := p.bind fun _ => .ret ()

/-! ## Sequential runs -/

/-- One operation of a run: the state before, the operation, its answer, the state after. -/
structure Event (σ Op : Type) (Res : Op → Type) where
  pre : σ
  op : Op
  res : Res op
  post : σ

variable {σ : Type}

/-- Run a program alone against a machine that answers every operation. -/
def run (step : (o : Op) → σ → Res o × σ) : Prog Op Res α → σ → α × σ
  | .ret a, s => (a, s)
  | .op o k, s => run step (k (step o s).1) (step o s).2

/-- The operations of a sequential run, in order. -/
def trace (step : (o : Op) → σ → Res o × σ) : Prog Op Res α → σ → List (Event σ Op Res)
  | .ret _, _ => []
  | .op o k, s => ⟨s, o, (step o s).1, (step o s).2⟩ :: trace step (k (step o s).1) (step o s).2

variable {step : (o : Op) → σ → Res o × σ}

@[simp] theorem run_ret (a : α) (s : σ) : (Prog.ret a : Prog Op Res α).run step s = (a, s) := rfl

@[simp] theorem run_op (o : Op) (k : Res o → Prog Op Res α) (s : σ) :
    (Prog.op o k).run step s = (k (step o s).1).run step (step o s).2 := rfl

@[simp] theorem trace_ret (a : α) (s : σ) : (Prog.ret a : Prog Op Res α).trace step s = [] := rfl

@[simp] theorem trace_op (o : Op) (k : Res o → Prog Op Res α) (s : σ) :
    (Prog.op o k).trace step s =
      ⟨s, o, (step o s).1, (step o s).2⟩ :: (k (step o s).1).trace step (step o s).2 := rfl

theorem run_bind (p : Prog Op Res α) (f : α → Prog Op Res β) (s : σ) :
    (p.bind f).run step s = (f (p.run step s).1).run step (p.run step s).2 := by
  induction p generalizing s with
  | ret a => rfl
  | op o k ih => exact ih _ _

theorem trace_bind (p : Prog Op Res α) (f : α → Prog Op Res β) (s : σ) :
    (p.bind f).trace step s =
      p.trace step s ++ (f (p.run step s).1).trace step (p.run step s).2 := by
  induction p generalizing s with
  | ret a => rfl
  | op o k ih => simp [ih]

theorem mem_trace_bind {p : Prog Op Res α} {f : α → Prog Op Res β} {s : σ}
    {e : Event σ Op Res} : e ∈ (p.bind f).trace step s ↔
      e ∈ p.trace step s ∨ e ∈ (f (p.run step s).1).trace step (p.run step s).2 := by
  rw [trace_bind, List.mem_append]

/-! ## The operations a program may perform -/

/-- Whatever is answered, every operation the program performs satisfies `P` and its result
satisfies `Q`. -/
def Only (P : Op → Prop) (Q : α → Prop) : Prog Op Res α → Prop
  | .ret a => Q a
  | .op o k => P o ∧ ∀ r, (k r).Only P Q

section Only

variable {P P' : Op → Prop} {Q Q' : α → Prop}

theorem Only.bind {Q : β → Prop} {p : Prog Op Res α} {f : α → Prog Op Res β}
    (hp : p.Only P fun a => (f a).Only P Q) : (p.bind f).Only P Q := by
  induction p with
  | ret a => exact hp
  | op o k ih => exact ⟨hp.1, fun r => ih r (hp.2 r)⟩

theorem Only.call {o : Op} {k : Res o → Prog Op Res α} (ho : P o)
    (hk : ∀ r, (k r).Only P Q) : (call o >>= k).Only P Q := ⟨ho, hk⟩

/-- Nothing is known of the program. -/
theorem Only.any (p : Prog Op Res α) : p.Only (fun _ => True) fun _ => True := by
  induction p with
  | ret a => trivial
  | op o k ih => exact ⟨trivial, ih⟩

theorem Only.mono {p : Prog Op Res α} (hp : p.Only P Q) (hP : ∀ o, P o → P' o)
    (hQ : ∀ a, Q a → Q' a) : p.Only P' Q' := by
  induction p with
  | ret a => exact hQ a hp
  | op o k ih => exact ⟨hP o hp.1, fun r => ih r (hp.2 r)⟩

/-- A program about whose result nothing is known, and what follows it. -/
theorem Only.andThen {Q : β → Prop} {p : Prog Op Res α} {f : α → Prog Op Res β}
    (hp : p.Only P fun _ => True) (hf : ∀ a, (f a).Only P Q) : (p.bind f).Only P Q :=
  Only.bind (hp.mono (fun _ h => h) fun a _ => hf a)

theorem Only.of_discard {p : Prog Op Res α} (hp : p.discard.Only P fun _ => True) :
    p.Only P fun _ => True := by
  induction p with
  | ret a => trivial
  | op o k ih => exact ⟨hp.1, fun r => ih r (hp.2 r)⟩

theorem Only.trace {p : Prog Op Res α} (hp : p.Only P Q) {s : σ} {e : Event σ Op Res}
    (he : e ∈ p.trace step s) : P e.op := by
  induction p generalizing s with
  | ret a => cases he
  | op o k ih =>
    rcases List.mem_cons.mp he with rfl | he
    · exact hp.1
    · exact ih _ (hp.2 _) he

/-- A run of operations that keep the state returns the state it got. -/
theorem Only.run_state {p : Prog Op Res α} (hp : p.Only P Q)
    (hkeep : ∀ o s, P o → (step o s).2 = s) (s : σ) : (p.run step s).2 = s := by
  induction p generalizing s with
  | ret a => rfl
  | op o k ih => rw [run_op, ih _ (hp.2 _), hkeep o s hp.1]

/-- Two runs of a program whose operations keep the state: the results agree, or one of the runs
performs an operation on which the two machines' answers differ. -/
theorem Only.run_eq_or {p : Prog Op Res α} (hp : p.Only P Q) {s s' : σ}
    {Odd : Event σ Op Res → Prop}
    (hkeep : ∀ o, P o → (step o s).2 = s ∧ (step o s').2 = s')
    (hagree : ∀ o, P o → (step o s).1 = (step o s').1 ∨ Odd ⟨s, o, (step o s).1, s⟩ ∨
      Odd ⟨s', o, (step o s').1, s'⟩) :
    (p.run step s).1 = (p.run step s').1 ∨ (∃ e ∈ p.trace step s, Odd e) ∨
      ∃ e ∈ p.trace step s', Odd e := by
  induction p with
  | ret a => exact .inl rfl
  | op o k ih =>
    obtain ⟨hs, hs'⟩ := hkeep o hp.1
    simp only [run_op, trace_op, hs, hs', List.mem_cons]
    rcases hagree o hp.1 with heq | hodd | hodd
    · rw [heq]
      rcases ih _ (hp.2 _) with h | ⟨e, he, hodd⟩ | ⟨e, he, hodd⟩
      · exact .inl h
      · exact .inr (.inl ⟨e, .inr he, hodd⟩)
      · exact .inr (.inr ⟨e, .inr he, hodd⟩)
    · exact .inr (.inl ⟨_, .inl rfl, hodd⟩)
    · exact .inr (.inr ⟨_, .inl rfl, hodd⟩)

end Only

/-! ## Promises about answers -/

/-- As long as every answer is as `A` says, every operation the program performs satisfies `G` and
its result satisfies `Q`. -/
def Assures (A : (o : Op) → Res o → Prop) (G : Op → Prop) (Q : α → Prop) : Prog Op Res α → Prop
  | .ret a => Q a
  | .op o k => G o ∧ ∀ r, A o r → (k r).Assures A G Q

section Assures

variable {A : (o : Op) → Res o → Prop} {G : Op → Prop} {Q Q' : α → Prop}

theorem Assures.bind {Q : β → Prop} {p : Prog Op Res α} {f : α → Prog Op Res β}
    (hp : p.Assures A G fun a => (f a).Assures A G Q) : (p.bind f).Assures A G Q := by
  induction p with
  | ret a => exact hp
  | op o k ih => exact ⟨hp.1, fun r hr => ih r (hp.2 r hr)⟩

theorem Assures.call {o : Op} {k : Res o → Prog Op Res α} (ho : G o)
    (hk : ∀ r, A o r → (k r).Assures A G Q) : (call o >>= k).Assures A G Q := ⟨ho, hk⟩

theorem Assures.mono {p : Prog Op Res α} (hp : p.Assures A G Q) (hQ : ∀ a, Q a → Q' a) :
    p.Assures A G Q' := by
  induction p with
  | ret a => exact hQ a hp
  | op o k ih => exact ⟨hp.1, fun r hr => ih r (hp.2 r hr)⟩

theorem Assures.discard {p : Prog Op Res α} (hp : p.Assures A G Q) :
    p.discard.Assures A G fun _ => True :=
  Assures.bind (hp.mono fun _ _ => trivial)

end Assures

/-! ## Handlers -/

section Interpret

variable {Op' : Type} {Res' : Op' → Type} {τ : Type}

/-- Perform every operation by a program over the operations below it. The handler keeps a
state of its own. -/
def interpret (handler : (o : Op) → τ → Prog Op' Res' (Res o × τ)) :
    Prog Op Res α → τ → Prog Op' Res' α
  | .ret a, _ => .ret a
  | .op o k, t => (handler o t).bind fun r => interpret handler (k r.1) r.2

/-- The machine a handler makes of the machine below it. -/
def handled (step : (o : Op') → σ → Res' o × σ)
    (handler : (o : Op) → τ → Prog Op' Res' (Res o × τ)) (o : Op) (s : τ × σ) :
    Res o × (τ × σ) :=
  let r := (handler o s.1).run step s.2
  (r.1.1, (r.1.2, r.2))

variable {handler : (o : Op) → τ → Prog Op' Res' (Res o × τ)}

theorem run_interpret {step : (o : Op') → σ → Res' o × σ} (p : Prog Op Res α) (t : τ) (s : σ) :
    (p.interpret handler t).run step s =
      ((p.run (handled step handler) (t, s)).1, (p.run (handled step handler) (t, s)).2.2) := by
  induction p generalizing t s with
  | ret a => rfl
  | op o k ih =>
    rw [interpret, run_bind, ih]
    rfl

/-- If the handler keeps an invariant of its state and performs only operations satisfying `P`,
then so does every program it interprets. -/
theorem Only.interpret {I : τ → Prop} {P : Op' → Prop}
    (hhandler : ∀ o t, I t → (handler o t).Only P fun r => I r.2) (p : Prog Op Res α) {t : τ}
    (ht : I t) : (p.interpret handler t).Only P fun _ => True := by
  induction p generalizing t with
  | ret a => trivial
  | op o k ih => exact Only.bind ((hhandler o t ht).mono (fun _ h => h) fun r hr => ih r.1 hr)

end Interpret

end Prog
