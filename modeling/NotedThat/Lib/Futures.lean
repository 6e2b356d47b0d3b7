-- SUMMARY: Futures that may be dropped at an await: what they did by then, the guard that cleans up, and the plain program behind one.
import NotedThat.Lib.Prog

/-!
# Futures

A future awaits some operations and performs others at once. Wherever it awaits it may be dropped:
the operation is abandoned, and nothing of the future runs any more except the guard it has armed
by then, if any, whose clean-up awaits nothing. `Future.Ends` says which entries a future may leave
in the record of what was done, and whether it returned.
-/

/-- What a future does next; `g` is what its guard holds. -/
inductive Act (Op Sync γ : Type) where
  | await (o : Op)
  | now (a : Sync)
  | arm (g : γ)
  | disarm

namespace Future

variable {Op Sync γ : Type} {Res : Op → Type} {SRes : Sync → Type} {α β : Type}

/-- What each act answers. -/
abbrev Answer (Res : Op → Type) (SRes : Sync → Type) : Act Op Sync γ → Type
  | .await o => Res o
  | .now a => SRes a
  | .arm _ => Unit
  | .disarm => Unit

end Future

/-- A program that may be dropped where it awaits. -/
abbrev Future (Op Sync γ : Type) (Res : Op → Type) (SRes : Sync → Type) (α : Type) :=
  Prog (Act Op Sync γ) (Future.Answer Res SRes) α

namespace Future

variable {Op Sync γ : Type} {Res : Op → Type} {SRes : Sync → Type} {α β : Type}

/-! ## Building futures -/

/-- Await every operation of a program, with no guard of its own. -/
def lift : Prog Op Res α → Future Op Sync γ Res SRes α
  | .ret a => .ret a
  | .op o k => .op (.await o) fun r => lift (k r)

/-- Perform every operation of a program at once. -/
def atOnce : Prog Sync SRes α → Future Op Sync γ Res SRes α
  | .ret a => .ret a
  | .op a k => .op (.now a) fun r => atOnce (k r)

/-! ## The program behind a future -/

/-- The future without its guards, where `sync` says what is performed at once. -/
def erase (sync : (a : Sync) → Prog Op Res (SRes a)) : Future Op Sync γ Res SRes α → Prog Op Res α
  | .ret a => .ret a
  | .op (.await o) k => .op o fun r => erase sync (k r)
  | .op (.now a) k => (sync a).bind fun r => erase sync (k r)
  | .op (.arm _) k => erase sync (k ())
  | .op .disarm k => erase sync (k ())

variable {sync : (a : Sync) → Prog Op Res (SRes a)}

theorem erase_bind (p : Future Op Sync γ Res SRes α) (f : α → Future Op Sync γ Res SRes β) :
    erase sync (p.bind f) = (erase sync p).bind fun a => erase sync (f a) := by
  induction p with
  | ret a => rfl
  | op o k ih =>
    cases o with
    | await o => exact congrArg _ (funext ih)
    | now a =>
      simp only [Prog.op_bind, erase, Prog.bind_assoc]
      exact congrArg _ (funext ih)
    | arm g => exact ih ()
    | disarm => exact ih ()

@[simp] theorem erase_lift (p : Prog Op Res α) :
    erase sync (lift p : Future Op Sync γ Res SRes α) = p := by
  induction p with
  | ret a => rfl
  | op o k ih => exact congrArg _ (funext ih)

/-! ## Where the guard stands -/

/-- Wherever the future awaits an operation, its guard holds what `held` says of the operation. It
starts with the guard given, and leaves the guard at `out` when it returns. -/
def Guarded (held : Op → Option γ) (out : Option γ) : Option γ → Future Op Sync γ Res SRes α → Prop
  | g, .ret _ => g = out
  | g, .op (.await o) k => held o = g ∧ ∀ r, Guarded held out g (k r)
  | g, .op (.now _) k => ∀ r, Guarded held out g (k r)
  | _, .op (.arm g) k => Guarded held out (some g) (k ())
  | _, .op .disarm k => Guarded held out none (k ())

section Guarded

variable {held : Op → Option γ} {g mid out : Option γ}

theorem Guarded.bind {p : Future Op Sync γ Res SRes α} {f : α → Future Op Sync γ Res SRes β}
    (hp : Guarded held mid g p) (hf : ∀ a, Guarded held out mid (f a)) :
    Guarded held out g (p.bind f) := by
  induction p generalizing g with
  | ret a =>
    cases hp
    exact hf a
  | op o k ih =>
    cases o with
    | await o => exact ⟨hp.1, fun r => ih r (hp.2 r)⟩
    | now a => exact fun r => ih r (hp r)
    | arm g => exact ih () hp
    | disarm => exact ih () hp

theorem guarded_lift {p : Prog Op Res α} {q : α → Prop} (hp : p.Only (fun o => held o = g) q) :
    Guarded held g g (lift p : Future Op Sync γ Res SRes α) := by
  induction p with
  | ret a => rfl
  | op o k ih => exact ⟨hp.1, fun r => ih r (hp.2 r)⟩

theorem guarded_atOnce {p : Prog Sync SRes α} :
    Guarded held g g (atOnce p : Future Op Sync γ Res SRes α) := by
  induction p with
  | ret a => rfl
  | op a k ih => exact ih

end Guarded

/-! ## Runs -/

/-- What a run leaves behind: operations that were answered, and one that was abandoned. -/
inductive Entry (Op Sync : Type) (Res : Op → Type) (SRes : Sync → Type) where
  | awaited (o : Op) (r : Res o)
  | abandoned (o : Op)
  | did (a : Sync) (r : SRes a)

/-- A program performed at once, with its entries and its result. -/
inductive Performs : Prog Sync SRes α → List (Entry Op Sync Res SRes) → α → Prop where
  | ret (a : α) : Performs (.ret a) [] a
  | op {a : Sync} {k : SRes a → Prog Sync SRes α} {tr : List (Entry Op Sync Res SRes)} {b : α}
      (r : SRes a) : Performs (k r) tr b → Performs (.op a k) (.did a r :: tr) b

/-- What a guard does when it goes: `cleanup`, if it is still armed. -/
inductive Drops (cleanup : γ → Prog Sync SRes Unit) :
    Option γ → List (Entry Op Sync Res SRes) → Prop where
  | disarmed : Drops cleanup none []
  | armed {g : γ} {tr : List (Entry Op Sync Res SRes)} :
      Performs (cleanup g) tr () → Drops cleanup (some g) tr

/-- How a future with a guard may end: with a result, or dropped. -/
inductive Ends (cleanup : γ → Prog Sync SRes Unit) :
    Option γ → Future Op Sync γ Res SRes α → List (Entry Op Sync Res SRes) → Option α → Prop where
  | ret {g : Option γ} {tr : List (Entry Op Sync Res SRes)} (a : α) :
      Drops cleanup g tr → Ends cleanup g (.ret a) tr (some a)
  | await {g : Option γ} {o : Op} {k : Res o → Future Op Sync γ Res SRes α}
      {tr : List (Entry Op Sync Res SRes)} {out : Option α} (r : Res o) :
      Ends cleanup g (k r) tr out → Ends cleanup g (.op (.await o) k) (.awaited o r :: tr) out
  | dropped {g : Option γ} {o : Op} {k : Res o → Future Op Sync γ Res SRes α}
      {tr : List (Entry Op Sync Res SRes)} :
      Drops cleanup g tr → Ends cleanup g (.op (.await o) k) (.abandoned o :: tr) none
  | now {g : Option γ} {a : Sync} {k : SRes a → Future Op Sync γ Res SRes α}
      {tr : List (Entry Op Sync Res SRes)} {out : Option α} (r : SRes a) :
      Ends cleanup g (k r) tr out → Ends cleanup g (.op (.now a) k) (.did a r :: tr) out
  | arm {g : γ} {k : Unit → Future Op Sync γ Res SRes α} {tr : List (Entry Op Sync Res SRes)}
      {out : Option α} :
      Ends cleanup (some g) (k ()) tr out → Ends cleanup none (.op (.arm g) k) tr out
  | disarm {g : Option γ} {k : Unit → Future Op Sync γ Res SRes α}
      {tr : List (Entry Op Sync Res SRes)} {out : Option α} :
      Ends cleanup none (k ()) tr out → Ends cleanup g (.op .disarm k) tr out

/-! ## Taking runs apart -/

section Inversion

variable {cleanup : γ → Prog Sync SRes Unit} {g : Option γ} {tr : List (Entry Op Sync Res SRes)}
variable {out : Option β}

theorem Ends.ret_inv {a : β} (h : Ends cleanup none (.ret a : Future Op Sync γ Res SRes β) tr out) :
    tr = [] ∧ out = some a := by
  cases h with
  | ret _ hd =>
    cases hd
    exact ⟨rfl, rfl⟩

/-- An operation of a program that was answered. -/
def Entry.Answered (P : Op → Prop) : Entry Op Sync Res SRes → Prop
  | .awaited o _ => P o
  | _ => False

/-- A future that starts with a program is dropped within it, or goes on with its result. -/
theorem Ends.lift_inv {P : Op → Prop} {Q : α → Prop} {p : Prog Op Res α} (hp : p.Only P Q)
    {f : α → Future Op Sync γ Res SRes β} (h : Ends cleanup g ((lift p).bind f) tr out) :
    (∃ (front : List (Entry Op Sync Res SRes)) (o : Op) (last : List (Entry Op Sync Res SRes)),
      tr = front ++ .abandoned o :: last ∧ (∀ e ∈ front, e.Answered P) ∧ P o ∧
        Drops cleanup g last ∧ out = none) ∨
    ∃ (front rest : List (Entry Op Sync Res SRes)) (a : α), tr = front ++ rest ∧ (∀ e ∈ front, e.Answered P) ∧ Q a ∧
      Ends cleanup g (f a) rest out := by
  induction p generalizing tr with
  | ret a => exact .inr ⟨[], tr, a, rfl, by simp, hp, h⟩
  | op o k ih =>
    cases h with
    | await r hr =>
      rcases ih r (hp.2 r) hr with ⟨front, o', last, rfl, hfront, ho', hlast, hout⟩ |
        ⟨front, rest, a, rfl, hfront, hQ, hrest⟩
      · exact .inl ⟨.awaited o r :: front, o', last, rfl,
          List.forall_mem_cons.mpr ⟨hp.1, hfront⟩, ho', hlast, hout⟩
      · exact .inr ⟨.awaited o r :: front, rest, a, rfl,
          List.forall_mem_cons.mpr ⟨hp.1, hfront⟩, hQ, hrest⟩
    | dropped hd => exact .inl ⟨[], o, _, rfl, by simp, hp.1, hd, rfl⟩

/-- A future that awaits one operation without a guard is dropped there, or goes on with the
answer. -/
theorem Ends.await_inv {o : Op} {f : Res o → Future Op Sync γ Res SRes β}
    (h : Ends cleanup none ((lift (Prog.call o)).bind f) tr out) :
    (tr = [.abandoned o] ∧ out = none) ∨
      ∃ (r : Res o) (rest : List (Entry Op Sync Res SRes)), tr = .awaited o r :: rest ∧
        Ends cleanup none (f r) rest out := by
  cases h with
  | await r hr => exact .inr ⟨r, _, rfl, hr⟩
  | dropped hd =>
    cases hd
    exact .inl ⟨rfl, rfl⟩

/-- What is performed at once is performed whole. -/
theorem Ends.atOnce_inv {p : Prog Sync SRes α} {f : α → Future Op Sync γ Res SRes β}
    (h : Ends cleanup g ((atOnce p).bind f) tr out) :
    ∃ (front rest : List (Entry Op Sync Res SRes)) (a : α), tr = front ++ rest ∧
      Performs p front a ∧ Ends cleanup g (f a) rest out := by
  induction p generalizing tr with
  | ret a => exact ⟨[], tr, a, rfl, .ret a, h⟩
  | op o k ih =>
    cases h with
    | now r hr =>
      obtain ⟨front, rest, a, rfl, hfront, hrest⟩ := ih r hr
      exact ⟨.did o r :: front, rest, a, rfl, .op r hfront, hrest⟩

end Inversion

end Future
