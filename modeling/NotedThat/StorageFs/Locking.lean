-- SUMMARY: The locks of the filesystem store: a request checks its precondition and changes the object in a blocking closure that outlives a dropped future.
import NotedThat.Core.Storage
import Mathlib.Logic.Function.Basic

/-!
# Locks of the filesystem store

A request locks the stripes of its keys and hands its work to a blocking closure. The locks belong
to the request's future, the work to the closure: when the future is dropped the locks are free, and
the closure still runs to its end. The closure first reads the objects and judges the precondition,
then stages the new content, and only then changes the object. That an object is described by the
record beside it is left out: the entity tag a check reads is that of the object's content.
-/

namespace StorageFs

/-! ## Requests -/

/-- How far a blocking closure has come; `seen` is what its precondition was judged against. -/
inductive Closure where
  | queued
  | checked (seen : Objects) (effect : StorageOp.Effect)
  | finishing

/-- A request: waiting for its locks, or waiting for its closure, which is no longer `awaited` once
the future is dropped. -/
inductive Phase where
  | idle
  | locking (o : StorageOp) (held : List Nat)
  | running (o : StorageOp) (closure : Closure) (awaited : Bool)
  | ended

structure Server where
  objects : Objects
  phase : Nat → Phase

namespace Server

def withPhase (s : Server) (i : Nat) (phase : Phase) : Server :=
  { s with phase := Function.update s.phase i phase }

@[simp] theorem withPhase_objects (s : Server) (i : Nat) (phase : Phase) :
    (s.withPhase i phase).objects = s.objects := rfl

theorem withPhase_phase (s : Server) (i j : Nat) (phase : Phase) :
    (s.withPhase i phase).phase j = if j = i then phase else s.phase j := Function.update_apply _ _ _ _

@[simp] theorem withPhase_withPhase (s : Server) (i : Nat) (phase phase' : Phase) :
    (s.withPhase i phase).withPhase i phase' = s.withPhase i phase' := by
  simp [withPhase]

end Server

/-- The keys an operation locks. Reads lock none. -/
def lockedKeys : StorageOp → List Key
  | .put kb path _ _ _ => [(kb, path)]
  | .copy kb source destination _ => [(kb, source), (kb, destination)]
  | .delete kb path _ => [(kb, path)]
  | _ => []

section Locks

variable (stripeOf : Key → Nat)

/-- Two stripes in ascending order, and one lock when they are the same. -/
def pair (first second : Key) : List Nat :=
  let a := stripeOf first
  let b := stripeOf second
  if a = b then [a] else if a < b then [a, b] else [b, a]

/-- The stripes an operation locks, in this order. -/
def locks : StorageOp → List Nat
  | .put kb path _ _ _ => [stripeOf (kb, path)]
  | .copy kb source destination _ => pair stripeOf (kb, source) (kb, destination)
  | .delete kb path _ => [stripeOf (kb, path)]
  | _ => []

/-- The future of a request holds the lock of a stripe. -/
def Phase.Holds (stripe : Nat) : Phase → Prop
  | .locking _ held => stripe ∈ held
  | .running o _ true => stripe ∈ locks stripeOf o
  | _ => False

variable (parseHttpDate : Text → Except String Nat)

/-- The closure judges its precondition: it is done, or it has a change to make. -/
def check (o : StorageOp) (stamp : Stamp) (objects : Objects) : Closure :=
  match (o.eval parseHttpDate stamp objects).2 with
  | .unchanged => .finishing
  | effect => .checked objects effect

/-- Requests, their closures and dropped futures, in any order; where a request takes the lock of a
stripe, `enter` holds. -/
inductive Run (enter : Server → Nat → Prop) : Server → Prop where
  | init (objects : Objects) : Run enter ⟨objects, fun _ => .idle⟩
  | call {s : Server} {i : Nat} (o : StorageOp) : Run enter s → s.phase i = .idle →
      Run enter (s.withPhase i (.locking o []))
  | acquire {s : Server} {i : Nat} {o : StorageOp} {held : List Nat} {stripe : Nat} :
      Run enter s → s.phase i = .locking o held →
        (locks stripeOf o)[held.length]? = some stripe →
        (∀ j, ¬ (s.phase j).Holds stripeOf stripe) → enter s stripe →
          Run enter (s.withPhase i (.locking o (held ++ [stripe])))
  | spawn {s : Server} {i : Nat} {o : StorageOp} : Run enter s →
      s.phase i = .locking o (locks stripeOf o) →
        Run enter (s.withPhase i (.running o .queued true))
  | check {s : Server} {i : Nat} {o : StorageOp} {awaited : Bool} (stamp : Stamp) :
      Run enter s → s.phase i = .running o .queued awaited →
        Run enter (s.withPhase i
          (.running o (StorageFs.check parseHttpDate o stamp s.objects) awaited))
  | change {s : Server} {i : Nat} {o : StorageOp} {seen : Objects} {effect : StorageOp.Effect}
      {awaited : Bool} :
      Run enter s → s.phase i = .running o (.checked seen effect) awaited →
        Run enter { s.withPhase i (.running o .finishing awaited) with
          objects := s.objects.apply effect }
  | fail {s : Server} {i : Nat} {o : StorageOp} {closure : Closure} {awaited : Bool} :
      Run enter s → s.phase i = .running o closure awaited →
        Run enter (s.withPhase i (.running o .finishing awaited))
  | finish {s : Server} {i : Nat} {o : StorageOp} {awaited : Bool} : Run enter s →
      s.phase i = .running o .finishing awaited → Run enter (s.withPhase i .ended)
  | cancel {s : Server} {i : Nat} {o : StorageOp} {held : List Nat} : Run enter s →
      s.phase i = .locking o held → Run enter (s.withPhase i .ended)
  | detach {s : Server} {i : Nat} {o : StorageOp} {closure : Closure} : Run enter s →
      s.phase i = .running o closure true →
        Run enter (s.withPhase i (.running o closure false))

/-- No closure of a dropped request that locked the stripe is still running. -/
def Vacated (s : Server) (stripe : Nat) : Prop :=
  ∀ j o closure, s.phase j = .running o closure false → stripe ∉ locks stripeOf o

end Locks

/-! ## What an operation reads and changes -/

section Keys

variable {stripeOf : Key → Nat} {parseHttpDate : Text → Except String Nat} {stamp : Stamp}
variable {o : StorageOp} {s s' : Objects}

theorem stripe_mem_locks {k : Key} (hk : k ∈ lockedKeys o) : stripeOf k ∈ locks stripeOf o := by
  have hpair : ∀ a b : Key, k = a ∨ k = b → stripeOf k ∈ pair stripeOf a b := by
    rintro a b (rfl | rfl)
    · unfold pair
      grind
    · unfold pair
      grind
  cases o with
  | put kb path bytes contentType c => simp_all [lockedKeys, locks]
  | copy kb source destination options => exact hpair _ _ (by simpa [lockedKeys] using hk)
  | delete kb path c => simp_all [lockedKeys, locks]
  | _ => cases hk

/-- What an operation does depends only on the keys it locks, if it may do anything. -/
theorem eval_congr (hs : ∀ k ∈ lockedKeys o, s.get k = s'.get k)
    (hne : (o.eval parseHttpDate stamp s).2 ≠ .unchanged) :
    o.eval parseHttpDate stamp s = o.eval parseHttpDate stamp s' := by
  cases o with
  | put kb path bytes contentType c => simp [StorageOp.eval, hs (kb, path) (by simp [lockedKeys])]
  | copy kb source destination options =>
    simp [StorageOp.eval, hs (kb, source) (by simp [lockedKeys]),
      hs (kb, destination) (by simp [lockedKeys])]
  | delete kb path c => simp [StorageOp.eval, hs (kb, path) (by simp [lockedKeys])]
  | head kb path c => simp at hne
  | get kb path range c => simp at hne
  | list kb pre limit cursor => simp at hne

/-- An operation changes only keys it locked. -/
theorem get_apply_eval {k : Key} (hk : k ∉ lockedKeys o) (objects : Objects) :
    (objects.apply (o.eval parseHttpDate stamp s).2).get k = objects.get k := by
  cases o with
  | put kb path bytes contentType c =>
    have hne : k ≠ (kb, path) := by simpa [lockedKeys] using hk
    rcases @StorageOp.eval_put_cases parseHttpDate stamp s kb path c bytes contentType with
      ⟨e, heval⟩ | ⟨-, heval⟩
    · rw [heval]
      rfl
    · rw [heval]
      exact Objects.get_put_of_ne _ _ hne
  | copy kb source destination options =>
    have hne : k ≠ (kb, destination) := by
      rintro rfl
      simp [lockedKeys] at hk
    rcases @StorageOp.eval_copy_cases parseHttpDate stamp s kb source destination options with
      ⟨e, heval⟩ | ⟨v, -, -, -, heval⟩
    · rw [heval]
      rfl
    · rw [heval]
      exact Objects.get_put_of_ne _ _ hne
  | delete kb path c =>
    have hne : k ≠ (kb, path) := by simpa [lockedKeys] using hk
    rcases @StorageOp.eval_delete_cases parseHttpDate stamp s kb path c with
      ⟨e, heval⟩ | ⟨-, heval⟩ | ⟨v, -, -, heval⟩
    · rw [heval]
      rfl
    · rw [heval]
      rfl
    · rw [heval]
      exact Objects.get_erase_of_ne _ hne
  | head kb path c => simp [Objects.apply]
  | get kb path range c => simp [Objects.apply]
  | list kb pre limit cursor => rfl

end Keys

/-! ## Exclusion -/

section Runs

variable {stripeOf : Key → Nat} {parseHttpDate : Text → Except String Nat} {s : Server}

/-- A stripe is the request's until its closure has ended, whether or not its future holds the
lock. -/
def Phase.Occupies (stripeOf : Key → Nat) (stripe : Nat) : Phase → Prop
  | .locking _ held => stripe ∈ held
  | .running o _ _ => stripe ∈ locks stripeOf o
  | _ => False

/-- No two requests occupy a stripe. -/
def Exclusive (stripeOf : Key → Nat) (s : Server) : Prop :=
  ∀ i j stripe, i ≠ j → (s.phase i).Occupies stripeOf stripe →
    ¬ (s.phase j).Occupies stripeOf stripe

/-- A request that moves on occupies what it did, and what nobody did. -/
theorem Exclusive.withPhase (h : Exclusive stripeOf s) {i : Nat} {phase : Phase}
    (hphase : ∀ stripe, phase.Occupies stripeOf stripe →
      (s.phase i).Occupies stripeOf stripe ∨ ∀ j, ¬ (s.phase j).Occupies stripeOf stripe) :
    Exclusive stripeOf (s.withPhase i phase) := by
  have hfree : ∀ j stripe, j ≠ i → phase.Occupies stripeOf stripe →
      ¬ (s.phase j).Occupies stripeOf stripe := by
    intro j stripe hj hnew
    rcases hphase stripe hnew with hold | hnone
    · exact h i j stripe (Ne.symm hj) hold
    · exact hnone j
  intro j k stripe hjk hj hk
  simp only [Server.withPhase_phase] at hj hk
  split at hj
  · split at hk
    · omega
    · next hki => exact hfree k stripe hki hj hk
  · next hji =>
    split at hk
    · exact hfree j stripe hji hk hj
    · exact h j k stripe hjk hj hk

theorem occupies_cases {stripe : Nat} {phase : Phase} (h : phase.Occupies stripeOf stripe) :
    phase.Holds stripeOf stripe ∨
      ∃ o closure, phase = .running o closure false ∧ stripe ∈ locks stripeOf o := by
  cases phase with
  | idle => cases h
  | ended => cases h
  | locking o held => exact .inl h
  | running o closure awaited =>
    cases awaited with
    | true => exact .inl h
    | false => exact .inr ⟨o, closure, rfl, h⟩

theorem Run.exclusive (h : Run stripeOf parseHttpDate (Vacated stripeOf) s) :
    Exclusive stripeOf s := by
  induction h with
  | init objects => exact fun i j stripe _ hi => hi.elim
  | call o _ _ ih => exact ih.withPhase (by simp [Phase.Occupies])
  | @acquire s i o held stripe _ hi _ hfree hvacated ih =>
    refine ih.withPhase fun n hn => ?_
    rw [hi]
    obtain hn | rfl : n ∈ held ∨ n = stripe := by simpa [Phase.Occupies] using hn
    · exact .inl hn
    · refine .inr fun j hj => ?_
      rcases occupies_cases hj with hholds | ⟨o', closure, hrun, hmem⟩
      · exact hfree j hholds
      · exact hvacated j o' closure hrun hmem
  | spawn _ hi ih => exact ih.withPhase fun n hn => .inl (by rw [hi]; exact hn)
  | check stamp _ hi ih => exact ih.withPhase fun n hn => .inl (by rw [hi]; exact hn)
  | @change s i o seen effect awaited _ hi ih =>
    change Exclusive stripeOf (s.withPhase i (.running o .finishing awaited))
    exact ih.withPhase fun n hn => .inl (by rw [hi]; exact hn)
  | fail _ hi ih => exact ih.withPhase fun n hn => .inl (by rw [hi]; exact hn)
  | finish _ hi ih => exact ih.withPhase (by simp [Phase.Occupies])
  | cancel _ hi ih => exact ih.withPhase (by simp [Phase.Occupies])
  | detach _ hi ih => exact ih.withPhase fun n hn => .inl (by rw [hi]; exact hn)

/-! ## Checks and changes -/

/-- The change a closure has yet to make was decided on objects that agree with the current ones on
the keys it locked. -/
def Current (parseHttpDate : Text → Except String Nat) (objects : Objects) : Phase → Prop
  | .running o (.checked seen effect) _ =>
    (∃ stamp, effect = (o.eval parseHttpDate stamp seen).2) ∧ effect ≠ .unchanged ∧
      ∀ k ∈ lockedKeys o, objects.get k = seen.get k
  | _ => True

theorem current_check (o : StorageOp) (stamp : Stamp) (objects : Objects) (awaited : Bool) :
    Current parseHttpDate objects
      (.running o (check parseHttpDate o stamp objects) awaited) := by
  unfold check
  split
  · trivial
  · next hne => exact ⟨⟨stamp, rfl⟩, hne, fun _ _ => rfl⟩

/-- A change leaves what another request saw: the two locked no key in common. -/
theorem Current.change {i j : Nat} {o : StorageOp} {seen : Objects} {effect : StorageOp.Effect}
    {awaited : Bool} (hex : Exclusive stripeOf s) (hij : j ≠ i)
    (hi : s.phase i = .running o (.checked seen effect) awaited)
    (hcurrent : Current parseHttpDate s.objects (s.phase i))
    (hj : Current parseHttpDate s.objects (s.phase j)) :
    Current parseHttpDate (s.objects.apply effect) (s.phase j) := by
  rw [hi] at hcurrent
  obtain ⟨⟨stamp, heffect⟩, -, -⟩ := hcurrent
  cases hphase : s.phase j with
  | idle => trivial
  | ended => trivial
  | locking o' held => trivial
  | running o' closure' awaited' =>
    rw [hphase] at hj
    cases closure' with
    | queued => trivial
    | finishing => trivial
    | checked seen' effect' =>
      obtain ⟨hstamp, hne, hseen⟩ := hj
      refine ⟨hstamp, hne, ?_⟩
      intro k hk
      have hother : k ∉ lockedKeys o := by
        intro hk'
        refine hex i j (stripeOf k) (Ne.symm hij) ?_ ?_
        · rw [hi]
          exact stripe_mem_locks hk'
        · rw [hphase]
          exact stripe_mem_locks hk
      rw [heffect, get_apply_eval hother]
      exact hseen k hk

theorem Run.current (h : Run stripeOf parseHttpDate (Vacated stripeOf) s) (i : Nat) :
    Current parseHttpDate s.objects (s.phase i) := by
  have keep : ∀ {s : Server} {j : Nat} {phase : Phase},
      (∀ i, Current parseHttpDate s.objects (s.phase i)) →
      Current parseHttpDate s.objects phase →
        ∀ i, Current parseHttpDate s.objects ((s.withPhase j phase).phase i) := by
    intro s j phase hall hphase i
    rw [Server.withPhase_phase]
    split
    · exact hphase
    · exact hall i
  induction h generalizing i with
  | init objects => trivial
  | call o _ _ ih => exact keep ih (by trivial) i
  | acquire _ _ _ _ _ ih => exact keep ih (by trivial) i
  | spawn _ _ ih => exact keep ih (by trivial) i
  | check stamp _ _ ih => exact keep ih (current_check _ _ _ _) i
  | @change s j o seen effect awaited hrun hj ih =>
    simp only [Server.withPhase_phase]
    split
    · trivial
    · next hij => exact .change hrun.exclusive hij hj (ih j) (ih i)
  | fail _ _ ih => exact keep ih (by trivial) i
  | finish _ _ ih => exact keep ih (by trivial) i
  | cancel _ _ ih => exact keep ih (by trivial) i
  | @detach s j o closure _ hj ih =>
    refine keep ih ?_ i
    have := ih j
    rw [hj] at this
    cases closure with
    | queued => trivial
    | finishing => trivial
    | checked seen effect => exact this

/-- If no request takes the lock of a stripe while the closure of a dropped request still works
behind it, then in every interleaving every change replaces the state its precondition was judged
on: the keys are as they were seen, and judged now the operation would make the same change. -/
theorem change_replaces_checked {stripeOf : Key → Nat} {parseHttpDate : Text → Except String Nat}
    {s : Server} (h : Run stripeOf parseHttpDate (Vacated stripeOf) s) {i : Nat} {o : StorageOp}
    {seen : Objects} {effect : StorageOp.Effect} {awaited : Bool}
    (hi : s.phase i = .running o (.checked seen effect) awaited) :
    (∀ k ∈ lockedKeys o, s.objects.get k = seen.get k) ∧
      ∃ stamp, effect = (o.eval parseHttpDate stamp s.objects).2 := by
  have hcurrent := h.current i
  rw [hi] at hcurrent
  obtain ⟨⟨stamp, heffect⟩, hne, hseen⟩ := hcurrent
  refine ⟨hseen, stamp, ?_⟩
  rw [heffect] at hne ⊢
  rw [eval_congr (fun k hk => (hseen k hk).symm) hne]

end Runs

/-! ## A dropped request whose closure goes on -/

/-- `a.md` at the version `"s"`. -/
def oneObject : Objects := Objects.empty.put (KbSlug.notes, ObjectPath.aMd) (Version.tagged 's' [1])

/-- Two writes of `a.md`: one on the condition that it is at `"s"`, one without. -/
def conditionalPut : StorageOp :=
  .put KbSlug.notes ObjectPath.aMd [2] none (.ofIfMatch (Version.tagged 's' [1]).etag.val)

def plainPut : StorageOp := .put KbSlug.notes ObjectPath.aMd [3] none {}

def noDate : Text → Except String Nat := fun _ => .error "invalid HTTP-date"

def stampOf (tag : Char) (h : ',' ∉ [tag] := by decide) : Stamp := ⟨ETag.ofInner [tag] h, 1⟩

/-- A request that finds its stripe free locks it, starts its closure and checks its
precondition. -/
theorem Run.toChecked {enter : Server → Nat → Prop} {s : Server} {i : Nat} {o : StorageOp}
    {stamp : Stamp} {effect : StorageOp.Effect} (h : Run (fun _ => 0) noDate enter s)
    (hi : s.phase i = .idle) (hlocks : locks (fun _ => 0) o = [0])
    (hfree : ∀ j, ¬ (s.phase j).Holds (fun _ => 0) 0)
    (henter : enter (s.withPhase i (.locking o [])) 0)
    (heval : (o.eval noDate stamp s.objects).2 = effect) (hne : effect ≠ .unchanged) :
    Run (fun _ => 0) noDate enter
      (s.withPhase i (.running o (.checked s.objects effect) true)) := by
  have hself : ∀ phase, (s.withPhase i phase).phase i = phase := fun phase => by
    simp [Server.withPhase_phase]
  have hfree' : ∀ j, ¬ ((s.withPhase i (.locking o [])).phase j).Holds (fun _ => 0) 0 := by
    intro j
    rw [Server.withPhase_phase]
    split
    · simp [Phase.Holds]
    · exact hfree j
  have hacquire := (h.call o hi).acquire (hself _) (by simp [hlocks]) hfree' henter
  rw [Server.withPhase_withPhase, List.nil_append, ← hlocks] at hacquire
  have hspawn := hacquire.spawn (hself _)
  rw [Server.withPhase_withPhase] at hspawn
  have hcheck := hspawn.check stamp (hself _)
  have hclosure : StorageFs.check noDate o stamp s.objects = .checked s.objects effect := by
    unfold StorageFs.check
    rw [heval]
    cases effect with
    | unchanged => exact absurd rfl hne
    | stored k v => rfl
    | erased k => rfl
  rw [Server.withPhase_withPhase, Server.withPhase_objects, hclosure] at hcheck
  exact hcheck

/-- What a server does when it starts on `oneObject`. -/
def idleServer : Server := ⟨oneObject, fun _ => .idle⟩

def conditionalEffect : StorageOp.Effect :=
  .stored (KbSlug.notes, ObjectPath.aMd) ⟨[2], none, (stampOf 'c').etag, 1⟩

def plainEffect : StorageOp.Effect :=
  .stored (KbSlug.notes, ObjectPath.aMd) ⟨[3], none, (stampOf 'p').etag, 1⟩

/-- The conditional write has checked its precondition. -/
def checkedServer : Server :=
  idleServer.withPhase 0 (.running conditionalPut (.checked oneObject conditionalEffect) true)

theorem run_checkedServer {enter : Server → Nat → Prop}
    (henter : enter (idleServer.withPhase 0 (.locking conditionalPut [])) 0) :
    Run (fun _ => 0) noDate enter checkedServer := by
  have heval : (conditionalPut.eval noDate (stampOf 'c') oneObject).2 = conditionalEffect := by
    decide
  exact (Run.init oneObject).toChecked rfl rfl (fun j => id) henter heval
    (by simp [conditionalEffect])

theorem change_replaces_checked_conditionalPut :
    Run (fun _ => 0) noDate (Vacated fun _ => 0) checkedServer ∧
      ∀ k ∈ lockedKeys conditionalPut, checkedServer.objects.get k = oneObject.get k := by
  have hrun : Run (fun _ => 0) noDate (Vacated fun _ => 0) checkedServer := by
    refine run_checkedServer fun j o closure hj => ?_
    rw [Server.withPhase_phase] at hj
    split at hj <;> cases hj
  have hphase : checkedServer.phase 0 =
      .running conditionalPut (.checked oneObject conditionalEffect) true := rfl
  exact ⟨hrun, (change_replaces_checked hrun hphase).1⟩

/-- The future of the conditional write is dropped, another write goes through, and then the
conditional write replaces it although its precondition no longer holds. -/
theorem dropped_put_loses_update : ∃ s seen effect awaited v,
    Run (fun _ => 0) noDate (fun _ _ => True) s ∧
    s.phase 0 = .running conditionalPut (.checked seen effect) awaited ∧
    seen.get (KbSlug.notes, ObjectPath.aMd) = some (Version.tagged 's' [1]) ∧
    s.objects.get (KbSlug.notes, ObjectPath.aMd) = some v ∧ v.etag = (stampOf 'p').etag ∧
    Preconditions.evaluateWritePreconditions (some v.etag.val)
      (.ofIfMatch (Version.tagged 's' [1]).etag.val) = .error .preconditionFailed ∧
    Run (fun _ => 0) noDate (fun _ _ => True)
      { s.withPhase 0 (.running conditionalPut .finishing awaited) with
        objects := s.objects.apply effect } := by
  have hchecked : Run (fun _ => 0) noDate (fun _ _ => True) checkedServer :=
    run_checkedServer trivial
  have hdetached := hchecked.detach (i := 0) rfl
  have heval : (plainPut.eval noDate (stampOf 'p') oneObject).2 = plainEffect := by decide
  have hfree : ∀ j, ¬ ((checkedServer.withPhase 0 (.running conditionalPut
      (.checked oneObject conditionalEffect) false)).phase j).Holds (fun _ => 0) 0 := by
    intro j
    rw [checkedServer, Server.withPhase_withPhase, Server.withPhase_phase]
    split
    · exact id
    · exact id
  have hother := hdetached.toChecked (i := 1) (o := plainPut) rfl rfl hfree trivial heval
    (by simp [plainEffect])
  have hchanged := hother.change (i := 1) rfl
  exact ⟨_, _, _, _, _, hchanged, rfl, rfl, rfl, rfl, by decide, hchanged.change (i := 0) rfl⟩

end StorageFs
