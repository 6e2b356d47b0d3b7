-- SUMMARY: The striped locks of the filesystem store: one or two stripes a call, in ascending order, so that tasks never wait in a circle.
import NotedThat.Lib.LockOrder
import NotedThat.Lib.Text

/-!
# Striped locks

A key is locked through the stripe its hash selects, so that different keys may share a lock. A task
makes one call at a time: every operation of the store locks once. The guard of a call lasts until it
is dropped, which may be while the call still waits.
-/

namespace KeyLocks

/-- The number of stripes. -/
def stripes : Nat := 512

/-- `KeyLocks::key` and `KeyLocks::pair`, with what they are called on. -/
inductive Call where
  | key (bucket key : Text)
  | pair (bucket first second : Text)
deriving DecidableEq

/-- The call is made on the key. -/
def Call.Covers (bucket key : Text) : Call → Prop
  | .key bucket' key' => bucket' = bucket ∧ key' = key
  | .pair bucket' first second => bucket' = bucket ∧ (first = key ∨ second = key)

section Stripes

-- the hash of a bucket and a key is the standard library's
variable (hash : Text → Text → Nat)

def stripeOf (bucket key : Text) : Nat := hash bucket key % stripes

/-- The stripes a call locks, one after the other: the lower first, and one lock where both keys are
on it. -/
def plan : Call → List Nat
  | .key bucket key => [stripeOf hash bucket key]
  | .pair bucket first second =>
    let a := stripeOf hash bucket first
    let b := stripeOf hash bucket second
    if a = b then [a]
    else
      let (low, high) := if a < b then (a, b) else (b, a)
      [low, high]

end Stripes

variable {hash : Text → Text → Nat}

theorem plan_ascending (c : Call) : (plan hash c).Pairwise (· < ·) := by
  cases c with
  | key bucket key => exact List.pairwise_singleton _ _
  | pair bucket first second =>
    unfold plan
    dsimp only
    split
    · exact List.pairwise_singleton _ _
    · next hne =>
      split
      · next hlt => exact List.pairwise_pair.mpr hlt
      · next hlt => exact List.pairwise_pair.mpr (by omega)

theorem stripeOf_mem_plan {c : Call} {bucket key : Text} (h : c.Covers bucket key) :
    stripeOf hash bucket key ∈ plan hash c := by
  cases c with
  | key bucket' key' =>
    obtain ⟨rfl, rfl⟩ := h
    exact List.mem_singleton_self _
  | pair bucket' first second =>
    obtain ⟨rfl, hkey⟩ := h
    unfold plan
    dsimp only
    split
    · next heq =>
      rcases hkey with rfl | rfl
      · exact List.mem_singleton_self _
      · exact List.mem_singleton.mpr heq.symm
    · split
      · rcases hkey with rfl | rfl
        · exact List.mem_cons_self
        · exact List.mem_cons_of_mem _ (List.mem_singleton_self _)
      · rcases hkey with rfl | rfl
        · exact List.mem_cons_of_mem _ (List.mem_singleton_self _)
        · exact List.mem_cons_self

/-- Whatever the tasks and their calls: no task waits for itself, one that waits with a stripe in
hand waits for a higher one, keys that share a stripe are locked by one lock, and no two tasks are
inside a guard of one key. -/
theorem never_wait_in_a_circle {T : Type} [DecidableEq T] (hash : Text → Text → Nat)
    (s : LockOrder.State T Call Nat) (h : LockOrder.Reachable (plan hash) s) :
    (∀ t, ¬ Relation.TransGen (s.WaitsFor (plan hash)) t t) ∧
    (∀ t x y, (s.turn t).WaitsOn (plan hash) x → y ∈ (s.turn t).held (plan hash) → y < x) ∧
    (∀ bucket first second, stripeOf hash bucket first = stripeOf hash bucket second →
      plan hash (.pair bucket first second) = [stripeOf hash bucket first]) ∧
    ∀ t u c c' bucket key, t ≠ u → s.turn t = .inside c → s.turn u = .inside c' →
      c.Covers bucket key → ¬ c'.Covers bucket key := by
  have hinv := h.inv
  refine ⟨hinv.acyclic plan_ascending, fun t x y => hinv.lt_of_waitsOn plan_ascending, ?_, ?_⟩
  · intro bucket first second heq
    unfold plan
    dsimp only
    rw [if_pos heq]
  · intro t u c c' bucket key htu ht hu hc hc'
    refine hinv.exclusive t u (stripeOf hash bucket key) htu ?_ ?_
    · rw [ht]
      exact stripeOf_mem_plan hc
    · rw [hu]
      exact stripeOf_mem_plan hc'

section Crossing

/-- Keys on the stripes of their lengths. -/
def lengths : Text → Text → Nat := fun _ key => key.length

/-- A pair of keys, and the same pair given in the other order. -/
def forth : Call := .pair ['b'] ['a'] ['a', 'a']

def back : Call := .pair ['b'] ['a', 'a'] ['a']

/-- The first task has taken the lower stripe. -/
def tookLower : LockOrder.State Bool Call Nat :=
  (LockOrder.State.initial.withTurn false (.locking forth [] false)).withTurn false
    (.locking forth [1] false)

/-- The second task asks for it too. -/
def asked : LockOrder.State Bool Call Nat := tookLower.withTurn true (.locking back [] false)

/-- It waits, with nothing in hand. -/
def crossed : LockOrder.State Bool Call Nat :=
  { asked.withTurn true (.locking back [] true) with
    queue := Function.update asked.queue 1 (asked.queue 1 ++ [true]) }

theorem reachable_crossed : LockOrder.Reachable (plan lengths) crossed := by
  have hcall : LockOrder.Step (plan lengths) LockOrder.State.initial
      (LockOrder.State.initial.withTurn false (.locking forth [] false)) := .call forth rfl
  have htake : LockOrder.Step (plan lengths)
      (LockOrder.State.initial.withTurn false (.locking forth [] false)) tookLower := by
    refine @LockOrder.Step.take _ _ _ _ _ _ _ false forth [] 1 rfl rfl (fun t => ?_) rfl
    cases t with
    | false => exact List.not_mem_nil
    | true => exact List.not_mem_nil
  have hask : LockOrder.Step (plan lengths) tookLower asked := .call back rfl
  have hwait : LockOrder.Step (plan lengths) asked crossed :=
    .enqueue rfl rfl fun hfree => hfree.1 false List.mem_cons_self
  exact (((Relation.ReflTransGen.single hcall).tail htake).tail hask).tail hwait

theorem never_wait_in_a_circle_crossed :
    crossed.WaitsFor (plan lengths) true false ∧
      ¬ Relation.TransGen (crossed.WaitsFor (plan lengths)) true true :=
  ⟨⟨1, rfl, .inl List.mem_cons_self⟩, (never_wait_in_a_circle lengths crossed reachable_crossed).1 true⟩

end Crossing

end KeyLocks
