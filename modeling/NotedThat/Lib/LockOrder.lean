-- SUMMARY: Tasks that take several fair locks one after the other in ascending order: exclusion, and no task waits for itself.
import Mathlib.Data.List.Nodup
import Mathlib.Logic.Function.Basic
import Mathlib.Logic.Relation
import Mathlib.Order.Lattice

/-!
# Locks taken in order

A call takes the locks of its plan one after the other. A lock that is free goes to whoever asks for
it; else the task joins the lock's queue, and a lock that becomes free goes to the first of its
queue. A task may go away at any time, also while it waits, and gives its locks back one by one. If
every plan is ascending then no chain of tasks that wait for one another closes.
-/

namespace LockOrder

variable {T C L : Type}

/-- Where a task is: it has taken some locks of its call and may wait for the next, it has all of
them, or it is giving some back. -/
inductive Turn (C L : Type) where
  | idle
  | locking (c : C) (held : List L) (queued : Bool)
  | inside (c : C)
  | leaving (held : List L)

structure State (T C L : Type) where
  turn : T → Turn C L
  queue : L → List T

/-- Nobody has made a call. -/
def State.initial : State T C L := ⟨fun _ => .idle, fun _ => []⟩

section

variable (plan : C → List L)

/-- The locks a task has. -/
def Turn.held : Turn C L → List L
  | .idle => []
  | .locking _ held _ => held
  | .inside c => plan c
  | .leaving held => held

/-- The task stands in the queue of a lock. -/
def Turn.WaitsOn (x : L) : Turn C L → Prop
  | .locking c held true => (plan c)[held.length]? = some x
  | _ => False

/-- Nobody has the lock. -/
def State.Free (s : State T C L) (x : L) : Prop := ∀ t, x ∉ (s.turn t).held plan

variable [DecidableEq T] [DecidableEq L]

def State.withTurn (s : State T C L) (t : T) (turn : Turn C L) : State T C L :=
  { s with turn := Function.update s.turn t turn }

/-- What the tasks may do. -/
inductive Step : State T C L → State T C L → Prop where
  | call {s : State T C L} {t : T} (c : C) : s.turn t = .idle →
      Step s (s.withTurn t (.locking c [] false))
  | take {s : State T C L} {t : T} {c : C} {held : List L} {x : L} :
      s.turn t = .locking c held false → (plan c)[held.length]? = some x → s.Free plan x →
      s.queue x = [] → Step s (s.withTurn t (.locking c (held ++ [x]) false))
  | enqueue {s : State T C L} {t : T} {c : C} {held : List L} {x : L} :
      s.turn t = .locking c held false → (plan c)[held.length]? = some x →
      ¬ (s.Free plan x ∧ s.queue x = []) →
      Step s { s.withTurn t (.locking c held true) with
        queue := Function.update s.queue x (s.queue x ++ [t]) }
  | grant {s : State T C L} {t : T} {c : C} {held : List L} {x : L} {rest : List T} :
      s.turn t = .locking c held true → (plan c)[held.length]? = some x → s.Free plan x →
      s.queue x = t :: rest →
      Step s { s.withTurn t (.locking c (held ++ [x]) false) with
        queue := Function.update s.queue x rest }
  | enter {s : State T C L} {t : T} {c : C} : s.turn t = .locking c (plan c) false →
      Step s (s.withTurn t (.inside c))
  | leave {s : State T C L} {t : T} : s.turn t ≠ .idle →
      Step s { s.withTurn t (.leaving ((s.turn t).held plan)) with
        queue := fun x => (s.queue x).filter (· ≠ t) }
  | unlock {s : State T C L} {t : T} {x : L} {held : List L} : s.turn t = .leaving (x :: held) →
      Step s (s.withTurn t (.leaving held))
  | done {s : State T C L} {t : T} : s.turn t = .leaving [] → Step s (s.withTurn t .idle)

/-- The states that tasks can reach. -/
def Reachable (s : State T C L) : Prop := Relation.ReflTransGen (Step plan) State.initial s

end

/-! ## Waiting for one another -/

section

variable (plan : C → List L)

/-- A task waits for those who have its lock, and for those ahead of it in the queue. -/
def State.WaitsFor (s : State T C L) (t u : T) : Prop :=
  ∃ x, (s.turn t).WaitsOn plan x ∧
    (x ∈ (s.turn u).held plan ∨ ∃ front back, s.queue x = front ++ t :: back ∧ u ∈ front)

/-- What holds in every state: a task has taken locks of its plan, in order; the queues are of those
who wait; and no two tasks have one lock. -/
structure Inv (s : State T C L) : Prop where
  planned : ∀ t c held queued, s.turn t = .locking c held queued → held <+: plan c
  queued : ∀ t x, t ∈ s.queue x ↔ (s.turn t).WaitsOn plan x
  nodup : ∀ x, (s.queue x).Nodup
  exclusive : ∀ t u x, t ≠ u → x ∈ (s.turn t).held plan → x ∉ (s.turn u).held plan

end

section

variable {plan : C → List L} {s s' : State T C L} {t u : T} {x y : L}

theorem Inv.initial : Inv plan (State.initial : State T C L) where
  planned t c held queued h := by cases h
  queued t x := by simp [State.initial, Turn.WaitsOn]
  nodup x := List.nodup_nil
  exclusive t u x _ h := by cases h

/-- A task that waits for no lock is in no queue. -/
theorem Inv.not_queued (h : Inv plan s) (hturn : ¬ (s.turn t).WaitsOn plan x) : t ∉ s.queue x :=
  fun hmem => hturn ((h.queued t x).mp hmem)

theorem prefix_concat {l m : List L} (hle : l <+: m) (hx : m[l.length]? = some x) :
    l ++ [x] <+: m := by
  obtain ⟨rest, rfl⟩ := hle
  rw [List.getElem?_append_right (Nat.le_refl _), Nat.sub_self] at hx
  cases rest with
  | nil => cases hx
  | cons y rest =>
    cases hx
    exact ⟨rest, by simp⟩

/-- A task waits for one lock at a time. -/
theorem waitsOn_unique {turn : Turn C L} (hx : turn.WaitsOn plan x) (hy : turn.WaitsOn plan y) :
    x = y := by
  cases turn with
  | locking c held queued =>
    cases queued with
    | false => exact hx.elim
    | true => exact Option.some.inj (hx.symm.trans hy)
  | _ => exact hx.elim

variable [DecidableEq T]

theorem withTurn_turn (turn : Turn C L) :
    (s.withTurn t turn).turn u = if u = t then turn else s.turn u := Function.update_apply _ _ _ _

/-- A task changes its turn and the queues follow it. -/
theorem Inv.change {turn : Turn C L} {queue : L → List T} (h : Inv plan s)
    (hplanned : ∀ c held queued, turn = .locking c held queued → held <+: plan c)
    (hself : ∀ x, t ∈ queue x ↔ turn.WaitsOn plan x)
    (hother : ∀ x u, u ≠ t → (u ∈ queue x ↔ u ∈ s.queue x)) (hnodup : ∀ x, (queue x).Nodup)
    (hheld : ∀ x ∈ turn.held plan, x ∈ (s.turn t).held plan ∨ s.Free plan x) :
    Inv plan { s.withTurn t turn with queue := queue } where
  planned u c held queued hu := by
    dsimp only at hu
    rw [withTurn_turn] at hu
    split at hu
    · exact hplanned c held queued hu
    · exact h.planned u c held queued hu
  queued u x := by
    dsimp only
    rw [withTurn_turn]
    split
    · next heq => rw [heq, hself]
    · next hne => rw [hother x u hne, h.queued]
  nodup := hnodup
  exclusive u v x huv hu hv := by
    dsimp only at hu hv
    rw [withTurn_turn] at hu hv
    -- nobody else has what the task has now
    have hnone : ∀ w, w ≠ t → x ∈ turn.held plan → x ∉ (s.turn w).held plan := by
      intro w hw hx
      rcases hheld x hx with hx | hfree
      · exact h.exclusive t w x (Ne.symm hw) hx
      · exact hfree w
    split at hu
    · next heq =>
      rw [if_neg (fun hvt => huv (heq.trans hvt.symm))] at hv
      exact hnone v (fun hvt => huv (heq.trans hvt.symm)) hu hv
    · next hne =>
      split at hv
      · exact hnone u hne hv hu
      · exact h.exclusive u v x huv hu hv

/-- A task changes its turn, and neither before nor afterwards it waits. -/
theorem Inv.withTurn {turn : Turn C L} (h : Inv plan s)
    (hplanned : ∀ c held queued, turn = .locking c held queued → held <+: plan c)
    (hbefore : ∀ x, ¬ (s.turn t).WaitsOn plan x) (hafter : ∀ x, ¬ turn.WaitsOn plan x)
    (hheld : ∀ x ∈ turn.held plan, x ∈ (s.turn t).held plan ∨ s.Free plan x) :
    Inv plan (s.withTurn t turn) :=
  h.change hplanned (fun x => iff_of_false (h.not_queued (hbefore x)) (hafter x))
    (fun _ _ _ => Iff.rfl) h.nodup hheld

variable [DecidableEq L]

theorem Inv.step (h : Inv plan s) (hstep : Step plan s s') : Inv plan s' := by
  cases hstep with
  | call c hidle =>
    refine h.withTurn ?_ (by simp [hidle, Turn.WaitsOn]) (by simp [Turn.WaitsOn])
      (by simp [Turn.held])
    rintro c' held queued ⟨⟩
    exact List.nil_prefix
  | @take t c held x hturn hnext hfree _ =>
    refine h.withTurn ?_ (by simp [hturn, Turn.WaitsOn]) (by simp [Turn.WaitsOn]) fun y hy => ?_
    · rintro c' held' queued ⟨⟩
      exact prefix_concat (h.planned t c held false hturn) hnext
    · rw [hturn]
      rcases List.mem_append.mp hy with hy | hy
      · exact .inl hy
      · cases List.mem_singleton.mp hy
        exact .inr hfree
  | @enqueue t c held x hturn hnext _ =>
    have hnot : ∀ y, t ∉ s.queue y := fun y => h.not_queued (by simp [hturn, Turn.WaitsOn])
    refine h.change ?_ (fun y => ?_) (fun y u hu => ?_) (fun y => ?_) fun y hy => ?_
    · rintro c' held' queued ⟨⟩
      exact h.planned t c held false hturn
    · by_cases hyx : y = x
      · subst hyx
        simp [Turn.WaitsOn, hnext]
      · simp [Turn.WaitsOn, hnext, Function.update_of_ne hyx, hnot y, Ne.symm hyx]
    · by_cases hyx : y = x
      · subst hyx
        simp [hu]
      · rw [Function.update_of_ne hyx]
    · by_cases hyx : y = x
      · subst hyx
        rw [Function.update_self, List.nodup_append_comm]
        exact List.nodup_cons.mpr ⟨hnot y, h.nodup y⟩
      · rw [Function.update_of_ne hyx]
        exact h.nodup y
    · rw [hturn]
      exact .inl hy
  | @grant t c held x rest hturn hnext hfree hqueue =>
    have hnodup := h.nodup x
    rw [hqueue, List.nodup_cons] at hnodup
    have honly : ∀ y, y ≠ x → t ∉ s.queue y := fun y hy =>
      h.not_queued (by simp [hturn, Turn.WaitsOn, hnext, Ne.symm hy])
    refine h.change ?_ (fun y => ?_) (fun y u hu => ?_) (fun y => ?_) fun y hy => ?_
    · rintro c' held' queued ⟨⟩
      exact prefix_concat (h.planned t c held true hturn) hnext
    · by_cases hyx : y = x
      · subst hyx
        simp [Turn.WaitsOn, hnodup.1]
      · simp [Turn.WaitsOn, Function.update_of_ne hyx, honly y hyx]
    · by_cases hyx : y = x
      · subst hyx
        simp [hqueue, hu]
      · rw [Function.update_of_ne hyx]
    · by_cases hyx : y = x
      · subst hyx
        rw [Function.update_self]
        exact hnodup.2
      · rw [Function.update_of_ne hyx]
        exact h.nodup y
    · rw [hturn]
      rcases List.mem_append.mp hy with hy | hy
      · exact .inl hy
      · cases List.mem_singleton.mp hy
        exact .inr hfree
  | @enter t c hturn =>
    refine h.withTurn (by simp) (by simp [hturn, Turn.WaitsOn]) (by simp [Turn.WaitsOn]) fun y hy => ?_
    rw [hturn]
    exact .inl hy
  | @leave t hturn =>
    refine h.change (by simp) (by simp [Turn.WaitsOn]) (fun y u hu => by simp [hu])
      (fun y => (h.nodup y).filter _) fun y hy => .inl hy
  | @unlock t x held hturn =>
    refine h.withTurn (by simp) (by simp [hturn, Turn.WaitsOn]) (by simp [Turn.WaitsOn]) fun y hy => ?_
    rw [hturn]
    exact .inl (List.mem_cons_of_mem x hy)
  | done hturn =>
    exact h.withTurn (by simp) (by simp [hturn, Turn.WaitsOn]) (by simp [Turn.WaitsOn])
      (by simp [Turn.held])

theorem Reachable.inv (h : Reachable plan s) : Inv plan s := by
  induction h with
  | refl => exact .initial
  | tail _ hstep ih => exact ih.step hstep

end

/-! ## Ascending plans -/

section

variable [LinearOrder L] {plan : C → List L} {s : State T C L} {t u : T} {x y : L}

/-- A task that waits has only locks below the one it waits for. -/
theorem Inv.lt_of_waitsOn (h : Inv plan s) (hplan : ∀ c, (plan c).Pairwise (· < ·))
    (hwaits : (s.turn t).WaitsOn plan x) (hheld : y ∈ (s.turn t).held plan) : y < x := by
  cases hturn : s.turn t with
  | idle => rw [hturn] at hwaits; exact hwaits.elim
  | inside c => rw [hturn] at hwaits; exact hwaits.elim
  | leaving held => rw [hturn] at hwaits; exact hwaits.elim
  | locking c held queued =>
    rw [hturn] at hwaits hheld
    cases queued with
    | false => exact hwaits.elim
    | true =>
      have hle := prefix_concat (h.planned t c held true hturn) hwaits
      have hsorted := (hplan c).sublist hle.sublist
      exact (List.pairwise_append.mp hsorted).2.2 y hheld x (List.mem_singleton_self x)

variable [DecidableEq T]

/-- Along a chain of waiting tasks the locks waited for go up, or the lock stays and the place in its
queue gets better. -/
theorem Inv.chain (h : Inv plan s) (hplan : ∀ c, (plan c).Pairwise (· < ·))
    (hchain : Relation.TransGen (s.WaitsFor plan) t u) (ht : (s.turn t).WaitsOn plan x)
    (hu : (s.turn u).WaitsOn plan y) :
    x < y ∨ x = y ∧ (s.queue x).idxOf u < (s.queue x).idxOf t := by
  -- one link
  have hlink : ∀ {t u : T} {x y : L}, s.WaitsFor plan t u → (s.turn t).WaitsOn plan x →
      (s.turn u).WaitsOn plan y → x < y ∨ x = y ∧ (s.queue x).idxOf u < (s.queue x).idxOf t := by
    rintro t u x y ⟨x', ht', hwait⟩ ht hu
    obtain rfl := waitsOn_unique ht' ht
    rcases hwait with hheld | ⟨front, back, hqueue, hmem⟩
    · exact .inl (h.lt_of_waitsOn hplan hu hheld)
    · have hsame : (s.turn u).WaitsOn plan x' :=
        (h.queued u x').mp (by rw [hqueue]; exact List.mem_append_left _ hmem)
      refine .inr ⟨waitsOn_unique hsame hu, ?_⟩
      have hnodup := h.nodup x'
      rw [hqueue] at hnodup ⊢
      have hnot : t ∉ front := fun hin =>
        (List.nodup_append.mp hnodup).2.2 t hin t List.mem_cons_self rfl
      rw [List.idxOf_append_of_mem hmem, List.idxOf_append_of_notMem hnot, List.idxOf_cons_self]
      exact Nat.lt_add_right 0 (List.idxOf_lt_length_of_mem hmem)
  induction hchain generalizing y with
  | single hwait => exact hlink hwait ht hu
  | @tail v w _ hwait ih =>
    obtain ⟨z, hv⟩ : ∃ z, (s.turn v).WaitsOn plan z := hwait.imp fun _ hz => hz.1
    rcases ih hv with hlt | ⟨rfl, hidx⟩
    · rcases hlink hwait hv hu with hlt' | ⟨rfl, -⟩
      · exact .inl (lt_trans hlt hlt')
      · exact .inl hlt
    · rcases hlink hwait hv hu with hlt' | ⟨rfl, hidx'⟩
      · exact .inl hlt'
      · exact .inr ⟨rfl, Nat.lt_trans hidx' hidx⟩

/-- No task waits for itself. -/
theorem Inv.acyclic (h : Inv plan s) (hplan : ∀ c, (plan c).Pairwise (· < ·)) (t : T) :
    ¬ Relation.TransGen (s.WaitsFor plan) t t := by
  intro hcycle
  obtain ⟨x, ht⟩ : ∃ x, (s.turn t).WaitsOn plan x := by
    rcases Relation.TransGen.head'_iff.mp hcycle with ⟨u, ⟨x, ht, -⟩, -⟩
    exact ⟨x, ht⟩
  rcases h.chain hplan hcycle ht ht with hlt | ⟨-, hlt⟩
  · exact lt_irrefl x hlt
  · exact Nat.lt_irrefl _ hlt

end

end LockOrder
