-- SUMMARY: Runs of a labelled step relation: how they compose and split, and invariants over them.
import Mathlib.Data.List.Basic

/-!
# Traces

A run of a step relation, with what each of its steps was. Runs compose, a run splits where its
events do, and a relation that every step keeps holds at the end of a run.
-/

namespace Traces

variable {S E : Type} {step : S → E → S → Prop} {start s s' : S} {events events' : List E}

/-- The runs from `start`, latest event last. -/
inductive Run (step : S → E → S → Prop) (start : S) : List E → S → Prop where
  | start : Run step start [] start
  | step {events : List E} {event : E} {s s' : S} : Run step start events s → step s event s' →
      Run step start (events ++ [event]) s'

theorem Run.single {event : E} (h : step s event s') : Run step s [event] s' := .step .start h

theorem Run.trans (h : Run step start events s) (h' : Run step s events' s') :
    Run step start (events ++ events') s' := by
  induction h' with
  | start => rwa [List.append_nil]
  | step _ hstep ih =>
    rw [← List.append_assoc]
    exact .step ih hstep

/-- Where the events split, there was a state. -/
theorem Run.split (h : Run step start (events ++ events') s) :
    ∃ middle, Run step start events middle ∧ Run step middle events' s := by
  generalize hall : events ++ events' = all at h
  induction h generalizing events' with
  | start =>
    obtain ⟨rfl, rfl⟩ := List.append_eq_nil_iff.mp hall
    exact ⟨start, .start, .start⟩
  | @step all event s s' hrun hstep ih =>
    rcases List.eq_nil_or_concat events' with rfl | ⟨front, last, rfl⟩
    · rw [List.append_nil] at hall
      subst hall
      exact ⟨s', .step hrun hstep, .start⟩
    · rw [List.concat_eq_append, ← List.append_assoc] at hall
      obtain ⟨hfront, hlast⟩ := List.append_inj' hall rfl
      obtain ⟨middle, hbefore, hafter⟩ := ih hfront
      obtain rfl := List.head_eq_of_cons_eq hlast
      exact ⟨middle, hbefore, List.concat_eq_append ▸ .step hafter hstep⟩

theorem Run.eq_of_nil (h : Run step start [] s) : s = start := by
  generalize hempty : ([] : List E) = front at h
  cases h with
  | start => rfl
  | step => exact absurd hempty.symm (List.append_ne_nil_of_right_ne_nil _ (List.cons_ne_nil _ _))

/-- A run of an event and more begins with a step. -/
theorem Run.head {event : E} (h : Run step start (event :: events) s) :
    ∃ next, step start event next ∧ Run step next events s := by
  obtain ⟨next, hfirst, hrest⟩ := (show Run step start ([event] ++ events) s from h).split
  generalize hsingle : [event] = all at hfirst
  cases hfirst with
  | start => cases hsingle
  | step hrun hstep =>
    obtain ⟨hnil, hevent⟩ := List.append_inj' (show [] ++ [event] = _ from hsingle) rfl
    subst hnil
    obtain rfl := List.head_eq_of_cons_eq hevent
    obtain rfl := hrun.eq_of_nil
    exact ⟨next, hstep, hrest⟩

/-- Each event of a run was a step, from a state that the events before it lead to. -/
theorem Run.at_event {event : E} (h : Run step start (events ++ event :: events') s) :
    ∃ middle next, Run step start events middle ∧ step middle event next ∧ Run step next events' s := by
  obtain ⟨middle, hbefore, hrest⟩ := h.split
  obtain ⟨next, hstep, hafter⟩ := hrest.head
  exact ⟨middle, next, hbefore, hstep, hafter⟩

/-- What holds at first of no events, and is kept by each step, holds of a run. -/
theorem Run.invariant {P : List E → S → Prop} (h : Run step start events s) (hstart : P [] start)
    (hstep : ∀ events event s s', P events s → step s event s' → P (events ++ [event]) s') : P events s := by
  induction h with
  | start => exact hstart
  | step _ hs ih => exact hstep _ _ _ _ ih hs

/-- What each step keeps. -/
theorem Run.keeps {P : S → Prop} (h : Run step start events s) (hstart : P start)
    (hstep : ∀ event s s', P s → step s event s' → P s') : P s :=
  h.invariant (P := fun _ => P) hstart fun _ => hstep

end Traces
