-- SUMMARY: Following the cursors of a paged listing to its end, and the rule by which one page after another adds up to the whole.
import Mathlib.Tactic.Common

/-!
# Paging

A listing is asked for a page at a cursor, and answers with rows and the cursor of the next page, if there
is one. Following it collects the rows of all pages.
-/

namespace Paging

variable {α τ : Type}

structure Page (α τ : Type) where
  rows : List α
  next : Option τ

/-- Follow the cursors until there is none, within a number of pages. -/
def follow (ask : Option τ → Option (Page α τ)) : Nat → Option τ → Option (List α)
  | 0, _ => none
  | n + 1, cursor => do
    let page ← ask cursor
    match page.next with
    | none => some page.rows
    | some next => (follow ask n (some next)).map (page.rows ++ ·)

/-- The pages add up to these rows. -/
def Yields (ask : Option τ → Option (Page α τ)) (rows : List α) : Prop := ∃ n, follow ask n none = some rows

variable {ask : Option τ → Option (Page α τ)}

theorem follow_mono {n m : Nat} {cursor : Option τ} {rows : List α} (hle : n ≤ m)
    (h : follow ask n cursor = some rows) : follow ask m cursor = some rows := by
  induction n generalizing m cursor rows with
  | zero => cases h
  | succ n ih =>
    obtain ⟨m, rfl⟩ : ∃ m', m = m' + 1 := ⟨m - 1, by omega⟩
    simp only [follow, Option.bind_eq_bind, Option.bind_eq_some_iff] at h ⊢
    obtain ⟨page, hpage, h⟩ := h
    refine ⟨page, hpage, ?_⟩
    cases hnext : page.next with
    | none =>
      rw [hnext] at h
      exact h
    | some next =>
      rw [hnext] at h
      obtain ⟨rest, hrest, heq⟩ := Option.map_eq_some_iff.mp h
      exact Option.map_eq_some_iff.mpr ⟨rest, ih (Nat.le_of_succ_le_succ hle) hrest, heq⟩

theorem Yields.unique {rows rows' : List α} (h : Yields ask rows) (h' : Yields ask rows') : rows = rows' := by
  obtain ⟨n, hn⟩ := h
  obtain ⟨m, hm⟩ := h'
  have hn' := follow_mono (Nat.le_max_left n m) hn
  rw [follow_mono (Nat.le_max_right n m) hm] at hn'
  exact (Option.some.inj hn').symm

/-- `Left cursor n rows` says that at a cursor these rows are still to come, and bounds how many pages
that takes. If every page takes some of them away, all are collected. -/
theorem follow_of_left {Left : Option τ → Nat → List α → Prop}
    (hstep : ∀ cursor n rows, Left cursor n rows → ∃ page, ask cursor = some page ∧
      (page.next = none ∧ page.rows = rows ∨
        ∃ next n' rest, page.next = some next ∧ rows = page.rows ++ rest ∧ n' < n ∧
          Left (some next) n' rest))
    {cursor : Option τ} {n : Nat} {rows : List α} (h : Left cursor n rows) :
    follow ask (n + 1) cursor = some rows := by
  induction n using Nat.strongRecOn generalizing cursor rows with
  | _ n ih =>
    obtain ⟨page, hpage, ⟨hnext, hrows⟩ | ⟨next, n', rest, hnext, hrows, hlt, hleft⟩⟩ := hstep _ _ _ h
    · simp [follow, hpage, hnext, hrows]
    · have hrest := follow_mono hlt (ih n' hlt hleft)
      simp [follow, hpage, hnext, hrows, hrest]

-- ---------------------------------------------------------------------------
-- Listings one behind the other
-- ---------------------------------------------------------------------------

section Sections

variable {β υ σ : Type} {ask : Option υ → Option (Page β υ)} {askIn : σ → Option τ → Option (Page α τ)}
  {take : σ → List α → List β} {enter next : σ → Option υ} {inside : σ → τ → υ}

/-- Every section but the first is entered at the cursor that its predecessor ends with. -/
def Chained (enter next : σ → Option υ) : List σ → Prop
  | [] => True
  | [s] => next s = none
  | s :: s' :: rest => next s = enter s' ∧ enter s' ≠ none ∧ Chained enter next (s' :: rest)

/-- The page at a cursor of a section is what is taken of the section's own page, and goes on inside
of it or behind it. -/
def PagesOf (ask : Option υ → Option (Page β υ)) (askIn : Option τ → Option (Page α τ))
    (take : List α → List β) (enter next : Option υ) (inside : τ → υ) : Prop :=
  ∀ cursor page, askIn cursor = some page → ask (cursor.elim enter (some ∘ inside)) =
    some ⟨take page.rows, page.next.elim next (some ∘ inside)⟩

/-- What is left of a section comes before what comes behind it. -/
theorem follow_section {s : σ} (htake : ∀ rows rows', take s (rows ++ rows') = take s rows ++ take s rows')
    (hpages : PagesOf ask (askIn s) (take s) (enter s) (next s) (inside s)) {rest : List β} {m : Nat}
    (hrest : next s = none ∧ rest = [] ∨ next s ≠ none ∧ follow ask m (next s) = some rest)
    {n : Nat} {cursor : Option τ} {rows : List α} (h : follow (askIn s) n cursor = some rows) :
    follow ask (n + m) (cursor.elim (enter s) (some ∘ inside s)) = some (take s rows ++ rest) := by
  induction n generalizing cursor rows with
  | zero => cases h
  | succ n ih =>
    simp only [follow, Option.bind_eq_bind, Option.bind_eq_some_iff] at h
    obtain ⟨page, hpage, h⟩ := h
    rw [Nat.succ_add, follow, hpages cursor page hpage]
    simp only [Option.bind_eq_bind, Option.bind_some]
    cases hnext : page.next with
    | none =>
      rw [hnext] at h
      cases h
      rcases hrest with ⟨hlast, rfl⟩ | ⟨hmore, hfollow⟩
      · simp [hlast]
      · obtain ⟨c, hc⟩ := Option.ne_none_iff_exists'.mp hmore
        rw [hc] at hfollow
        simp [hc, follow_mono (Nat.le_add_left m n) hfollow]
    | some c =>
      rw [hnext] at h
      obtain ⟨left, hleft, rfl⟩ := Option.map_eq_some_iff.mp h
      have hfollow : follow ask (n + m) (some (inside s c)) = some (take s left ++ rest) := ih hleft
      simp [hfollow, htake]

/-- Sections that are chained yield their rows one after the other. -/
theorem follow_sections (htake : ∀ s rows rows', take s (rows ++ rows') = take s rows ++ take s rows')
    {rows : σ → List α} {sections : List σ} (hchained : Chained enter next sections)
    (hpages : ∀ s ∈ sections, PagesOf ask (askIn s) (take s) (enter s) (next s) (inside s))
    (hyields : ∀ s ∈ sections, Yields (askIn s) (rows s)) {s : σ} {rest : List σ}
    (hsections : sections = s :: rest) :
    ∃ n, follow ask n (enter s) = some (sections.flatMap fun s => take s (rows s)) := by
  induction rest generalizing sections s with
  | nil =>
    subst hsections
    obtain ⟨n, hn⟩ := hyields s List.mem_cons_self
    exact ⟨n + 0, follow_section (htake s) (hpages s List.mem_cons_self) (m := 0) (Or.inl ⟨hchained, rfl⟩) hn⟩
  | cons s' rest ih =>
    subst hsections
    obtain ⟨hnext, hsome, hchained'⟩ := hchained
    obtain ⟨m, hm⟩ := ih hchained' (fun t ht => hpages t (List.mem_cons_of_mem _ ht))
      (fun t ht => hyields t (List.mem_cons_of_mem _ ht)) rfl
    obtain ⟨n, hn⟩ := hyields s List.mem_cons_self
    rw [← hnext] at hm hsome
    exact ⟨n + m, follow_section (htake s) (hpages s List.mem_cons_self) (Or.inr ⟨hsome, hm⟩) hn⟩

end Sections

end Paging
