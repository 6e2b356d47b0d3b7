-- SUMMARY: Greedy wildcard matching with one remembered backtrack point, and its agreement with the declarative reading of a pattern.
import Mathlib.Data.List.Basic
import Mathlib.Tactic.Linarith

/-!
# Two-pointer wildcard matching

A pattern is a list of pieces. A star stands for any run of the key, every other piece consumes a
fixed number of its items. The loop matches greedily and remembers only the last star. This is
enough: the pieces before that star are matched as early as they can be, and a star makes up for
the rest.
-/

namespace Pattern

variable {P K : Type}

section Loop

variable (isStar : P → Bool) (consume : P → List K → Option (List K))

/-- Two-pointer greedy matching with one remembered backtrack point: `pattern` and `key` are
what is left of both, `star` holds what followed the last star and the key it was reached
with. -/
def twoPointer : Nat → List P → List K → Option (List P × List K) → Bool
  | 0, _, _, _ => false
  | _ + 1, pattern, [], _ => pattern.all isStar
  | fuel + 1, pattern, key, star =>
    let resume := match star with
      | none => false
      | some (starPattern, starKey) =>
        twoPointer fuel starPattern starKey.tail (some (starPattern, starKey.tail))
    match pattern with
    | [] => resume
    | p :: rest =>
      if isStar p then twoPointer fuel rest key (some (rest, key))
      else
        match consume p key with
        | some key' => twoPointer fuel rest key' star
        | none => resume

/-- The loop from its start. A pointer into the pattern of length `m` advances at most `m` times
between two resumptions, and each of the `m` stars resumes at most once per key position. -/
def twoPointerMatch (pattern : List P) (key : List K) : Bool :=
  let m := pattern.length
  twoPointer isStar consume ((m * (key.length + 1) + 1) * (m + 1) + 1) pattern key none

/-! ## The declarative reading -/

/-- A star takes any run, every other piece what it consumes. -/
inductive Matches : List P → List K → Prop where
  | nil : Matches [] []
  | star {p : P} {rest : List P} {key : List K} (skipped : List K) :
      isStar p = true → Matches rest key → Matches (p :: rest) (skipped ++ key)
  | one {p : P} {rest : List P} {key key' : List K} :
      isStar p = false → consume p key = some key' → Matches rest key' → Matches (p :: rest) key

/-- Every piece but a star consumes a fixed, positive number of items. -/
def Advances (width : P → Nat) (pattern : List P) : Prop :=
  ∀ p ∈ pattern, isStar p = false → 0 < width p ∧
    ∀ key key', consume p key = some key' → width p ≤ key.length ∧ key' = key.drop (width p)

end Loop

variable {isStar : P → Bool} {consume : P → List K → Option (List K)} {width : P → Nat}
variable {p : P} {pre pattern rest : List P} {key : List K}

theorem matches_star_iff (hp : isStar p = true) :
    Matches isStar consume (p :: rest) key ↔
      ∃ i, i ≤ key.length ∧ Matches isStar consume rest (key.drop i) := by
  constructor
  · intro h
    cases h with
    | star skipped _ hrest => exact ⟨skipped.length, by simp, by simpa using hrest⟩
    | one hone => simp [hp] at hone
  · rintro ⟨i, -, hrest⟩
    simpa using Matches.star (key.take i) hp hrest

theorem matches_one_iff (hp : isStar p = false) :
    Matches isStar consume (p :: rest) key ↔
      ∃ key', consume p key = some key' ∧ Matches isStar consume rest key' := by
  constructor
  · intro h
    cases h with
    | star _ hstar => simp [hp] at hstar
    | one _ hc hrest => exact ⟨_, hc, hrest⟩
  · rintro ⟨key', hc, hrest⟩
    exact .one hp hc hrest

theorem Advances.tail (h : Advances isStar consume width (p :: rest)) :
    Advances isStar consume width rest := fun q hq => h q (List.mem_cons_of_mem _ hq)

/-- Only stars match the empty key. -/
theorem Advances.matches_nil (h : Advances isStar consume width pattern) :
    Matches isStar consume pattern [] ↔ pattern.all isStar = true := by
  induction pattern with
  | nil => simpa using Matches.nil
  | cons p rest ih =>
    cases hp : isStar p with
    | true =>
      rw [matches_star_iff hp]
      simp [hp, ih h.tail]
    | false =>
      rw [matches_one_iff hp]
      obtain ⟨hpos, hconsume⟩ := h p (by simp) hp
      simp only [List.all_cons, hp, Bool.false_and, Bool.false_eq_true, iff_false]
      rintro ⟨key', hc, -⟩
      have := (hconsume _ _ hc).1
      simp at this
      omega

/-- The number of items a run of pieces without a star consumes. -/
def span (width : P → Nat) (pre : List P) : Nat := (pre.map width).sum

/-- Pieces without a star consume their span, and what follows matches the rest. -/
theorem Advances.matches_append (h : Advances isStar consume width (pre ++ rest))
    (hpre : ∀ p ∈ pre, isStar p = false) (hm : Matches isStar consume (pre ++ rest) key) :
    span width pre ≤ key.length ∧ Matches isStar consume rest (key.drop (span width pre)) := by
  induction pre generalizing key with
  | nil => simpa [span] using hm
  | cons p pre ih =>
    have hp := hpre p (by simp)
    obtain ⟨key', hc, hm'⟩ := (matches_one_iff hp).mp hm
    obtain ⟨hle, rfl⟩ := (h p (by simp) hp).2 _ _ hc
    obtain ⟨hle', hrest⟩ := ih (Advances.tail h) (fun q hq => hpre q (by simp [hq])) hm'
    simp only [List.length_drop, List.drop_drop] at hle' hrest
    simp only [span, List.map_cons, List.sum_cons] at hle' hrest ⊢
    exact ⟨by omega, hrest⟩

/-! ## The loop -/

/-- What followed the last star matches the key from a later position on. -/
def MatchesLater (isStar : P → Bool) (consume : P → List K → Option (List K)) :
    Option (List P × List K) → Prop
  | none => False
  | some (starPattern, starKey) =>
    ∃ i, i < starKey.length ∧ Matches isStar consume starPattern (starKey.drop (i + 1))

/-- The loop has come from the last star to `pattern` and `key` by pieces without a star. -/
def Resumable (isStar : P → Bool) (width : P → Nat) (pattern : List P) (key : List K) :
    Option (List P × List K) → Prop
  | none => True
  | some (starPattern, starKey) => ∃ pre, starPattern = pre ++ pattern ∧
      (∀ p ∈ pre, isStar p = false) ∧ span width pre ≤ starKey.length ∧
      key = starKey.drop (span width pre)

/-- An upper bound on the steps the loop still makes, for patterns of at most `m` pieces and keys
of at most `n` items. -/
def cost (m n : Nat) (pattern : List P) : Option (List P × List K) → Nat
  | none => m * (n + 1) * (m + 1) + pattern.length
  | some (starPattern, starKey) =>
    (starPattern.length * (n + 1) + starKey.length) * (m + 1) + pattern.length

/-- The sizes the bound is for. -/
def Fits (m n : Nat) (pattern : List P) (key : List K) : Option (List P × List K) → Prop
  | none => pattern.length ≤ m ∧ key.length ≤ n
  | some (starPattern, starKey) =>
    pattern.length ≤ starPattern.length ∧ starPattern.length ≤ m ∧ key.length ≤ starKey.length ∧
      starKey.length ≤ n

variable {m n fuel : Nat} {star : Option (List P × List K)} {starPattern : List P}
variable {starKey : List K}

theorem cost_consume (h : cost m n (p :: rest) star < fuel + 1) :
    cost m n rest star < fuel := by
  cases star with
  | none =>
    simp only [cost, List.length_cons] at h ⊢
    omega
  | some s =>
    simp only [cost, List.length_cons] at h ⊢
    omega

theorem cost_star (hfits : Fits m n (p :: rest) key star)
    (h : cost m n (p :: rest) star < fuel + 1) : cost m n rest (some (rest, key)) < fuel := by
  have bound : ∀ {s k : Nat}, rest.length + 1 ≤ s → key.length ≤ n → rest.length ≤ m →
      (rest.length * (n + 1) + key.length) * (m + 1) + rest.length <
        (s * (n + 1) + k) * (m + 1) := by
    intro s k hs hk hm
    have h₁ : rest.length * (n + 1) + key.length + 1 ≤ s * (n + 1) + k := by nlinarith
    have h₂ := Nat.mul_le_mul_right (m + 1) h₁
    rw [Nat.add_one_mul] at h₂
    omega
  cases star with
  | none =>
    simp only [Fits, cost, List.length_cons] at h hfits ⊢
    have := bound (s := m) (k := 0) hfits.1 hfits.2 (by omega)
    rw [Nat.add_zero (m * (n + 1))] at this
    omega
  | some s =>
    simp only [Fits, cost, List.length_cons] at h hfits ⊢
    have := bound (s := s.1.length) (k := s.2.length) hfits.1 (by omega) (by omega)
    omega

theorem cost_resume (hm : starPattern.length ≤ m) (hkey : starKey ≠ [])
    (h : cost m n pattern (some (starPattern, starKey)) < fuel + 1) :
    cost m n starPattern (some (starPattern, starKey.tail)) < fuel := by
  obtain ⟨k, starKey, rfl⟩ := List.exists_cons_of_ne_nil hkey
  simp only [cost, List.length_cons, List.tail_cons] at h ⊢
  have : (starPattern.length * (n + 1) + (starKey.length + 1)) * (m + 1) =
      (starPattern.length * (n + 1) + starKey.length) * (m + 1) + (m + 1) := by
    rw [← Nat.add_assoc, Nat.add_one_mul]
  omega

/-- Resuming after the last star looks at the later positions, one by one. -/
theorem matchesLater_iff (hkey : starKey ≠ []) :
    MatchesLater isStar consume (some (starPattern, starKey)) ↔
      Matches isStar consume starPattern starKey.tail ∨
        MatchesLater isStar consume (some (starPattern, starKey.tail)) := by
  obtain ⟨k, starKey, rfl⟩ := List.exists_cons_of_ne_nil hkey
  simp only [MatchesLater, List.length_cons, List.drop_succ_cons, List.tail_cons]
  constructor
  · rintro ⟨i, hi, hm⟩
    cases i with
    | zero => exact .inl (by simpa using hm)
    | succ i => exact .inr ⟨i, by omega, hm⟩
  · rintro (hm | ⟨i, hi, hm⟩)
    · exact ⟨0, by omega, by simpa using hm⟩
    · exact ⟨i + 1, by omega, hm⟩

/-- A later position leaves too little of the key for the pieces already passed. -/
theorem Resumable.not_later (h : Resumable isStar width pattern [] (some (starPattern, starKey)))
    (hadv : Advances isStar consume width starPattern) :
    ¬ MatchesLater isStar consume (some (starPattern, starKey)) := by
  rintro ⟨i, hi, hm⟩
  obtain ⟨pre, rfl, hpre, hle, hkey⟩ := h
  have := (hadv.matches_append hpre hm).1
  have hlen := congrArg List.length hkey
  simp only [List.length_drop, List.length_nil] at this hlen
  omega

/-- A second star makes up for whatever a later position of the first would skip. -/
theorem Resumable.later_star (hp : isStar p = true)
    (h : Resumable isStar width (p :: rest) key (some (starPattern, starKey)))
    (hadv : Advances isStar consume width starPattern)
    (hl : MatchesLater isStar consume (some (starPattern, starKey))) :
    Matches isStar consume (p :: rest) key := by
  obtain ⟨i, hi, hm⟩ := hl
  obtain ⟨pre, rfl, hpre, hle, rfl⟩ := h
  obtain ⟨hle', hm'⟩ := hadv.matches_append hpre hm
  rw [matches_star_iff hp] at hm' ⊢
  obtain ⟨j, hj, hm'⟩ := hm'
  simp only [List.length_drop, List.drop_drop] at hle' hj hm' ⊢
  refine ⟨i + 1 + j, by omega, ?_⟩
  rwa [← Nat.add_assoc, Nat.add_comm (span width pre)]

/-- The loop continues after the last star, one position later. -/
def resumed (isStar : P → Bool) (consume : P → List K → Option (List K)) (fuel : Nat) :
    Option (List P × List K) → Bool
  | none => false
  | some (starPattern, starKey) =>
    twoPointer isStar consume fuel starPattern starKey.tail (some (starPattern, starKey.tail))

/-- What a step does while there is something left of the key. -/
theorem twoPointer_cons (k : K) :
    twoPointer isStar consume (fuel + 1) pattern (k :: key) star =
      match pattern with
      | [] => resumed isStar consume fuel star
      | p :: rest =>
        if isStar p then twoPointer isStar consume fuel rest (k :: key) (some (rest, k :: key))
        else
          match consume p (k :: key) with
          | some key' => twoPointer isStar consume fuel rest key' star
          | none => resumed isStar consume fuel star := by
  cases pattern with
  | nil =>
    cases star with
    | none => rfl
    | some s => rfl
  | cons p rest =>
    cases star with
    | none => rfl
    | some s => rfl

theorem Fits.atStar (h : Fits m n (p :: rest) key star) : Fits m n rest key (some (rest, key)) := by
  cases star with
  | none =>
    simp only [Fits, List.length_cons] at h ⊢
    omega
  | some s =>
    simp only [Fits, List.length_cons] at h ⊢
    omega

theorem Fits.past {i : Nat} (h : Fits m n (p :: rest) key star) :
    Fits m n rest (key.drop i) star := by
  cases star with
  | none =>
    simp only [Fits, List.length_cons, List.length_drop] at h ⊢
    omega
  | some s =>
    simp only [Fits, List.length_cons, List.length_drop] at h ⊢
    omega

theorem Resumable.past (hp : isStar p = false) (hle : width p ≤ key.length)
    (h : Resumable isStar width (p :: rest) key star) :
    Resumable isStar width rest (key.drop (width p)) star := by
  cases star with
  | none => trivial
  | some s =>
    obtain ⟨pre, heq, hpre, hspan, rfl⟩ := h
    have hspan' : span width (pre ++ [p]) = span width pre + width p := by simp [span]
    rw [List.length_drop] at hle
    refine ⟨pre ++ [p], by simp [heq], ?_, by omega, by rw [hspan', List.drop_drop]⟩
    intro q hq
    rcases List.mem_append.mp hq with hq | hq
    · exact hpre q hq
    · cases List.mem_singleton.mp hq
      exact hp

/-- A star matches from here on or from a later position. -/
theorem matches_star_or (hp : isStar p = true) :
    Matches isStar consume (p :: rest) key ↔
      Matches isStar consume rest key ∨ MatchesLater isStar consume (some (rest, key)) := by
  rw [matches_star_iff hp]
  constructor
  · rintro ⟨i, hi, hm⟩
    cases i with
    | zero => exact .inl (by simpa using hm)
    | succ i => exact .inr ⟨i, hi, hm⟩
  · rintro (hm | ⟨i, hi, hm⟩)
    · exact ⟨0, by omega, by simpa using hm⟩
    · exact ⟨i + 1, hi, hm⟩

/-- With enough fuel the loop finds a match from here on, or from a later position of the last
star, if there is one. -/
theorem twoPointer_iff (hadv : Advances isStar consume width pattern)
    (hstar : ∀ s ∈ star, Advances isStar consume width s.1)
    (hres : Resumable isStar width pattern key star) (hfits : Fits m n pattern key star)
    (hfuel : cost m n pattern star < fuel) :
    twoPointer isStar consume fuel pattern key star = true ↔
      Matches isStar consume pattern key ∨ MatchesLater isStar consume star := by
  induction fuel generalizing pattern key star with
  | zero => omega
  | succ fuel ih =>
    -- what the loop knows right after a star
    have fresh : ∀ {sp : List P} {sk : List K}, Resumable isStar width sp sk (some (sp, sk)) :=
      ⟨[], rfl, by simp, by simp [span], by simp [span]⟩
    cases key with
    | nil =>
      rw [twoPointer, hadv.matches_nil]
      cases star with
      | none => simp [MatchesLater]
      | some s => simp [hres.not_later (hstar s rfl)]
    | cons k key =>
      -- nothing matches from here on, so the last star decides
      have resume : ¬ Matches isStar consume pattern (k :: key) →
          (resumed isStar consume fuel star = true ↔
            Matches isStar consume pattern (k :: key) ∨ MatchesLater isStar consume star) := by
        intro hno
        rw [or_iff_right hno]
        cases star with
        | none => simp [MatchesLater, resumed]
        | some s =>
          obtain ⟨starPattern, starKey⟩ := s
          obtain ⟨-, hm, hlen, hn⟩ := hfits
          have hne : starKey ≠ [] := by
            rintro rfl
            simp at hlen
          have hs := hstar _ rfl
          rw [matchesLater_iff hne]
          refine ih hs (by simpa using hs) fresh ⟨le_rfl, hm, le_rfl, ?_⟩ (cost_resume hm hne hfuel)
          rw [List.length_tail]
          omega
      rw [twoPointer_cons]
      cases pattern with
      | nil =>
        refine resume ?_
        intro h
        cases h
      | cons p rest =>
        cases hp : isStar p with
        | true =>
          simp only [hp, if_true]
          rw [ih hadv.tail (by simpa using hadv.tail) fresh (Fits.atStar hfits) (cost_star hfits hfuel),
            ← matches_star_or hp]
          cases star with
          | none => simp [MatchesLater]
          | some s => rw [or_iff_left_of_imp (hres.later_star hp (hstar s rfl))]
        | false =>
          simp only [hp, Bool.false_eq_true, if_false]
          cases hc : consume p (k :: key) with
          | none =>
            refine resume ?_
            rw [matches_one_iff hp]
            simp [hc]
          | some key' =>
            obtain ⟨hle, rfl⟩ := (hadv p (by simp) hp).2 _ _ hc
            simp only
            rw [ih hadv.tail hstar
              (Resumable.past hp hle hres) (Fits.past hfits) (cost_consume hfuel),
              matches_one_iff hp]
            simp [hc]

/-- The loop decides the declarative reading. -/
theorem twoPointerMatch_iff (hadv : Advances isStar consume width pattern) :
    twoPointerMatch isStar consume pattern key = true ↔ Matches isStar consume pattern key := by
  have hfuel : cost pattern.length key.length pattern (none : Option (List P × List K)) <
      (pattern.length * (key.length + 1) + 1) * (pattern.length + 1) + 1 := by
    rw [cost, Nat.add_one_mul (pattern.length * (key.length + 1))]
    omega
  have hfits : Fits pattern.length key.length pattern key none := ⟨le_rfl, le_rfl⟩
  have hnone : ∀ s ∈ (none : Option (List P × List K)), Advances isStar consume width s.1 := by simp
  have hres : Resumable isStar width pattern key none := trivial
  simpa [twoPointerMatch, MatchesLater] using twoPointer_iff hadv hnone hres hfits hfuel

end Pattern
