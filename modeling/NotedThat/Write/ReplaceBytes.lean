-- SUMMARY: What a replace makes of an object: the matches it finds, the bytes it puts in their place, and when its length arithmetic wraps.
import NotedThat.Lib.Occurrences
import NotedThat.Lib.U64
import NotedThat.Write.Commit
import NotedThat.Write.Patch

/-!
# The bytes of a replace

The length of the result is computed from the number of matches before it is built. The two products of this
computation are not checked; every statement about the result has the condition that they do not wrap.
-/

namespace Write

open Occurrences

/-! ## The matches -/

section

variable {haystack needle : Bytes}

theorem drop_succ_eq {i : Nat} {byte : UInt8} {rest : Bytes} (h : haystack.drop i = byte :: rest) :
    haystack.drop (i + 1) = rest := by
  rw [← List.drop_drop, h]
  rfl

theorem matchesFrom_leftmost (hneedle : needle ≠ []) (offset skip : Nat) (rest : Bytes)
    (hrest : haystack.drop offset = rest) :
    Leftmost needle haystack (offset + skip) (matchesFrom needle offset skip rest) := by
  fun_induction matchesFrom needle offset skip rest with
  | case1 offset skip =>
    refine .done fun i hi => not_occursAt_of_length_le hneedle ?_
    have hlength := List.drop_eq_nil_iff.mp hrest
    omega
  | case2 offset skip byte rest ih =>
    have hbehind := ih (drop_succ_eq hrest)
    rwa [show offset + 1 + skip = offset + skip.succ by omega] at hbehind
  | case3 offset byte rest hprefix ih =>
    have hbehind := ih (drop_succ_eq hrest)
    have hlength := List.length_pos_iff.mpr hneedle
    rw [show offset + 1 + (needle.length - 1) = offset + needle.length by omega] at hbehind
    refine .next (Nat.le_refl offset) ?_ (fun j hj hlt => absurd hj (Nat.not_le.mpr hlt)) hbehind
    rw [OccursAt, hrest]
    exact List.isPrefixOf_iff_prefix.mp hprefix
  | case4 offset byte rest hprefix ih =>
    refine Leftmost.extend (ih (drop_succ_eq hrest)) fun hoccurs => hprefix ?_
    rw [OccursAt, Nat.add_zero, hrest] at hoccurs
    exact List.isPrefixOf_iff_prefix.mpr hoccurs

theorem findNonOverlappingMatches_leftmost (hneedle : needle ≠ []) :
    Leftmost needle haystack 0 (findNonOverlappingMatches haystack needle) :=
  matchesFrom_leftmost hneedle 0 0 haystack rfl

/-- What is copied is what lies between the matches. -/
theorem spliceMatches_eq (width : Nat) (replacement : Bytes) (prevEnd : Nat) (found : List Nat) :
    spliceMatches haystack width replacement prevEnd found =
      replacement.intercalate (pieces haystack width prevEnd found) := by
  induction found generalizing prevEnd with
  | nil => rw [spliceMatches, pieces, List.intercalate_singleton]
  | cons matchedAt rest ih =>
    rw [spliceMatches, pieces, ih, List.intercalate_cons_of_ne_nil (pieces_ne_nil _)]

end

/-! ## The lengths -/

/-- `spliceReplacement` on 64-bit numbers: `none` is a product that wraps. -/
def spliceReplacementU64 (haystack needle replacement : Bytes) (found : List Nat) (maxPatchableSize : Nat) :
    Option (Except WriteError Bytes) := do
  let replacedBytes ← U64.mul found.length needle.length
  let addedBytes ← U64.mul found.length replacement.length
  match (U64.sub haystack.length replacedBytes).bind fun n => U64.add n addedBytes with
  | none => some (.error (.patchInvalidRange "replace: length arithmetic overflow"))
  | some newLen =>
    if newLen > maxPatchableSize then some (.error (.patchTooLarge newLen maxPatchableSize))
    else some (.ok (spliceMatches haystack needle.length replacement 0 found))

/-- `replaceIn` on 64-bit numbers: `none` is a product that wraps. -/
def replaceInU64 (haystack needle replacement : Bytes) (replaceAll : Bool) (maxPatchableSize : Nat) :
    Option (Except WriteError (Bytes × Nat)) :=
  let found := findNonOverlappingMatches haystack needle
  if found.length = 0 then some (.error .replaceNoMatch)
  else if found.length ≥ 2 ∧ !replaceAll then some (.error (.replaceAmbiguous found.length))
  else
    let matchBound := if replaceAll then found.length else 1
    (spliceReplacementU64 haystack needle replacement (found.take matchBound) maxPatchableSize).map fun spliced =>
      spliced.map fun newBytes => (newBytes, matchBound)

section

variable {haystack needle replacement : Bytes} {replaceAll : Bool} {maxPatchableSize : Nat} {found : List Nat}

/-- The splice is refused if and only if its result is too long, as long as no product wraps. -/
theorem spliceReplacement_eq (hfound : Leftmost needle haystack 0 found) (hhaystack : haystack.length < 2 ^ 63)
    (hmax : maxPatchableSize < 2 ^ 64) (hproduct : found.length * replacement.length < 2 ^ 64) :
    (∃ e, spliceReplacement haystack needle replacement found maxPatchableSize = .error e ∧
        e ≠ .replaceNoMatch ∧ (∀ count, e ≠ .replaceAmbiguous count) ∧
        maxPatchableSize < (replacement.intercalate (pieces haystack needle.length 0 found)).length) ∨
      spliceReplacement haystack needle replacement found maxPatchableSize =
          .ok (replacement.intercalate (pieces haystack needle.length 0 found)) ∧
        (replacement.intercalate (pieces haystack needle.length 0 found)).length ≤ maxPatchableSize := by
  obtain ⟨htext, hresult⟩ := hfound.length_replaced replacement
  have hreplaced : found.length * needle.length % 2 ^ 64 = found.length * needle.length :=
    Nat.mod_eq_of_lt (by omega)
  have hadded : found.length * replacement.length % 2 ^ 64 = found.length * replacement.length :=
    Nat.mod_eq_of_lt hproduct
  rw [spliceReplacement, hreplaced, hadded, spliceMatches_eq, hresult]
  split
  · exact .inl ⟨_, rfl, nofun, nofun, by omega⟩
  · dsimp only
    split
    · exact .inl ⟨_, rfl, nofun, nofun, by omega⟩
    · exact .inr ⟨rfl, by omega⟩

theorem spliceReplacementU64_eq (hfound : Leftmost needle haystack 0 found)
    (hhaystack : haystack.length < 2 ^ 63) :
    spliceReplacementU64 haystack needle replacement found maxPatchableSize =
      if found.length * replacement.length < 2 ^ 64 then
        some (spliceReplacement haystack needle replacement found maxPatchableSize)
      else none := by
  obtain ⟨htext, -⟩ := hfound.length_replaced replacement
  rw [spliceReplacementU64, U64.mul_eq (by omega), Option.bind_eq_bind, Option.bind_some]
  split
  · next hproduct =>
    have hreplaced : found.length * needle.length % 2 ^ 64 = found.length * needle.length :=
      Nat.mod_eq_of_lt (by omega)
    have hadded : found.length * replacement.length % 2 ^ 64 = found.length * replacement.length :=
      Nat.mod_eq_of_lt hproduct
    rw [U64.mul_eq hproduct, Option.bind_some, U64.sub_eq (by omega), Option.bind_some, spliceReplacement,
      hreplaced, hadded]
    rcases Nat.lt_or_ge (haystack.length - found.length * needle.length + found.length * replacement.length)
      (2 ^ 64) with hsum | hsum
    · rw [U64.add_eq hsum, if_neg (by omega)]
      dsimp only
      split <;> rfl
    · rw [U64.add, if_neg (Nat.not_lt.mpr hsum), if_pos (.inr hsum)]
  · next hproduct => rw [U64.mul, if_neg hproduct, Option.bind_none]

end

/-! ## The answers -/

/-- What a replace is to answer, with the matches of its needle in the haystack. -/
structure ReplaceExact (haystack needle replacement : Bytes) (replaceAll : Bool) (maxPatchableSize : Nat)
    (found : List Nat) : Prop where
  cut : needle.intercalate (pieces haystack needle.length 0 found) = haystack
  noMatch : replaceIn haystack needle replacement replaceAll maxPatchableSize = .error .replaceNoMatch ↔ found = []
  ambiguous : ∀ count, replaceIn haystack needle replacement replaceAll maxPatchableSize =
      .error (.replaceAmbiguous count) ↔ 2 ≤ found.length ∧ replaceAll = false ∧ count = found.length
  replaced : ∀ result count, replaceIn haystack needle replacement replaceAll maxPatchableSize =
      .ok (result, count) ↔ (found.length = 1 ∨ 2 ≤ found.length ∧ replaceAll = true) ∧ count = found.length ∧
        result = replacement.intercalate (pieces haystack needle.length 0 found) ∧
        result.length ≤ maxPatchableSize
  unwrapped : replaceInU64 haystack needle replacement replaceAll maxPatchableSize =
    some (replaceIn haystack needle replacement replaceAll maxPatchableSize)

section

variable {haystack needle replacement : Bytes} {replaceAll : Bool} {maxPatchableSize : Nat} {found : List Nat}

theorem found_eq (hneedle : needle ≠ []) (hfound : Leftmost needle haystack 0 found) :
    findNonOverlappingMatches haystack needle = found :=
  (findNonOverlappingMatches_leftmost hneedle).unique hfound

theorem replaceIn_noMatch (h : findNonOverlappingMatches haystack needle = []) :
    replaceIn haystack needle replacement replaceAll maxPatchableSize = .error .replaceNoMatch ∧
      replaceInU64 haystack needle replacement replaceAll maxPatchableSize = some (.error .replaceNoMatch) := by
  simp only [replaceIn, replaceInU64, h, List.length_nil, if_true, and_self]

theorem replaceIn_ambiguous (h : findNonOverlappingMatches haystack needle = found) (hmany : 2 ≤ found.length) :
    replaceIn haystack needle replacement false maxPatchableSize = .error (.replaceAmbiguous found.length) ∧
      replaceInU64 haystack needle replacement false maxPatchableSize =
        some (.error (.replaceAmbiguous found.length)) := by
  have hsome : found.length ≠ 0 := by omega
  simp only [replaceIn, replaceInU64, h, hsome, if_false, ge_iff_le, hmany, Bool.not_false, and_self, if_true]

/-- Otherwise all of the matches are replaced. -/
theorem replaceIn_splice (h : findNonOverlappingMatches haystack needle = found)
    (hone : found.length = 1 ∨ 2 ≤ found.length ∧ replaceAll = true) :
    replaceIn haystack needle replacement replaceAll maxPatchableSize =
        (spliceReplacement haystack needle replacement found maxPatchableSize).map (fun bytes => (bytes, found.length)) ∧
      replaceInU64 haystack needle replacement replaceAll maxPatchableSize =
        (spliceReplacementU64 haystack needle replacement found maxPatchableSize).map fun spliced =>
          spliced.map fun bytes => (bytes, found.length) := by
  have hsome : found.length ≠ 0 := by omega
  have hclear : ¬ (found.length ≥ 2 ∧ (!replaceAll) = true) := by
    rintro ⟨hmany, hsingle⟩
    rcases hone with hone | ⟨-, hall⟩
    · omega
    · rw [hall] at hsingle
      cases hsingle
  have hbound : (if replaceAll then found.length else 1) = found.length := by
    rcases hone with hone | ⟨-, hall⟩
    · rw [hone, ite_self]
    · rw [hall, if_pos rfl]
  simp only [replaceIn, replaceInU64, h, hsome, hclear, if_false, hbound, List.take_length, and_true]
  cases spliceReplacement haystack needle replacement found maxPatchableSize with
  | error e => rfl
  | ok bytes => rfl

theorem exact_noMatch (hneedle : needle ≠ []) (hfound : Leftmost needle haystack 0 []) :
    ReplaceExact haystack needle replacement replaceAll maxPatchableSize [] := by
  obtain ⟨hanswer, hunwrapped⟩ :=
    @replaceIn_noMatch _ _ replacement replaceAll maxPatchableSize (found_eq hneedle hfound)
  refine ⟨hfound.intercalate_pieces, iff_of_true hanswer rfl, fun count => ?_, fun result count => ?_, ?_⟩
  · rw [hanswer]
    exact iff_of_false nofun fun h => absurd h.1 (by decide)
  · rw [hanswer]
    exact iff_of_false nofun fun h => by simp at h
  · rw [hunwrapped, hanswer]

theorem exact_ambiguous (hneedle : needle ≠ []) (hfound : Leftmost needle haystack 0 found)
    (hmany : 2 ≤ found.length) : ReplaceExact haystack needle replacement false maxPatchableSize found := by
  obtain ⟨hanswer, hunwrapped⟩ :=
    @replaceIn_ambiguous _ _ replacement maxPatchableSize _ (found_eq hneedle hfound) hmany
  refine ⟨hfound.intercalate_pieces, ?_, fun count => ?_, fun result count => ?_, ?_⟩
  · rw [hanswer]
    refine iff_of_false nofun ?_
    rintro rfl
    cases hmany
  · rw [hanswer, Except.error.injEq, WriteError.replaceAmbiguous.injEq, eq_comm]
    exact ⟨fun h => ⟨hmany, rfl, h⟩, fun h => h.2.2⟩
  · rw [hanswer]
    refine iff_of_false nofun ?_
    rintro ⟨hone | ⟨-, hall⟩, -⟩
    · omega
    · cases hall
  · rw [hunwrapped, hanswer]

theorem exact_splice (hneedle : needle ≠ []) (hfound : Leftmost needle haystack 0 found)
    (hone : found.length = 1 ∨ 2 ≤ found.length ∧ replaceAll = true) (hhaystack : haystack.length < 2 ^ 63)
    (hmax : maxPatchableSize < 2 ^ 64) (hproduct : found.length * replacement.length < 2 ^ 64) :
    ReplaceExact haystack needle replacement replaceAll maxPatchableSize found := by
  obtain ⟨hanswer, hunwrapped⟩ :=
    @replaceIn_splice _ _ replacement _ maxPatchableSize _ (found_eq hneedle hfound) hone
  have hsome : found ≠ [] := by
    rintro rfl
    simp at hone
  have hclear : ∀ count, ¬ (2 ≤ found.length ∧ replaceAll = false ∧ count = found.length) := by
    rintro count ⟨hmany, hsingle, -⟩
    rcases hone with hone | ⟨-, hall⟩
    · omega
    · rw [hsingle] at hall
      cases hall
  rw [spliceReplacementU64_eq hfound hhaystack, if_pos hproduct, Option.map_some] at hunwrapped
  rcases spliceReplacement_eq hfound hhaystack hmax hproduct with
    ⟨e, hrefused, hmatched, hclearly, hlong⟩ | ⟨hspliced, hfits⟩
  · rw [hrefused] at hanswer
    refine ⟨hfound.intercalate_pieces, ?_, fun count => ?_, fun result count => ?_, ?_⟩
    · rw [hanswer]
      exact iff_of_false (fun h => hmatched (Except.error.inj h)) hsome
    · rw [hanswer]
      exact iff_of_false (fun h => hclearly count (Except.error.inj h)) (hclear count)
    · rw [hanswer]
      refine iff_of_false nofun ?_
      rintro ⟨-, -, rfl, hfits⟩
      omega
    · rw [hunwrapped, hrefused, hanswer]
  · rw [hspliced] at hanswer
    refine ⟨hfound.intercalate_pieces, ?_, fun count => ?_, fun result count => ?_, ?_⟩
    · rw [hanswer]
      exact iff_of_false nofun hsome
    · rw [hanswer]
      exact iff_of_false nofun (hclear count)
    · rw [hanswer]
      constructor
      · intro h
        cases h
        exact ⟨hone, rfl, rfl, hfits⟩
      · rintro ⟨-, rfl, rfl, -⟩
        rfl
    · rw [hunwrapped, hspliced, hanswer]

/-- A product that wraps is not an answer. -/
theorem not_exact_of_wraps (hneedle : needle ≠ []) (hfound : Leftmost needle haystack 0 found)
    (hone : found.length = 1 ∨ 2 ≤ found.length ∧ replaceAll = true) (hhaystack : haystack.length < 2 ^ 63)
    (hproduct : ¬ found.length * replacement.length < 2 ^ 64) :
    ¬ ReplaceExact haystack needle replacement replaceAll maxPatchableSize found := by
  intro hexact
  obtain ⟨-, hunwrapped⟩ :=
    @replaceIn_splice _ _ replacement _ maxPatchableSize _ (found_eq hneedle hfound) hone
  rw [hexact.unwrapped, spliceReplacementU64_eq hfound hhaystack, if_neg hproduct] at hunwrapped
  cases hunwrapped

/-- A replace answers exactly if and only if the bytes it puts in the place of the matches are fewer than
`2 ^ 64`. -/
theorem replaceIn_exact_iff (hneedle : needle ≠ []) (hfound : Leftmost needle haystack 0 found)
    (hhaystack : haystack.length < 2 ^ 63) (hreplacement : replacement.length < 2 ^ 63)
    (hmax : maxPatchableSize < 2 ^ 64) :
    ReplaceExact haystack needle replacement replaceAll maxPatchableSize found ↔
      (if replaceAll then found.length else 1) * replacement.length < 2 ^ 64 := by
  rcases Nat.eq_zero_or_pos found.length with hnone | hsome
  · obtain rfl := List.length_eq_zero_iff.mp hnone
    refine iff_of_true (exact_noMatch hneedle hfound) ?_
    split <;> simp only [List.length_nil, Nat.zero_mul, Nat.one_mul] <;> omega
  · by_cases hone : found.length = 1 ∨ 2 ≤ found.length ∧ replaceAll = true
    · have hbound : (if replaceAll then found.length else 1) = found.length := by
        rcases hone with hone | ⟨-, hall⟩
        · rw [hone, ite_self]
        · rw [hall, if_pos rfl]
      rw [hbound]
      constructor
      · intro hexact
        by_contra hproduct
        exact not_exact_of_wraps hneedle hfound hone hhaystack hproduct hexact
      · intro hproduct
        exact exact_splice hneedle hfound hone hhaystack hmax hproduct
    · rw [not_or, not_and] at hone
      have hmany : 2 ≤ found.length := by omega
      obtain rfl := Bool.not_eq_true _ |>.mp (hone.2 hmany)
      refine iff_of_true (exact_ambiguous hneedle hfound hmany) ?_
      rw [if_neg Bool.false_ne_true, Nat.one_mul]
      omega

theorem replaceIn_exact_twoMatches : ReplaceExact [0x61, 0x62, 0x61] [0x61] [0x63, 0x63] true 5 [0, 2] :=
  (replaceIn_exact_iff (by decide) (findNonOverlappingMatches_leftmost (by decide)) (by decide) (by decide)
    (by decide)).mpr (by decide)

end

/-! ## A product that wraps -/

theorem length_matchesFrom_replicate (b : UInt8) (offset n : Nat) :
    (matchesFrom [b] offset 0 (List.replicate n b)).length = n := by
  induction n generalizing offset with
  | zero => rfl
  | succ n ih =>
    have hprefix : List.isPrefixOf [b] (b :: List.replicate n b) = true := by simp
    rw [List.replicate_succ, matchesFrom, if_pos hprefix, List.length_cons]
    exact congrArg (· + 1) (ih (offset + 1))

/-- As many matches of one byte as there are bytes to replace each with, where the product of the two is
`2 ^ 64`: the length is predicted as 0. -/
theorem replaceIn_wraps {a b : UInt8} {n : Nat} (h : n * n = 2 ^ 64) (hn : n < 2 ^ 63) (maxPatchableSize : Nat) :
    replaceInU64 (List.replicate n a) [a] (List.replicate n b) true maxPatchableSize = none ∧
      ∃ result, replaceIn (List.replicate n a) [a] (List.replicate n b) true maxPatchableSize = .ok (result, n) ∧
        result.length = 2 ^ 64 := by
  have hfound := @findNonOverlappingMatches_leftmost (List.replicate n a) [a] (List.cons_ne_nil _ _)
  have hcount : (findNonOverlappingMatches (List.replicate n a) [a]).length = n :=
    length_matchesFrom_replicate a 0 n
  have hmany : 2 ≤ n := by
    by_contra hfew
    have hle : n * n ≤ 1 * 1 := Nat.mul_le_mul (by omega) (by omega)
    omega
  obtain ⟨hanswer, hunwrapped⟩ := @replaceIn_splice (List.replicate n a) [a] (List.replicate n b) true
    maxPatchableSize _ rfl (.inr ⟨hcount.symm ▸ hmany, rfl⟩)
  obtain ⟨htext, hresult⟩ := hfound.length_replaced (List.replicate n b)
  rw [spliceReplacementU64_eq hfound (by rwa [List.length_replicate])] at hunwrapped
  rw [spliceReplacement] at hanswer
  simp only [hcount, List.length_replicate, List.length_singleton, Nat.mul_one, h] at htext hresult hanswer hunwrapped
  refine ⟨by rw [hunwrapped, if_neg (Nat.lt_irrefl _), Option.map_none], ?_⟩
  rw [Nat.mod_self, Nat.mod_eq_of_lt (by omega), Nat.sub_self, Nat.add_zero, if_neg (by omega),
    if_neg (Nat.not_lt_zero _), spliceMatches_eq] at hanswer
  exact ⟨_, hanswer, by omega⟩

/-- A note of 4 GiB of one letter, each of which is to become 4 GiB: both are within what is admitted, and the
replace is not refused. -/
theorem replaceIn_accepts_too_long :
    (List.replicate (2 ^ 32) (0x61 : UInt8)).length ≤ maxUploadBytes ∧
      [(0x61 : UInt8)].length + (List.replicate (2 ^ 32) (0x62 : UInt8)).length ≤ 2 * maxUploadBytes ∧
      replaceInU64 (List.replicate (2 ^ 32) 0x61) [0x61] (List.replicate (2 ^ 32) 0x62) true maxUploadBytes = none ∧
      ∃ result, replaceIn (List.replicate (2 ^ 32) 0x61) [0x61] (List.replicate (2 ^ 32) 0x62) true maxUploadBytes =
        .ok (result, 2 ^ 32) ∧ maxUploadBytes < result.length := by
  obtain ⟨hwraps, result, haccepted, hlength⟩ :=
    @replaceIn_wraps 0x61 0x62 (2 ^ 32) (by decide) (by decide) maxUploadBytes
  refine ⟨?_, ?_, hwraps, result, haccepted, ?_⟩
  · rw [List.length_replicate]
    decide
  · rw [List.length_replicate]
    decide
  · rw [hlength]
    decide

end Write
