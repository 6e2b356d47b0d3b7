-- SUMMARY: Byte ranges on 64-bit numbers: the positions a range asks for, and the `Content-Range` it is reported with.
import NotedThat.Core.Conditional
import NotedThat.Lib.Decimal
import NotedThat.Lib.U64

/-!
# Byte ranges

A range asks for positions of an object, and what is served are the ones that exist. They are one interval,
given as its start and exclusive end, and reported with an inclusive end.
-/

namespace ByteRange

/-- The positions a range asks for in an object of `totalSize` bytes. -/
def Requests (totalSize : Nat) : ByteRange → Nat → Prop
  | .fromStart first last, position => first ≤ position ∧ position ≤ last
  | .fromStartOpen first, position => first ≤ position
  | .suffix length, position => totalSize ≤ position + length

/-- A position that is asked for exists. -/
def Satisfiable (range : ByteRange) (totalSize : Nat) : Prop :=
  ∃ position < totalSize, range.Requests totalSize position

/-! ## The interval -/

section

variable {range : ByteRange} {totalSize start stop : Nat}

theorem toExclusiveRange_bounds (h : range.toExclusiveRange totalSize = some (start, stop)) :
    start < stop ∧ stop ≤ totalSize := by
  cases range with
  | fromStart first last =>
    rw [toExclusiveRange, Option.ite_none_left_eq_some] at h
    obtain ⟨hbounds, h⟩ := h
    cases h
    omega
  | fromStartOpen first =>
    rw [toExclusiveRange, Option.ite_none_left_eq_some] at h
    obtain ⟨hbounds, h⟩ := h
    cases h
    omega
  | suffix length =>
    rw [toExclusiveRange, Option.ite_none_left_eq_some] at h
    obtain ⟨hbounds, h⟩ := h
    cases h
    omega

theorem mem_toExclusiveRange (h : range.toExclusiveRange totalSize = some (start, stop)) (position : Nat) :
    start ≤ position ∧ position < stop ↔ position < totalSize ∧ range.Requests totalSize position := by
  cases range with
  | fromStart first last =>
    rw [toExclusiveRange, Option.ite_none_left_eq_some] at h
    obtain ⟨hbounds, h⟩ := h
    cases h
    rw [Requests]
    omega
  | fromStartOpen first =>
    rw [toExclusiveRange, Option.ite_none_left_eq_some] at h
    obtain ⟨hbounds, h⟩ := h
    cases h
    rw [Requests]
    omega
  | suffix length =>
    rw [toExclusiveRange, Option.ite_none_left_eq_some] at h
    obtain ⟨hbounds, h⟩ := h
    cases h
    rw [Requests]
    omega

theorem toExclusiveRange_eq_none (h : range.toExclusiveRange totalSize = none) :
    ¬ range.Satisfiable totalSize := by
  rintro ⟨position, hposition, hrequests⟩
  cases range with
  | fromStart first last =>
    rw [toExclusiveRange, ite_eq_left_iff] at h
    rw [Requests] at hrequests
    exact nomatch h (by omega)
  | fromStartOpen first =>
    rw [toExclusiveRange, ite_eq_left_iff] at h
    rw [Requests] at hrequests
    exact nomatch h (by omega)
  | suffix length =>
    rw [toExclusiveRange, ite_eq_left_iff] at h
    rw [Requests] at hrequests
    exact nomatch h (by omega)

theorem isSome_toExclusiveRange : (range.toExclusiveRange totalSize).isSome ↔ range.Satisfiable totalSize := by
  cases h : range.toExclusiveRange totalSize with
  | none => simpa using toExclusiveRange_eq_none h
  | some span =>
    obtain ⟨start, stop⟩ := span
    obtain ⟨hstart, -⟩ := toExclusiveRange_bounds h
    exact iff_of_true rfl ⟨start, (mem_toExclusiveRange h start).mp ⟨le_rfl, hstart⟩⟩

end

/-! ## The same on 64-bit numbers -/

/-- `toExclusiveRange` on 64-bit numbers: `none` is an overflow. -/
def toExclusiveRangeU64 (range : ByteRange) (totalSize : Nat) : Option (Option (Nat × Nat)) :=
  match range with
  | .fromStart first last =>
    if first > last ∨ first ≥ totalSize then some none
    else do
      let lastIndex ← U64.sub totalSize 1
      let stop ← U64.add (min last lastIndex) 1
      some (some (first, stop))
  | .fromStartOpen first => if first ≥ totalSize then some none else some (some (first, totalSize))
  | .suffix length =>
    if length = 0 ∨ totalSize = 0 then some none else some (some (totalSize - length, totalSize))

/-- `resolveRange` on 64-bit numbers: `none` is an overflow. -/
def resolveRangeU64 (totalSize : Nat) (range : Option ByteRange) :
    Option (Except StorageError (Option ((Nat × Nat) × String))) :=
  match range with
  | none => some (.ok none)
  | some range => do
    match ← range.toExclusiveRangeU64 totalSize with
    | none => some (.error (.rangeNotSatisfiable totalSize))
    | some (start, stop) =>
      let endInclusive ← U64.sub stop 1
      some (.ok (some ((start, stop), "bytes " ++ toString start ++ "-" ++ toString endInclusive ++ "/" ++
        toString totalSize)))

theorem toExclusiveRangeU64_eq (range : ByteRange) {totalSize : Nat} (htotal : totalSize < 2 ^ 64) :
    range.toExclusiveRangeU64 totalSize = some (range.toExclusiveRange totalSize) := by
  cases range with
  | fromStart first last =>
    rw [toExclusiveRangeU64, toExclusiveRange]
    split
    · rfl
    · next hbounds =>
      rw [U64.sub_eq (by omega), Option.bind_eq_bind, Option.bind_some, U64.add_eq (by omega)]
      rfl
  | fromStartOpen first =>
    rw [toExclusiveRangeU64, toExclusiveRange]
    split <;> rfl
  | suffix length =>
    rw [toExclusiveRangeU64, toExclusiveRange]
    split <;> rfl

theorem resolveRangeU64_eq (range : Option ByteRange) {totalSize : Nat} (htotal : totalSize < 2 ^ 64) :
    resolveRangeU64 totalSize range = some (resolveRange totalSize range) := by
  cases range with
  | none => rfl
  | some range =>
    rw [resolveRangeU64, resolveRange, toExclusiveRangeU64_eq range htotal]
    cases h : range.toExclusiveRange totalSize with
    | none => rfl
    | some span =>
      have hstop : 1 ≤ span.2 := by
        have := (toExclusiveRange_bounds h).1
        omega
      rw [Option.bind_eq_bind, Option.bind_some]
      dsimp only
      rw [U64.sub_eq hstop]
      rfl

end ByteRange

/-! ## The report -/

/-- A `Content-Range`: the unit, the first and last of what is served, and how many there are in all. -/
def ContentRange (unit text : Text) (first last complete : Nat) : Prop :=
  ∃ a b c, Numeral a first ∧ Numeral b last ∧ Numeral c complete ∧
    text = unit ++ ' ' :: (a ++ '-' :: (b ++ '/' :: c))

theorem ContentRange.unique {unit text : Text} {first last complete first' last' complete' : Nat}
    (h : ContentRange unit text first last complete) (h' : ContentRange unit text first' last' complete') :
    first = first' ∧ last = last' ∧ complete = complete' := by
  obtain ⟨a, b, c, ha, hb, hc, rfl⟩ := h
  obtain ⟨a', b', c', ha', hb', hc', heq⟩ := h'
  obtain ⟨rfl, hrest⟩ := Text.append_cons_inj ha.hyphen_not_mem ha'.hyphen_not_mem
    (List.cons_inj_right _ |>.mp (List.append_cancel_left heq))
  obtain ⟨rfl, rfl⟩ := Text.append_cons_inj hb.slash_not_mem hb'.slash_not_mem hrest
  exact ⟨ha.unique ha', hb.unique hb', hc.unique hc'⟩

namespace ByteRange

/-- What a range is resolved to, with its report. -/
theorem resolveRange_eq_ok {range : ByteRange} {totalSize start stop : Nat}
    (h : range.toExclusiveRange totalSize = some (start, stop)) :
    ∃ report, resolveRange totalSize (some range) = .ok (some ((start, stop), report)) ∧
      ContentRange "bytes".toList report.toList start (stop - 1) totalSize := by
  refine ⟨_, by rw [resolveRange, h], Nat.toDigits 10 start, Nat.toDigits 10 (stop - 1), Nat.toDigits 10 totalSize,
    .toDigits _, .toDigits _, .toDigits _, ?_⟩
  simp only [String.toList_append, Numeral.toList_toString, List.append_assoc]
  rfl

/-- Nothing overflows; a range is resolved if and only if it is satisfiable, to the positions it asks for
that exist, and what is reported is read as these and as the size of the whole. -/
theorem resolveRange_exact (range : ByteRange) {totalSize : Nat} (htotal : totalSize < 2 ^ 64) :
    range.toExclusiveRangeU64 totalSize = some (range.toExclusiveRange totalSize) ∧
      resolveRangeU64 totalSize (some range) = some (resolveRange totalSize (some range)) ∧
      ((range.toExclusiveRange totalSize).isSome ↔ range.Satisfiable totalSize) ∧
      ∀ start stop, range.toExclusiveRange totalSize = some (start, stop) →
        start < stop ∧ stop ≤ totalSize ∧
        (∀ position, start ≤ position ∧ position < stop ↔
          position < totalSize ∧ range.Requests totalSize position) ∧
        ∃ report, resolveRange totalSize (some range) = .ok (some ((start, stop), report)) ∧
          ∀ first last complete, ContentRange "bytes".toList report.toList first last complete ↔
            first = start ∧ last + 1 = stop ∧ complete = totalSize := by
  refine ⟨toExclusiveRangeU64_eq range htotal, resolveRangeU64_eq (some range) htotal, isSome_toExclusiveRange,
    fun start stop h => ?_⟩
  obtain ⟨hnonempty, hinside⟩ := toExclusiveRange_bounds h
  obtain ⟨report, hresolved, hreport⟩ := resolveRange_eq_ok h
  refine ⟨hnonempty, hinside, mem_toExclusiveRange h, report, hresolved, fun first last complete => ?_⟩
  constructor
  · intro hread
    obtain ⟨rfl, rfl, rfl⟩ := hread.unique hreport
    exact ⟨rfl, Nat.sub_add_cancel (by omega), rfl⟩
  · rintro ⟨rfl, rfl, rfl⟩
    exact hreport

theorem resolveRange_exact_suffix :
    ∃ report, resolveRange 10 (some (.suffix (2 ^ 64 - 1))) = .ok (some ((0, 10), report)) ∧
      ∀ first last complete, ContentRange "bytes".toList report.toList first last complete ↔
        first = 0 ∧ last + 1 = 10 ∧ complete = 10 :=
  ((resolveRange_exact (.suffix (2 ^ 64 - 1)) (by decide : 10 < 2 ^ 64)).2.2.2 0 10 (by decide)).2.2.2

end ByteRange
