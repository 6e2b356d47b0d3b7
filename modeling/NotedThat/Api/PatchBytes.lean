-- SUMMARY: What a PATCH makes of an object: the bytes it splices, the length it predicts, and that its arithmetic stays in 64 bits.
import NotedThat.Api.LineSpans

/-!
# The bytes of a PATCH

The plan of a splice predicts the length of the result before it is built. Here the plan is computed a
second time on 64-bit numbers, where `none` is an overflow, and is shown to be the same. A buffer is shorter
than `2 ^ 63` bytes.
-/

namespace LineIndex

/-- `lineStartsFrom` on 64-bit numbers: `none` is an overflow. -/
def lineStartsFromU64 : Nat → Bytes → Option (List Nat)
  | _, [] => some []
  | i, 0x0D :: 0x0A :: rest => do
    let next ← U64.add i 2
    if rest = [] then some [] else (lineStartsFromU64 next rest).map fun starts => next :: starts
  | i, 0x0A :: rest => do
    let next ← U64.add i 1
    if rest = [] then some [] else (lineStartsFromU64 next rest).map fun starts => next :: starts
  | i, _ :: rest => do
    let next ← U64.add i 1
    lineStartsFromU64 next rest

def fromBytesU64 (bytes : Bytes) : Option LineIndex := do
  let lineStarts ← if bytes = [] then some [] else (lineStartsFromU64 0 bytes).map fun starts => 0 :: starts
  some ⟨lineStarts, lineStarts.length, bytes.length⟩

/-- `byteRange` on 64-bit numbers: `none` is an overflow. -/
def byteRangeU64 (index : LineIndex) : LineRange → Option (Option (Nat × Nat))
  | .fromStart first last =>
    if first = 0 ∨ first > index.totalLines ∨ first > min (last + 1) (2 ^ 64 - 1) then some none
    else do
      let firstLine ← U64.sub first 1
      let clampedLast := min last index.totalLines
      some (do
        let start ← index.lineStarts[firstLine]?
        let stop ← if clampedLast = index.totalLines then some index.totalBytes
          else index.lineStarts[clampedLast]?
        some (start, stop))
  | .fromStartOpen first =>
    if first = 0 ∨ first > index.totalLines then some none
    else do
      let firstLine ← U64.sub first 1
      some (do
        let start ← index.lineStarts[firstLine]?
        some (start, index.totalBytes))
  | .suffix length =>
    if length = 0 ∨ index.totalLines = 0 then some none
    else do
      let startLine ← U64.sub index.totalLines (min length index.totalLines)
      some (do
        let start ← index.lineStarts[startLine]?
        some (start, index.totalBytes))
  | .insert before =>
    if before = 0 then some none
    else do
      let behind ← U64.add index.totalLines 1
      if before > behind then some none
      else if before = behind then some (some (index.totalBytes, index.totalBytes))
      else
        let line ← U64.sub before 1
        some (do
          let offset ← index.lineStarts[line]?
          some (offset, offset))

theorem lineStartsFromU64_eq {i : Nat} {bytes : Bytes} (h : i + bytes.length < 2 ^ 64) :
    lineStartsFromU64 i bytes = some (lineStartsFrom i bytes) := by
  fun_induction lineStartsFrom i bytes with
  | case1 i => rfl
  | case2 i =>
    simp only [List.length_cons, List.length_nil] at h
    rw [lineStartsFromU64, U64.add_eq (by omega)]
    rfl
  | case3 i rest hne ih =>
    simp only [List.length_cons] at h
    rw [lineStartsFromU64, U64.add_eq (by omega), Option.bind_eq_bind, Option.bind_some, if_neg hne,
      ih (by omega)]
    rfl
  | case4 i =>
    simp only [List.length_cons, List.length_nil] at h
    rw [lineStartsFromU64, U64.add_eq (by omega)]
    rfl
  | case5 i rest hne ih =>
    simp only [List.length_cons] at h
    rw [lineStartsFromU64, U64.add_eq (by omega), Option.bind_eq_bind, Option.bind_some, if_neg hne,
      ih (by omega)]
    rfl
  | case6 i b rest hreturn hother ih =>
    simp only [List.length_cons] at h
    rw [lineStartsFromU64, U64.add_eq (by omega), Option.bind_eq_bind, Option.bind_some, ih (by omega)]
    · exact hreturn
    · exact hother

theorem fromBytesU64_eq {bytes : Bytes} (h : bytes.length < 2 ^ 63) :
    fromBytesU64 bytes = some (fromBytes bytes) := by
  unfold fromBytesU64 fromBytes
  split
  · rfl
  · rw [lineStartsFromU64_eq (by omega)]
    rfl

/-- An object has no more lines than bytes. -/
theorem totalLines_le (bytes : Bytes) : (fromBytes bytes).totalLines ≤ bytes.length := by
  rw [fromBytes_totalLines]
  exact Lines.length_split_le bytes

theorem byteRangeU64_eq {index : LineIndex} (h : index.totalLines < 2 ^ 63) (range : LineRange) :
    index.byteRangeU64 range = some (index.byteRange range) := by
  cases range with
  | fromStart first last =>
    rw [byteRangeU64, byteRange]
    have hsaturated : (first = 0 ∨ first > index.totalLines ∨ first > min (last + 1) (2 ^ 64 - 1)) ↔
        (first = 0 ∨ first > index.totalLines ∨ first > last + 1) := by omega
    simp only [hsaturated]
    split
    · rfl
    · rw [U64.sub_eq (by omega)]
      rfl
  | fromStartOpen first =>
    rw [byteRangeU64, byteRange]
    split
    · rfl
    · rw [U64.sub_eq (by omega)]
      rfl
  | suffix length =>
    rw [byteRangeU64, byteRange]
    split
    · rfl
    · rw [U64.sub_eq (by omega)]
      rfl
  | insert before =>
    rw [byteRangeU64, byteRange]
    split
    · next hzero => rw [if_pos (.inl hzero)]
    · next hpos =>
      rw [U64.add_eq (by omega), Option.bind_eq_bind, Option.bind_some]
      split
      · next hbehind => rw [if_pos (.inr hbehind)]
      · next hinside =>
        rw [if_neg (not_or.mpr ⟨hpos, hinside⟩)]
        split
        · rfl
        · rw [U64.sub_eq (by omega)]
          rfl

end LineIndex

namespace Write

/-! ## The splice -/

namespace PatchMode

def body : PatchMode → Bytes
  | .bytes _ body => body
  | .lines _ body => body
  | .append body => body

/-- What is to be replaced is there. -/
def Satisfiable (src : Bytes) : PatchMode → Prop
  | .bytes range _ => range.Satisfiable src.length
  | .lines range _ => range.Satisfiable (LineIndex.fromBytes src).totalLines
  | .append _ => True

/-- The bytes that are replaced; an append replaces the end, where there are none. -/
def span (src : Bytes) : PatchMode → Option (Nat × Nat)
  | .bytes range _ => range.toExclusiveRange src.length
  | .lines range _ => (LineIndex.fromBytes src).byteRange range
  | .append _ => some (src.length, src.length)

variable {src : Bytes} {patchMode : PatchMode} {start stop : Nat}

theorem isSome_span : (patchMode.span src).isSome ↔ patchMode.Satisfiable src := by
  cases patchMode with
  | bytes range body => exact ByteRange.isSome_toExclusiveRange
  | lines range body => rw [span, LineIndex.isSome_byteRange, Satisfiable, LineIndex.fromBytes_totalLines]
  | append body => exact iff_of_true rfl trivial

theorem span_bounds (h : patchMode.span src = some (start, stop)) : start ≤ stop ∧ stop ≤ src.length := by
  cases patchMode with
  | bytes range body =>
    have hbounds := ByteRange.toExclusiveRange_bounds h
    exact ⟨hbounds.1.le, hbounds.2⟩
  | lines range body => exact LineIndex.byteRange_le h
  | append body =>
    cases h
    exact ⟨le_rfl, le_rfl⟩

end PatchMode

variable {src : Bytes} {patchMode : PatchMode} {start stop : Nat}

theorem length_spliceBytes (hstart : start ≤ stop) (hstop : stop ≤ src.length) (body : Bytes) :
    (spliceBytes src start stop body).length = src.length - (stop - start) + body.length := by
  simp only [spliceBytes, List.length_append, List.length_take, List.length_drop]
  omega

theorem splicePlan_span (h : patchMode.span src = some (start, stop)) :
    ∃ plan, splicePlan patchMode src = .ok (plan, src.length - (stop - start) + patchMode.body.length) := by
  cases patchMode with
  | bytes range body =>
    rw [PatchMode.span] at h
    simp only [splicePlan, h]
    exact ⟨_, rfl⟩
  | lines range body =>
    rw [PatchMode.span] at h
    simp only [splicePlan, h]
    exact ⟨_, rfl⟩
  | append body =>
    cases h
    rw [Nat.sub_self, Nat.sub_zero]
    exact ⟨_, rfl⟩

theorem applyPatch_span (h : patchMode.span src = some (start, stop)) (max : Nat) :
    applyPatch patchMode src max =
      if src.length - (stop - start) + patchMode.body.length > max then
        .error (.patchTooLarge (src.length - (stop - start) + patchMode.body.length) max)
      else .ok (spliceBytes src start stop patchMode.body) := by
  cases patchMode with
  | bytes range body =>
    rw [PatchMode.span] at h
    simp only [applyPatch, splicePlan, h, bind, Except.bind, PatchMode.body]
    rfl
  | lines range body =>
    rw [PatchMode.span] at h
    simp only [applyPatch, splicePlan, h, bind, Except.bind, PatchMode.body]
    rfl
  | append body =>
    cases h
    have hend : spliceBytes src src.length src.length body = src ++ body := by
      rw [spliceBytes, List.take_length, List.drop_length, List.append_nil]
    simp only [applyPatch, splicePlan, bind, Except.bind, PatchMode.body, hend, Nat.sub_self, Nat.sub_zero]

/-- An unsatisfiable range is refused before anything is built. -/
theorem applyPatch_none (h : patchMode.span src = none) (max : Nat) :
    ∃ e, splicePlan patchMode src = .error e ∧ applyPatch patchMode src max = .error e ∧
      e ≠ .patchInvalidRange "internal patch mode/range contradiction" := by
  cases patchMode with
  | bytes range body =>
    rw [PatchMode.span] at h
    simp only [applyPatch, splicePlan, h, bind, Except.bind]
    refine ⟨_, rfl, rfl, fun heq => ?_⟩
    have htexts := congrArg String.toList (WriteError.patchInvalidRange.inj heq)
    rw [String.toList_append] at htexts
    cases htexts
  | lines range body =>
    rw [PatchMode.span] at h
    simp only [applyPatch, splicePlan, h, bind, Except.bind]
    exact ⟨_, rfl, rfl, fun heq => by cases heq⟩
  | append body => cases h

/-! ## The splice on 64-bit numbers -/

/-- `checked_sub` and `checked_add`: an overflow is an error that is reported. -/
def splicedLenU64 (readLen replaced bodyLen : Nat) (mode : String) : Except WriteError Nat :=
  match (U64.sub readLen replaced).bind fun n => U64.add n bodyLen with
  | some newLen => .ok newLen
  | none => .error (.patchInvalidRange (mode ++ " splice length overflows u64"))

/-- `splicePlan` on 64-bit numbers: `none` is an overflow that is not checked. -/
def splicePlanU64 (patchMode : PatchMode) (bytes : Bytes) :
    Option (Except WriteError (Option (Nat × Nat) × Nat)) :=
  match patchMode with
  | .bytes range body => do
    match ← range.toExclusiveRangeU64 bytes.length with
    | none => some (.error (.patchInvalidRange
        ("byte range unsatisfiable at size " ++ toString bytes.length)))
    | some (start, stop) =>
      let replaced ← U64.sub stop start
      some ((splicedLenU64 bytes.length replaced body.length "byte-range").map fun newLen =>
        (some (start, stop), newLen))
  | .lines range body => do
    let index ← LineIndex.fromBytesU64 bytes
    match ← index.byteRangeU64 range with
    | none =>
      let (first, last) := lineRangeBounds range
      some (.error (.patchLineOutOfRange first last index.totalLines index.totalBytes))
    | some (start, stop) =>
      let replaced ← U64.sub stop start
      some ((splicedLenU64 bytes.length replaced body.length "line-range").map fun newLen =>
        (some (start, stop), newLen))
  | .append body =>
    match U64.add bytes.length body.length with
    | some newLen => some (.ok (none, newLen))
    | none => some (.error (.patchInvalidRange "append length overflows u64"))

/-- `spliceBytes`, with the capacity that is reserved for the result. -/
def spliceBytesU64 (src : Bytes) (start stop : Nat) (body : Bytes) : Option Bytes := do
  let front ← U64.add start body.length
  let rest ← U64.sub src.length stop
  let _capacity ← U64.add front rest
  some (spliceBytes src start stop body)

/-- `applyPatch` on 64-bit numbers: `none` is an overflow that is not checked. -/
def applyPatchU64 (patchMode : PatchMode) (src : Bytes) (max : Nat) : Option (Except WriteError Bytes) := do
  match ← splicePlanU64 patchMode src with
  | .error e => some (.error e)
  | .ok (byteRange, newLen) =>
    if newLen > max then some (.error (.patchTooLarge newLen max))
    else
      match patchMode, byteRange with
      | .bytes _ body, some (start, stop) => (spliceBytesU64 src start stop body).map .ok
      | .lines _ body, some (start, stop) => (spliceBytesU64 src start stop body).map .ok
      | .append body, none => some (.ok (src ++ body))
      | _, _ => some (.error (.patchInvalidRange "internal patch mode/range contradiction"))

theorem splicedLenU64_eq {readLen replaced bodyLen : Nat} (hreplaced : replaced ≤ readLen)
    (hread : readLen < 2 ^ 63) (hbody : bodyLen < 2 ^ 63) (mode : String) :
    splicedLenU64 readLen replaced bodyLen mode = .ok (readLen - replaced + bodyLen) := by
  rw [splicedLenU64, U64.sub_eq hreplaced, Option.bind_some, U64.add_eq (by omega)]

theorem splicePlanU64_eq (hsrc : src.length < 2 ^ 63) (hbody : patchMode.body.length < 2 ^ 63) :
    splicePlanU64 patchMode src = some (splicePlan patchMode src) := by
  cases patchMode with
  | bytes range body =>
    rw [PatchMode.body] at hbody
    rw [splicePlanU64, ByteRange.toExclusiveRangeU64_eq range (by omega), Option.bind_eq_bind, Option.bind_some,
      splicePlan]
    cases h : range.toExclusiveRange src.length with
    | none => rfl
    | some span =>
      have hbounds := ByteRange.toExclusiveRange_bounds h
      dsimp only
      rw [U64.sub_eq hbounds.1.le, Option.bind_eq_bind, Option.bind_some, splicedLenU64_eq (by omega) hsrc hbody]
      rfl
  | lines range body =>
    have hlines := LineIndex.totalLines_le src
    rw [PatchMode.body] at hbody
    rw [splicePlanU64, LineIndex.fromBytesU64_eq hsrc, Option.bind_eq_bind, Option.bind_some,
      LineIndex.byteRangeU64_eq (by omega), Option.bind_eq_bind, Option.bind_some, splicePlan]
    cases h : (LineIndex.fromBytes src).byteRange range with
    | none => rfl
    | some span =>
      have hbounds := LineIndex.byteRange_le h
      dsimp only
      rw [U64.sub_eq hbounds.1, Option.bind_eq_bind, Option.bind_some, splicedLenU64_eq (by omega) hsrc hbody]
      rfl
  | append body =>
    rw [PatchMode.body] at hbody
    rw [splicePlanU64, U64.add_eq (by omega)]
    rfl

theorem spliceBytesU64_eq (hstart : start ≤ stop) (hstop : stop ≤ src.length) (hsrc : src.length < 2 ^ 63)
    {body : Bytes} (hbody : body.length < 2 ^ 63) :
    spliceBytesU64 src start stop body = some (spliceBytes src start stop body) := by
  rw [spliceBytesU64, U64.add_eq (by omega), Option.bind_eq_bind, Option.bind_some, U64.sub_eq hstop,
    Option.bind_some, U64.add_eq (by omega)]
  rfl

/-- Nothing overflows: every plan that is made stays within the object. -/
theorem applyPatchU64_eq (hsrc : src.length < 2 ^ 63) (hbody : patchMode.body.length < 2 ^ 63) (max : Nat) :
    applyPatchU64 patchMode src max = some (applyPatch patchMode src max) := by
  rw [applyPatchU64, splicePlanU64_eq hsrc hbody, Option.bind_eq_bind, Option.bind_some]
  cases hspan : patchMode.span src with
  | none =>
    obtain ⟨e, hplan, hpatch, -⟩ := applyPatch_none hspan max
    rw [hplan, hpatch]
  | some span =>
    obtain ⟨start, stop⟩ := span
    obtain ⟨hstart, hstop⟩ := PatchMode.span_bounds hspan
    have hsplice := spliceBytesU64_eq hstart hstop hsrc hbody
    cases patchMode with
    | bytes range body =>
      rw [PatchMode.span] at hspan
      rw [PatchMode.body] at hsplice
      simp only [splicePlan, applyPatch, hspan, bind, Except.bind, hsplice, Option.map_some]
      split <;> rfl
    | lines range body =>
      rw [PatchMode.span] at hspan
      rw [PatchMode.body] at hsplice
      simp only [splicePlan, applyPatch, hspan, bind, Except.bind, hsplice, Option.map_some]
      split <;> rfl
    | append body =>
      simp only [splicePlan, applyPatch, bind, Except.bind]
      split <;> rfl

/-- A PATCH splices its body over what its range resolves to, and the length is the one it predicted; it is
refused if and only if the range is unsatisfiable or that length is over the limit. Nothing overflows, and
the plan and the mode never contradict each other. -/
theorem applyPatch_exact (max : Nat) (hsrc : src.length < 2 ^ 63) (hbody : patchMode.body.length < 2 ^ 63) :
    applyPatchU64 patchMode src max = some (applyPatch patchMode src max) ∧
      (∀ result, applyPatch patchMode src max = .ok result →
        ∃ start stop plan newLen, patchMode.span src = some (start, stop) ∧ start ≤ stop ∧ stop ≤ src.length ∧
          result = src.take start ++ patchMode.body ++ src.drop stop ∧
          (∀ body, patchMode = .append body → result = src ++ body) ∧
          splicePlan patchMode src = .ok (plan, newLen) ∧ result.length = newLen ∧ newLen ≤ max) ∧
      ((∃ e, applyPatch patchMode src max = .error e) ↔
        ¬ patchMode.Satisfiable src ∨ ∃ plan newLen, splicePlan patchMode src = .ok (plan, newLen) ∧ max < newLen) ∧
      applyPatch patchMode src max ≠ .error (.patchInvalidRange "internal patch mode/range contradiction") := by
  refine ⟨applyPatchU64_eq hsrc hbody max, ?_⟩
  rw [← PatchMode.isSome_span]
  cases hspan : patchMode.span src with
  | none =>
    obtain ⟨e, hplan, hpatch, hne⟩ := applyPatch_none hspan max
    rw [hpatch]
    refine ⟨nofun, iff_of_true ⟨e, rfl⟩ (.inl nofun), fun heq => hne (Except.error.inj heq)⟩
  | some span =>
    obtain ⟨start, stop⟩ := span
    obtain ⟨hstart, hstop⟩ := PatchMode.span_bounds hspan
    obtain ⟨plan, hplan⟩ := splicePlan_span hspan
    rw [applyPatch_span hspan max, hplan]
    split
    · next hlarge => exact ⟨nofun, iff_of_true ⟨_, rfl⟩ (.inr ⟨_, _, rfl, hlarge⟩), nofun⟩
    · next hfits =>
      refine ⟨fun result hresult => ?_, iff_of_false nofun ?_, nofun⟩
      · cases hresult
        refine ⟨start, stop, plan, _, rfl, hstart, hstop, rfl, ?_, rfl,
          length_spliceBytes hstart hstop _, Nat.le_of_not_lt hfits⟩
        rintro body rfl
        cases hspan
        rw [PatchMode.body, spliceBytes, List.take_length, List.drop_length, List.append_nil]
      · rintro (hnone | ⟨plan', newLen, heq, hlarge⟩)
        · exact hnone rfl
        · cases heq
          exact hfits hlarge

theorem applyPatch_exact_insert :
    applyPatchU64 (.lines (.insert 2) [0x62, 0x0A]) [0x61, 0x0A, 0x63] 5 = some (.ok [0x61, 0x0A, 0x62, 0x0A, 0x63]) :=
  (applyPatch_exact 5 (by decide) (by decide)).1

end Write
