-- SUMMARY: The grammar of range headers: the parsers accept exactly it, never underflow, and read back what the printers write.
import NotedThat.Api.Ranges
import NotedThat.Lib.Decimal
import NotedThat.Lib.U64

/-!
# The grammar of ranges

A range header is a unit, an equals sign and one range, with white space around the range. A range is two
decimal numbers of 64 bits, or one of them, around a hyphen. The parsers of the two units are related to it
first, and then to the printed forms.
-/

/-! ## Numbers -/

namespace Range

theorem parseU64_eq_ok {s spec : Text} {n : Nat} : parseU64 s spec = .ok n ↔ Decimal s n := by
  constructor
  · intro h
    unfold parseU64 at h
    split at h
    · cases h
    · next hshape =>
      rw [not_or, Bool.not_eq_true', Bool.not_eq_false, List.all_eq_true] at hshape
      split at h
      · next m hm =>
        cases h
        have hnumeral : Numeral s _ := ⟨hshape.1, hshape.2, rfl⟩
        rw [hnumeral.parseU64_eq, Option.filter_eq_some_iff] at hm
        obtain rfl := Option.some.inj hm.1
        exact ⟨hnumeral, of_decide_eq_true hm.2⟩
      · cases h
  · intro h
    have hall : s.all Char.isDigit = true := List.all_eq_true.mpr h.digits
    simp [parseU64, h.nonempty, hall, h.parseU64]

end Range

/-! ## One range -/

inductive ByteSpec : Text → ByteRange → Prop where
  | fromStart {a b : Text} {first last : Nat} : Decimal a first → Decimal b last → first ≤ last →
      ByteSpec (a ++ '-' :: b) (.fromStart first last)
  | fromStartOpen {a : Text} {first : Nat} : Decimal a first → ByteSpec (a ++ ['-']) (.fromStartOpen first)
  | suffix {b : Text} {length : Nat} : Decimal b length → ByteSpec ('-' :: b) (.suffix length)

/-- Lines count from 1, and a last line one below the first is the point before it. -/
inductive LineSpec : Text → LineRange → Prop where
  | fromStart {a b : Text} {first last : Nat} : Decimal a first → Decimal b last → 1 ≤ first → first ≤ last →
      LineSpec (a ++ '-' :: b) (.fromStart first last)
  | insert {a b : Text} {before : Nat} : Decimal a before → Decimal b (before - 1) → 1 ≤ before →
      LineSpec (a ++ '-' :: b) (.insert before)
  | fromStartOpen {a : Text} {first : Nat} : Decimal a first → 1 ≤ first →
      LineSpec (a ++ ['-']) (.fromStartOpen first)
  | suffix {b : Text} {length : Nat} : Decimal b length → LineSpec ('-' :: b) (.suffix length)

namespace Range

theorem parseByteRangeSpec_eq_ok {spec : Text} {range : ByteRange} :
    parseByteRangeSpec spec = .ok range ↔ ByteSpec spec range := by
  constructor
  · intro h
    unfold parseByteRangeSpec at h
    split at h
    · cases h
    · next start stop hsplit =>
      obtain ⟨rfl, -⟩ := Text.splitOnce_eq_some.mp hsplit
      split at h
      · cases h
      · split at h
        · next hstart =>
          subst hstart
          obtain ⟨length, hlength, hrange⟩ := Except.bind_eq_ok.mp h
          cases hrange
          exact .suffix (parseU64_eq_ok.mp hlength)
        · obtain ⟨first, hfirst, hrest⟩ := Except.bind_eq_ok.mp h
          split at hrest
          · next hstop =>
            subst hstop
            cases hrest
            exact .fromStartOpen (parseU64_eq_ok.mp hfirst)
          · obtain ⟨last, hlast, hrange⟩ := Except.bind_eq_ok.mp hrest
            split at hrange
            · cases hrange
            · next horder =>
              cases hrange
              exact .fromStart (parseU64_eq_ok.mp hfirst) (parseU64_eq_ok.mp hlast) (by omega)
  · intro h
    cases h with
    | fromStart ha hb hle =>
      simp only [parseByteRangeSpec, Text.splitOnce_append ha.hyphen_not_mem, hb.hyphen_not_mem,
        ha.nonempty, hb.nonempty, and_self, or_self, if_false, parseU64_eq_ok.mpr ha, parseU64_eq_ok.mpr hb,
        bind, Except.bind, Nat.not_lt.mpr hle]
    | fromStartOpen ha =>
      simp only [parseByteRangeSpec, Text.splitOnce_append ha.hyphen_not_mem, ha.nonempty, false_and,
        List.not_mem_nil, or_self, if_false, parseU64_eq_ok.mpr ha, bind, Except.bind, if_true]
    | @suffix b _ hb =>
      have hsplit : Text.splitOnce '-' ('-' :: b) = some ([], b) :=
        @Text.splitOnce_append '-' [] List.not_mem_nil b
      simp only [parseByteRangeSpec, hsplit, hb.hyphen_not_mem, hb.nonempty, and_false,
        or_self, if_false, parseU64_eq_ok.mpr hb, bind, Except.bind, if_true]

theorem parseLineRangeSpec_eq_ok {spec : Text} {range : LineRange} :
    parseLineRangeSpec spec = .ok range ↔ LineSpec spec range := by
  constructor
  · intro h
    unfold parseLineRangeSpec at h
    split at h
    · cases h
    · split at h
      · cases h
      · next start stop hsplit =>
        obtain ⟨rfl, -⟩ := Text.splitOnce_eq_some.mp hsplit
        split at h
        · cases h
        · split at h
          · next hstart =>
            subst hstart
            obtain ⟨length, hlength, hrange⟩ := Except.bind_eq_ok.mp h
            cases hrange
            exact .suffix (parseU64_eq_ok.mp hlength)
          · obtain ⟨first, hfirst, hrest⟩ := Except.bind_eq_ok.mp h
            split at hrest
            · cases hrest
            · next hpos =>
              split at hrest
              · next hstop =>
                subst hstop
                cases hrest
                exact .fromStartOpen (parseU64_eq_ok.mp hfirst) (by omega)
              · obtain ⟨last, hlast, hrange⟩ := Except.bind_eq_ok.mp hrest
                split at hrange
                · cases hrange
                · next horder =>
                  split at hrange
                  · next hinsert =>
                    subst hinsert
                    cases hrange
                    exact .insert (parseU64_eq_ok.mp hfirst) (parseU64_eq_ok.mp hlast) (by omega)
                  · next hlines =>
                    cases hrange
                    exact .fromStart (parseU64_eq_ok.mp hfirst) (parseU64_eq_ok.mp hlast) (by omega)
                      (by omega)
  · intro h
    cases h with
    | @fromStart a b first last ha hb hpos hle =>
      have hcomma : ',' ∉ a ++ '-' :: b := by simp [ha.comma_not_mem, hb.comma_not_mem]
      simp only [parseLineRangeSpec, hcomma, Text.splitOnce_append ha.hyphen_not_mem, ha.nonempty, hb.nonempty,
        and_self, if_false, parseU64_eq_ok.mpr ha, parseU64_eq_ok.mpr hb, bind, Except.bind,
        show first ≠ 0 by omega, show ¬ last < first - 1 by omega, show last ≠ first - 1 by omega]
    | @insert a b before ha hb hpos =>
      have hcomma : ',' ∉ a ++ '-' :: b := by simp [ha.comma_not_mem, hb.comma_not_mem]
      simp only [parseLineRangeSpec, hcomma, Text.splitOnce_append ha.hyphen_not_mem, ha.nonempty, hb.nonempty,
        and_self, if_false, parseU64_eq_ok.mpr ha, parseU64_eq_ok.mpr hb, bind, Except.bind,
        show before ≠ 0 by omega, Nat.lt_irrefl, if_true]
    | @fromStartOpen a first ha hpos =>
      have hcomma : ',' ∉ a ++ ['-'] := by simp [ha.comma_not_mem]
      simp only [parseLineRangeSpec, hcomma, Text.splitOnce_append ha.hyphen_not_mem, ha.nonempty, false_and,
        if_false, parseU64_eq_ok.mpr ha, bind, Except.bind, show first ≠ 0 by omega, if_true]
    | @suffix b _ hb =>
      have hcomma : ',' ∉ '-' :: b := by simp [hb.comma_not_mem]
      have hsplit : Text.splitOnce '-' ('-' :: b) = some ([], b) :=
        @Text.splitOnce_append '-' [] List.not_mem_nil b
      simp only [parseLineRangeSpec, hcomma, hsplit, hb.nonempty, and_false, if_false, parseU64_eq_ok.mpr hb,
        bind, Except.bind, if_true]

end Range

/-! ## Headers -/

/-- A unit and, behind the first equals sign, what is asked for of it. -/
structure IsRangeHeader (value unit rangeSet : Text) : Prop where
  value : value = unit ++ '=' :: rangeSet
  unit : '=' ∉ unit
  nonempty : rangeSet ≠ []

/-- One byte range, or a range of another unit, which is not read. -/
def ByteHeader (value : Text) (parsed : ParsedRange) : Prop :=
  ∃ unit rangeSet, IsRangeHeader value unit rangeSet ∧ parsed.unit = Text.toAsciiLowercase unit ∧
    if parsed.unit = "bytes".toList then
      ∃ range, parsed.range = some range ∧ ByteSpec (Text.trim rangeSet) range
    else parsed.range = none

def LineHeader (value : Text) (range : LineRange) : Prop :=
  ∃ unit rangeSet, IsRangeHeader value unit rangeSet ∧ LineSpec (Text.trim rangeSet) range

theorem ByteSpec.comma_not_mem {spec : Text} {range : ByteRange} (h : ByteSpec spec range) : ',' ∉ spec := by
  cases h with
  | fromStart ha hb _ => simp [ha.comma_not_mem, hb.comma_not_mem]
  | fromStartOpen ha => simp [ha.comma_not_mem]
  | suffix hb => simp [hb.comma_not_mem]

namespace Range

theorem splitUnit_eq_ok {value unit rangeSet : Text} :
    splitUnit value = .ok (unit, rangeSet) ↔ IsRangeHeader value unit rangeSet := by
  constructor
  · intro h
    unfold splitUnit at h
    split at h
    · cases h
    · split at h
      · cases h
      · next u r hsplit =>
        split at h
        · cases h
        · next hne =>
          cases h
          obtain ⟨hvalue, hunit⟩ := Text.splitOnce_eq_some.mp hsplit
          exact ⟨hvalue, hunit, hne⟩
  · rintro ⟨rfl, hunit, hne⟩
    simp [splitUnit, Text.splitOnce_append hunit, hne]

theorem parseRangeHeader_eq_ok {value : Text} {parsed : ParsedRange} :
    parseRangeHeader value = .ok parsed ↔ ByteHeader value parsed := by
  constructor
  · intro h
    obtain ⟨⟨unit, rangeSet⟩, hsplit, h⟩ := Except.bind_eq_ok.mp h
    refine ⟨unit, rangeSet, splitUnit_eq_ok.mp hsplit, ?_⟩
    dsimp only at h
    split at h
    · next hunit =>
      cases h
      exact ⟨rfl, by rw [if_neg hunit]⟩
    · next hunit =>
      split at h
      · cases h
      · obtain ⟨range, hrange, h⟩ := Except.bind_eq_ok.mp h
        cases h
        refine ⟨rfl, ?_⟩
        rw [if_pos (not_not.mp hunit)]
        exact ⟨range, rfl, parseByteRangeSpec_eq_ok.mp hrange⟩
  · rintro ⟨unit, rangeSet, hheader, hunit, hrange⟩
    obtain ⟨parsedUnit, parsedRange⟩ := parsed
    dsimp only at hunit hrange
    subst hunit
    simp only [parseRangeHeader, splitUnit_eq_ok.mpr hheader, bind, Except.bind]
    split at hrange
    · next hbytes =>
      obtain ⟨range, rfl, hspec⟩ := hrange
      have hcomma : ',' ∉ rangeSet := fun hmem => hspec.comma_not_mem (Text.mem_trim hmem (by decide))
      simp only [hbytes, ne_eq, not_true_eq_false, if_false, hcomma, parseByteRangeSpec_eq_ok.mpr hspec]
    · next hother =>
      subst hrange
      rw [if_pos hother]

theorem parseLineRangeHeader_eq_ok {value : Text} {range : LineRange} :
    parseLineRangeHeader value = .ok range ↔ LineHeader value range := by
  constructor
  · intro h
    obtain ⟨⟨unit, rangeSet⟩, hsplit, h⟩ := Except.bind_eq_ok.mp h
    exact ⟨unit, rangeSet, splitUnit_eq_ok.mp hsplit, parseLineRangeSpec_eq_ok.mp h⟩
  · rintro ⟨unit, rangeSet, hheader, hspec⟩
    simp only [parseLineRangeHeader, splitUnit_eq_ok.mpr hheader, bind, Except.bind]
    exact parseLineRangeSpec_eq_ok.mpr hspec

end Range

/-! ## Printed ranges -/

/-- The range as a header that holds it alone. -/
def ByteRange.toHttpString : ByteRange → Text
  | .fromStart first last => "bytes=".toList ++ (Nat.toDigits 10 first ++ '-' :: Nat.toDigits 10 last)
  | .fromStartOpen first => "bytes=".toList ++ (Nat.toDigits 10 first ++ ['-'])
  | .suffix length => "bytes=".toList ++ '-' :: Nat.toDigits 10 length

/-- The range as a header that holds it alone; before line 0 there is no point to insert at. -/
def LineRange.toHttpString : LineRange → Option Text
  | .fromStart first last =>
    some ("lines=".toList ++ (Nat.toDigits 10 first ++ '-' :: Nat.toDigits 10 last))
  | .fromStartOpen first => some ("lines=".toList ++ (Nat.toDigits 10 first ++ ['-']))
  | .suffix length => some ("lines=".toList ++ '-' :: Nat.toDigits 10 length)
  | .insert before => do
    let last ← U64.sub before 1
    some ("lines=".toList ++ (Nat.toDigits 10 before ++ '-' :: Nat.toDigits 10 last))

namespace ByteSpec

variable {spec : Text} {range : ByteRange}

theorem ne_nil (h : ByteSpec spec range) : spec ≠ [] := by
  cases h <;> simp

theorem trim_eq (h : ByteSpec spec range) : Text.trim spec = spec := by
  have hhyphen : Text.isWhitespace '-' = false := by decide
  refine Text.trim_eq_of_forall ?_
  cases h with
  | fromStart ha hb _ =>
    simpa [or_imp, forall_and, hhyphen] using ⟨ha.not_isWhitespace, hb.not_isWhitespace⟩
  | fromStartOpen ha => simpa [or_imp, forall_and, hhyphen] using ha.not_isWhitespace
  | suffix hb => simpa [hhyphen] using hb.not_isWhitespace

/-- The numbers of a range may be written another way than they are printed. -/
theorem printed (h : ByteSpec spec range) :
    ∃ digits, ByteSpec digits range ∧ range.toHttpString = "bytes".toList ++ '=' :: digits := by
  cases h with
  | fromStart ha hb hle => exact ⟨_, .fromStart (.toDigits ha.bound) (.toDigits hb.bound) hle, rfl⟩
  | fromStartOpen ha => exact ⟨_, .fromStartOpen (.toDigits ha.bound), rfl⟩
  | suffix hb => exact ⟨_, .suffix (.toDigits hb.bound), rfl⟩

end ByteSpec

namespace LineSpec

variable {spec : Text} {range : LineRange}

theorem ne_nil (h : LineSpec spec range) : spec ≠ [] := by
  cases h <;> simp

theorem trim_eq (h : LineSpec spec range) : Text.trim spec = spec := by
  have hhyphen : Text.isWhitespace '-' = false := by decide
  refine Text.trim_eq_of_forall ?_
  cases h with
  | fromStart ha hb _ _ =>
    simpa [or_imp, forall_and, hhyphen] using ⟨ha.not_isWhitespace, hb.not_isWhitespace⟩
  | insert ha hb _ =>
    simpa [or_imp, forall_and, hhyphen] using ⟨ha.not_isWhitespace, hb.not_isWhitespace⟩
  | fromStartOpen ha _ => simpa [or_imp, forall_and, hhyphen] using ha.not_isWhitespace
  | suffix hb => simpa [hhyphen] using hb.not_isWhitespace

theorem printed (h : LineSpec spec range) :
    ∃ digits, LineSpec digits range ∧ range.toHttpString = some ("lines".toList ++ '=' :: digits) := by
  cases h with
  | fromStart ha hb hpos hle =>
    exact ⟨_, .fromStart (.toDigits ha.bound) (.toDigits hb.bound) hpos hle, rfl⟩
  | insert ha hb hpos =>
    refine ⟨_, .insert (.toDigits ha.bound) (.toDigits hb.bound) hpos, ?_⟩
    rw [LineRange.toHttpString, U64.sub_eq hpos]
    rfl
  | fromStartOpen ha hpos => exact ⟨_, .fromStartOpen (.toDigits ha.bound) hpos, rfl⟩
  | suffix hb => exact ⟨_, .suffix (.toDigits hb.bound), rfl⟩

end LineSpec

namespace Range

theorem parseRangeHeader_toHttpString {spec : Text} {range : ByteRange} (h : ByteSpec spec range) :
    parseRangeHeader range.toHttpString = .ok ⟨"bytes".toList, some range⟩ := by
  obtain ⟨digits, hspec, hprinted⟩ := h.printed
  rw [hprinted]
  refine parseRangeHeader_eq_ok.mpr ⟨_, digits, ⟨rfl, by decide, hspec.ne_nil⟩, rfl, ?_⟩
  rw [if_pos rfl]
  exact ⟨range, rfl, by rwa [hspec.trim_eq]⟩

theorem parseLineRangeHeader_toHttpString {spec : Text} {range : LineRange} (h : LineSpec spec range) :
    ∃ printed, range.toHttpString = some printed ∧ parseLineRangeHeader printed = .ok range := by
  obtain ⟨digits, hspec, hprinted⟩ := h.printed
  exact ⟨_, hprinted, parseLineRangeHeader_eq_ok.mpr
    ⟨_, digits, ⟨rfl, by decide, hspec.ne_nil⟩, by rwa [hspec.trim_eq]⟩⟩

/-! ## Subtractions -/

/-- `parseLineRangeSpec` on 64-bit numbers: `none` is a subtraction below 0. -/
def parseLineRangeSpecU64 (rangeSet : Text) : Option (Except RangeParseError LineRange) :=
  if ',' ∈ rangeSet then some (.error (.invalidSpec "multi-range lines= not supported".toList))
  else
    match Text.splitOnce '-' rangeSet with
    | none => some (.error (.invalidSpec rangeSet))
    | some (start, stop) =>
      if start = [] ∧ stop = [] then some (.error (.invalidSpec rangeSet))
      else if start = [] then some (do
        let length ← parseU64 stop rangeSet
        .ok (.suffix length))
      else
        match parseU64 start rangeSet with
        | .error e => some (.error e)
        | .ok first =>
          if first = 0 then some (.error (.invalidSpec rangeSet))
          else if stop = [] then some (.ok (.fromStartOpen first))
          else
            match parseU64 stop rangeSet with
            | .error e => some (.error e)
            | .ok last => do
              if last < (← U64.sub first 1) then some (.error (.invalidSpec rangeSet))
              else if last = (← U64.sub first 1) then some (.ok (.insert first))
              else some (.ok (.fromStart first last))

/-- `parseLineRangeHeader` on 64-bit numbers. -/
def parseLineRangeHeaderU64 (value : Text) : Option (Except RangeParseError LineRange) :=
  match splitUnit value with
  | .error e => some (.error e)
  | .ok (_, rangeSet) => parseLineRangeSpecU64 (Text.trim rangeSet)

theorem parseLineRangeSpecU64_eq (rangeSet : Text) :
    parseLineRangeSpecU64 rangeSet = some (parseLineRangeSpec rangeSet) := by
  unfold parseLineRangeSpecU64 parseLineRangeSpec
  split
  · rfl
  · cases Text.splitOnce '-' rangeSet with
    | none => rfl
    | some parts =>
      obtain ⟨start, stop⟩ := parts
      dsimp only
      split
      · rfl
      · split
        · rfl
        · cases parseU64 start rangeSet with
          | error e => rfl
          | ok first =>
            dsimp only [bind, Except.bind]
            split
            · rfl
            · next hpos =>
              split
              · rfl
              · cases parseU64 stop rangeSet with
                | error e => rfl
                | ok last =>
                  dsimp only
                  rw [U64.sub_eq (by omega : 1 ≤ first)]
                  dsimp only [Option.bind]
                  split
                  · rfl
                  · split <;> rfl

theorem parseLineRangeHeaderU64_eq (value : Text) :
    parseLineRangeHeaderU64 value = some (parseLineRangeHeader value) := by
  unfold parseLineRangeHeaderU64 parseLineRangeHeader
  cases splitUnit value with
  | error e => rfl
  | ok parts => exact parseLineRangeSpecU64_eq (Text.trim parts.2)

/-- The two parsers accept the grammar of a single range and nothing else, subtract without underflow, and
read back what is printed of a range they produced. -/
theorem rangeHeader_grammar (value : Text) :
    (∀ parsed, parseRangeHeader value = .ok parsed ↔ ByteHeader value parsed) ∧
      (∀ range, parseLineRangeHeader value = .ok range ↔ LineHeader value range) ∧
      parseLineRangeHeaderU64 value = some (parseLineRangeHeader value) ∧
      (∀ unit range, parseRangeHeader value = .ok ⟨unit, some range⟩ →
        parseRangeHeader range.toHttpString = .ok ⟨unit, some range⟩) ∧
      ∀ range, parseLineRangeHeader value = .ok range →
        ∃ printed, range.toHttpString = some printed ∧ parseLineRangeHeader printed = .ok range := by
  refine ⟨fun parsed => parseRangeHeader_eq_ok, fun range => parseLineRangeHeader_eq_ok,
    parseLineRangeHeaderU64_eq value, fun unit range h => ?_, fun range h => ?_⟩
  · obtain ⟨_, _, _, _, hrange⟩ := parseRangeHeader_eq_ok.mp h
    split at hrange
    · next hunit =>
      obtain ⟨_, hsome, hspec⟩ := hrange
      cases hsome
      dsimp only at hunit
      rw [hunit]
      exact parseRangeHeader_toHttpString hspec
    · cases hrange
  · obtain ⟨_, _, _, hspec⟩ := parseLineRangeHeader_eq_ok.mp h
    exact parseLineRangeHeader_toHttpString hspec

theorem rangeHeader_grammar_insert :
    ∃ printed, (LineRange.insert 5).toHttpString = some printed ∧ parseLineRangeHeader printed = .ok (.insert 5) :=
  (rangeHeader_grammar "lines= 05-4".toList).2.2.2.2 (.insert 5) (by decide)

end Range
