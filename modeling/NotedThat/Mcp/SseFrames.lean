-- SUMMARY: Event stream frames as they are written, and that a parser yields exactly those that carry a field, however their bytes are split.
import NotedThat.Mcp.SseSplits

/-!
# Frames

A frame is written as its fields, each on a line, with comments between them, and a blank line behind.
A parser is given the bytes of many of them in chunks. A frame without any line is only a blank line: it
goes with the block behind it, whose first line it becomes.
-/

namespace Mcp

namespace Sse

-- ---------------------------------------------------------------------------
-- Written frames
-- ---------------------------------------------------------------------------

inductive Eol where
  | lf
  | crlf
deriving DecidableEq

def Eol.text : Eol → Text
  | .lf => ['\n']
  | .crlf => ['\r', '\n']

inductive Content where
  | comment (text : Text)
  | id (value : Text)
  | event (value : Text)
  | data (value : Text)
  | retry (millis : Nat)
deriving DecidableEq

namespace Content

def value : Content → Text
  | .comment value | .id value | .event value | .data value => value
  | .retry millis => Nat.toDigits 10 millis

/-- What stands before the colon. -/
def name : Content → Text
  | .comment _ => []
  | .id _ => "id".toList
  | .event _ => "event".toList
  | .data _ => "data".toList
  | .retry _ => "retry".toList

def idOf : Content → Option Text
  | .id value => some value
  | _ => none

def eventOf : Content → Option Text
  | .event value => some value
  | _ => none

def dataOf : Content → Option Text
  | .data value => some value
  | _ => none

def retryOf : Content → Option Nat
  | .retry millis => some millis
  | _ => none

end Content

/-- A line: with or without a blank behind the colon. -/
structure Line where
  content : Content
  spaced : Bool
  eol : Eol
deriving DecidableEq

namespace Line

/-- The line without its end. -/
def written (l : Line) : Text :=
  l.content.name ++ ':' :: (if l.spaced then ' ' :: l.content.value else l.content.value)

def text (l : Line) : Text := l.written ++ l.eol.text

/-- The value has no line break, and no blank that would be taken for the one behind the colon. -/
structure Valid (l : Line) : Prop where
  noReturn : '\r' ∉ l.content.value
  noNewline : '\n' ∉ l.content.value
  unspaced : l.spaced = false → l.content.value.head? ≠ some ' '
  retry : ∀ millis ∈ l.content.retryOf, millis < 2 ^ 64

end Line

structure Frame where
  id : Option Text
  event : Option Text
  data : List Text
  retry : Option Nat
deriving DecidableEq

namespace Frame

def hasField (f : Frame) : Bool := f.id.isSome || f.event.isSome || !f.data.isEmpty || f.retry.isSome

def toEvent (f : Frame) : SseEvent := ⟨f.id, f.event, ['\n'].intercalate f.data, f.retry⟩

end Frame

/-- A frame with how it is written: its fields in any order, with comments anywhere. -/
structure WrittenFrame extends Frame where
  lines : List Line
  blank : Eol
  valid : ∀ l ∈ lines, l.Valid
  ids : lines.filterMap (·.content.idOf) = id.toList
  events : lines.filterMap (·.content.eventOf) = event.toList
  datas : lines.filterMap (·.content.dataOf) = data
  retries : lines.filterMap (·.content.retryOf) = retry.toList

def WrittenFrame.text (f : WrittenFrame) : Text := f.lines.flatMap Line.text ++ f.blank.text

-- ---------------------------------------------------------------------------
-- Reading a line
-- ---------------------------------------------------------------------------

/-- What a line of the given content adds. -/
def Fields.read (fields : Fields) : Content → Fields
  | .comment _ => fields
  | .id value => ⟨{ fields.event with id := some value }, fields.dataLines, true⟩
  | .event value => ⟨{ fields.event with event := some value }, fields.dataLines, true⟩
  | .data value => ⟨fields.event, fields.dataLines ++ [value], true⟩
  | .retry millis => ⟨{ fields.event with retry := some millis }, fields.dataLines, true⟩

theorem Content.name_plain (c : Content) : '\r' ∉ c.name ∧ '\n' ∉ c.name ∧ ':' ∉ c.name := by
  cases c <;> simp [name]

section Line

variable {l : Line}

theorem Line.Valid.noBreak (h : l.Valid) : '\r' ∉ l.written ∧ '\n' ∉ l.written := by
  obtain ⟨hreturn, hnewline, -⟩ := l.content.name_plain
  unfold Line.written
  constructor
  · split <;> simp [hreturn, h.noReturn]
  · split <;> simp [hnewline, h.noNewline]

theorem fieldOf_written (h : l.Valid) : fieldOf l.written = (l.content.name, l.content.value) := by
  unfold fieldOf Line.written
  rw [Text.splitOnce_append l.content.name_plain.2.2]
  dsimp only
  split
  · rw [show ' ' :: l.content.value = [' '] ++ l.content.value from rfl, Text.stripPrefix_append]
    rfl
  · next hspaced =>
    have hhead := h.unspaced (Bool.eq_false_iff.mpr hspaced)
    have hnone : Text.stripPrefix [' '] l.content.value = none := by
      rw [Option.eq_none_iff_forall_ne_some]
      intro rest hrest
      rw [Text.stripPrefix_eq_some.mp hrest] at hhead
      exact hhead rfl
    rw [hnone]
    rfl

theorem parseLine_written (h : l.Valid) (fields : Fields) :
    parseLine fields l.written = fields.read l.content := by
  have hstrip : Text.stripSuffix '\r' l.written = none := by
    rw [Text.stripSuffix_eq_none]
    intro hlast
    exact h.noBreak.1 (List.mem_of_getLast? hlast)
  unfold parseLine
  rw [hstrip, Option.getD_none]
  dsimp only
  rw [fieldOf_written h]
  have hretry := h.retry
  unfold Line.written
  generalize l.content = content at hretry ⊢
  cases content with
  | comment text => rfl
  | id value => rfl
  | event value => rfl
  | data value => rfl
  | retry millis =>
    have hmillis := Text.parseU64_toDigits_eq millis
    rw [if_pos (hretry millis rfl)] at hmillis
    change (⟨{ fields.event with retry := Text.parseU64 (Nat.toDigits 10 millis) }, fields.dataLines, true⟩ :
      Fields) = _
    rw [hmillis]
    rfl

end Line

-- ---------------------------------------------------------------------------
-- Reading a block
-- ---------------------------------------------------------------------------

/-- Read the lines of a block, onto what was read before. -/
def parseText (fields : Fields) (block : Text) : Fields := (block.splitOn '\n').foldl parseLine fields

/-- The end of a line does not count. -/
theorem parseText_line {w : Text} (hreturn : '\r' ∉ w) (hnewline : '\n' ∉ w) (fields : Fields) (e : Eol)
    (rest : Text) : parseText fields (w ++ (e.text ++ rest)) = parseText (parseLine fields w) rest := by
  unfold parseText
  cases e with
  | lf =>
    rw [Eol.text, List.singleton_append, List.splitOn_append_cons_self_of_not_mem hnewline]
    rfl
  | crlf =>
    have hstrip : parseLine fields (w ++ ['\r']) = parseLine fields w := by
      have hnone : Text.stripSuffix '\r' w = none :=
        Text.stripSuffix_eq_none.mpr fun hlast => hreturn (List.mem_of_getLast? hlast)
      unfold parseLine
      rw [Text.stripSuffix_append, hnone]
      rfl
    have hline : w ++ (Eol.crlf.text ++ rest) = (w ++ ['\r']) ++ '\n' :: rest := by simp [Eol.text]
    have hnewline' : '\n' ∉ w ++ ['\r'] := by simp [hnewline]
    rw [hline, List.splitOn_append_cons_self_of_not_mem hnewline', List.foldl_cons, hstrip]

theorem parseText_last {w : Text} (hnewline : '\n' ∉ w) (fields : Fields) :
    parseText fields w = parseLine fields w := by
  unfold parseText
  rw [List.splitOn_eq_singleton hnewline]
  rfl

/-- What the lines of a frame add. -/
def readLines (fields : Fields) (lines : List Line) : Fields :=
  lines.foldl (fun fields l => fields.read l.content) fields

theorem parseText_lines {init : List Line} {last : Line} (hinit : ∀ l ∈ init, l.Valid)
    (hlast : last.Valid) (fields : Fields) :
    parseText fields (init.flatMap Line.text ++ last.written) = readLines fields (init ++ [last]) := by
  induction init generalizing fields with
  | nil =>
    rw [List.flatMap_nil, List.nil_append, parseText_last hlast.noBreak.2, parseLine_written hlast]
    rfl
  | cons l init ih =>
    obtain ⟨hl, hrest⟩ := List.forall_mem_cons.mp hinit
    rw [List.flatMap_cons, Line.text, List.append_assoc, List.append_assoc,
      parseText_line hl.noBreak.1 hl.noBreak.2, parseLine_written hl, ih hrest]
    rfl

theorem readLines_eq (fields : Fields) (lines : List Line) :
    (readLines fields lines).event.id = (lines.filterMap (·.content.idOf)).getLast?.or fields.event.id ∧
    (readLines fields lines).event.event =
      (lines.filterMap (·.content.eventOf)).getLast?.or fields.event.event ∧
    (readLines fields lines).event.retry =
      (lines.filterMap (·.content.retryOf)).getLast?.or fields.event.retry ∧
    (readLines fields lines).dataLines = fields.dataLines ++ lines.filterMap (·.content.dataOf) ∧
    ((readLines fields lines).sawField = true ↔ fields.sawField = true ∨
      lines.filterMap (·.content.idOf) ≠ [] ∨ lines.filterMap (·.content.eventOf) ≠ [] ∨
      lines.filterMap (·.content.dataOf) ≠ [] ∨ lines.filterMap (·.content.retryOf) ≠ []) := by
  induction lines generalizing fields with
  | nil => simp [readLines]
  | cons l lines ih =>
    have hstep : readLines fields (l :: lines) = readLines (fields.read l.content) lines := rfl
    obtain ⟨hid, hevent, hretry, hdata, hsaw⟩ := ih (fields.read l.content)
    rw [hstep, hid, hevent, hretry, hdata, hsaw]
    cases hcontent : l.content with
    | comment text =>
      simp [hcontent, Fields.read, Content.idOf, Content.eventOf, Content.dataOf, Content.retryOf]
    | id value =>
      simp [hcontent, Fields.read, Content.idOf, Content.eventOf, Content.dataOf, Content.retryOf,
        List.getLast?_cons]
    | event value =>
      simp [hcontent, Fields.read, Content.idOf, Content.eventOf, Content.dataOf, Content.retryOf,
        List.getLast?_cons]
    | data value =>
      simp [hcontent, Fields.read, Content.idOf, Content.eventOf, Content.dataOf, Content.retryOf]
    | retry millis =>
      simp [hcontent, Fields.read, Content.idOf, Content.eventOf, Content.dataOf, Content.retryOf,
        List.getLast?_cons]

theorem parseBlock_eq (block : Text) :
    parseBlock block = if (parseText .empty block).sawField then
      some ⟨(parseText .empty block).event.id, (parseText .empty block).event.event,
        ['\n'].intercalate (parseText .empty block).dataLines, (parseText .empty block).event.retry⟩
    else none := rfl

/-- What is read of a written frame, with a blank line before it or not, is the frame. -/
theorem parseBlock_frame (f : WrittenFrame) {init : List Line} {last : Line} (hlines : f.lines = init ++ [last])
    (before : Option Eol) :
    parseBlock (before.elim [] Eol.text ++ (init.flatMap Line.text ++ last.written)) =
      if f.hasField then some f.toEvent else none := by
  have hvalid : ∀ l ∈ init ++ [last], l.Valid := hlines ▸ f.valid
  have hread : parseText .empty (before.elim [] Eol.text ++ (init.flatMap Line.text ++ last.written)) =
      readLines .empty f.lines := by
    have hwhole := @parseText_lines init last (fun l hl => hvalid l (List.mem_append_left _ hl))
      (hvalid last (by simp)) .empty
    cases before with
    | none => rw [hlines, ← hwhole]; rfl
    | some e =>
      rw [hlines, ← hwhole]
      exact parseText_line List.not_mem_nil List.not_mem_nil .empty e _
  obtain ⟨hid, hevent, hretry, hdata, hsaw⟩ := readLines_eq .empty f.lines
  rw [f.ids] at hid hsaw
  rw [f.events] at hevent hsaw
  rw [f.retries] at hretry hsaw
  rw [f.datas] at hdata hsaw
  have hfield : (readLines .empty f.lines).sawField = f.hasField := by
    rw [Bool.eq_iff_iff, hsaw]
    simp [Frame.hasField, Fields.empty, Option.isSome_iff_ne_none, or_assoc]
  have hlast : ∀ {α : Type} (o : Option α), o.toList.getLast?.or none = o := by
    intro α o
    cases o <;> rfl
  rw [parseBlock_eq, hread, hfield, hid.trans (hlast f.id), hevent.trans (hlast f.event),
    hretry.trans (hlast f.retry), hdata]
  rfl

-- ---------------------------------------------------------------------------
-- Finding the blank line
-- ---------------------------------------------------------------------------

/-- Behind the end of a line and a blank line, the blank line is found to end this block. -/
def Ends (block : Text) : Prop := ∀ (e e' : Eol) (rest : Text),
  findBlankLine (block ++ (e.text ++ (e'.text ++ rest))) = some (block.length, e.text.length + e'.text.length)

theorem blankLineAt_plain {c : Char} (hreturn : c ≠ '\r') (hnewline : c ≠ '\n') (text : Text) :
    blankLineAt (c :: text) = none := by
  simp [blankLineAt, Needles.beginsWith, separators, hreturn.symm, hnewline.symm]

theorem ends_nil : Ends [] := by
  intro e e' rest
  cases e <;> cases e' <;> exact findBlankLine_cons _ _

theorem Ends.append {w block : Text} (hreturn : '\r' ∉ w) (hnewline : '\n' ∉ w) (h : Ends block) :
    Ends (w ++ block) := by
  intro e e' rest
  induction w with
  | nil => exact h e e' rest
  | cons c w ih =>
    simp only [List.mem_cons, not_or] at hreturn hnewline
    rw [List.cons_append, List.cons_append, findBlankLine_cons,
      blankLineAt_plain (Ne.symm hreturn.1) (Ne.symm hnewline.1), ih hreturn.2 hnewline.2]
    rfl

/-- The end of a line that another follows. -/
theorem Ends.eol {c : Char} {block : Text} (hreturn : c ≠ '\r') (hnewline : c ≠ '\n') (e₀ : Eol)
    (h : Ends (c :: block)) : Ends (e₀.text ++ c :: block) := by
  intro e e' rest
  have hnone : ∀ text, blankLineAt ('\n' :: c :: text) = none := by
    intro text
    simp [blankLineAt, Needles.beginsWith, separators, hreturn.symm, hnewline.symm]
  have hnone' : ∀ text, blankLineAt ('\r' :: '\n' :: c :: text) = none := by
    intro text
    simp [blankLineAt, Needles.beginsWith, separators, hreturn.symm, hnewline.symm]
  have hrest := h e e' rest
  cases e₀ with
  | lf =>
    simp only [Eol.text, List.cons_append, List.nil_append] at hrest ⊢
    rw [findBlankLine_cons, hnone, hrest]
    rfl
  | crlf =>
    simp only [Eol.text, List.cons_append, List.nil_append] at hrest ⊢
    rw [findBlankLine_cons, hnone', findBlankLine_cons, hnone, hrest]
    rfl

/-- A text that begins with a character that ends no line. -/
def BeginsPlain (text : Text) : Prop := ∃ c rest, text = c :: rest ∧ c ≠ '\r' ∧ c ≠ '\n'

theorem Line.Valid.beginsPlain {l : Line} (h : l.Valid) (more : Text) : BeginsPlain (l.written ++ more) := by
  obtain ⟨hreturn, hnewline⟩ := h.noBreak
  cases hw : l.written with
  | nil =>
    unfold Line.written at hw
    simp at hw
  | cons c rest =>
    rw [hw] at hreturn hnewline
    simp only [List.mem_cons, not_or] at hreturn hnewline
    exact ⟨c, rest ++ more, rfl, Ne.symm hreturn.1, Ne.symm hnewline.1⟩

theorem Ends.eol_of_beginsPlain {block : Text} (hplain : BeginsPlain block) (e₀ : Eol) (h : Ends block) :
    Ends (e₀.text ++ block) := by
  obtain ⟨c, rest, rfl, hreturn, hnewline⟩ := hplain
  exact h.eol hreturn hnewline e₀

theorem ends_lines {init : List Line} {last : Line} (hinit : ∀ l ∈ init, l.Valid) (hlast : last.Valid) :
    Ends (init.flatMap Line.text ++ last.written) ∧ BeginsPlain (init.flatMap Line.text ++ last.written) := by
  induction init with
  | nil =>
    have hends := ends_nil.append hlast.noBreak.1 hlast.noBreak.2
    have hplain := hlast.beginsPlain []
    rw [List.append_nil] at hends hplain
    exact ⟨hends, hplain⟩
  | cons l init ih =>
    obtain ⟨hl, hrest⟩ := List.forall_mem_cons.mp hinit
    obtain ⟨hends, hplain⟩ := ih hrest
    rw [List.flatMap_cons, Line.text, List.append_assoc, List.append_assoc]
    exact ⟨(hends.eol_of_beginsPlain hplain l.eol).append hl.noBreak.1 hl.noBreak.2, hl.beginsPlain _⟩

theorem Ends.drain {block : Text} (h : Ends block) (e e' : Eol) (rest : Text) :
    (drain (block ++ (e.text ++ (e'.text ++ rest)))).1 = (parseBlock block).toList ++ (drain rest).1 := by
  rw [drain_of_some (h e e' rest), List.take_left]
  have hdrop : (block ++ (e.text ++ (e'.text ++ rest))).drop
      (block.length + (e.text.length + e'.text.length)) = rest := by
    rw [← List.append_assoc, ← List.append_assoc, ← Nat.add_assoc, ← List.length_append,
      ← List.length_append, List.drop_left]
  rw [hdrop]

-- ---------------------------------------------------------------------------
-- Main result
-- ---------------------------------------------------------------------------

theorem hasField_of_no_lines {f : WrittenFrame} (h : f.lines = []) : f.hasField = false := by
  have hid := f.ids
  have hevent := f.events
  have hdata := f.datas
  have hretry := f.retries
  rw [h, List.filterMap_nil, eq_comm, Option.toList_eq_nil_iff] at hid hevent hretry
  rw [h, List.filterMap_nil, eq_comm] at hdata
  simp [Frame.hasField, hid, hevent, hdata, hretry]

/-- The end of a line is no blank line. -/
theorem findBlankLine_eol (before : Option Eol) : findBlankLine (before.elim [] Eol.text) = none := by
  cases before with
  | none => exact findBlankLine_nil
  | some e => cases e <;> rfl

/-- Draining written frames, with a blank line before them or not, yields those with a field. -/
theorem drain_frames (frames : List WrittenFrame) (before : Option Eol) :
    (drain (before.elim [] Eol.text ++ frames.flatMap WrittenFrame.text)).1 =
      (frames.filter fun f => f.hasField).map fun f => f.toEvent := by
  induction frames generalizing before with
  | nil =>
    rw [List.flatMap_nil, List.append_nil, drain_of_none (findBlankLine_eol before)]
    rfl
  | cons f frames ih =>
    rw [List.flatMap_cons, WrittenFrame.text]
    rcases List.eq_nil_or_concat f.lines with hnone | ⟨init, last, hlines⟩
    · -- without a line the frame is another blank line
      rw [hnone, List.flatMap_nil, List.nil_append, List.filter_cons_of_neg (by simp [hasField_of_no_lines hnone])]
      cases before with
      | none => exact ih (some f.blank)
      | some e =>
        have hblank := ends_nil.drain e f.blank (frames.flatMap WrittenFrame.text)
        rw [← ih none]
        exact hblank
    · rw [List.concat_eq_append] at hlines
      have hvalid : ∀ l ∈ init ++ [last], l.Valid := hlines ▸ f.valid
      obtain ⟨hends, hplain⟩ := ends_lines (fun l hl => hvalid l (List.mem_append_left _ hl))
        (hvalid last (by simp))
      have hblock : Ends (before.elim [] Eol.text ++ (init.flatMap Line.text ++ last.written)) := by
        cases before with
        | none => exact hends
        | some e => exact hends.eol_of_beginsPlain hplain e
      have hdrain := hblock.drain last.eol f.blank (frames.flatMap WrittenFrame.text)
      rw [parseBlock_frame f hlines] at hdrain
      have htext : before.elim [] Eol.text ++
          (f.lines.flatMap Line.text ++ f.blank.text ++ frames.flatMap WrittenFrame.text) =
            before.elim [] Eol.text ++ (init.flatMap Line.text ++ last.written) ++
              (last.eol.text ++ (f.blank.text ++ frames.flatMap WrittenFrame.text)) := by
        rw [hlines]
        simp [Line.text]
      have hrest := ih none
      rw [Option.elim_none, List.nil_append] at hrest
      rw [htext, hdrain, hrest]
      cases hfield : f.hasField with
      | true => simp [hfield]
      | false => simp [hfield]

/-- However the bytes of written frames are split into chunks, with no more than `maxPending` bytes
pending at any time, the parser yields the frames with a field, in order. And however any bytes are
split so, it yields the same frames. -/
theorem parser_yields_frames :
    (∀ (frames : List WrittenFrame) (chunks : List Bytes),
      chunks.flatten = Utf8.encode (frames.flatMap WrittenFrame.text) → SseParser.new.Within chunks →
      (SseParser.new.feedAll chunks).2 = (frames.filter fun f => f.hasField).map fun f => f.toEvent) ∧
    ∀ chunks chunks' : List Bytes, chunks.flatten = chunks'.flatten → SseParser.new.Within chunks →
      SseParser.new.Within chunks' →
      (SseParser.new.feedAll chunks).2 = (SseParser.new.feedAll chunks').2 := by
  constructor
  · intro frames chunks hbytes hwithin
    obtain ⟨text, part, hlossy, hevents⟩ := SseParser.feedAll_new hwithin
    rw [hbytes] at hlossy
    obtain ⟨rfl, -⟩ := hlossy.unique (.encode _)
    rw [hevents]
    exact drain_frames frames none
  · intro chunks chunks' hbytes hwithin hwithin'
    obtain ⟨text, part, hlossy, hevents⟩ := SseParser.feedAll_new hwithin
    obtain ⟨text', part', hlossy', hevents'⟩ := SseParser.feedAll_new hwithin'
    rw [hbytes] at hlossy
    obtain ⟨rfl, -⟩ := hlossy.unique hlossy'
    rw [hevents, hevents']

/-- A frame with one letter of two bytes. -/
def accented : WrittenFrame where
  id := none
  event := none
  data := ["é".toList]
  retry := none
  lines := [⟨.data "é".toList, true, .crlf⟩]
  blank := .crlf
  valid := by
    intro l hl
    obtain rfl := List.mem_singleton.mp hl
    exact ⟨by decide, by decide, nofun, nofun⟩
  ids := rfl
  events := rfl
  datas := rfl
  retries := rfl

/-- Its bytes, split inside the letter and inside the end of a line. -/
def accentedChunks : List Bytes :=
  [[100, 97, 116, 97, 58, 32, 0xC3], [0xA9, 13], [10, 13, 10]]

theorem parser_yields_frames_accented :
    (SseParser.new.feedAll accentedChunks).2 = [⟨none, none, "é".toList, none⟩] ∧
      (SseParser.new.feedAll [accentedChunks.flatten]).2 = [⟨none, none, "é".toList, none⟩] := by
  have hbytes : accentedChunks.flatten = Utf8.encode ([accented].flatMap WrittenFrame.text) := by decide
  have hwithin : SseParser.new.Within accentedChunks := SseParser.read_new.within (by decide)
  have hwhole : SseParser.new.Within [accentedChunks.flatten] := SseParser.read_new.within (by decide)
  have hframes := parser_yields_frames.1 [accented] accentedChunks hbytes hwithin
  refine ⟨hframes, ?_⟩
  rw [parser_yields_frames.2 [accentedChunks.flatten] accentedChunks (List.flatten_singleton) hwhole hwithin]
  exact hframes

end Sse

end Mcp
