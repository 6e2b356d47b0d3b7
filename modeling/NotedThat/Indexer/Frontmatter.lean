-- SUMMARY: The frontmatter of a concept, recognised in the beginning of a document: what the whole document would give, unless the beginning is cut in its last line.
import NotedThat.Lib.Lines
import NotedThat.Indexer.Snapshot

/-!
# Frontmatter

A concept begins with metadata between two fences. It is looked for in as much of the document as is kept. A
fence is a whole line, but what is cut off behind its three hyphens may have been more of that line: the fence
is taken for the end of the metadata all the same.
-/

namespace Indexer

open Utf8

/-- A YAML parser, and what is asked of a value. -/
structure Yaml where
  Value : Type
  fromStr : Text → Option Value
  get : Value → Text → Option Value
  asStr : Value → Option Text
  asSequence : Value → Option (List Value)

/-- The lines of a text, each with its newline. -/
def textLines (text : Text) : List Text := Lines.split (fun c => c = '\n') text

def isFence (line : Text) : Bool := Text.trimEndMatches (fun c => c = '\r' ∨ c = '\n') line = "---".toList

/-- The id of the concept a path names: Markdown files are concepts, but for two names. -/
def conceptId (path : Text) : Option Text :=
  if ".md".toList <:+ path then
    if (path.splitOn '/').getLast? = some "index.md".toList ∨ (path.splitOn '/').getLast? = some "log.md".toList then
      none
    else some (path.take (path.length - ".md".toList.length))
  else none

theorem utf8Length_append (s t : Text) : utf8Length (s ++ t) = utf8Length s + utf8Length t := by
  rw [utf8Length, encode_append, List.length_append, utf8Length, utf8Length]

section Yaml

variable (yaml : Yaml) (id opening : Text)

def conceptMetadata (frontmatter : Text) : Option ConceptMetadata := do
  let value ← yaml.fromStr frontmatter
  let conceptType ← yaml.asStr (← yaml.get value "type".toList)
  if Text.trim conceptType = [] then none
  else
    let optionalString := fun key => (yaml.get value key).bind yaml.asStr
    let tags := ((yaml.get value "tags".toList).bind yaml.asSequence).map fun tags => tags.filterMap yaml.asStr
    some {
      conceptId := id
      conceptType := conceptType
      title := optionalString "title".toList
      description := optionalString "description".toList
      resource := optionalString "resource".toList
      tags := tags.getD [] }

/-- Look for the closing fence. What comes before it, behind the opening one, is the metadata: it is
`prefix[opening.len()..closing_start]`. -/
def closeFrontmatter : Text → List Text → Option (ConceptMetadata × Nat)
  | _, [] => none
  | before, line :: lines =>
    if isFence line then
      let closingStart := utf8Length opening + utf8Length before
      (conceptMetadata yaml id before).map fun metadata => (metadata, closingStart + utf8Length line)
    else closeFrontmatter (before ++ line) lines

/-- The metadata of a concept, and where its body begins. -/
def conceptPrefix (path text : Text) : Option (ConceptMetadata × Nat) := do
  let id ← conceptId path
  match textLines text with
  | [] => none
  | opening :: lines => if isFence opening then closeFrontmatter yaml id opening [] lines else none

/-! ## Fences -/

/-- The metadata has the type of a concept. -/
def HasType (frontmatter : Text) : Prop :=
  ∃ value entry conceptType, yaml.fromStr frontmatter = some value ∧ yaml.get value "type".toList = some entry ∧
    yaml.asStr entry = some conceptType ∧ Text.trim conceptType ≠ []

variable {yaml id opening} {path text before : Text} {lines : List Text} {metadata : ConceptMetadata}
  {bodyStart : Nat}

theorem exists_conceptMetadata {frontmatter : Text} :
    (∃ metadata, conceptMetadata yaml id frontmatter = some metadata) ↔ HasType yaml frontmatter := by
  simp only [conceptMetadata, Option.bind_eq_bind, Option.bind_eq_some_iff]
  constructor
  · rintro ⟨metadata, value, hvalue, entry, hentry, conceptType, htype, h⟩
    split at h
    · cases h
    · next hblank => exact ⟨value, entry, conceptType, hvalue, hentry, htype, hblank⟩
  · rintro ⟨value, entry, conceptType, hvalue, hentry, htype, hblank⟩
    exact ⟨_, value, hvalue, entry, hentry, conceptType, htype, if_neg hblank⟩

theorem closeFrontmatter_eq_some :
    closeFrontmatter yaml id opening before lines = some (metadata, bodyStart) ↔
      ∃ passed closing rest, lines = passed ++ closing :: rest ∧ (∀ line ∈ passed, isFence line = false) ∧
        isFence closing = true ∧ conceptMetadata yaml id (before ++ passed.flatten) = some metadata ∧
        bodyStart = utf8Length (opening ++ (before ++ passed.flatten) ++ closing) := by
  induction lines generalizing before with
  | nil =>
    refine iff_of_false nofun ?_
    rintro ⟨passed, closing, rest, hlines, -⟩
    exact absurd hlines.symm (List.append_ne_nil_of_right_ne_nil _ (List.cons_ne_nil _ _))
  | cons line lines ih =>
    unfold closeFrontmatter
    split
    · next hfence =>
      dsimp only
      rw [Option.map_eq_some_iff]
      constructor
      · rintro ⟨metadata, hmetadata, heq⟩
        obtain ⟨rfl, rfl⟩ := Prod.mk.inj heq
        refine ⟨[], line, lines, rfl, by simp, hfence, ?_, ?_⟩
        · rw [List.flatten_nil, List.append_nil]
          exact hmetadata
        · rw [List.flatten_nil, List.append_nil, utf8Length_append, utf8Length_append]
      · rintro ⟨passed, closing, rest, hlines, hpassed, -, hmetadata, rfl⟩
        cases passed with
        | nil =>
          obtain ⟨rfl, rfl⟩ := List.cons.inj hlines
          rw [List.flatten_nil, List.append_nil] at hmetadata
          rw [List.flatten_nil, List.append_nil, utf8Length_append, utf8Length_append]
          exact ⟨metadata, hmetadata, rfl⟩
        | cons first passed =>
          obtain ⟨rfl, -⟩ := List.cons.inj hlines
          rw [hpassed line List.mem_cons_self] at hfence
          cases hfence
    · next hfence =>
      rw [ih]
      constructor
      · rintro ⟨passed, closing, rest, rfl, hpassed, hclosing, hmetadata, rfl⟩
        refine ⟨line :: passed, closing, rest, rfl, List.forall_mem_cons.mpr ⟨by simpa using hfence, hpassed⟩,
          hclosing, ?_, ?_⟩
        · rw [List.flatten_cons, ← List.append_assoc]
          exact hmetadata
        · rw [List.flatten_cons, ← List.append_assoc before]
      · rintro ⟨passed, closing, rest, hlines, hpassed, hclosing, hmetadata, rfl⟩
        cases passed with
        | nil =>
          obtain ⟨rfl, rfl⟩ := List.cons.inj hlines
          exact absurd hclosing hfence
        | cons first passed =>
          obtain ⟨rfl, rfl⟩ := List.cons.inj hlines
          rw [List.flatten_cons, ← List.append_assoc before] at hmetadata ⊢
          exact ⟨passed, closing, rest, rfl, (List.forall_mem_cons.mp hpassed).2, hclosing, hmetadata, rfl⟩

/-- A concept begins with a fence, lines that are none, and a fence. -/
theorem conceptPrefix_eq_some :
    conceptPrefix yaml path text = some (metadata, bodyStart) ↔
      ∃ id opening passed closing rest, conceptId path = some id ∧
        textLines text = (opening :: passed) ++ closing :: rest ∧ isFence opening = true ∧
        (∀ line ∈ passed, isFence line = false) ∧ isFence closing = true ∧
        conceptMetadata yaml id passed.flatten = some metadata ∧
        bodyStart = utf8Length ((opening :: passed).flatten ++ closing) := by
  simp only [conceptPrefix, Option.bind_eq_bind, Option.bind_eq_some_iff]
  constructor
  · rintro ⟨id, hid, h⟩
    split at h
    · cases h
    · next opening lines hlines =>
      split at h
      · next hopening =>
        obtain ⟨passed, closing, rest, rfl, hpassed, hclosing, hmetadata, rfl⟩ := closeFrontmatter_eq_some.mp h
        exact ⟨id, opening, passed, closing, rest, hid, hlines, hopening, hpassed, hclosing, hmetadata, rfl⟩
      · cases h
  · rintro ⟨id, opening, passed, closing, rest, hid, hlines, hopening, hpassed, hclosing, hmetadata, rfl⟩
    refine ⟨id, hid, ?_⟩
    rw [hlines, List.cons_append]
    dsimp only
    rw [if_pos hopening]
    exact closeFrontmatter_eq_some.mpr ⟨passed, closing, rest, rfl, hpassed, hclosing, hmetadata, rfl⟩

/-! ## Cuts -/

/-- An end of the text, or an offset right behind a newline. -/
def IsLineBoundary (text : Text) (offset : Nat) : Prop :=
  ∃ front rest, text = front ++ rest ∧ offset = utf8Length front ∧
    (front = [] ∨ front.getLast? = some '\n' ∨ rest = [])

/-- The document goes on behind what is kept of it, which are the fences of a concept, the closing one with
no newline yet. -/
structure CutInFence (yaml : Yaml) (path document : Text) (limit : Nat) : Prop where
  concept : ∃ id, conceptId path = some id
  cut : textWithin limit document ≠ document
  fences : ∃ opening lines closing, textWithin limit document = (opening :: lines).flatten ++ closing ∧
    (∀ line ∈ opening :: lines, Lines.Line (fun c => c = '\n') False line) ∧ '\n' ∉ closing ∧
    isFence opening = true ∧ (∀ line ∈ lines, isFence line = false) ∧ isFence closing = true ∧
    HasType yaml lines.flatten

theorem textWithin_begins (limit : Nat) (text : Text) : textWithin limit text <+: text := by
  induction text generalizing limit with
  | nil => exact List.prefix_rfl
  | cons c text ih =>
    unfold textWithin
    split
    · exact List.cons_prefix_cons.mpr ⟨rfl, ih _⟩
    · exact List.nil_prefix

/-- Two fronts of one text with the same number of bytes are the same. -/
theorem eq_of_utf8Length {s s' text : Text} (hs : s <+: text) (hs' : s' <+: text)
    (h : utf8Length s = utf8Length s') : s = s' := by
  have hwhole : ∀ {s s' : Text}, s <+: s' → utf8Length s = utf8Length s' → s = s' := by
    rintro s _ ⟨rest, rfl⟩ h
    by_contra hne
    have hpos : 0 < utf8Length rest := encode_length_pos fun hnil => hne (by rw [hnil, List.append_nil])
    rw [utf8Length_append] at h
    omega
  rcases List.prefix_or_prefix_of_prefix hs hs' with hle | hle
  · exact hwhole hle h
  · exact (hwhole hle h.symm).symm

theorem getLast?_ended {line : Text} (h : Lines.Line (fun c => c = '\n') False line) :
    line.getLast? = some '\n' := by
  cases h with
  | @ended content c hcontent hend =>
    rw [List.getLast?_concat, of_decide_eq_true hend]
  | unended hlast _ _ => exact hlast.elim

variable {document : Text} {limit : Nat}

/-- Where the closing fence is a whole line, what comes behind does not matter. -/
theorem conceptPrefix_of_not_cut (hcut : ¬ CutInFence yaml path document limit)
    (h : conceptPrefix yaml path (textWithin limit document) = some (metadata, bodyStart)) :
    conceptPrefix yaml path document = some (metadata, bodyStart) ∧ IsLineBoundary document bodyStart := by
  have hbeginning := h
  obtain ⟨id, opening, passed, closing, rest, hid, hlines, hopening, hpassed, hclosing, hmetadata, rfl⟩ :=
    conceptPrefix_eq_some.mp h
  obtain ⟨hfront, hline⟩ := Lines.lines_of_split hlines
  have hwithin : textWithin limit document = ((opening :: passed).flatten ++ closing) ++ rest.flatten := by
    have hflatten : (textLines (textWithin limit document)).flatten = textWithin limit document :=
      Lines.flatten_split _
    rw [hlines] at hflatten
    rw [← hflatten, List.flatten_append, List.flatten_cons (L := rest), List.append_assoc _ closing]
  obtain ⟨more, hmore⟩ := textWithin_begins limit document
  cases hline with
  | @ended content c hcontent hend =>
    have hended : Lines.Line (fun c => c = '\n') False (content ++ [c]) := .ended hcontent hend
    have hwhole : document = ((opening :: passed) ++ [content ++ [c]]).flatten ++ (rest.flatten ++ more) := by
      rw [← hmore, hwithin, List.flatten_append, List.flatten_singleton, List.append_assoc]
    refine ⟨conceptPrefix_eq_some.mpr ⟨id, opening, passed, content ++ [c], textLines (rest.flatten ++ more), hid,
      ?_, hopening, hpassed, hclosing, hmetadata, rfl⟩, _, rest.flatten ++ more, ?_, rfl, .inr (.inl ?_)⟩
    · rw [hwhole, textLines, Lines.split_flatten_append]
      · rw [List.append_assoc]
        rfl
      · intro line hmem
        rcases List.mem_append.mp hmem with hmem | hmem
        · exact hfront line hmem
        · rw [List.mem_singleton.mp hmem]
          exact hended
    · rw [hwhole, List.flatten_append, List.flatten_singleton]
    · rw [List.getLast?_append_of_ne_nil _ hended.ne_nil]
      exact getLast?_ended hended
  | unended hlast hne hcontent =>
    rw [hlast, List.flatten_nil, List.append_nil] at hwithin
    have hnone : textWithin limit document = document := by
      by_contra hdiffers
      exact hcut ⟨⟨id, hid⟩, hdiffers, opening, passed, closing, hwithin, hfront,
        fun hmem => by simpa using hcontent _ hmem, hopening, hpassed, hclosing,
        exists_conceptMetadata.mp ⟨metadata, hmetadata⟩⟩
    rw [hnone] at hbeginning hwithin
    exact ⟨hbeginning, document, [], (List.append_nil _).symm, by rw [hwithin], .inr (.inr rfl)⟩

/-- A fence that is cut off is recognised, and the body begins in its line. -/
theorem conceptPrefix_of_cut (h : CutInFence yaml path document limit) :
    ∃ metadata bodyStart, conceptPrefix yaml path (textWithin limit document) = some (metadata, bodyStart) ∧
      ¬ IsLineBoundary document bodyStart := by
  obtain ⟨id, hid⟩ := h.concept
  obtain ⟨opening, lines, closing, hwithin, hended, hnewline, hopening, hlines, hclosing, htype⟩ := h.fences
  obtain ⟨metadata, hmetadata⟩ := exists_conceptMetadata.mpr htype
  have hne : closing ≠ [] := by
    rintro rfl
    exact absurd hclosing (by decide)
  refine ⟨metadata, utf8Length ((opening :: lines).flatten ++ closing), ?_, ?_⟩
  · refine conceptPrefix_eq_some.mpr ⟨id, opening, lines, closing, [], hid, ?_, hopening, hlines, hclosing,
      hmetadata, rfl⟩
    rw [hwithin, textLines, Lines.split_flatten_append hended, Lines.split_unended hne]
    intro c hc
    rw [decide_eq_false_iff_not]
    rintro rfl
    exact hnewline hc
  · rintro ⟨front, rest, hdocument, hlength, hboundary⟩
    have hfront : textWithin limit document = front := by
      rw [← hwithin] at hlength
      exact eq_of_utf8Length (textWithin_begins limit document) ⟨rest, hdocument.symm⟩ hlength
    rcases hboundary with hnil | hnewlineLast | hrest
    · rw [hnil, hwithin] at hfront
      exact hne (List.append_eq_nil_iff.mp hfront).2
    · rw [← hfront, hwithin, List.getLast?_append_of_ne_nil _ hne] at hnewlineLast
      exact hnewline (List.mem_of_getLast? hnewlineLast)
    · rw [hrest, List.append_nil] at hdocument
      exact h.cut (hfront.trans hdocument.symm)

end Yaml

/-- What is recognised in the beginning of a document is what the whole document would give, with the body at a
line of it, exactly unless the beginning ends in the closing fence and the document goes on. -/
theorem conceptPrefix_exact (yaml : Yaml) (path document : Text) (limit : Nat) :
    (∀ metadata bodyStart, conceptPrefix yaml path (textWithin limit document) = some (metadata, bodyStart) →
      conceptPrefix yaml path document = some (metadata, bodyStart) ∧ IsLineBoundary document bodyStart) ↔
      ¬ CutInFence yaml path document limit := by
  constructor
  · intro h hcut
    obtain ⟨metadata, bodyStart, hsome, hnot⟩ := conceptPrefix_of_cut hcut
    exact hnot (h metadata bodyStart hsome).2
  · intro hcut metadata bodyStart h
    exact conceptPrefix_of_not_cut hcut h

/-- The body of a concept that the pipeline indexes begins at a line of the document. -/
theorem inspect_concept {yaml : Yaml} {worker : IndexerWorker} {objectKey : ObjectPath} {document : Text}
    {facts : SnapshotFacts} {metadata : ConceptMetadata} {bodyStart : Nat}
    (hyaml : worker.documents.conceptPrefix = conceptPrefix yaml)
    (hcut : ¬ CutInFence yaml objectKey.val document frontmatterPrefixLimit)
    (h : inspect worker objectKey (encode document) = .ok (facts, some metadata, bodyStart)) :
    conceptPrefix yaml objectKey.val document = some (metadata, bodyStart) ∧ IsLineBoundary document bodyStart := by
  rw [inspect, decode?_encode] at h
  dsimp only at h
  rw [hyaml] at h
  split at h
  · next hbeginning =>
    cases h
    exact conceptPrefix_of_not_cut hcut hbeginning
  · cases h

/-! ## A document that is longer than what is kept -/

/-- A parser that finds the type of a metric. -/
def metricYaml : Yaml where
  Value := Option Text
  fromStr _ := some none
  get value key := if value = none ∧ key = "type".toList then some (some "Metric".toList) else none
  asStr value := value
  asSequence _ := none

/-- A comment of the metadata, with the newline. -/
def comment (n : Nat) : Text := '#' :: List.replicate n 'x' ++ ['\n']

/-- A fence and metadata of `n + 19` bytes, and three hyphens more. -/
def metric (n : Nat) : Text := ["---\n".toList, "type: Metric\n".toList, comment n].flatten ++ "---".toList

theorem begins_of_isFence {line : Text} (h : isFence line = true) : "---".toList <+: line := by
  rw [← of_decide_eq_true h]
  have hsuffix := (List.dropWhile_suffix (l := line.reverse) fun c => decide (c = '\r' ∨ c = '\n'))
  rw [← List.reverse_prefix, List.reverse_reverse] at hsuffix
  exact hsuffix

theorem utf8Length_metric (n : Nat) : utf8Length (metric n) = n + 22 := by
  have hpadding : utf8Length (List.replicate n 'x') = n := by
    induction n with
    | zero => rfl
    | succ n ih =>
      rw [List.replicate_succ', utf8Length_append, ih]
      rfl
  have hcomment : utf8Length (comment n) = n + 2 := by
    rw [comment, ← List.singleton_append, List.append_assoc, utf8Length_append, utf8Length_append, hpadding]
    show 1 + (n + 1) = n + 2
    omega
  rw [metric, List.flatten_cons, List.flatten_cons, List.flatten_singleton, utf8Length_append, utf8Length_append,
    utf8Length_append, hcomment]
  show 4 + (13 + (n + 2)) + 3 = n + 22
  omega

/-- A front of as many bytes as are kept is all that is kept. -/
theorem textWithin_append (text more : Text) : textWithin (utf8Length text) (text ++ more) = text := by
  have hfits : encode text <+: (encode (text ++ more)).take (utf8Length text) := by
    exact ⟨[], by rw [encode_append, utf8Length, List.take_left, List.append_nil]⟩
  have hle : utf8Length text ≤ utf8Length (textWithin (utf8Length text) (text ++ more)) :=
    encode_length_mono (encode_begins_take.mp hfits)
  have hge := (encode_begins_take.mpr (@List.prefix_rfl _ (textWithin (utf8Length text) (text ++ more)))).length_le
  rw [List.length_take] at hge
  exact eq_of_utf8Length (textWithin_begins _ _) (List.prefix_append _ _)
    (Nat.le_antisymm (hge.trans (Nat.min_le_left _ _)) hle)

theorem metric_cutInFence (n : Nat) :
    CutInFence metricYaml "metric.md".toList (metric n ++ "more".toList) (n + 22) := by
  have hwithin : textWithin (n + 22) (metric n ++ "more".toList) = metric n := by
    rw [← utf8Length_metric]
    exact textWithin_append _ _
  refine ⟨⟨"metric".toList, by decide⟩, ?_, "---\n".toList, ["type: Metric\n".toList, comment n], "---".toList,
    hwithin, ?_, by decide, by decide, ?_, by decide, ?_⟩
  · rw [hwithin, Ne, List.self_eq_append_right]
    exact List.cons_ne_nil _ _
  · intro line hline
    simp only [List.mem_cons, List.not_mem_nil, or_false] at hline
    rcases hline with rfl | rfl | rfl
    · exact @Lines.Line.ended _ _ _ "---".toList '\n' (by simp) rfl
    · exact @Lines.Line.ended _ _ _ "type: Metric".toList '\n' (by simp) rfl
    · refine .ended ?_ rfl
      intro c hc
      rcases List.mem_cons.mp hc with rfl | hc
      · rfl
      · rw [List.eq_of_mem_replicate hc]
        rfl
  · intro line hline
    rw [Bool.eq_false_iff]
    intro hfence
    have hbegins := begins_of_isFence hfence
    simp only [List.mem_cons, List.not_mem_nil, or_false] at hline
    rcases hline with rfl | rfl
    · exact absurd hbegins (by decide)
    · obtain ⟨rest, hrest⟩ := hbegins
      exact absurd (List.cons.inj hrest).1 (by decide)
  · exact ⟨none, some "Metric".toList, "Metric".toList, rfl, rfl, rfl, by decide⟩

/-- The three hyphens of a line that is no fence are the last bytes kept of a document. -/
theorem conceptPrefix_cut :
    ¬ ∀ metadata bodyStart,
      conceptPrefix metricYaml "metric.md".toList
          (textWithin frontmatterPrefixLimit (metric (frontmatterPrefixLimit - 22) ++ "more".toList)) =
        some (metadata, bodyStart) →
      conceptPrefix metricYaml "metric.md".toList (metric (frontmatterPrefixLimit - 22) ++ "more".toList) =
          some (metadata, bodyStart) ∧
        IsLineBoundary (metric (frontmatterPrefixLimit - 22) ++ "more".toList) bodyStart := by
  intro h
  obtain ⟨metadata, bodyStart, hsome, hnot⟩ :=
    conceptPrefix_of_cut (metric_cutInFence (frontmatterPrefixLimit - 22))
  rw [show frontmatterPrefixLimit - 22 + 22 = frontmatterPrefixLimit from rfl] at hsome
  exact hnot (h metadata bodyStart hsome).2

-- cut off, the line is a fence; it is none in the whole document
example : let document := "---\ntype: Metric\n---more".toList
    (conceptPrefix metricYaml "metric.md".toList (textWithin 20 document)).map Prod.snd = some 20 ∧
      conceptPrefix metricYaml "metric.md".toList document = none := by
  decide

end Indexer
