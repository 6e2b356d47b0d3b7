-- SUMMARY: Observing a snapshot while it is staged: its digest, that it is UTF-8, and its beginning, in whatever pieces it comes.
import NotedThat.Lib.LossyUtf8
import NotedThat.Indexer.Pipeline
import Mathlib.Data.List.Induction

/-!
# Snapshots

A document is read for indexing in chunks that may end anywhere. What of a character is there at the end of
a chunk is kept until the rest of it comes. The beginning of the document is kept without looking at its
characters, and what does not fit is taken off again at the end.
-/

namespace Indexer

open Utf8

/-- A digest whose message is given in pieces. `finalize` writes it in hexadecimal. -/
structure Sha256 where
  State : Type
  new : State
  update : State → Bytes → State
  finalize : State → Text

/-- What is digested is the message the pieces make. -/
def Sha256.Digests (sha : Sha256) (sha256 : Bytes → Text) : Prop :=
  ∀ pieces : List Bytes, sha.finalize (pieces.foldl sha.update sha.new) = sha256 pieces.flatten

/-- Why a snapshot is no text: `Utf8Error`, with the index up to which the bytes are valid and how many after
it are not, or an end in the middle of a character. -/
inductive SnapshotError where
  | utf8 (validUpTo : Nat) (errorLen : Option Nat)
  | insideScalar
deriving DecidableEq

def SnapshotError.message : SnapshotError → String
  | .utf8 validUpTo (some errorLen) =>
    "invalid utf-8 sequence of " ++ toString errorLen ++ " bytes from index " ++ toString validUpTo
  | .utf8 validUpTo none => "incomplete utf-8 byte sequence from index " ++ toString validUpTo
  | .insideScalar => "snapshot ends inside a UTF-8 scalar"

/-- The index counts from the chunk the error is in. -/
def SnapshotError.unplaced : SnapshotError → SnapshotError
  | .utf8 _ errorLen => .utf8 0 errorLen
  | .insideScalar => .insideScalar

structure SnapshotObserver (sha : Sha256) where
  hasher : sha.State
  beginning : Bytes
  incomplete : Bytes
  prefixLimit : Nat

/-- Take off the bytes of the last character until it is gone, if it is not whole. -/
def popIncomplete (beginning : Bytes) : Bytes :=
  match _h : fromUtf8 beginning with
  | .valid _ => beginning
  | .invalid validUpTo _ =>
    if errorLen (beginning.drop validUpTo) = none then popIncomplete beginning.dropLast else beginning
termination_by beginning.length
decreasing_by
  obtain ⟨-, -, -, hstuck⟩ := fromUtf8_eq_invalid _h
  have hpos := List.length_pos_iff.mpr hstuck.1
  rw [List.length_drop] at hpos
  rw [List.length_dropLast]
  omega

namespace SnapshotObserver

variable {sha : Sha256}

def new (prefixLimit : Nat) : SnapshotObserver sha := ⟨sha.new, [], [], prefixLimit⟩

def observe (observer : SnapshotObserver sha) (bytes : Bytes) : Except SnapshotError (SnapshotObserver sha) :=
  let prefixRemaining := observer.prefixLimit - observer.beginning.length
  let observed := { observer with
    hasher := sha.update observer.hasher bytes
    beginning := observer.beginning ++ bytes.take prefixRemaining }
  let validation := observer.incomplete ++ bytes
  match fromUtf8 validation with
  | .valid _ => .ok { observed with incomplete := [] }
  | .invalid validUpTo _ =>
    match errorLen (validation.drop validUpTo) with
    | some len => .error (.utf8 validUpTo (some len))
    | none => .ok { observed with incomplete := validation.drop validUpTo }

def finish (observer : SnapshotObserver sha) : Except SnapshotError SnapshotFacts :=
  if observer.incomplete ≠ [] then .error .insideScalar
  else
    let beginning := popIncomplete observer.beginning
    match fromUtf8 beginning with
    | .valid text => .ok ⟨sha.finalize observer.hasher, text⟩
    | .invalid validUpTo _ => .error (.utf8 validUpTo (errorLen (beginning.drop validUpTo)))

end SnapshotObserver

/-- Stage a snapshot: every chunk is observed, up to the first that is refused. -/
def snapshotFacts (sha : Sha256) (prefixLimit : Nat) (chunks : List Bytes) : Except SnapshotError SnapshotFacts := do
  let observer ← chunks.foldlM SnapshotObserver.observe (@SnapshotObserver.new sha prefixLimit)
  observer.finish

/-! ## The beginning -/

/-- The front of a text is what fits of it, with a part of the next character. -/
theorem take_encode_textWithin (limit : Nat) (text : Text) : ∃ part,
    (encode text).take limit = encode (textWithin limit text) ++ part ∧ (part = [] ∨ ∃ c, IsPart part c) := by
  induction text generalizing limit with
  | nil => exact ⟨[], by simp [textWithin], .inl rfl⟩
  | cons c text ih =>
    have hsize := String.length_utf8EncodeChar c
    unfold textWithin
    split
    · next hfits =>
      obtain ⟨part, htake, hpart⟩ := ih (limit - c.utf8Size)
      refine ⟨part, ?_, hpart⟩
      rw [encode_cons, List.take_append, List.take_of_length_le (by omega), hsize, htake, encode_cons,
        List.append_assoc]
    · next hcut =>
      refine ⟨(String.utf8EncodeChar c).take limit, ?_, .inr ⟨c, List.take_prefix _ _, fun heq => ?_⟩⟩
      · rw [encode_cons, List.take_append_of_le_length (by omega), encode_nil, List.nil_append]
      · have hlen := congrArg List.length heq
        rw [List.length_take] at hlen
        omega

/-- What fits of a text is the longest text in its front. -/
theorem encode_begins_take {limit : Nat} {s text : Text} :
    encode s <+: (encode text).take limit ↔ s <+: textWithin limit text := by
  obtain ⟨part, htake, hpart⟩ := take_encode_textWithin limit text
  rw [htake]
  constructor
  · intro hs
    rcases List.prefix_or_prefix_of_prefix hs (List.prefix_append _ part) with ⟨x, hx⟩ | ⟨x, hx⟩
    · obtain ⟨rest, hrest, -⟩ := encode_append_eq hx
      exact ⟨rest, hrest.symm⟩
    · -- more characters would begin in the part
      obtain ⟨rest, rfl, -⟩ := encode_append_eq hx
      rw [encode_append, List.prefix_append_right_inj] at hs
      have hnil : rest = [] := by
        by_cases hne : part = []
        · rw [hne, List.prefix_nil] at hs
          exact encode_injective hs
        · obtain ⟨c, hc⟩ := hpart.resolve_left hne
          exact (stuck_of_isPart hc hne).encode_nil_of_begins hs
      exact ⟨[], by rw [hnil, List.append_nil, List.append_nil]⟩
  · rintro ⟨rest, hrest⟩
    rw [← hrest, encode_append, List.append_assoc]
    exact List.prefix_append _ _

theorem popIncomplete_encode_append (t : Text) {part : Bytes} (hpart : part = [] ∨ ∃ c, IsPart part c) :
    popIncomplete (encode t ++ part) = encode t := by
  induction part using List.reverseRecOn with
  | nil =>
    rw [List.append_nil, popIncomplete]
    split
    · rfl
    · next hinvalid =>
      rw [fromUtf8_encode] at hinvalid
      cases hinvalid
  | append_singleton part b ih =>
    have hne : part ++ [b] ≠ [] := List.append_ne_nil_of_right_ne_nil part (List.cons_ne_nil b [])
    obtain ⟨c, hc⟩ := hpart.resolve_left hne
    have hchecked := fromUtf8_encode_append (t := t) hc hne
    rw [popIncomplete]
    split
    · next hvalid =>
      rw [hchecked] at hvalid
      cases hvalid
    · next hinvalid =>
      rw [hchecked] at hinvalid
      cases hinvalid
      rw [List.drop_left, errorLen, if_pos (isTruncated_of_isPart hc hne), if_pos rfl, ← List.append_assoc,
        List.dropLast_concat]
      refine ih (.inr ⟨c, (List.prefix_append part [b]).trans hc.1, ?_⟩)
      rintro rfl
      have hlen := hc.1.length_le
      rw [List.length_append, List.length_singleton] at hlen
      omega

/-! ## Chunks -/

section Observed

variable {sha : Sha256} {limit : Nat} {seen : List Bytes} {observer : SnapshotObserver sha}

/-- What an observer holds behind the chunks it has seen: of an unfinished character, its bytes. -/
structure Observed (limit : Nat) (seen : List Bytes) (observer : SnapshotObserver sha) : Prop where
  hasher : observer.hasher = seen.foldl sha.update sha.new
  beginning : observer.beginning = seen.flatten.take limit
  prefixLimit : observer.prefixLimit = limit
  text : ∃ t, seen.flatten = encode t ++ observer.incomplete
  incomplete : observer.incomplete = [] ∨ isTruncated observer.incomplete = true

theorem Observed.new : Observed limit [] (@SnapshotObserver.new sha limit) :=
  ⟨rfl, List.take_nil.symm, rfl, ⟨[], rfl⟩, .inl rfl⟩

/-- The bytes are no text, and what begins at the first that are none goes wrong after `len`. -/
def Invalid (bytes : Bytes) (len : Nat) : Prop := ∃ t x, bytes = encode t ++ x ∧ Stuck x ∧ errorLen x = some len

theorem Invalid.append {bytes : Bytes} {len : Nat} (h : Invalid bytes len) (more : Bytes) :
    Invalid (bytes ++ more) len := by
  obtain ⟨t, x, rfl, hstuck, hlen⟩ := h
  exact ⟨t, x ++ more, List.append_assoc .., hstuck.append hlen more, (errorLen_append hstuck.1 hlen more).1⟩

/-- A chunk is added to what was seen, or the bytes so far are invalid. -/
theorem Observed.observe (h : Observed limit seen observer) (bytes : Bytes) :
    match observer.observe bytes with
    | .ok observer' => Observed limit (seen ++ [bytes]) observer'
    | .error e => ∃ len, e.unplaced = .utf8 0 (some len) ∧ Invalid (seen ++ [bytes]).flatten len := by
  obtain ⟨t, ht⟩ := h.text
  have hflatten : (seen ++ [bytes]).flatten = encode t ++ (observer.incomplete ++ bytes) := by
    rw [List.flatten_append, List.flatten_singleton, ht, List.append_assoc]
  have hhasher : sha.update observer.hasher bytes = (seen ++ [bytes]).foldl sha.update sha.new := by
    rw [h.hasher, List.foldl_append]
    rfl
  have hbeginning : observer.beginning ++ bytes.take (observer.prefixLimit - observer.beginning.length) =
      (seen ++ [bytes]).flatten.take limit := by
    rw [h.beginning, h.prefixLimit, List.flatten_append, List.flatten_singleton, List.take_append, List.length_take]
    congr 2
    omega
  unfold SnapshotObserver.observe
  dsimp only
  rcases encode_or_stuck (observer.incomplete ++ bytes) with ⟨s, hs⟩ | ⟨s, x, hs, hstuck⟩
  · rw [hs, fromUtf8_encode]
    refine ⟨hhasher, hbeginning, h.prefixLimit, ⟨t ++ s, ?_⟩, .inl rfl⟩
    rw [hflatten, hs, encode_append, List.append_nil]
  · have hwhole : (seen ++ [bytes]).flatten = encode (t ++ s) ++ x := by
      rw [hflatten, hs, encode_append, List.append_assoc]
    rw [hs, fromUtf8_stuck hstuck]
    dsimp only
    rw [List.drop_left]
    cases hlen : errorLen x with
    | some len => exact ⟨len, rfl, t ++ s, x, hwhole, hstuck, hlen⟩
    | none =>
      rw [errorLen, ite_eq_left_iff] at hlen
      refine ⟨hhasher, hbeginning, h.prefixLimit, ⟨t ++ s, hwhole⟩, .inr ?_⟩
      by_contra hnot
      cases hlen hnot

theorem Observed.foldlM (h : Observed limit seen observer) (chunks : List Bytes) :
    match chunks.foldlM SnapshotObserver.observe observer with
    | .ok observer' => Observed limit (seen ++ chunks) observer'
    | .error e => ∃ len, e.unplaced = .utf8 0 (some len) ∧ Invalid (seen ++ chunks).flatten len := by
  induction chunks generalizing seen observer with
  | nil =>
    rw [List.append_nil]
    exact h
  | cons bytes chunks ih =>
    have hstep := h.observe bytes
    rw [List.foldlM_cons, ← List.singleton_append, ← List.append_assoc]
    cases hobserve : observer.observe bytes with
    | error e =>
      rw [hobserve] at hstep
      obtain ⟨len, hlen, hinvalid⟩ := hstep
      refine ⟨len, hlen, ?_⟩
      rw [List.flatten_append]
      exact hinvalid.append _
    | ok observer' =>
      rw [hobserve] at hstep
      exact ih hstep

/-- What is found out of a document that is read whole. -/
def factsOf (sha256 : Bytes → Text) (limit : Nat) (bytes : Bytes) : Except SnapshotError SnapshotFacts :=
  match fromUtf8 bytes with
  | .valid text => .ok ⟨sha256 bytes, textWithin limit text⟩
  | .invalid validUpTo _ =>
    match errorLen (bytes.drop validUpTo) with
    | some len => .error (.utf8 0 (some len))
    | none => .error .insideScalar

theorem factsOf_encode {sha256 : Bytes → Text} (text : Text) :
    factsOf sha256 limit (encode text) = .ok ⟨sha256 (encode text), textWithin limit text⟩ := by
  rw [factsOf, fromUtf8_encode]

theorem factsOf_stuck {sha256 : Bytes → Text} {x : Bytes} (h : Stuck x) (t : Text) :
    factsOf sha256 limit (encode t ++ x) = .error
      (match errorLen x with
      | some len => .utf8 0 (some len)
      | none => .insideScalar) := by
  rw [factsOf, fromUtf8_stuck h]
  dsimp only
  rw [List.drop_left]
  cases errorLen x <;> rfl

theorem factsOf_eq_ok {sha256 : Bytes → Text} {bytes : Bytes} {facts : SnapshotFacts} :
    factsOf sha256 limit bytes = .ok facts ↔
      ∃ text, bytes = encode text ∧ facts = ⟨sha256 bytes, textWithin limit text⟩ := by
  rcases encode_or_stuck bytes with ⟨text, rfl⟩ | ⟨t, x, rfl, hstuck⟩
  · rw [factsOf_encode, Except.ok.injEq, eq_comm]
    constructor
    · intro h
      exact ⟨text, rfl, h⟩
    · rintro ⟨text', htext, h⟩
      obtain rfl := encode_injective htext
      exact h
  · rw [factsOf_stuck hstuck]
    exact iff_of_false nofun fun ⟨text, htext, _⟩ => hstuck.not_text htext

/-- At the end the observer tells what the whole is. -/
theorem Observed.finish {sha256 : Bytes → Text} (hsha : sha.Digests sha256) (h : Observed limit seen observer) :
    observer.finish.mapError SnapshotError.unplaced = factsOf sha256 limit seen.flatten := by
  obtain ⟨t, ht⟩ := h.text
  unfold SnapshotObserver.finish
  by_cases hincomplete : observer.incomplete = []
  · rw [if_neg (not_not_intro hincomplete), h.beginning, ht, hincomplete, List.append_nil]
    obtain ⟨part, htake, hpart⟩ := take_encode_textWithin limit t
    dsimp only
    rw [htake, popIncomplete_encode_append _ hpart, fromUtf8_encode, factsOf_encode, h.hasher, hsha, ht,
      hincomplete, List.append_nil]
    rfl
  · have htruncated := h.incomplete.resolve_left hincomplete
    rw [if_pos hincomplete, ht, factsOf_stuck (stuck_of_isTruncated htruncated), errorLen, if_pos htruncated]
    rfl

/-- Observing the chunks finds out what reading the whole does. -/
theorem snapshotFacts_unplaced {sha256 : Bytes → Text} (hsha : sha.Digests sha256) (chunks : List Bytes) :
    (snapshotFacts sha limit chunks).mapError SnapshotError.unplaced = factsOf sha256 limit chunks.flatten := by
  have hrun := (@Observed.new sha limit).foldlM chunks
  unfold snapshotFacts
  cases hobserver : chunks.foldlM SnapshotObserver.observe (@SnapshotObserver.new sha limit) with
  | error e =>
    rw [hobserver] at hrun
    obtain ⟨len, hlen, t, x, hflatten, hstuck, herror⟩ := hrun
    rw [List.nil_append] at hflatten
    rw [hflatten, factsOf_stuck hstuck, herror]
    exact congrArg Except.error hlen
  | ok observer =>
    rw [hobserver] at hrun
    exact Observed.finish hsha hrun

end Observed

theorem mapError_eq_ok {e : Type} {a : Type} {f : e → e} {result : Except e a} {value : a} :
    result.mapError f = .ok value ↔ result = .ok value := by
  cases result <;> simp [Except.mapError]

/-- A snapshot is accepted if and only if it is UTF-8. Its digest is then that of the whole, and its beginning the
longest text in the first `limit` bytes. How the bytes are split does not matter to any of this, nor to what is
wrong with a snapshot that is refused. -/
theorem snapshotFacts_exact (sha : Sha256) (sha256 : Bytes → Text) (hsha : sha.Digests sha256) (limit : Nat)
    (chunks : List Bytes) :
    ((∃ facts, snapshotFacts sha limit chunks = .ok facts) ↔ ∃ text, chunks.flatten = encode text) ∧
      (∀ facts, snapshotFacts sha limit chunks = .ok facts →
        facts.contentHash = sha256 chunks.flatten ∧
          ∀ text, encode text <+: chunks.flatten.take limit ↔ text <+: facts.beginning) ∧
      ∀ chunks' : List Bytes, chunks'.flatten = chunks.flatten →
        (snapshotFacts sha limit chunks').mapError SnapshotError.unplaced =
          (snapshotFacts sha limit chunks).mapError SnapshotError.unplaced := by
  have hfacts : ∀ facts, snapshotFacts sha limit chunks = .ok facts ↔
      ∃ text, chunks.flatten = encode text ∧ facts = ⟨sha256 chunks.flatten, textWithin limit text⟩ := by
    intro facts
    rw [← mapError_eq_ok (f := SnapshotError.unplaced), snapshotFacts_unplaced hsha, factsOf_eq_ok]
  refine ⟨?_, ?_, ?_⟩
  · constructor
    · rintro ⟨facts, h⟩
      obtain ⟨text, htext, -⟩ := (hfacts facts).mp h
      exact ⟨text, htext⟩
    · rintro ⟨text, htext⟩
      exact ⟨_, (hfacts _).mpr ⟨text, htext, rfl⟩⟩
  · intro facts h
    obtain ⟨text, htext, rfl⟩ := (hfacts facts).mp h
    refine ⟨rfl, fun s => ?_⟩
    rw [htext]
    exact encode_begins_take
  · intro chunks' heq
    rw [snapshotFacts_unplaced hsha, snapshotFacts_unplaced hsha, heq]

/-- A digest that keeps the whole message. -/
def Sha256.collecting (sha256 : Bytes → Text) : Sha256 := ⟨Bytes, [], (· ++ ·), sha256⟩

theorem Sha256.collecting_digests (sha256 : Bytes → Text) : (Sha256.collecting sha256).Digests sha256 := by
  intro pieces
  have hcollect : ∀ seen : Bytes, pieces.foldl (· ++ ·) seen = seen ++ pieces.flatten := by
    induction pieces with
    | nil => simp
    | cons piece pieces ih =>
      intro seen
      rw [List.foldl_cons, ih, List.flatten_cons, List.append_assoc]
  exact congrArg sha256 (hcollect [])

/-- The two bytes of one letter come in chunks of their own. -/
theorem snapshotFacts_exact_split :
    let digest := fun _ : Bytes => "4a99557e4033c3539de2eb65472017cad5f9557f7a0625a09f1c3f6e2ba69c4c".toList
    ∃ facts, snapshotFacts (.collecting digest) 1 [[0xC3], [], [0xA9]] = .ok facts ∧
      facts.contentHash = digest (encode ['é']) := by
  intro digest
  obtain ⟨hvalid, hfacts, -⟩ :=
    snapshotFacts_exact (.collecting digest) digest (Sha256.collecting_digests digest) 1 [[0xC3], [], [0xA9]]
  obtain ⟨facts, h⟩ := hvalid.mpr ⟨['é'], by decide⟩
  exact ⟨facts, h, (hfacts facts h).1⟩

/-- The pipeline inspects what the observer has found out. -/
theorem inspect_flatten {worker : IndexerWorker} {sha : Sha256} (hsha : sha.Digests worker.documents.sha256)
    (objectKey : ObjectPath) (chunks : List Bytes) : inspect worker objectKey chunks.flatten =
      match snapshotFacts sha frontmatterPrefixLimit chunks with
      | .error _ => .error (worker.documents.utf8Error chunks.flatten)
      | .ok facts =>
        match worker.documents.conceptPrefix objectKey.val facts.beginning with
        | some (metadata, bodyStart) => .ok (facts, some metadata, bodyStart)
        | none => .ok (facts, none, 0) := by
  have hfacts := @snapshotFacts_unplaced sha frontmatterPrefixLimit _ hsha chunks
  rcases encode_or_stuck chunks.flatten with ⟨text, htext⟩ | ⟨t, x, hstuck, hx⟩
  · rw [htext, factsOf_encode, mapError_eq_ok] at hfacts
    rcases hfound : worker.documents.conceptPrefix objectKey.val (textWithin frontmatterPrefixLimit text) with
      _ | ⟨metadata, bodyStart⟩ <;>
      simp only [hfacts, inspect, htext, decode?_encode, hfound]
  · rw [hstuck, factsOf_stuck hx] at hfacts
    have hnone : decode? chunks.flatten = none := by
      rw [Option.eq_none_iff_forall_ne_some]
      intro s hs
      rw [decode?_eq_some, hstuck] at hs
      exact hx.not_text hs
    rw [inspect, hnone]
    cases hresult : snapshotFacts sha frontmatterPrefixLimit chunks with
    | error e => rfl
    | ok facts =>
      rw [hresult] at hfacts
      cases hfacts

end Indexer
