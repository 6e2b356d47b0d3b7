-- SUMMARY: Which conditions of a COPY or MOVE hold of what it copied, replaced and deleted, among other clients.
import NotedThat.Webdav.CopyMove
import NotedThat.Webdav.IfGrammar
import NotedThat.Write.Specs

/-!
# The conditions of COPY and MOVE

A COPY or MOVE runs while other clients write and delete. The conditions on the source are
carried into the copy, which is pinned to the source's entity tag, and so is `Overwrite: F`. What
a tagged `If` list says of the destination is judged on a HEAD that nothing pins: it holds of
what the copy replaces when the destination did not change after that HEAD, and the HEAD did not
fail. And the handler reads the first line of `If-Match` and of `If-None-Match`, if it is text, and
no other.
-/

namespace CopyConditions

open Prog (wp)
open Semantics (Event Quiet)
open Webdav (WebDavState CopyPlan)

/-! ## What the request asks for -/

/-- Every condition in the headers of the request holds in `w`, where the source is at version `v`. The
lines of `If-Match`, and those of `If-None-Match`, are one list. -/
structure Conditions (uris : IfHeader.Uris) (state : WebDavState) (req : Request) (plan : CopyPlan) (w : World)
    (v : Version) : Prop where
  ifMatch : req.headers.getAll "if-match" ≠ [] → ∃ line ∈ req.headers.getAll "if-match",
    Preconditions.matchesIfMatch v.etag.val (HeaderMap.latin1 line) = true
  ifNoneMatch : ∀ line ∈ req.headers.getAll "if-none-match",
    Preconditions.matchesIfNoneMatch (some v.etag.val) (HeaderMap.latin1 line) = false
  overwrite : ∀ line ∈ req.headers.getAll "overwrite", HeaderMap.latin1 line = ['F'] →
    w.get plan.dstKey = none
  ifHeader : ∀ line ∈ req.headers.getAll "if", ∀ header,
    IfHeader.Generated uris IfHeader.IsOpaqueTag (HeaderMap.latin1 line) header →
      header.Holds (plan.currentEtag state v.etag.val ((w.get plan.dstKey).map (·.etag.val)))

/-- The same of the conditions that the handler has read. -/
structure Judged (state : WebDavState) (plan : CopyPlan) (w : World) (v : Version) : Prop where
  ifMatch : ∀ value ∈ plan.conditionals.ifMatch, Preconditions.matchesIfMatch v.etag.val value = true
  ifNoneMatch : ∀ value ∈ plan.conditionals.ifNoneMatch,
    Preconditions.matchesIfNoneMatch (some v.etag.val) value = false
  overwrite : plan.overwrite = false → w.get plan.dstKey = none
  ifHeader : plan.ifHolds state v.etag.val ((w.get plan.dstKey).map (·.etag.val)) = true

/-- The first line of `If-Match` is text, `If-None-Match` is one line of text, and in the `If` header no
entity tag has a closing bracket. -/
structure ReadInFull (uris : IfHeader.Uris) (req : Request) : Prop where
  ifMatch : ∀ line ∈ (req.headers.getAll "if-match").head?, ∃ text, HeaderMap.toStr line = some text
  ifNoneMatch : ∀ line ∈ req.headers.getAll "if-none-match",
    req.headers.getAll "if-none-match" = [line] ∧ ∃ text, HeaderMap.toStr line = some text
  ifHeader : ∀ line ∈ req.headers.getAll "if", ∀ header,
    IfHeader.Generated uris IfHeader.IsOpaqueTag (HeaderMap.latin1 line) header →
      ∀ e ∈ IfHeader.listEtags header.lists, ']' ∉ e

/-- A header that may be given once is text, on one line. -/
theorem single_line {headers : HeaderMap} {name : String} {value : Option Text} {line : Bytes}
    (h : headers.single name = some value) (hline : line ∈ headers.getAll name) :
    value = some (HeaderMap.latin1 line) := by
  unfold HeaderMap.single at h
  split at h
  · next hnil =>
    rw [hnil] at hline
    cases hline
  · next only hone =>
    rw [hone] at hline
    obtain rfl := List.mem_singleton.mp hline
    obtain ⟨text, htext, rfl⟩ := Option.map_eq_some_iff.mp h
    rw [HeaderMap.toStr_eq_some htext]
  · cases h

theorem Judged.conditions {uris : IfHeader.Uris} {state : WebDavState} {req : Request} {plan : CopyPlan} {w : World}
    {v : Version} (h : Judged state plan w v) (hof : plan.Of state req) (hread : ReadInFull uris req) :
    Conditions uris state req plan w v where
  ifMatch := by
    intro hlines
    obtain ⟨line, rest, hlines⟩ := List.exists_cons_of_ne_nil hlines
    obtain ⟨text, htext⟩ := hread.ifMatch line (by rw [hlines]; rfl)
    have hvalue : plan.conditionals.ifMatch = some text := by
      rw [hof.conditionals]
      change req.headers.getStr "if-match" = _
      rw [HeaderMap.getStr, HeaderMap.get, hlines]
      exact htext
    refine ⟨line, hlines ▸ List.mem_cons_self, ?_⟩
    rw [← HeaderMap.toStr_eq_some htext]
    exact h.ifMatch text hvalue
  ifNoneMatch := by
    intro line hline
    obtain ⟨hlines, text, htext⟩ := hread.ifNoneMatch line hline
    have hvalue : plan.conditionals.ifNoneMatch = some text := by
      rw [hof.conditionals]
      change req.headers.getStr "if-none-match" = _
      rw [HeaderMap.getStr, HeaderMap.get, hlines]
      exact htext
    rw [← HeaderMap.toStr_eq_some htext]
    exact h.ifNoneMatch text hvalue
  overwrite := by
    intro line hline hno
    refine h.overwrite ?_
    have hoverwrite := hof.overwrite
    unfold Webdav.parseOverwrite at hoverwrite
    cases hsingle : req.headers.single "overwrite" with
    | none =>
      rw [hsingle] at hoverwrite
      cases hoverwrite
    | some value =>
      obtain rfl := single_line hsingle hline
      rw [hsingle, hno] at hoverwrite
      exact (Option.some.inj hoverwrite).symm
  ifHeader := by
    intro line hline header hgenerated
    have hif := hof.ifHeader
    unfold IfHeader.fromHeaders at hif
    cases hsingle : req.headers.single "if" with
    | none =>
      rw [hsingle] at hif
      cases hif
    | some value =>
      obtain rfl := single_line hsingle hline
      have hparse := IfHeader.parse_generated (fun _ => id) hgenerated (hread.ifHeader line hline header hgenerated)
      rw [hsingle] at hif
      have hheader : plan.ifHeader = some header := by
        simpa [hparse] using hif.symm
      have hholds := h.ifHeader
      rw [CopyPlan.ifHolds, hheader, Option.all_some] at hholds
      exact IfHeader.evaluate_iff.mp hholds

/-- The event is the copy of `v` over the destination, in a state where the conditions hold. -/
def CopyConforms (holds : World → Version → Prop) (plan : CopyPlan) (e : Event) (v : Version) : Prop :=
  e.pre.get plan.srcKey = some v ∧ holds e.pre v ∧
    ∃ options stamp, e = Write.copyEvent plan.kb plan.source plan.destination options e.pre v stamp

/-- A change the request may make after the events `h`: the copy, or for MOVE the delete of the
very version that was copied. -/
def Conforms (holds : World → Version → Prop) (plan : CopyPlan) (deleteSource : Bool) (h : List Event)
    (e : Event) : Prop :=
  (∃ v, CopyConforms holds plan e v) ∨
    deleteSource = true ∧ e.post = e.pre.apply (.erased plan.srcKey) ∧
      ∃ c ∈ h, ∃ v, CopyConforms holds plan c v ∧ e.pre.get plan.srcKey = some v

theorem Conforms.mono {holds holds' : World → Version → Prop} {plan : CopyPlan} {deleteSource : Bool}
    {h : List Event} {e : Event} (hconforms : Conforms holds plan deleteSource h e)
    (hmono : ∀ w v, holds w v → holds' w v) : Conforms holds' plan deleteSource h e := by
  have hcopy : ∀ e v, CopyConforms holds plan e v → CopyConforms holds' plan e v :=
    fun _ _ ⟨hv, hholds, hevent⟩ => ⟨hv, hmono _ _ hholds, hevent⟩
  rcases hconforms with ⟨v, hv⟩ | ⟨hmove, hpost, c, hc, v, hv, hsrc⟩
  · exact .inl ⟨v, hcopy _ _ hv⟩
  · exact .inr ⟨hmove, hpost, c, hc, v, hcopy _ _ hv, hsrc⟩

/-- The destination is in `w` as the HEADs of it in `h` reported it, and none of them failed. -/
def Settled (plan : CopyPlan) (h : List Event) (w : World) : Prop :=
  ∀ w₁ w₁' r, ⟨w₁, .storage (.head plan.kb plan.destination {}), r, w₁'⟩ ∈ h →
    (w₁.get plan.dstKey).map (·.etag.val) = (w.get plan.dstKey).map (·.etag.val) ∧
      ∀ e, r = .error e → e.isNotFound = true

/-- At each copy of the run, no tagged list names the destination, or the destination is
settled. -/
def SettledRun (state : WebDavState) (plan : CopyPlan) (tr : List Event) : Prop :=
  ∀ pre e post, tr = pre ++ e :: post →
    (∃ kb source destination options, e.op = .storage (.copy kb source destination options)) →
    plan.namesDestination state = true → Settled plan pre e.pre

section Request

variable (state : WebDavState) (plan : CopyPlan) (deleteSource : Bool)

/-- The guarantee of every operation of the request. -/
def Keeps (h : List Event) (e : Event) : Prop :=
  SettledRun state plan (h ++ [e]) → e.post.store ≠ e.pre.store →
    Conforms (Judged state plan) plan deleteSource h e

variable {state plan deleteSource}

theorem quiet : Quiet Store.identifiedRely (Keeps state plan deleteSource) where
  rely := fun h => by
    simp only [Store.identifiedRely, h]
    exact ⟨fun _ he => he, id⟩
  guarantee := fun _ _ h _ hne => absurd h hne

variable {S : Semantics} {h : List Event} {w : World}

end Request

/-! ## Among other clients -/

/-- Other clients' writes and deletes, through the server or not. -/
def Others (S : Semantics) (w w' : World) : Prop := ∃ server, S.Env server w w'

/-- A server with the knowledge base `notes`; `parseUri` answers for the one URI used. -/
def notesState : WebDavState where
  declaredKbs := [("notes".toList, KbSlug.notes)]
  accessPolicies := []
  events := false
  json := ⟨fun _ => .error "expected value at line 1 column 1", fun _ => []⟩
  parseUri text := if text = "/webdav/notes/b.md".toList then some ⟨none, text⟩ else none

def taggedPlan : CopyPlan where
  kb := KbSlug.notes
  source := ObjectPath.aMd
  destination := ObjectPath.bMd
  overwrite := true
  conditionals := {}
  ifHeader := some ⟨[⟨some "/webdav/notes/b.md".toList, [⟨false, .etag "\"d\"".toList⟩]⟩]⟩

/-- A backend that identifies versions and never fails. -/
def identifyingSemantics : Semantics := .faultless Store.Identifies

def sourceVersion : Version := Version.tagged 's' [1]

def destinationVersion : Version := Version.tagged 'd' [2]

/-- `a.md` and `b.md` are stored. -/
def twoNotes : World :=
  (World.empty.apply (.stored taggedPlan.srcKey sourceVersion)).apply
    (.stored taggedPlan.dstKey destinationVersion)

theorem twoNotes_identified : twoNotes.store.Identified := by
  refine Store.IdentifiedBy.apply (.of_history (by decide)) true
    (Store.IdentifiedBy.apply (.of_history (by decide)) true ?_)
  intro k v v' hv
  cases hv

theorem copyTag_no_comma : ',' ∉ ['c'] := by decide

def copyStamp : Stamp := ⟨ETag.ofInner ['c'] copyTag_no_comma, 1⟩

/-- Another client has replaced `b.md`. -/
def replacedNotes : World := twoNotes.apply (.stored taggedPlan.dstKey (Version.tagged 'e' [3]))

end CopyConditions
