-- SUMMARY: Walking a whole listing: what a walk returns is every page up to one marked complete, and when it never returns.
import NotedThat.Core.Storage
import Mathlib.Data.List.Perm.Subperm

/-!
# Walking a listing

Reconciliation needs the tags of all objects, page by page. Whatever it does not reach looks deleted, so a page
that announces more but gives no cursor, or the one that was just sent, ends the walk with an error. A backend
that goes round in a circle of cursors is not noticed.
-/

/-- What the walk does after one page. -/
inductive Advance where
  | done
  | next (cursor : Text)
deriving DecidableEq

/-- Whether a listing has more pages. -/
def advance (truncated : Bool) (nextCursor sent : Option Text) : Except StorageError Advance :=
  match truncated, nextCursor with
  | false, _ => .ok .done
  | true, none => .error (.backendUnavailable "listing reported more pages but supplied no cursor")
  | true, some next =>
    if some next = sent then .error (.backendUnavailable "listing repeated the cursor it was given")
    else .ok (.next next)

/-- `Storage::list_objects` of one knowledge base, by how often it was asked before: a backend may answer the
same question differently another time. -/
abbrev ListingBackend := Nat → Option Text → Nat → Option Text → Except StorageError ListResponse

/-- What a walk keeps of a page. -/
def ListResponse.etags (listing : ListResponse) : List (Text × Option Text) :=
  listing.objects.map fun object => (object.key, object.etag)

section Walk

variable (backend : ListingBackend) (pre : Option Text) (page : Nat)

/-- The walk from a cursor on, within a number of calls. -/
def walkFrom : Nat → Nat → Option Text → List (Text × Option Text) →
    Option (Except StorageError (List (Text × Option Text)))
  | 0, _, _, _ => none
  | calls + 1, asked, cursor, out =>
    match backend asked pre page cursor with
    | .error e => some (.error e)
    | .ok listing =>
      let out := out ++ listing.etags
      match advance listing.truncated listing.nextCursor cursor with
      | .error e => some (.error e)
      | .ok .done => some (.ok out)
      | .ok (.next next) => walkFrom calls (asked + 1) (some next) out

def walkEtagsPaged (calls : Nat) : Option (Except StorageError (List (Text × Option Text))) :=
  walkFrom backend pre page calls 0 none []

/-! ## Pages -/

/-- The pages that a walk has received and gone on from, and the cursor that it sends next. -/
inductive Received : List ListResponse → Option Text → Prop where
  | start : Received [] none
  | page {pages : List ListResponse} {cursor : Option Text} {listing : ListResponse} {next : Text} :
      Received pages cursor → backend pages.length pre page cursor = .ok listing → listing.truncated = true →
        listing.nextCursor = some next → some next ≠ cursor → Received (pages ++ [listing]) (some next)

/-- What ends a walk behind some pages: a page marked complete, a failure, or a page that cannot be followed. -/
inductive Ends (pages : List ListResponse) (cursor : Option Text) :
    Except StorageError (List (Text × Option Text)) → Prop where
  | complete {listing : ListResponse} : backend pages.length pre page cursor = .ok listing →
      listing.truncated = false → Ends pages cursor (.ok ((pages ++ [listing]).flatMap ListResponse.etags))
  | failed {e : StorageError} : backend pages.length pre page cursor = .error e → Ends pages cursor (.error e)
  | lost {listing : ListResponse} : backend pages.length pre page cursor = .ok listing →
      listing.truncated = true → listing.nextCursor = none →
        Ends pages cursor (.error (.backendUnavailable "listing reported more pages but supplied no cursor"))
  | repeated {listing : ListResponse} {sent : Text} : backend pages.length pre page cursor = .ok listing →
      listing.truncated = true → listing.nextCursor = some sent → cursor = some sent →
        Ends pages cursor (.error (.backendUnavailable "listing repeated the cursor it was given"))

variable {backend pre page} {pages pages' : List ListResponse} {cursor cursor' : Option Text}

/-- After each page a walk ends or goes on to the next. -/
theorem step_cases (h : Received backend pre page pages cursor) :
    (∃ result, Ends backend pre page pages cursor result ∧ ∀ calls,
      walkFrom backend pre page (calls + 1) pages.length cursor (pages.flatMap ListResponse.etags) = some result) ∨
    ∃ listing next, Received backend pre page (pages ++ [listing]) (some next) ∧ ∀ calls,
      walkFrom backend pre page (calls + 1) pages.length cursor (pages.flatMap ListResponse.etags) =
        walkFrom backend pre page calls (pages ++ [listing]).length (some next)
          ((pages ++ [listing]).flatMap ListResponse.etags) := by
  simp only [walkFrom]
  cases hlisting : backend pages.length pre page cursor with
  | error e => exact .inl ⟨_, .failed hlisting, fun _ => rfl⟩
  | ok listing =>
    dsimp only
    unfold advance
    cases htruncated : listing.truncated with
    | false =>
      refine .inl ⟨_, .complete hlisting htruncated, fun _ => ?_⟩
      simp
    | true =>
      cases hnext : listing.nextCursor with
      | none => exact .inl ⟨_, .lost hlisting htruncated hnext, fun _ => rfl⟩
      | some next =>
        dsimp only
        by_cases hrepeated : some next = cursor
        · rw [if_pos hrepeated]
          exact .inl ⟨_, .repeated hlisting htruncated hnext hrepeated.symm, fun _ => rfl⟩
        · rw [if_neg hrepeated]
          refine .inr ⟨listing, next, .page h hlisting htruncated hnext hrepeated, fun _ => ?_⟩
          simp

/-- A walk of as many calls has ended, or has received as many pages more. -/
theorem walkFrom_cases (h : Received backend pre page pages cursor) (calls : Nat) :
    (∃ result more cursor', walkFrom backend pre page calls pages.length cursor
        (pages.flatMap ListResponse.etags) = some result ∧ more.length < calls ∧
        Received backend pre page (pages ++ more) cursor' ∧ Ends backend pre page (pages ++ more) cursor' result) ∨
      walkFrom backend pre page calls pages.length cursor (pages.flatMap ListResponse.etags) = none ∧
        ∃ more cursor', more.length = calls ∧ Received backend pre page (pages ++ more) cursor' := by
  induction calls generalizing pages cursor with
  | zero => exact .inr ⟨rfl, [], cursor, rfl, by rwa [List.append_nil]⟩
  | succ calls ih =>
    rcases step_cases h with ⟨result, hends, hresult⟩ | ⟨listing, next, hreceived, hrest⟩
    · refine .inl ⟨result, [], cursor, hresult calls, Nat.succ_pos _, ?_, ?_⟩
      · rwa [List.append_nil]
      · rwa [List.append_nil]
    · rw [hrest]
      rcases ih hreceived with ⟨result, more, cursor', hresult, hlt, hmore, hends⟩ | ⟨hnone, more, cursor', hlen, hmore⟩
      · rw [List.append_assoc] at hmore hends
        exact .inl ⟨result, listing :: more, cursor', hresult, Nat.succ_lt_succ hlt, hmore, hends⟩
      · rw [List.append_assoc] at hmore
        exact .inr ⟨hnone, listing :: more, cursor', congrArg (· + 1) hlen, hmore⟩

theorem walkEtagsPaged_cases (backend : ListingBackend) (pre : Option Text) (page calls : Nat) :
    (∃ result pages cursor, walkEtagsPaged backend pre page calls = some result ∧ pages.length < calls ∧
        Received backend pre page pages cursor ∧ Ends backend pre page pages cursor result) ∨
      walkEtagsPaged backend pre page calls = none ∧
        ∃ pages cursor, pages.length = calls ∧ Received backend pre page pages cursor :=
  walkFrom_cases .start calls

/-- The last page of those received was followed. -/
theorem Received.last {listing : ListResponse} (h : Received backend pre page (pages ++ [listing]) cursor') :
    ∃ cursor next, Received backend pre page pages cursor ∧ backend pages.length pre page cursor = .ok listing ∧
      listing.truncated = true ∧ listing.nextCursor = some next ∧ some next ≠ cursor ∧ cursor' = some next := by
  generalize hall : pages ++ [listing] = all at h
  cases h with
  | start => exact absurd hall (List.append_ne_nil_of_right_ne_nil _ (List.cons_ne_nil _ _))
  | @page front cursor last next hfront hlast htruncated hnext hfresh =>
    obtain ⟨rfl, hsingle⟩ := List.append_inj' hall rfl
    cases hsingle
    exact ⟨cursor, next, hfront, hlast, htruncated, hnext, hfresh, rfl⟩

/-- A backend has one sequence of pages. -/
theorem Received.unique (h : Received backend pre page pages cursor) (h' : Received backend pre page pages' cursor')
    (hlen : pages'.length = pages.length) : pages' = pages ∧ cursor' = cursor := by
  induction h generalizing pages' cursor' with
  | start =>
    cases h' with
    | start => exact ⟨rfl, rfl⟩
    | page => simp at hlen
  | @page front cursor listing next hfront hlisting htruncated hnext _ ih =>
    cases h' with
    | start => simp at hlen
    | @page front' cursor' listing' next' hfront' hlisting' htruncated' hnext' _ =>
      obtain ⟨rfl, rfl⟩ := ih hfront' (by simpa using hlen)
      rw [hlisting] at hlisting'
      cases hlisting'
      rw [hnext] at hnext'
      exact ⟨rfl, hnext'.symm⟩

/-- A walk that has ended did not go on. -/
theorem Ends.not_received {result : Except StorageError (List (Text × Option Text))} {listing : ListResponse}
    (h : Ends backend pre page pages cursor result) (hpages : Received backend pre page pages cursor) :
    ¬ Received backend pre page (pages ++ [listing]) cursor' := by
  intro hmore
  obtain ⟨cursor'', next, hpages', hlisting, htruncated, hnext, hfresh, -⟩ := hmore.last
  obtain ⟨-, rfl⟩ := hpages.unique hpages' rfl
  cases h with
  | complete hlisting' hlast =>
    rw [hlisting] at hlisting'
    cases hlisting'
    rw [hlast] at htruncated
    cases htruncated
  | failed hlisting' =>
    rw [hlisting] at hlisting'
    cases hlisting'
  | lost hlisting' _ hnone =>
    rw [hlisting] at hlisting'
    cases hlisting'
    rw [hnone] at hnext
    cases hnext
  | repeated hlisting' _ hsent hcursor =>
    rw [hlisting] at hlisting'
    cases hlisting'
    exact hfresh ((hnext.symm.trans hsent).trans hcursor.symm)

theorem Received.length_cursors (h : Received backend pre page pages cursor) :
    (pages.filterMap (·.nextCursor)).length = pages.length := by
  induction h with
  | start => rfl
  | page _ _ _ hnext _ ih => simp [hnext, ih]

/-- A walk never returns if there are always more pages. -/
theorem walk_none_iff : (∀ calls, walkEtagsPaged backend pre page calls = none) ↔
    ∀ n, ∃ pages cursor, pages.length = n ∧ Received backend pre page pages cursor := by
  constructor
  · intro hnone n
    rcases walkEtagsPaged_cases backend pre page n with ⟨result, pages, cursor, hresult, -⟩ | ⟨-, hpages⟩
    · rw [hnone] at hresult
      cases hresult
    · exact hpages
  · intro hall calls
    rcases walkEtagsPaged_cases backend pre page calls with ⟨result, more, cursor, -, -, hmore, hends⟩ | ⟨hnone, -⟩
    · obtain ⟨pages, cursor', hlen, hpages⟩ := hall (more.length + 1)
      obtain ⟨front, listing, rfl⟩ : ∃ front listing, pages = front ++ [listing] :=
        ⟨_, _, (List.dropLast_append_getLast (List.ne_nil_of_length_eq_add_one hlen)).symm⟩
      obtain ⟨cursor'', next, hfront, -⟩ := hpages.last
      obtain ⟨rfl, rfl⟩ := hmore.unique hfront (by simpa using hlen)
      exact absurd hpages (hends.not_received hmore)
    · exact hnone

end Walk

/-- A walk that returns has followed every page up to one marked complete, and returns them all, or an error: that
of the backend, or because a page names no cursor or the one just sent. It runs for ever if and only if every page
can be followed, and so it returns where no cursor is presented twice and there are only finitely many. -/
theorem walkEtagsPaged_exact (backend : ListingBackend) (pre : Option Text) (page : Nat) :
    (∀ calls result, walkEtagsPaged backend pre page calls = some result →
      ∃ pages cursor, Received backend pre page pages cursor ∧ Ends backend pre page pages cursor result) ∧
      ((∀ calls, walkEtagsPaged backend pre page calls = none) ↔
        ∀ n, ∃ pages cursor, pages.length = n ∧ Received backend pre page pages cursor) ∧
      ∀ cursors : List Text,
        (∀ pages cursor, Received backend pre page pages cursor →
          (pages.filterMap (·.nextCursor)).Nodup ∧ pages.filterMap (·.nextCursor) ⊆ cursors) →
        ∃ calls result, walkEtagsPaged backend pre page calls = some result := by
  refine ⟨?_, walk_none_iff, ?_⟩
  · intro calls result hresult
    rcases walkEtagsPaged_cases backend pre page calls with
      ⟨result', pages, cursor, hresult', -, hpages, hends⟩ | ⟨hnone, -⟩
    · rw [hresult] at hresult'
      cases hresult'
      exact ⟨pages, cursor, hpages, hends⟩
    · rw [hresult] at hnone
      cases hnone
  · intro cursors hcursors
    by_contra hnever
    have hnone : ∀ calls, walkEtagsPaged backend pre page calls = none := by
      intro calls
      rw [Option.eq_none_iff_forall_ne_some]
      exact fun result hresult => hnever ⟨calls, result, hresult⟩
    obtain ⟨pages, cursor, hlen, hpages⟩ := walk_none_iff.mp hnone (cursors.length + 1)
    obtain ⟨hnodup, hsub⟩ := hcursors pages cursor hpages
    have hle := (List.subperm_of_subset hnodup hsub).length_le
    rw [hpages.length_cursors] at hle
    omega

/-- A backend that goes from one cursor to another and back. -/
def circling : ListingBackend := fun _ _ _ cursor =>
  .ok ⟨[], true, if cursor = some ['a'] then some ['b'] else some ['a']⟩

/-- It presents two cursors, and the walk never returns. -/
theorem walkEtagsPaged_circling :
    (∀ asked pre page cursor, ∃ listing, circling asked pre page cursor = .ok listing ∧
      (listing.nextCursor = some ['a'] ∨ listing.nextCursor = some ['b'])) ∧
      ∀ calls, walkEtagsPaged circling none 1000 calls = none := by
  constructor
  · intro asked pre page cursor
    refine ⟨_, rfl, ?_⟩
    dsimp only
    split
    · exact .inr rfl
    · exact .inl rfl
  · have hturn : ∀ calls asked cursor out, walkFrom circling none 1000 calls asked cursor out = none := by
      intro calls
      induction calls with
      | zero => exact fun _ _ _ => rfl
      | succ calls ih =>
        intro asked cursor out
        rw [walkFrom, circling]
        by_cases ha : cursor = some ['a']
        · subst ha
          exact ih _ _ _
        · rw [if_neg ha]
          simp only [advance, if_neg (Ne.symm ha)]
          exact ih _ _ _
    exact fun calls => hturn calls 0 none []
