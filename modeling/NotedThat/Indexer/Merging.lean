-- SUMMARY: The merging layer of the streaming chunker: what the iterator gives depends only on the chunks that are cut.
import NotedThat.Indexer.Chunker

/-!
# Merging

Cutting does not look at the chunk that is held back. So the chunks that are cut, and the error that
ends them, determine what the iterator gives: `merges` goes over them with a chunk held back, and an
error comes before the last one that is held.
-/

namespace Chunker

namespace ChunkIter

/-! ## The chunk held back -/

section

variable {config : Config} {source : Bytes} {iter : ChunkIter} {heading : Heading}

theorem prepareSection_none (hstarted : iter.started = true) (hnext : iter.nextHeading = none) :
    iter.prepareSection source = (false, { iter with finished := true }) := by
  rw [prepareSection, dif_pos hstarted]
  split
  · rfl
  · next heading hsome => cases hnext.symm.trans hsome

/-- Entering the next heading. -/
theorem prepareSection_some (hstarted : iter.started = true) (hnext : iter.nextHeading = some heading) :
    iter.prepareSection source =
      let scanned := ({ iter with nextHeading := none }.enter heading).scanSectionEnd source
      if heading.start < scanned.1 then
        (true, { scanned.2 with
          currentSection := some (.new heading.start scanned.1 scanned.2.headingPath) })
      else prepareSection source scanned.2 := by
  rw [prepareSection, dif_pos hstarted]
  split
  · next hnone => cases hnone.symm.trans hnext
  · next heading' hsome =>
    obtain rfl := Option.some.inj (hnext.symm.trans hsome)
    rfl

theorem prepareSection_start (hstarted : iter.started = false) :
    iter.prepareSection source =
      let scanned := { iter with started := true }.scanSectionEnd source
      if 0 < scanned.1 then
        (true, { scanned.2 with currentSection := some (.new 0 scanned.1 scanned.2.headingPath) })
      else prepareSection source scanned.2 := by
  rw [prepareSection, dif_neg (by rw [hstarted]; decide)]

/-- The iterator with its short section extended over the next one. -/
def absorbed (iter : ChunkIter) (source : Bytes) (heading : Heading) (s : Section) (blank : Bool) :
    ChunkIter :=
  let scanned := ({ iter with nextHeading := none }.enter heading).scanSectionEnd source
  { scanned.2 with currentSection := some (s.extend blank heading.start scanned.1 scanned.2.headingPath) }

theorem sectionsLeft_absorbed (source : Bytes) (s : Section) (blank : Bool)
    (hnext : iter.nextHeading = some heading) :
    (iter.absorbed source heading s blank).sectionsLeft < iter.sectionsLeft :=
  sectionsLeft_enter_scan source hnext

theorem absorbShortSpan_none (hnext : iter.nextHeading = none) :
    iter.absorbShortSpan config source = .ok iter := by
  rw [absorbShortSpan]
  split
  · rfl
  · next heading hsome => cases hnext.symm.trans hsome

theorem absorbShortSpan_some (hnext : iter.nextHeading = some heading) :
    iter.absorbShortSpan config source =
      match iter.currentSection with
      | none => .ok iter
      | some s =>
        match shortSpan source s config.minChars with
        | .error error => .error error
        | .ok (none, s) => .ok { iter with currentSection := some s }
        | .ok (some blank, s) => (iter.absorbed source heading s blank).absorbShortSpan config source := by
  rw [absorbShortSpan]
  split
  · next hnone => cases hnone.symm.trans hnext
  · next heading' hsome =>
    obtain rfl := Option.some.inj (hnext.symm.trans hsome)
    rfl

end

def withHeld (iter : ChunkIter) (held : Option Chunk) : ChunkIter := { iter with held := held }

theorem prepareSection_withHeld (source : Bytes) (iter : ChunkIter) (held : Option Chunk) :
    (iter.withHeld held).prepareSection source =
      ((iter.prepareSection source).1, (iter.prepareSection source).2.withHeld held) := by
  induction hleft : iter.sectionsLeft using Nat.strong_induction_on generalizing iter with
  | _ n ih =>
    by_cases hstarted : iter.started = true
    · rcases Option.eq_none_or_eq_some iter.nextHeading with hnext | ⟨heading, hnext⟩
      · rw [prepareSection_none hstarted hnext, @prepareSection_none source (iter.withHeld held) hstarted hnext]
        rfl
      · have hrest := ih _ (hleft ▸ sectionsLeft_enter_scan source hnext) _ rfl
        rw [prepareSection_some hstarted hnext,
          @prepareSection_some source (iter.withHeld held) heading hstarted hnext]
        by_cases hfound : heading.start <
            (({ iter with nextHeading := none }.enter heading).scanSectionEnd source).1
        · dsimp only
          rw [if_pos hfound]
          exact if_pos hfound
        · dsimp only
          rw [if_neg hfound]
          exact (if_neg hfound).trans hrest
    · have hfresh := Bool.eq_false_of_not_eq_true hstarted
      have hrest := ih _ (hleft ▸ sectionsLeft_start source hfresh) _ rfl
      rw [prepareSection_start hfresh, @prepareSection_start source (iter.withHeld held) hfresh]
      by_cases hfound : 0 < ({ iter with started := true }.scanSectionEnd source).1
      · dsimp only
        rw [if_pos hfound]
        exact if_pos hfound
      · dsimp only
        rw [if_neg hfound]
        exact (if_neg hfound).trans hrest

theorem absorbShortSpan_withHeld (config : Config) (source : Bytes) (iter : ChunkIter)
    (held : Option Chunk) :
    (iter.withHeld held).absorbShortSpan config source =
      (iter.absorbShortSpan config source).map fun iter' => iter'.withHeld held := by
  induction hleft : iter.sectionsLeft using Nat.strong_induction_on generalizing iter with
  | _ n ih =>
    rcases Option.eq_none_or_eq_some iter.nextHeading with hnext | ⟨heading, hnext⟩
    · rw [absorbShortSpan_none hnext, @absorbShortSpan_none config source (iter.withHeld held) hnext]
      rfl
    · rw [absorbShortSpan_some hnext, @absorbShortSpan_some config source (iter.withHeld held) heading hnext,
        show (iter.withHeld held).currentSection = iter.currentSection from rfl]
      rcases Option.eq_none_or_eq_some iter.currentSection with hcurrent | ⟨s, hcurrent⟩
      · rw [hcurrent]
        rfl
      · rw [hcurrent]
        dsimp only
        rcases shortSpan source s config.minChars with error | ⟨_ | blank, s'⟩
        · rfl
        · rfl
        · exact ih _ (hleft ▸ sectionsLeft_absorbed source s' blank hnext) _ rfl

/-- Cutting passes the chunk held back on. -/
theorem nextChunk_withHeld (config : Config) (source : Bytes) (iter : ChunkIter) (held : Option Chunk) :
    (iter.withHeld held).nextChunk config source =
      (iter.nextChunk config source).map fun cut => (cut.1, cut.2.withHeld held) := by
  have hcut : ∀ iter : ChunkIter, (iter.withHeld held).cutSection config source =
      (iter.cutSection config source).map fun cut => (cut.1, cut.2.withHeld held) := by
    intro iter
    rw [cutSection, absorbShortSpan_withHeld, cutSection]
    rcases iter.absorbShortSpan config source with error | iter'
    · rfl
    · dsimp only [Except.map, bind, Except.bind]
      rw [show (iter'.withHeld held).currentSection = iter'.currentSection from rfl]
      rcases Option.eq_none_or_eq_some iter'.currentSection with hcurrent | ⟨s, hcurrent⟩
      · rw [hcurrent]
      · rw [hcurrent]
        dsimp only
        rcases fill source s config.maxReadBytes with error | s'
        · rfl
        · dsimp only
          rcases s'.cut config with error | ⟨chunk, s''⟩ <;> rfl
  rw [nextChunk, nextChunk, prepareSection_withHeld,
    show (iter.withHeld held).finished = iter.finished from rfl,
    show (iter.withHeld held).sectionDone = iter.sectionDone from rfl]
  by_cases hfinished : iter.finished = true
  · rw [if_pos hfinished, if_pos hfinished]
    rfl
  · rw [if_neg hfinished, if_neg hfinished]
    by_cases hdone : iter.sectionDone = true
    · rw [if_pos hdone, if_pos hdone]
      dsimp only
      by_cases hfound : (iter.prepareSection source).1 = false
      · rw [if_pos hfound, if_pos hfound]
        rfl
      · rw [if_neg hfound, if_neg hfound]
        exact hcut _
    · rw [if_neg hdone, if_neg hdone]
      exact hcut iter

theorem nextChunk_held {config : Config} {source : Bytes} {iter iter' : ChunkIter} {cut : Option Chunk}
    (h : iter.nextChunk config source = .ok (cut, iter')) : iter'.held = iter.held := by
  have hkept := nextChunk_withHeld config source iter iter.held
  rw [show iter.withHeld iter.held = iter from rfl, h] at hkept
  have heq := (Prod.mk.inj (Except.ok.inj hkept)).2
  rw [heq]
  rfl

/-! ## The end -/

theorem prepareSection_finished {source : Bytes} {iter : ChunkIter}
    (h : (iter.prepareSection source).1 = false) : (iter.prepareSection source).2.finished = true := by
  induction hleft : iter.sectionsLeft using Nat.strong_induction_on generalizing iter with
  | _ n ih =>
    cases hstarted : iter.started with
    | false =>
      rw [prepareSection_start hstarted] at h ⊢
      dsimp only at h ⊢
      split_ifs at h ⊢
      exact ih _ (hleft ▸ sectionsLeft_start source hstarted) h rfl
    | true =>
      rcases Option.eq_none_or_eq_some iter.nextHeading with hnext | ⟨heading, hnext⟩
      · rw [prepareSection_none hstarted hnext]
      · rw [prepareSection_some hstarted hnext] at h ⊢
        dsimp only at h ⊢
        split_ifs at h ⊢
        exact ih _ (hleft ▸ sectionsLeft_enter_scan source hnext) h rfl

theorem nextChunk_finished {config : Config} {source : Bytes} {iter iter' : ChunkIter}
    (h : iter.nextChunk config source = .ok (none, iter')) : iter'.finished = true := by
  have hcut : ∀ iter : ChunkIter, iter.cutSection config source ≠ .ok (none, iter') := by
    intro iter
    rw [cutSection]
    rcases iter.absorbShortSpan config source with error | iter'
    · exact nofun
    · dsimp only [bind, Except.bind]
      cases iter'.currentSection with
      | none => exact nofun
      | some s =>
        dsimp only
        rcases fill source s config.maxReadBytes with error | s'
        · exact nofun
        · dsimp only
          rcases s'.cut config with error | cut <;> exact nofun
  rw [nextChunk] at h
  by_cases hfinished : iter.finished = true
  · rw [if_pos hfinished] at h
    obtain ⟨-, rfl⟩ := Prod.mk.inj (Except.ok.inj h)
    exact hfinished
  · rw [if_neg hfinished] at h
    by_cases hdone : iter.sectionDone = true
    · rw [if_pos hdone] at h
      dsimp only at h
      split at h
      · next hnone =>
        obtain ⟨-, rfl⟩ := Prod.mk.inj (Except.ok.inj h)
        exact prepareSection_finished hnone
      · exact absurd h (hcut _)
    · rw [if_neg hdone] at h
      exact absurd h (hcut iter)

/-! ## The chunks that are cut -/

/-- The chunks that are cut, and the error that ends them, if one does. -/
inductive Cuts (config : Config) (source : Bytes) : ChunkIter → List Chunk → Option String → Prop
  | ended {iter iter' : ChunkIter} : iter.nextChunk config source = .ok (none, iter') →
      Cuts config source iter [] none
  | failed {iter : ChunkIter} {error : String} : iter.nextChunk config source = .error error →
      Cuts config source iter [] (some error)
  | chunk {iter iter' : ChunkIter} {chunk : Chunk} {chunks : List Chunk} {error : Option String} :
      iter.nextChunk config source = .ok (some chunk, iter') → Cuts config source iter' chunks error →
      Cuts config source iter (chunk :: chunks) error

section

variable {config : Config} {source : Bytes} {iter : ChunkIter} {chunks : List Chunk} {error : Option String}

theorem Cuts.of_finished (h : iter.finished = true) : Cuts config source iter [] none :=
  .ended (by rw [nextChunk, if_pos h])

theorem Cuts.withHeld (h : Cuts config source iter chunks error) (held : Option Chunk) :
    Cuts config source (iter.withHeld held) chunks error := by
  induction h with
  | ended hnext =>
    exact .ended (by rw [nextChunk_withHeld, hnext]; rfl)
  | failed hnext => exact .failed (by rw [nextChunk_withHeld, hnext]; rfl)
  | chunk hnext _ ih => exact .chunk (by rw [nextChunk_withHeld, hnext]; rfl) ih

end

end ChunkIter

/-! ## What is given -/

/-- The chunks that are given and the one held back at the end. -/
def merges (config : Config) : Option Chunk → List Chunk → List Chunk × Option Chunk
  | held, [] => ([], held)
  | none, next :: chunks => merges config (some next) chunks
  | some held, next :: chunks =>
    if mergeable config held next then merges config (some (merge held next)) chunks
    else if dropped config held then merges config (some next) chunks
    else (held :: (merges config (some next) chunks).1, (merges config (some next) chunks).2)

/-- What is given of the chunk held back at the end. -/
def leftOver (config : Config) (held : Option Chunk) : List Chunk :=
  held.toList.filter fun chunk => !dropped config chunk

/-- Everything the iterator gives. -/
def given (config : Config) (held : Option Chunk) (chunks : List Chunk) (error : Option String) :
    List (Except String Chunk) :=
  (merges config held chunks).1.map .ok ++ (error.toList.map .error ++
    (leftOver config (merges config held chunks).2).map .ok)

/-- The errors among the items. -/
def errorsOf : List (Except String Chunk) → List String
  | [] => []
  | .ok _ :: items => errorsOf items
  | .error error :: items => error :: errorsOf items

theorem errorsOf_given (config : Config) (held : Option Chunk) (chunks : List Chunk) (error : Option String) :
    errorsOf (given config held chunks error) = error.toList := by
  have hok : ∀ (chunks : List Chunk) (items : List (Except String Chunk)),
      errorsOf (chunks.map .ok ++ items) = errorsOf items := by
    intro chunks items
    induction chunks with
    | nil => rfl
    | cons chunk chunks ih => exact ih
  have hnone : ∀ chunks : List Chunk, errorsOf (chunks.map .ok) = [] := fun chunks => by
    rw [← List.append_nil (chunks.map _), hok]
    rfl
  rw [given, hok]
  cases error with
  | none => exact hnone _
  | some error => exact congrArg (error :: ·) (hnone _)

/-- The chunks among the items. -/
def chunksOf (items : List (Except String Chunk)) : List Chunk := items.filterMap Except.toOption

theorem chunksOf_given (config : Config) (held : Option Chunk) (chunks : List Chunk) (error : Option String) :
    chunksOf (given config held chunks error) =
      (merges config held chunks).1 ++ leftOver config (merges config held chunks).2 := by
  have hok : ∀ chunks : List Chunk, chunksOf (chunks.map .ok) = chunks := fun chunks => by
    rw [chunksOf, List.filterMap_map]
    exact List.filterMap_some
  have herror : chunksOf (error.toList.map .error) = [] := by cases error <;> rfl
  rw [given, chunksOf, List.filterMap_append, List.filterMap_append]
  exact congrArg₂ (· ++ ·) (hok _) ((congrArg₂ (· ++ ·) herror (hok _)).trans (List.nil_append _))

namespace ChunkIter

section

variable {config : Config} {source : Bytes} {iter : ChunkIter} {chunks : List Chunk} {error : Option String}

/-- One item, and what is left to cut behind it. -/
inductive Gives (config : Config) (source : Bytes) (n : Nat) :
    List (Except String Chunk) → Option (Except String Chunk) → ChunkIter → Prop
  | nothing {iter : ChunkIter} : Gives config source n [] none iter
  | item {item : Except String Chunk} {iter : ChunkIter} {chunks : List Chunk} {error : Option String} :
      Cuts config source iter chunks error →
      chunks.length + error.toList.length + iter.held.toList.length < n →
      Gives config source n (item :: given config iter.held chunks error) (some item) iter

theorem Gives.mono {n m : Nat} {items : List (Except String Chunk)} {item : Option (Except String Chunk)}
    (h : Gives config source n items item iter) (hle : n ≤ m) : Gives config source m items item iter := by
  cases h with
  | nothing => exact .nothing
  | item hcuts hlt => exact .item hcuts (Nat.lt_of_lt_of_le hlt hle)

theorem nextMerged_finished {fuel : Nat} (hfinished : iter.finished = true) (hheld : iter.held = none)
    (hfuel : 1 ≤ fuel) : iter.nextMerged config source fuel = some (.ok none, iter) := by
  obtain ⟨fuel, rfl⟩ := Nat.exists_eq_add_of_le' hfuel
  rw [nextMerged, nextChunk, if_pos hfinished]
  dsimp only
  rw [hheld]

/-- An error leaves what is held back for the next call. -/
theorem Gives.failed (e : String) :
    Gives config source (1 + iter.held.toList.length) (given config iter.held [] (some e))
      (some (.error e)) { iter with finished := true } := by
  have hgiven : given config iter.held [] (some e) =
      .error e :: given config { iter with finished := true }.held [] none := rfl
  rw [hgiven]
  exact .item (.of_finished rfl) (by simp)

theorem Gives.last {held : Chunk} (hfinished : iter.finished = true) (hdropped : dropped config held = false) :
    Gives config source 1 (given config (some held) [] none) (some (.ok held)) (iter.withHeld none) := by
  have hgiven : given config (some held) [] none =
      .ok held :: given config (iter.withHeld none).held [] none := by
    simp [given, merges, leftOver, hdropped, withHeld]
  rw [hgiven]
  exact .item (.of_finished hfinished) (by simp [withHeld])

/-- What the next call gives is the first of what is given. -/
theorem Cuts.next (h : Cuts config source iter chunks error) {fuel : Nat}
    (hfuel : chunks.length + 2 ≤ fuel) : ∃ item iter',
      iter.next config source fuel = some (item, iter') ∧
      Gives config source (chunks.length + error.toList.length + iter.held.toList.length)
        (given config iter.held chunks error) item iter' := by
  induction chunks generalizing iter fuel with
  | nil =>
    obtain ⟨fuel, rfl⟩ : ∃ k, fuel = k + 2 := Nat.exists_eq_add_of_le' hfuel
    cases h with
    | failed hnext => exact ⟨_, _, by rw [next, nextMerged, hnext]; rfl, .failed _⟩
    | ended hnext =>
      next iter' =>
      have hfinished := nextChunk_finished hnext
      rw [next, nextMerged, hnext]
      dsimp only
      rw [← nextChunk_held hnext]
      cases hkept : iter'.held with
      | none => exact ⟨_, _, rfl, .nothing⟩
      | some held =>
        dsimp only
        cases hdropped : dropped config held with
        | true =>
          have hend := @nextMerged_finished config source (iter'.withHeld none) (fuel + 1) hfinished rfl
            (Nat.le_add_left 1 fuel)
          refine ⟨none, iter'.withHeld none, congrArg (Option.map _) hend, ?_⟩
          rw [show given config (some held) [] none = [] by simp [given, merges, leftOver, hdropped]]
          exact .nothing
        | false =>
          rw [if_neg Bool.noConfusion]
          exact ⟨_, _, rfl, .last hfinished hdropped⟩
  | cons chunk chunks ih =>
    obtain ⟨fuel, rfl⟩ : ∃ k, fuel = k + 1 := ⟨fuel - 1, by omega⟩
    rw [List.length_cons] at hfuel
    cases h with
    | chunk hnext hcuts =>
      next iter' =>
      -- the loop goes on with another chunk held back
      have hrest : ∀ held, ∃ item iter'',
          next config source fuel (iter'.withHeld (some held)) = some (item, iter'') ∧
            Gives config source (chunks.length + error.toList.length + 1)
              (given config (some held) chunks error) item iter'' :=
        fun held => ih (hcuts.withHeld (some held)) (by omega)
      have hless : chunks.length + error.toList.length + 1 ≤
          (chunk :: chunks).length + error.toList.length + iter.held.toList.length := by
        rw [List.length_cons]
        omega
      rw [next, nextMerged, hnext]
      dsimp only
      rw [← nextChunk_held hnext] at hless ⊢
      cases hkept : iter'.held with
      | none =>
        obtain ⟨item, iter'', hiter'', hgives⟩ := hrest chunk
        exact ⟨item, iter'', hiter'', hgives.mono (hkept ▸ hless)⟩
      | some held =>
        dsimp only
        cases hmerge : mergeable config held chunk with
        | true =>
          obtain ⟨item, iter'', hiter'', hgives⟩ := hrest (merge held chunk)
          rw [given, merges, hmerge]
          exact ⟨item, iter'', hiter'', hgives.mono (hkept ▸ hless)⟩
        | false =>
          cases hdropped : dropped config held with
          | true =>
            obtain ⟨item, iter'', hiter'', hgives⟩ := hrest chunk
            rw [given, merges, hmerge, hdropped]
            exact ⟨item, iter'', hiter'', hgives.mono (hkept ▸ hless)⟩
          | false =>
            refine ⟨some (.ok held), iter'.withHeld (some chunk), rfl, ?_⟩
            rw [given, merges, hmerge, hdropped]
            refine .item (hcuts.withHeld _) ?_
            rw [show (iter'.withHeld (some chunk)).held = some chunk from rfl]
            simp only [List.length_cons, Option.toList_some, List.length_nil]
            omega

theorem Cuts.items (h : Cuts config source iter chunks error) {fuel : Nat}
    (hfuel : chunks.length + error.toList.length + iter.held.toList.length + 2 ≤ fuel) :
    iter.items config source fuel = some (given config iter.held chunks error) := by
  induction fuel generalizing iter chunks error with
  | zero => omega
  | succ fuel ih =>
    obtain ⟨item, iter', hnext, hgives⟩ := h.next (show chunks.length + 2 ≤ fuel + 1 by omega)
    rw [ChunkIter.items, hnext]
    generalize given config iter.held chunks error = items at hgives
    cases hgives with
    | nothing => rfl
    | item hcuts hlt =>
      dsimp only
      rw [ih hcuts (by omega)]
      rfl

/-- The items up to the first error. -/
def gather : List (Except String Chunk) → Except String (List Chunk)
  | [] => .ok []
  | .error error :: _ => .error error
  | .ok chunk :: items => (gather items).map (chunk :: ·)

theorem gather_given (config : Config) (held : Option Chunk) (chunks : List Chunk) (error : Option String) :
    gather (given config held chunks error) =
      match error with
      | none => .ok ((merges config held chunks).1 ++ leftOver config (merges config held chunks).2)
      | some error => .error error := by
  have hok : ∀ (front : List Chunk) (items : List (Except String Chunk)),
      gather (front.map .ok ++ items) = (gather items).map (front ++ ·) := by
    intro front items
    induction front with
    | nil =>
      rw [List.map_nil, List.nil_append]
      cases gather items <;> rfl
    | cons chunk front ih =>
      rw [List.map_cons, List.cons_append, gather, ih]
      cases gather items <;> rfl
  rw [given, hok]
  cases error with
  | some error => rfl
  | none =>
    have hrest := hok (leftOver config (merges config held chunks).2) []
    rw [List.append_nil] at hrest
    rw [Option.toList_none, List.map_nil, List.nil_append, hrest]
    simp only [gather, Except.map, List.append_nil]

/-! ## Fuel -/

theorem nextMerged_succ {fuel : Nat} {result : Except String (Option Chunk) × ChunkIter}
    (h : iter.nextMerged config source fuel = some result) :
    iter.nextMerged config source (fuel + 1) = some result := by
  induction fuel generalizing iter with
  | zero => cases h
  | succ fuel ih =>
    rw [nextMerged] at h ⊢
    split at h
    · exact h
    · split at h
      · exact h
      · split at h
        · next hdropped => rw [if_pos hdropped]; exact ih h
        · next hdropped => rw [if_neg hdropped]; exact h
      · exact ih h
      · split at h
        · next hmerge => rw [if_pos hmerge]; exact ih h
        · next hmerge =>
          rw [if_neg hmerge]
          split at h
          · next hdropped => rw [if_pos hdropped]; exact ih h
          · next hdropped => rw [if_neg hdropped]; exact h

theorem next_succ {fuel : Nat} {result : Option (Except String Chunk) × ChunkIter}
    (h : iter.next config source fuel = some result) : iter.next config source (fuel + 1) = some result := by
  obtain ⟨merged, hmerged, rfl⟩ := Option.map_eq_some_iff.mp h
  rw [next, nextMerged_succ hmerged]
  rfl

/-- What an iterator gives with some fuel it gives with more. -/
theorem items_succ {fuel : Nat} {items : List (Except String Chunk)}
    (h : iter.items config source fuel = some items) : iter.items config source (fuel + 1) = some items := by
  induction fuel generalizing iter items with
  | zero => cases h
  | succ fuel ih =>
    rw [ChunkIter.items] at h ⊢
    cases hnext : iter.next config source (fuel + 1) with
    | none => rw [hnext] at h; cases h
    | some result =>
      rw [hnext] at h
      rw [next_succ hnext]
      obtain ⟨item, iter'⟩ := result
      cases item with
      | none => exact h
      | some item =>
        obtain ⟨later, hlater, rfl⟩ := Option.map_eq_some_iff.mp h
        dsimp only
        rw [ih hlater, Option.map_some]

theorem items_add {fuel : Nat} {items : List (Except String Chunk)}
    (h : iter.items config source fuel = some items) (more : Nat) :
    iter.items config source (fuel + more) = some items := by
  induction more with
  | zero => exact h
  | succ more ih => exact items_succ ih

theorem items_unique {fuel fuel' : Nat} {items items' : List (Except String Chunk)}
    (h : iter.items config source fuel = some items) (h' : iter.items config source fuel' = some items') :
    items = items' := by
  have hmore := items_add h fuel'
  rw [Nat.add_comm] at hmore
  exact Option.some.inj (hmore.symm.trans (items_add h' fuel))

/-- What is collected are the items up to the first error. -/
theorem collect_of_items {fuel : Nat} {items : List (Except String Chunk)}
    (h : iter.items config source fuel = some items) :
    iter.collect config source fuel = some (gather items) := by
  induction fuel generalizing iter items with
  | zero => cases h
  | succ fuel ih =>
    rw [ChunkIter.items] at h
    rw [ChunkIter.collect]
    cases hnext : iter.next config source (fuel + 1) with
    | none => rw [hnext] at h; cases h
    | some result =>
      rw [hnext] at h
      obtain ⟨item, iter'⟩ := result
      cases item with
      | none =>
        obtain rfl := Option.some.inj h
        rfl
      | some item =>
        obtain ⟨later, hlater, rfl⟩ := Option.map_eq_some_iff.mp h
        cases item with
        | error error => rfl
        | ok chunk =>
          dsimp only
          rw [ih hlater, Option.map_some]
          rfl

theorem collect_unique {fuel fuel' : Nat} {items : List (Except String Chunk)} {result : Except String (List Chunk)}
    (h : iter.items config source fuel = some items)
    (h' : ∀ more, iter.collect config source (fuel' + more) = some result) : result = gather items := by
  have hmore := items_add h fuel'
  rw [Nat.add_comm] at hmore
  exact Option.some.inj ((h' fuel).symm.trans (collect_of_items hmore))

theorem Cuts.collect (h : Cuts config source iter chunks error) {fuel : Nat}
    (hfuel : chunks.length + error.toList.length + iter.held.toList.length + 2 ≤ fuel) :
    iter.collect config source fuel = some (gather (given config iter.held chunks error)) :=
  collect_of_items (h.items hfuel)

end

end ChunkIter

end Chunker
