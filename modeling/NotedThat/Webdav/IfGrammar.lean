-- SUMMARY: The grammar of the `If` header, that the parser reads exactly the headers of that structure, that it reads them as meant unless a closing bracket stands in an entity tag, and what else it reads.
import NotedThat.Webdav.IfHeader

/-!
# The grammar of the `If` header

The grammar is the same for what a client may send and for what the parser reads, up to what may stand
in brackets: an entity tag or a URI there, and here any text up to the first closing bracket. An entity tag
may hold a closing bracket itself.
-/

namespace IfHeader

-- ---------------------------------------------------------------------------
-- The grammar
-- ---------------------------------------------------------------------------

/-- White space between two tokens. -/
def Blank (ws : Text) : Prop := ∀ c ∈ ws, c ∈ [' ', '\t', '\r', '\n']

/-- What may stand in angle brackets. -/
def Reference (ref : Text) : Prop := ref ≠ [] ∧ '>' ∉ ref ∧ ∀ c ∈ ref, Text.isWhitespace c = false

/-- What may stand in the brackets. -/
structure Brackets where
  stateToken : Text → Prop
  resourceTag : Text → Prop
  /-- In square brackets, and the entity tag it is. -/
  entityTag : Text → Text → Prop

section Grammar

variable (allowed : Brackets)

inductive IsCondition : Text → Condition → Prop where
  | stateToken {ref : Text} (href : allowed.stateToken ref) : IsCondition ('<' :: (ref ++ ['>'])) .stateToken
  | etag {inner e : Text} (htag : allowed.entityTag inner e) : IsCondition ('[' :: (inner ++ [']'])) (.etag e)

inductive IsTerm : Text → Term → Prop where
  | plain {t : Text} {c : Condition} (h : IsCondition allowed t c) : IsTerm t ⟨false, c⟩
  | not {word ws t : Text} {c : Condition} (hword : Text.toAsciiLowercase word = "not".toList)
      (hws : Blank ws) (h : IsCondition allowed t c) : IsTerm (word ++ (ws ++ t)) ⟨true, c⟩

inductive IsTerms : Text → List Term → Prop where
  | nil {ws : Text} (hws : Blank ws) : IsTerms ws []
  | cons {ws t rest : Text} {term : Term} {terms : List Term} (hws : Blank ws) (h : IsTerm allowed t term)
      (hrest : IsTerms rest terms) : IsTerms (ws ++ (t ++ rest)) (term :: terms)

/-- `List = "(" 1*Condition ")"`. -/
inductive IsList : Text → List Term → Prop where
  | mk {body : Text} {terms : List Term} (h : IsTerms allowed body terms) (hne : terms ≠ []) :
      IsList ('(' :: (body ++ [')'])) terms

/-- Lists about one resource. -/
inductive IsLists (resource : Option Text) : Text → List ConditionList → Prop where
  | nil {ws : Text} (hws : Blank ws) : IsLists resource ws []
  | cons {ws t rest : Text} {terms : List Term} {lists : List ConditionList} (hws : Blank ws)
      (h : IsList allowed t terms) (hrest : IsLists resource rest lists) :
      IsLists resource (ws ++ (t ++ rest)) (⟨resource, terms⟩ :: lists)

/-- `Tagged-list = Resource-Tag 1*List`, any number of them. -/
inductive IsTagged : Text → List ConditionList → Prop where
  | nil {ws : Text} (hws : Blank ws) : IsTagged ws []
  | cons {ws ref t rest : Text} {lists more : List ConditionList} (hws : Blank ws) (href : allowed.resourceTag ref)
      (hlists : IsLists allowed (some ref) t lists) (hne : lists ≠ []) (hrest : IsTagged rest more) :
      IsTagged (ws ++ '<' :: (ref ++ '>' :: (t ++ rest))) (lists ++ more)

/-- `If = 1*No-tag-list | 1*Tagged-list`. -/
def IsHeader (value : Text) (header : IfHeader) : Prop :=
  header.lists ≠ [] ∧ (IsLists allowed none value header.lists ∨ IsTagged allowed value header.lists)

end Grammar

/-- What the parser lets stand in them. -/
def Readable : Brackets where
  stateToken := Reference
  resourceTag := Reference
  entityTag inner e := ']' ∉ inner ∧ e = Text.trim inner ∧ e ≠ []

-- ---------------------------------------------------------------------------
-- White space
-- ---------------------------------------------------------------------------

variable {ws rest after t : Text} {fuel : Nat}

theorem skipWhitespace_blank (hws : Blank ws) (rest : Text) :
    skipWhitespace (ws ++ rest) = skipWhitespace rest :=
  List.dropWhile_append_of_pos fun c hc => decide_eq_true (hws c hc)

theorem skipWhitespace_cons {c : Char} (hc : c ∉ [' ', '\t', '\r', '\n']) (rest : Text) :
    skipWhitespace (c :: rest) = c :: rest := by
  unfold skipWhitespace Text.trimStartMatches
  rw [List.dropWhile_cons_of_neg]
  simpa using hc

theorem blank_nil : Blank [] := by
  intro c hc
  cases hc

theorem exists_blank (rest : Text) : ∃ ws, Blank ws ∧ rest = ws ++ skipWhitespace rest := by
  induction rest with
  | nil => exact ⟨[], blank_nil, rfl⟩
  | cons c rest ih =>
    by_cases hc : c ∈ [' ', '\t', '\r', '\n']
    · obtain ⟨ws, hws, hrest⟩ := ih
      refine ⟨c :: ws, List.forall_mem_cons.mpr ⟨hc, hws⟩, ?_⟩
      have hblank : Blank [c] := List.forall_mem_cons.mpr ⟨hc, blank_nil⟩
      have hskip : skipWhitespace (c :: rest) = skipWhitespace rest := skipWhitespace_blank hblank rest
      rw [hskip, List.cons_append, ← hrest]
    · exact ⟨[], blank_nil, (skipWhitespace_cons hc rest).symm⟩

-- ---------------------------------------------------------------------------
-- Conditions
-- ---------------------------------------------------------------------------

theorem delimited_eq_some {opening closing : Char} {inner : Text} :
    delimited opening closing rest = some (inner, after) ↔
      rest = opening :: (inner ++ closing :: after) ∧ closing ∉ inner := by
  simp only [delimited, Option.bind_eq_bind, Option.bind_eq_some_iff]
  constructor
  · rintro ⟨body, hbody, hsplit⟩
    obtain ⟨rfl, hinner⟩ := Text.splitOnce_eq_some.mp hsplit
    exact ⟨Text.stripPrefix_eq_some.mp hbody, hinner⟩
  · rintro ⟨rfl, hinner⟩
    exact ⟨_, Text.stripPrefix_eq_some.mpr rfl, Text.splitOnce_eq_some.mpr ⟨rfl, hinner⟩⟩

theorem angleBracketed_eq_some {ref : Text} :
    angleBracketed rest = some (ref, after) ↔ rest = '<' :: (ref ++ '>' :: after) ∧ Reference ref := by
  have hspaces : ref.any Text.isWhitespace = false ↔ ∀ c ∈ ref, Text.isWhitespace c = false := by
    simp [List.any_eq_false]
  simp only [angleBracketed, Option.bind_eq_bind, Option.bind_eq_some_iff]
  constructor
  · rintro ⟨⟨ref', after'⟩, hdelimited, h⟩
    dsimp only at h
    split at h
    · cases h
    · next hfine =>
      cases h
      rw [not_or, Bool.not_eq_true] at hfine
      obtain ⟨hrest, hclosing⟩ := delimited_eq_some.mp hdelimited
      exact ⟨hrest, hfine.1, hclosing, hspaces.mp hfine.2⟩
  · rintro ⟨hrest, hne, hclosing, hwhite⟩
    refine ⟨(ref, after), delimited_eq_some.mpr ⟨hrest, hclosing⟩, ?_⟩
    dsimp only
    rw [if_neg]
    rw [not_or, Bool.not_eq_true]
    exact ⟨hne, hspaces.mpr hwhite⟩

theorem condition_eq_some {c : Condition} :
    condition rest = some (c, after) ↔ ∃ t, rest = t ++ after ∧ IsCondition Readable t c := by
  constructor
  · intro h
    unfold condition at h
    split at h
    · simp only [Option.bind_eq_bind, Option.bind_eq_some_iff] at h
      obtain ⟨⟨ref, after'⟩, hbracketed, h⟩ := h
      cases h
      obtain ⟨hrest, href⟩ := angleBracketed_eq_some.mp hbracketed
      exact ⟨'<' :: (ref ++ ['>']), by simp [hrest], .stateToken href⟩
    · simp only [Option.bind_eq_bind, Option.bind_eq_some_iff] at h
      obtain ⟨⟨inner, after'⟩, hdelimited, h⟩ := h
      dsimp only at h
      split at h
      · cases h
      · next hne =>
        cases h
        obtain ⟨hrest, hinner⟩ := delimited_eq_some.mp hdelimited
        exact ⟨'[' :: (inner ++ [']']), by simp [hrest], .etag ⟨hinner, rfl, hne⟩⟩
    · cases h
  · rintro ⟨t, rfl, hcondition⟩
    cases hcondition with
    | @stateToken ref href =>
      have hbracketed : angleBracketed ('<' :: (ref ++ ['>']) ++ after) = some (ref, after) :=
        angleBracketed_eq_some.mpr ⟨by simp, href⟩
      exact Option.bind_eq_some_iff.mpr ⟨(ref, after), hbracketed, rfl⟩
    | @etag inner e htag =>
      obtain ⟨hinner, rfl, hne⟩ := htag
      have hdelimited : delimited '[' ']' ('[' :: (inner ++ [']']) ++ after) = some (inner, after) :=
        delimited_eq_some.mpr ⟨by simp, hinner⟩
      refine Option.bind_eq_some_iff.mpr ⟨(inner, after), hdelimited, ?_⟩
      dsimp only
      rw [if_neg hne]

-- ---------------------------------------------------------------------------
-- Lists
-- ---------------------------------------------------------------------------

variable {terms : List Term} {term : Term}

theorem listTerms_blank (hws : Blank ws) :
    listTerms fuel (ws ++ rest) terms = listTerms fuel rest terms := by
  cases fuel with
  | zero => rfl
  | succ fuel => rw [listTerms, listTerms, skipWhitespace_blank hws]

theorem listTerms_close : listTerms (fuel + 1) (')' :: after) terms = some (terms, after) := by
  rw [listTerms, skipWhitespace_cons (by decide)]
  rfl

/-- The first character of a term. -/
theorem IsTerm.head {allowed : Brackets} (h : IsTerm allowed t term) :
    ∃ c t', t = c :: t' ∧ c ∉ [' ', '\t', '\r', '\n'] ∧ c ≠ ')' := by
  cases h with
  | plain h =>
    cases h with
    | stateToken href => exact ⟨_, _, rfl, by decide, by decide⟩
    | etag htag => exact ⟨_, _, rfl, by decide, by decide⟩
  | @not word ws t c hword hws h =>
    cases word with
    | nil => cases hword
    | cons c word =>
      obtain ⟨hc, -⟩ := List.cons.inj hword
      refine ⟨c, _, rfl, ?_, ?_⟩
      · intro hmem
        have hother : ([' ', '\t', '\r', '\n'].all fun d => d.toLower ≠ 'n') = true := by decide
        exact of_decide_eq_true (List.all_eq_true.mp hother c hmem) hc
      · rintro rfl
        revert hc
        decide

/-- The word in front of a negated condition. -/
theorem take_not {word : Text} (hword : Text.toAsciiLowercase word = "not".toList) (rest : Text) :
    (word ++ rest).take 3 = word ∧ (word ++ rest).drop 3 = rest := by
  have hlength : word.length = 3 := by
    have h := congrArg List.length hword
    rwa [Text.toAsciiLowercase, List.length_map] at h
  rw [← hlength]
  exact ⟨List.take_left, List.drop_left⟩

theorem not_of_condition {c : Condition} (h : IsCondition Readable t c) :
    Text.toAsciiLowercase ((t ++ rest).take 3) ≠ "not".toList := by
  intro hword
  cases h with
  | stateToken href =>
    obtain ⟨hc, -⟩ := List.cons.inj hword
    revert hc
    decide
  | etag htag =>
    obtain ⟨hc, -⟩ := List.cons.inj hword
    revert hc
    decide

/-- One round of the loop reads one term. -/
theorem listTerms_term (h : IsTerm Readable t term) :
    listTerms (fuel + 1) (t ++ rest) terms = listTerms fuel rest (terms ++ [term]) := by
  obtain ⟨c, t', ht, hc, hclose⟩ := h.head
  have hskip : skipWhitespace (t ++ rest) = t ++ rest := by
    rw [ht, List.cons_append, skipWhitespace_cons hc]
  rw [listTerms, hskip]
  split
  · next after hafter =>
    rw [ht] at hafter
    exact absurd (List.cons.inj hafter).1 hclose
  · cases h with
    | plain h =>
      have hnot := @not_of_condition rest t _ h
      dsimp only
      rw [if_neg hnot, condition_eq_some.mpr ⟨_, rfl, h⟩, decide_eq_false hnot]
      rfl
    | @not word ws t c hword hws h =>
      obtain ⟨htake, hdrop⟩ := take_not hword (ws ++ t ++ rest)
      obtain ⟨d, t'', hd, hspace, -⟩ := (IsTerm.plain h).head
      have hskip' : skipWhitespace (ws ++ t ++ rest) = t ++ rest := by
        rw [List.append_assoc, skipWhitespace_blank hws, hd, List.cons_append, skipWhitespace_cons hspace]
      dsimp only
      rw [List.append_assoc, htake, hdrop, if_pos hword, hskip', condition_eq_some.mpr ⟨_, rfl, h⟩,
        decide_eq_true hword]
      rfl

theorem listTerms_complete {body : Text} {new : List Term} (h : IsTerms Readable body new)
    (hfuel : new.length < fuel) :
    listTerms fuel (body ++ ')' :: after) terms = some (terms ++ new, after) := by
  induction h generalizing fuel terms with
  | nil hws =>
    obtain ⟨fuel, rfl⟩ := Nat.exists_eq_succ_of_ne_zero (Nat.ne_of_gt hfuel)
    rw [listTerms_blank hws, listTerms_close, List.append_nil]
  | @cons ws t rest term new hws hterm hrest ih =>
    obtain ⟨fuel, rfl⟩ := Nat.exists_eq_succ_of_ne_zero (Nat.ne_of_gt (Nat.zero_lt_of_lt hfuel))
    rw [List.append_assoc, listTerms_blank hws, List.append_assoc, listTerms_term hterm,
      ih (Nat.lt_of_succ_lt_succ hfuel), List.append_assoc]
    rfl

theorem listTerms_sound {read : List Term} (h : listTerms fuel rest terms = some (read, after)) :
    ∃ body new, rest = body ++ ')' :: after ∧ read = terms ++ new ∧ IsTerms Readable body new := by
  induction fuel generalizing rest terms with
  | zero => cases h
  | succ fuel ih =>
    obtain ⟨ws, hws, hrest⟩ := exists_blank rest
    rw [listTerms] at h
    split at h
    · next after' hafter =>
      cases h
      exact ⟨ws, [], hafter ▸ hrest, (List.append_nil _).symm, .nil hws⟩
    · simp only [Option.bind_eq_bind, Option.bind_eq_some_iff] at h
      obtain ⟨⟨c, after'⟩, hcondition, h⟩ := h
      obtain ⟨t, ht, hc⟩ := condition_eq_some.mp hcondition
      obtain ⟨body, new, rfl, rfl, hnew⟩ := ih h
      by_cases hnot : Text.toAsciiLowercase ((skipWhitespace rest).take 3) = "not".toList
      · obtain ⟨ws', hws', hdrop⟩ := exists_blank ((skipWhitespace rest).drop 3)
        rw [if_pos hnot] at ht
        refine ⟨ws ++ ((skipWhitespace rest).take 3 ++ (ws' ++ t) ++ body), ⟨true, c⟩ :: new, ?_, ?_, ?_⟩
        · have hsplit : skipWhitespace rest =
              (skipWhitespace rest).take 3 ++ (ws' ++ (t ++ (body ++ ')' :: after))) := by
            rw [← ht, ← hdrop, List.take_append_drop]
          calc rest = ws ++ skipWhitespace rest := hrest
            _ = ws ++ ((skipWhitespace rest).take 3 ++ (ws' ++ (t ++ (body ++ ')' :: after)))) := by
              rw [← hsplit]
            _ = _ := by simp only [List.append_assoc]
        · rw [decide_eq_true hnot, List.append_assoc]
          rfl
        · exact .cons hws (.not hnot hws' hc) hnew
      · rw [if_neg hnot] at ht
        refine ⟨ws ++ (t ++ body), ⟨false, c⟩ :: new, ?_, ?_, .cons hws (.plain hc) hnew⟩
        · calc rest = ws ++ skipWhitespace rest := hrest
            _ = ws ++ (t ++ (body ++ ')' :: after)) := by rw [← ht]
            _ = _ := by simp only [List.append_assoc]
        · rw [decide_eq_false hnot, List.append_assoc]
          rfl

theorem IsTerms.length_le {allowed : Brackets} {body : Text} (h : IsTerms allowed body terms) :
    terms.length ≤ body.length := by
  induction h with
  | nil hws => exact Nat.zero_le _
  | cons hws hterm hrest ih =>
    obtain ⟨c, t', rfl, -⟩ := hterm.head
    simp only [List.length_cons, List.length_append]
    omega

/-- A round for every character and one more are enough for the terms. -/
theorem listTerms_eq_some (hfuel : rest.length < fuel) {read : List Term} :
    listTerms fuel rest terms = some (read, after) ↔
      ∃ body new, rest = body ++ ')' :: after ∧ read = terms ++ new ∧ IsTerms Readable body new := by
  refine ⟨listTerms_sound, ?_⟩
  rintro ⟨body, new, rfl, rfl, hterms⟩
  have hlength := hterms.length_le
  rw [List.length_append] at hfuel
  exact listTerms_complete hterms (by omega)

theorem list_eq_some : list rest = some (terms, after) ↔ ∃ t, rest = t ++ after ∧ IsList Readable t terms := by
  simp only [list, Option.bind_eq_bind, Option.bind_eq_some_iff]
  constructor
  · rintro ⟨body, hbody, ⟨read, after'⟩, hread, h⟩
    dsimp only at h
    split at h
    · cases h
    · next hne =>
      cases h
      obtain ⟨inner, new, rfl, rfl, hterms⟩ := (listTerms_eq_some (Nat.lt_succ_self _)).mp hread
      exact ⟨'(' :: (inner ++ [')']), by simp [Text.stripPrefix_eq_some.mp hbody], .mk hterms hne⟩
  · rintro ⟨t, rfl, hterms, hne⟩
    next body =>
    refine ⟨body ++ ')' :: after, Text.stripPrefix_eq_some.mpr (by simp), (terms, after), ?_, ?_⟩
    · exact (listTerms_eq_some (Nat.lt_succ_self _)).mpr ⟨body, terms, rfl, rfl, hterms⟩
    · dsimp only
      rw [if_neg hne]

-- ---------------------------------------------------------------------------
-- Headers
-- ---------------------------------------------------------------------------

variable {resource : Option Text} {tagged : Option Bool} {lists new : List ConditionList}

theorem parseLists_blank (hws : Blank ws) :
    parseLists fuel (ws ++ rest) resource tagged lists = parseLists fuel rest resource tagged lists := by
  cases fuel with
  | zero => rfl
  | succ fuel => rw [parseLists, parseLists, skipWhitespace_blank hws]

theorem parseLists_nil : parseLists (fuel + 1) [] resource tagged lists = some lists := rfl

theorem parseLists_list (h : IsList Readable t terms) :
    parseLists (fuel + 1) (t ++ rest) resource tagged lists =
      parseLists fuel rest resource (some (tagged.getD false)) (lists ++ [⟨resource, terms⟩]) := by
  have hlist : list (t ++ rest) = some (terms, rest) := list_eq_some.mpr ⟨t, rfl, h⟩
  obtain ⟨hterms, hne⟩ := h
  next body =>
  rw [List.cons_append] at hlist ⊢
  rw [parseLists, skipWhitespace_cons (by decide)]
  change (list ('(' :: (body ++ [')'] ++ rest))).bind _ = _
  rw [hlist]
  rfl

theorem parseLists_tag {ref : Text} (href : Reference ref) (htagged : tagged ≠ some false)
    (hlist : (skipWhitespace after).head? = some '(') :
    parseLists (fuel + 1) ('<' :: (ref ++ '>' :: after)) resource tagged lists =
      parseLists fuel after (some ref) (some true) lists := by
  rw [parseLists, skipWhitespace_cons (by decide)]
  change (if tagged = some false then _ else (angleBracketed ('<' :: (ref ++ '>' :: after))).bind _) = _
  rw [if_neg htagged, angleBracketed_eq_some.mpr ⟨rfl, href⟩]
  exact if_neg fun h => h hlist

/-- Lists about one resource are read one after the other. -/
theorem parseLists_lists (h : IsLists Readable resource t new) (hfuel : (t ++ rest).length < fuel) :
    ∃ fuel' tagged', (tagged = some true → tagged' = some true) ∧ rest.length < fuel' ∧
      parseLists fuel (t ++ rest) resource tagged lists =
        parseLists fuel' rest resource tagged' (lists ++ new) := by
  induction h generalizing fuel tagged lists with
  | nil hws =>
    refine ⟨fuel, tagged, id, ?_, ?_⟩
    · rw [List.length_append] at hfuel
      omega
    · rw [parseLists_blank hws, List.append_nil]
  | @cons ws t more terms new hws hlist hmore ih =>
    obtain ⟨fuel, rfl⟩ := Nat.exists_eq_succ_of_ne_zero (Nat.ne_of_gt (Nat.zero_lt_of_lt hfuel))
    have hlength : (more ++ rest).length < fuel := by
      obtain ⟨hterms, -⟩ := hlist
      simp only [List.length_append, List.length_cons] at hfuel ⊢
      omega
    obtain ⟨fuel', tagged', htagged', hfuel', heq⟩ :=
      @ih fuel (some (tagged.getD false)) (lists ++ [⟨resource, terms⟩]) hlength
    refine ⟨fuel', tagged', ?_, hfuel', ?_⟩
    · rintro rfl
      exact htagged' rfl
    · rw [List.append_assoc, parseLists_blank hws, List.append_assoc, parseLists_list hlist, heq,
        List.append_assoc]
      rfl

/-- The first list of some. -/
theorem IsLists.head {allowed : Brackets} (h : IsLists allowed resource t new) (hne : new ≠ []) :
    (skipWhitespace (t ++ rest)).head? = some '(' := by
  cases h with
  | nil hws => exact absurd rfl hne
  | @cons ws t more terms new hws hlist hmore =>
    obtain ⟨hterms, -⟩ := hlist
    rw [List.append_assoc, skipWhitespace_blank hws, List.append_assoc, List.cons_append,
      skipWhitespace_cons (by decide)]
    rfl

theorem parseLists_tagged (h : IsTagged Readable rest new) (htagged : tagged ≠ some false)
    (hfuel : rest.length < fuel) : parseLists fuel rest resource tagged lists = some (lists ++ new) := by
  induction h generalizing fuel resource tagged lists with
  | @nil ws hws =>
    obtain ⟨fuel, rfl⟩ := Nat.exists_eq_succ_of_ne_zero (Nat.ne_of_gt (Nat.zero_lt_of_lt hfuel))
    rw [← List.append_nil ws, parseLists_blank hws, parseLists_nil, List.append_nil]
  | @cons ws ref t more new new' hws href hlists hne hmore ih =>
    obtain ⟨fuel, rfl⟩ := Nat.exists_eq_succ_of_ne_zero (Nat.ne_of_gt (Nat.zero_lt_of_lt hfuel))
    have hlength : (t ++ more).length < fuel := by
      simp only [List.length_append, List.length_cons] at hfuel ⊢
      omega
    obtain ⟨fuel', tagged', htagged', hfuel', heq⟩ :=
      @parseLists_lists more t fuel (some ref) (some true) lists new hlists hlength
    rw [parseLists_blank hws, parseLists_tag href htagged (hlists.head hne), heq, htagged' rfl,
      ih (by decide) hfuel', List.append_assoc]

/-- How the loop goes on from a state: where a resource was named, with lists about it and then other
resources; where lists without one were read, with more of them. -/
def GoesOn (resource : Option Text) (tagged : Option Bool) (rest : Text) (new : List ConditionList) : Prop :=
  match tagged with
  | some true => ∃ t more lists lists', rest = t ++ more ∧ new = lists ++ lists' ∧
      IsLists Readable resource t lists ∧ IsTagged Readable more lists'
  | some false => IsLists Readable resource rest new
  | none => IsLists Readable resource rest new ∨ IsTagged Readable rest new

theorem IsTagged.head {allowed : Brackets} (h : IsTagged allowed rest new) :
    (skipWhitespace rest).head? ≠ some '(' := by
  cases h with
  | nil hws =>
    rw [← List.append_nil rest, skipWhitespace_blank hws]
    exact nofun
  | cons hws href hlists hne hmore =>
    rw [skipWhitespace_blank hws, skipWhitespace_cons (by decide)]
    simp

theorem parseLists_sound {read : List ConditionList}
    (h : parseLists fuel rest resource tagged lists = some read) :
    ∃ new, read = lists ++ new ∧ GoesOn resource tagged rest new := by
  induction fuel generalizing rest resource tagged lists with
  | zero => cases h
  | succ fuel ih =>
    obtain ⟨ws, hws, hrest⟩ := exists_blank rest
    rw [parseLists] at h
    split at h
    · next hend =>
      cases h
      rw [hend, List.append_nil] at hrest
      subst hrest
      refine ⟨[], (List.append_nil _).symm, ?_⟩
      match tagged with
      | some true => exact ⟨rest, [], [], [], (List.append_nil _).symm, rfl, .nil hws, .nil blank_nil⟩
      | some false => exact .nil hws
      | none => exact Or.inl (.nil hws)
    · next body hbody =>
      split at h
      · cases h
      · next htagged =>
        simp only [Option.bind_eq_bind, Option.bind_eq_some_iff] at h
        obtain ⟨⟨ref, after⟩, hbracketed, h⟩ := h
        dsimp only at h
        split at h
        · cases h
        · next hlist =>
          obtain ⟨hafter, href⟩ := angleBracketed_eq_some.mp hbracketed
          obtain ⟨new, rfl, t, more, first, others, rfl, rfl, hfirst, hothers⟩ := ih h
          have hne : first ≠ [] := by
            rintro rfl
            cases hfirst with
            | nil hblank =>
              rw [skipWhitespace_blank hblank] at hlist
              exact hlist hothers.head
          have hnew : IsTagged Readable rest (first ++ others) := by
            rw [hrest, hbody, hafter]
            exact .cons hws href hfirst hne hothers
          refine ⟨first ++ others, rfl, ?_⟩
          match tagged, htagged with
          | some true, _ => exact ⟨[], rest, [], first ++ others, rfl, rfl, .nil blank_nil, hnew⟩
          | none, _ => exact Or.inr hnew
    · next body hbody =>
      simp only [Option.bind_eq_bind, Option.bind_eq_some_iff] at h
      obtain ⟨⟨terms, after⟩, hlist, h⟩ := h
      dsimp only at h
      obtain ⟨t, ht, hterms⟩ := list_eq_some.mp hlist
      obtain ⟨new, rfl, hgoes⟩ := ih h
      refine ⟨⟨resource, terms⟩ :: new, by simp, ?_⟩
      rw [hbody, ht] at hrest
      match tagged, hgoes with
      | some true, ⟨t', more, first, others, hafter, hnew, hfirst, hothers⟩ =>
        refine ⟨ws ++ (t ++ t'), more, ⟨resource, terms⟩ :: first, others, ?_, ?_, .cons hws hterms hfirst,
          hothers⟩
        · rw [hrest, hafter]
          simp only [List.append_assoc]
        · rw [hnew]
          rfl
      | some false, hgoes =>
        rw [hrest]
        exact .cons hws hterms hgoes
      | none, hgoes =>
        rw [hrest]
        exact Or.inl (.cons hws hterms hgoes)
    · cases h

/-- A round for every character and one more are enough for the lists. -/
theorem parseLists_eq_some {value : Text} (hfuel : value.length < fuel) :
    parseLists fuel value none none [] = some lists ↔
      IsLists Readable none value lists ∨ IsTagged Readable value lists := by
  constructor
  · intro h
    obtain ⟨new, rfl, hgoes⟩ := parseLists_sound h
    exact hgoes
  · rintro (hread | hread)
    · obtain ⟨fuel', tagged', -, hfuel', heq⟩ :=
        @parseLists_lists [] value fuel none none [] lists hread (by rwa [List.append_nil])
      rw [List.append_nil] at heq
      obtain ⟨fuel', rfl⟩ := Nat.exists_eq_succ_of_ne_zero (Nat.ne_of_gt (Nat.zero_lt_of_lt hfuel'))
      rw [heq, parseLists_nil, List.nil_append]
    · exact parseLists_tagged hread nofun hfuel

/-- The parser reads exactly the headers of the structure. -/
theorem parse_eq_some {value : Text} {header : IfHeader} :
    parse value = some header ↔ IsHeader Readable value header := by
  simp only [parse, Option.bind_eq_bind, Option.bind_eq_some_iff, parseLists_eq_some (Nat.lt_succ_self _)]
  constructor
  · rintro ⟨lists, hlists, h⟩
    split at h
    · cases h
    · next hne =>
      cases h
      exact ⟨hne, hlists⟩
  · rintro ⟨hne, hread⟩
    exact ⟨header.lists, hread, if_neg hne⟩

/-- The parser comes to an end: more rounds than these change nothing. -/
theorem rounds_suffice :
    (∀ (value : Text) (fuel : Nat), value.length < fuel →
      parseLists fuel value none none [] = parseLists (value.length + 1) value none none []) ∧
    ∀ (body : Text) (fuel : Nat), body.length < fuel →
      listTerms fuel body [] = listTerms (body.length + 1) body [] := by
  refine ⟨fun value fuel hfuel => Option.ext fun lists => ?_, fun body fuel hfuel => Option.ext ?_⟩
  · rw [parseLists_eq_some hfuel, parseLists_eq_some (Nat.lt_succ_self _)]
  · rintro ⟨read, after⟩
    rw [listTerms_eq_some hfuel, listTerms_eq_some (Nat.lt_succ_self _)]

-- ---------------------------------------------------------------------------
-- Meaning
-- ---------------------------------------------------------------------------

/-- A character of an opaque tag. -/
def IsEtagc (c : Char) : Prop := c = '!' ∨ '#' ≤ c ∧ c ≤ '~' ∨ 0x80 ≤ c.toNat

/-- `opaque-tag = DQUOTE *etagc DQUOTE`. -/
def IsOpaqueTag (tag : Text) : Prop := ∃ inner, tag = '"' :: (inner ++ ['"']) ∧ ∀ c ∈ inner, IsEtagc c

/-- `entity-tag = [ weak ] opaque-tag`, with one of these opaque tags. -/
def IsEntityTag (tags : Text → Prop) (e : Text) : Prop := ∃ tag, tags tag ∧ (e = tag ∨ e = 'W' :: '/' :: tag)

/-- The URIs of the grammar, for state tokens and for resource tags: none has a closing angle bracket or
white space in it. -/
structure Uris where
  isAbsolute : Text → Prop
  isSimpleRef : Text → Prop
  absolute_reference : ∀ uri, isAbsolute uri → Reference uri
  simpleRef_reference : ∀ uri, isSimpleRef uri → Reference uri

/-- What the grammar lets stand in the brackets, with these opaque tags. No white space is allowed around a
URI, but around an entity tag it is. -/
def Uris.brackets (uris : Uris) (tags : Text → Prop) : Brackets where
  stateToken := uris.isAbsolute
  resourceTag := uris.isSimpleRef
  entityTag inner e := IsEntityTag tags e ∧ ∃ ws ws', Blank ws ∧ Blank ws' ∧ inner = ws ++ (e ++ ws')

/-- A header that the grammar generates with entity tags from these opaque tags. -/
def Generated (uris : Uris) (tags : Text → Prop) : Text → IfHeader → Prop := IsHeader (uris.brackets tags)

/-- Whether a condition is about the current state. Entity tags are compared strongly, and no state token
is ever current. -/
def Current (etag : Option Text) : Condition → Prop
  | .etag e => ∃ current ∈ etag, ¬ ['W', '/'] <+: e ∧ ¬ ['W', '/'] <+: current ∧ e = current
  | .stateToken => False

/-- What the header means: all conditions of some list hold for its resource. -/
def Holds (header : IfHeader) (currentEtag : Option Text → Option Text) : Prop :=
  ∃ list ∈ header.lists, ∀ term ∈ list.terms,
    Current (currentEtag list.resource) term.condition ↔ term.not = false

theorem holds_iff_current {etag : Option Text} {c : Condition} : Condition.holds etag c = true ↔ Current etag c := by
  cases c with
  | stateToken => exact iff_of_false nofun id
  | etag e =>
    cases etag with
    | none => simp [Condition.holds, Current]
    | some current =>
      have hprefix : List.isPrefixOf ['W', '/'] current = true ↔ ['W', '/'] <+: current :=
        List.isPrefixOf_iff_prefix
      simp only [Condition.holds, Current, Option.any_some, Bool.and_eq_true, Bool.not_eq_true',
        ← Bool.not_eq_true, hprefix, decide_eq_true_eq, Option.mem_some_iff]
      constructor
      · rintro ⟨hstrong, rfl⟩
        exact ⟨current, rfl, hstrong, hstrong, rfl⟩
      · rintro ⟨_, rfl, -, hstrong, rfl⟩
        exact ⟨hstrong, rfl⟩

theorem evaluate_iff {header : IfHeader} {currentEtag : Option Text → Option Text} :
    header.evaluate currentEtag = true ↔ header.Holds currentEtag := by
  have hterm : ∀ (etag : Option Text) (term : Term), (Condition.holds etag term.condition != term.not) = true ↔
      (Current etag term.condition ↔ term.not = false) := by
    intro etag term
    rw [← holds_iff_current]
    cases Condition.holds etag term.condition <;> cases term.not <;> decide
  simp only [evaluate, ConditionList.holds, List.any_eq_true, List.all_eq_true, hterm]
  rfl

/-! ### Other brackets -/

section Brackets

variable {allowed allowed' : Brackets} {c : Condition}

/-- The entity tags of a condition, and of lists of them. -/
def conditionEtags : Condition → List Text
  | .etag e => [e]
  | .stateToken => []

def termEtags (terms : List Term) : List Text := terms.flatMap fun term => conditionEtags term.condition

def listEtags (lists : List ConditionList) : List Text := lists.flatMap fun list => termEtags list.terms

/-- What stands in these brackets may stand in those, if it is one of these entity tags. -/
structure Brackets.Within (allowed allowed' : Brackets) (etags : List Text) : Prop where
  stateToken : ∀ ref, allowed.stateToken ref → allowed'.stateToken ref
  resourceTag : ∀ ref, allowed.resourceTag ref → allowed'.resourceTag ref
  entityTag : ∀ inner, ∀ e ∈ etags, allowed.entityTag inner e → allowed'.entityTag inner e

theorem Brackets.Within.subset {etags etags' : List Text} (h : allowed.Within allowed' etags)
    (hsubset : etags' ⊆ etags) : allowed.Within allowed' etags' :=
  ⟨h.stateToken, h.resourceTag, fun inner e he => h.entityTag inner e (hsubset he)⟩

theorem IsCondition.mono (hwithin : allowed.Within allowed' (conditionEtags c)) (h : IsCondition allowed t c) :
    IsCondition allowed' t c := by
  cases h with
  | stateToken href => exact .stateToken (hwithin.stateToken _ href)
  | etag htag => exact .etag (hwithin.entityTag _ _ (List.mem_singleton_self _) htag)

theorem IsTerms.mono (hwithin : allowed.Within allowed' (termEtags terms)) (h : IsTerms allowed t terms) :
    IsTerms allowed' t terms := by
  induction h with
  | nil hws => exact .nil hws
  | cons hws hterm hrest ih =>
    rw [termEtags, List.flatMap_cons] at hwithin
    refine .cons hws ?_ (ih (hwithin.subset (List.subset_append_right _ _)))
    have hwithin := hwithin.subset (List.subset_append_left _ _)
    cases hterm with
    | plain h => exact .plain (h.mono hwithin)
    | not hword hws h => exact .not hword hws (h.mono hwithin)

theorem IsLists.mono (hwithin : allowed.Within allowed' (listEtags lists)) (h : IsLists allowed resource t lists) :
    IsLists allowed' resource t lists := by
  induction h with
  | nil hws => exact .nil hws
  | cons hws hlist hrest ih =>
    rw [listEtags, List.flatMap_cons] at hwithin
    obtain ⟨hterms, hne⟩ := hlist
    exact .cons hws (.mk (hterms.mono (hwithin.subset (List.subset_append_left _ _))) hne)
      (ih (hwithin.subset (List.subset_append_right _ _)))

theorem IsTagged.mono (hwithin : allowed.Within allowed' (listEtags lists)) (h : IsTagged allowed t lists) :
    IsTagged allowed' t lists := by
  induction h with
  | nil hws => exact .nil hws
  | cons hws href hlists hne hrest ih =>
    rw [listEtags, List.flatMap_append] at hwithin
    exact .cons hws (hwithin.resourceTag _ href)
      (hlists.mono (hwithin.subset (List.subset_append_left _ _))) hne
      (ih (hwithin.subset (List.subset_append_right _ _)))

theorem IsHeader.mono {header : IfHeader} (hwithin : allowed.Within allowed' (listEtags header.lists))
    (h : IsHeader allowed t header) : IsHeader allowed' t header :=
  ⟨h.1, h.2.imp (IsLists.mono hwithin) (IsTagged.mono hwithin)⟩

/-- Every entity tag stands in brackets somewhere. -/
theorem IsTerms.etags (h : IsTerms allowed t terms) : ∀ e ∈ termEtags terms, ∃ inner, allowed.entityTag inner e := by
  induction h with
  | nil hws => exact nofun
  | cons hws hterm hrest ih =>
    rw [termEtags, List.flatMap_cons]
    refine List.forall_mem_append.mpr ⟨fun e he => ?_, ih⟩
    have hetag : ∀ {t c}, IsCondition allowed t c → e ∈ conditionEtags c → ∃ inner, allowed.entityTag inner e := by
      intro t c h he
      cases h with
      | stateToken href => cases he
      | etag htag =>
        obtain rfl := List.mem_singleton.mp he
        exact ⟨_, htag⟩
    cases hterm with
    | plain h => exact hetag h he
    | not hword hws h => exact hetag h he

theorem IsLists.etags (h : IsLists allowed resource t lists) :
    ∀ e ∈ listEtags lists, ∃ inner, allowed.entityTag inner e := by
  induction h with
  | nil hws => exact nofun
  | cons hws hlist hrest ih =>
    obtain ⟨hterms, -⟩ := hlist
    rw [listEtags, List.flatMap_cons]
    exact List.forall_mem_append.mpr ⟨hterms.etags, ih⟩

theorem IsTagged.etags (h : IsTagged allowed t lists) : ∀ e ∈ listEtags lists, ∃ inner, allowed.entityTag inner e := by
  induction h with
  | nil hws => exact nofun
  | cons hws href hlists hne hrest ih =>
    rw [listEtags, List.flatMap_append]
    exact List.forall_mem_append.mpr ⟨hlists.etags, ih⟩

theorem IsHeader.etags {header : IfHeader} (h : IsHeader allowed t header) :
    ∀ e ∈ listEtags header.lists, ∃ inner, allowed.entityTag inner e :=
  h.2.elim IsLists.etags IsTagged.etags

end Brackets

/-! ### What is accepted -/

/-- At least one list, none of them empty, and either all of them tagged or none. -/
structure WellFormed (header : IfHeader) : Prop where
  some_list : header.lists ≠ []
  some_term : ∀ list ∈ header.lists, list.terms ≠ []
  unmixed : (∀ list ∈ header.lists, list.resource = none) ∨ ∀ list ∈ header.lists, list.resource ≠ none

theorem IsLists.forall_mem {allowed : Brackets} (h : IsLists allowed resource t lists) :
    ∀ list ∈ lists, list.resource = resource ∧ list.terms ≠ [] := by
  induction h with
  | nil hws => exact fun list hlist => absurd hlist List.not_mem_nil
  | cons hws hlist hrest ih =>
    obtain ⟨-, hne⟩ := hlist
    exact List.forall_mem_cons.mpr ⟨⟨rfl, hne⟩, ih⟩

theorem IsTagged.forall_mem {allowed : Brackets} (h : IsTagged allowed t lists) :
    ∀ list ∈ lists, list.resource ≠ none ∧ list.terms ≠ [] := by
  induction h with
  | nil hws => exact fun list hlist => absurd hlist List.not_mem_nil
  | cons hws href hlists hne hrest ih =>
    refine List.forall_mem_append.mpr ⟨fun list hlist => ?_, ih⟩
    obtain ⟨hresource, hterms⟩ := hlists.forall_mem list hlist
    exact ⟨by simp [hresource], hterms⟩

theorem IsHeader.wellFormed {allowed : Brackets} {header : IfHeader} (h : IsHeader allowed t header) :
    header.WellFormed := by
  obtain ⟨hne, hlists | htagged⟩ := h
  · exact ⟨hne, fun list hlist => (hlists.forall_mem list hlist).2,
      Or.inl fun list hlist => (hlists.forall_mem list hlist).1⟩
  · exact ⟨hne, fun list hlist => (htagged.forall_mem list hlist).2,
      Or.inr fun list hlist => (htagged.forall_mem list hlist).1⟩

/-! ### Entity tags -/

variable {uris : Uris} {tags : Text → Prop} {tag e inner : Text}

/-- The white space around an entity tag is trimmed. -/
theorem trim_isEntityTag (hquoted : IsOpaqueTag tag) (he : e = tag ∨ e = 'W' :: '/' :: tag) {ws' : Text}
    (hws : Blank ws) (hws' : Blank ws') : Text.trim (ws ++ (e ++ ws')) = e := by
  have hwhite : ∀ {ws}, Blank ws → ∀ c ∈ ws, Text.isWhitespace c = true := by
    intro ws hws c hc
    have hall : ([' ', '\t', '\r', '\n'].all Text.isWhitespace) = true := by decide
    exact List.all_eq_true.mp hall c (hws c hc)
  obtain ⟨inner, rfl, -⟩ := hquoted
  have hlast : ∀ front : Text, ∀ c ∈ (front ++ '"' :: (inner ++ ['"'])).getLast?, Text.isWhitespace c = false := by
    intro front c hc
    rw [← List.cons_append, ← List.append_assoc, List.getLast?_concat] at hc
    cases hc
    decide
  rcases he with rfl | rfl
  · refine Text.trim_padded (hwhite hws) (hwhite hws') (fun c hc => ?_) (hlast [])
    cases hc
    decide
  · refine Text.trim_padded (hwhite hws) (hwhite hws') (fun c hc => ?_) (hlast ['W', '/'])
    cases hc
    decide

theorem readable_of_isEntityTag (hquoted : IsOpaqueTag tag) (he : e = tag ∨ e = 'W' :: '/' :: tag)
    (hbracket : ']' ∉ e) {ws' : Text} (hws : Blank ws) (hws' : Blank ws') :
    Readable.entityTag (ws ++ (e ++ ws')) e := by
  have hblank : ∀ {ws}, Blank ws → ']' ∉ ws := fun hws hmem => absurd (hws _ hmem) (by decide)
  refine ⟨?_, (trim_isEntityTag hquoted he hws hws').symm, ?_⟩
  · simp only [List.mem_append, not_or]
    exact ⟨hblank hws, hbracket, hblank hws'⟩
  · obtain ⟨inner, rfl, -⟩ := hquoted
    rcases he with rfl | rfl <;> exact List.cons_ne_nil _ _

/-- A header without a closing bracket in its entity tags is read as it was generated. -/
theorem parse_generated (htags : ∀ tag, tags tag → IsOpaqueTag tag) {value : Text} {header : IfHeader}
    (h : Generated uris tags value header) (hbracket : ∀ e ∈ listEtags header.lists, ']' ∉ e) :
    parse value = some header := by
  refine parse_eq_some.mpr (h.mono ⟨uris.absolute_reference, uris.simpleRef_reference, ?_⟩)
  rintro inner e he ⟨⟨tag, htag, heq⟩, ws, ws', hws, hws', rfl⟩
  exact readable_of_isEntityTag (htags tag htag) heq (hbracket e he) hws hws'

/-- Behind each entity tag is a closing bracket of its own. -/
theorem IsTerms.count_le (h : IsTerms (uris.brackets tags) t terms) :
    (termEtags terms).length + (termEtags terms).flatten.count ']' ≤ t.count ']' := by
  induction h with
  | nil hws => exact Nat.zero_le _
  | @cons ws t rest term terms hws hterm hrest ih =>
    have hcondition : ∀ {t c}, IsCondition (uris.brackets tags) t c →
        (conditionEtags c).length + (conditionEtags c).flatten.count ']' ≤ t.count ']' := by
      intro t c h
      cases h with
      | stateToken href => exact Nat.zero_le _
      | etag htag =>
        obtain ⟨-, ws, ws', -, -, rfl⟩ := htag
        simp only [conditionEtags, List.flatten_cons, List.flatten_nil, List.length_singleton, List.count_cons,
          List.count_append, List.count_nil, beq_self_eq_true, if_true]
        omega
    have hhead : (conditionEtags term.condition).length + (conditionEtags term.condition).flatten.count ']' ≤
        t.count ']' := by
      cases hterm with
      | plain h => exact hcondition h
      | not hword hws h =>
        have hle := hcondition h
        simp only [List.count_append]
        omega
    simp only [termEtags, List.flatMap_cons, List.length_append, List.flatten_append, List.count_append] at ih ⊢
    omega

theorem IsLists.count_le (h : IsLists (uris.brackets tags) resource t lists) :
    (listEtags lists).length + (listEtags lists).flatten.count ']' ≤ t.count ']' := by
  induction h with
  | nil hws => exact Nat.zero_le _
  | cons hws hlist hrest ih =>
    obtain ⟨hterms, -⟩ := hlist
    have hle := hterms.count_le
    simp only [listEtags, List.flatMap_cons, List.length_append, List.flatten_append, List.count_append,
      List.count_cons] at ih ⊢
    omega

theorem IsTagged.count_le (h : IsTagged (uris.brackets tags) t lists) :
    (listEtags lists).length + (listEtags lists).flatten.count ']' ≤ t.count ']' := by
  induction h with
  | nil hws => exact Nat.zero_le _
  | cons hws href hlists hne hrest ih =>
    have hle := hlists.count_le
    simp only [listEtags, List.flatMap_append, List.length_append, List.flatten_append, List.count_append,
      List.count_cons] at hle ih ⊢
    omega

/-- The header with one entity tag. -/
def oneTag (tag : Text) : IfHeader := ⟨[⟨none, [⟨false, .etag tag⟩]⟩]⟩

theorem generated_oneTag (htag : tags tag) :
    Generated uris tags ('(' :: '[' :: (tag ++ [']', ')'])) (oneTag tag) := by
  have hcondition : IsCondition (uris.brackets tags) ('[' :: (tag ++ [']'])) (.etag tag) :=
    .etag ⟨⟨tag, htag, Or.inl rfl⟩, [], [], blank_nil, blank_nil, by simp⟩
  have hlists : IsLists (uris.brackets tags) none _ (oneTag tag).lists :=
    .cons blank_nil (.mk (.cons blank_nil (.plain hcondition) (.nil blank_nil)) (List.cons_ne_nil _ _))
      (.nil blank_nil)
  refine ⟨List.cons_ne_nil _ _, Or.inl ?_⟩
  simpa using hlists

/-- What is read has no closing bracket in its entity tags, so it does not tell a tag that has one from no
tag at all. -/
theorem evaluate_of_bracket {value : Text} {read : IfHeader} (h : parse value = some read)
    (hbracket : ']' ∈ tag) : read.evaluate (fun _ => some tag) = read.evaluate fun _ => none := by
  have hsame : ∀ list ∈ read.lists, ConditionList.holds (some tag) list = ConditionList.holds none list := by
    intro list hlist
    unfold ConditionList.holds
    rw [Bool.eq_iff_iff, List.all_eq_true, List.all_eq_true]
    refine forall₂_congr fun term hterm => ?_
    cases hcondition : term.condition with
    | stateToken => rfl
    | etag e =>
      have he : e ∈ listEtags read.lists := List.mem_flatMap.mpr ⟨list, hlist, List.mem_flatMap.mpr
        ⟨term, hterm, by rw [hcondition]; exact List.mem_singleton_self e⟩⟩
      obtain ⟨inner, hclosing, rfl, -⟩ := (parse_eq_some.mp h).etags e he
      have hne : tag ≠ Text.trim inner := by
        rintro rfl
        exact hclosing (Text.mem_of_mem_trim hbracket)
      simp [Condition.holds, hne]
  unfold evaluate
  rw [Bool.eq_iff_iff, List.any_eq_true, List.any_eq_true]
  exact exists_congr fun list => and_congr_right fun hlist => by rw [hsame list hlist]

theorem holds_oneTag (hquoted : IsOpaqueTag tag) :
    (oneTag tag).Holds (fun _ => some tag) ∧ ¬ (oneTag tag).Holds fun _ => none := by
  obtain ⟨inner, rfl, -⟩ := hquoted
  constructor
  · refine ⟨_, List.mem_singleton_self _, fun term hterm => ?_⟩
    cases List.mem_singleton.mp hterm
    exact iff_of_true ⟨_, rfl, by simp, by simp, rfl⟩ rfl
  · rintro ⟨list, hlist, hterms⟩
    cases List.mem_singleton.mp hlist
    obtain ⟨_, hcurrent, -⟩ := (hterms _ (List.mem_singleton_self _)).mpr rfl
    cases hcurrent

/-- Every header that the grammar generates with some opaque tags is accepted and means what it says, if and
only if none of the tags has a closing bracket. -/
theorem means_iff (htags : ∀ tag, tags tag → IsOpaqueTag tag) :
    (∀ value header, Generated uris tags value header → ∃ read, parse value = some read ∧
        ∀ currentEtag, read.evaluate currentEtag = true ↔ header.Holds currentEtag) ↔
      ∀ tag, tags tag → ']' ∉ tag := by
  constructor
  · intro hmeans tag htag hbracket
    obtain ⟨read, hread, hevaluate⟩ := hmeans _ _ (generated_oneTag htag)
    obtain ⟨hholds, hnot⟩ := holds_oneTag (htags tag htag)
    have htrue := (hevaluate _).mpr hholds
    rw [evaluate_of_bracket hread hbracket] at htrue
    exact hnot ((hevaluate _).mp htrue)
  · intro hbracket value header h
    refine ⟨header, parse_generated htags h fun e he => ?_, fun _ => evaluate_iff⟩
    obtain ⟨inner, ⟨tag, htag, rfl | rfl⟩, -⟩ := h.etags e he
    · exact hbracket _ htag
    · simpa using hbracket _ htag

theorem parse_eq_none {value : Text} : parse value = none ↔ ¬ ∃ header, IsHeader Readable value header := by
  rw [Option.eq_none_iff_forall_ne_some, not_exists]
  exact forall_congr' fun header => not_congr parse_eq_some

/-- Every header that the grammar generates with some opaque tags is accepted and means what it says, if and
only if none of the tags has a closing bracket. A value that the grammar does not generate is refused if
and only if it has not the structure of a header with other texts in the brackets; without a list, with an
empty one and with tagged and other lists mixed it always is. And the parser comes to an end. -/
theorem parse_meaning_iff (uris : Uris) (tags : Text → Prop) (htags : ∀ tag, tags tag → IsOpaqueTag tag) :
    ((∀ value header, Generated uris tags value header → ∃ read, parse value = some read ∧
          ∀ currentEtag, read.evaluate currentEtag = true ↔ header.Holds currentEtag) ↔
        ∀ tag, tags tag → ']' ∉ tag) ∧
      (∀ value, ((¬ ∃ header, Generated uris IsOpaqueTag value header) → parse value = none) ↔
        ((∃ header, Generated uris IsOpaqueTag value header) ∨ ¬ ∃ header, IsHeader Readable value header)) ∧
      (∀ value header, parse value = some header → header.WellFormed) ∧
      (∀ value fuel, value.length < fuel →
        parseLists fuel value none none [] = parseLists (value.length + 1) value none none []) ∧
      ∀ body fuel, body.length < fuel → listTerms fuel body [] = listTerms (body.length + 1) body [] := by
  refine ⟨means_iff htags, fun value => ?_, fun value header h => (parse_eq_some.mp h).wellFormed,
    rounds_suffice.1, rounds_suffice.2⟩
  rw [parse_eq_none]
  exact not_imp_comm.trans or_iff_not_imp_right.symm

/-- No URI at all. -/
def noUris : Uris := ⟨fun _ => False, fun _ => False, fun _ => False.elim, fun _ => False.elim⟩

/-- A header with the entity tag `"v1"`. -/
theorem parse_meaning_v1 :
    ∃ read, parse "([\"v1\"])".toList = some read ∧ ∀ currentEtag,
      read.evaluate currentEtag = true ↔ (oneTag "\"v1\"".toList).Holds currentEtag := by
  have hquoted : ∀ tag, tag = "\"v1\"".toList → IsOpaqueTag tag := by
    rintro tag rfl
    refine ⟨"v1".toList, rfl, fun c hc => Or.inr (Or.inl ?_)⟩
    have hall : ("v1".toList.all fun c => '#' ≤ c ∧ c ≤ '~') = true := by decide
    exact of_decide_eq_true (List.all_eq_true.mp hall c hc)
  refine ((parse_meaning_iff noUris (· = "\"v1\"".toList) hquoted).1.mpr ?_) _ _ (generated_oneTag rfl)
  rintro tag rfl
  decide

theorem blank_eq_nil {c : Char} (hws : Blank ws) (h : c :: rest = ws ++ after)
    (hc : c ∉ [' ', '\t', '\r', '\n']) : ws = [] := by
  cases ws with
  | nil => rfl
  | cons d ws =>
    obtain ⟨rfl, -⟩ := List.cons.inj h
    exact absurd (hws c List.mem_cons_self) hc

theorem IsEntityTag.head (htags : ∀ tag, tags tag → IsOpaqueTag tag) (he : IsEntityTag tags e) :
    ∃ c e', e = c :: e' ∧ c ∈ ['"', 'W'] := by
  obtain ⟨tag, htag, he⟩ := he
  obtain ⟨inner, rfl, -⟩ := htags tag htag
  rcases he with rfl | rfl
  · exact ⟨_, _, rfl, by decide⟩
  · exact ⟨_, _, rfl, by decide⟩

/-- Behind the opening bracket of an entity tag. -/
theorem IsTerm.starts {c : Char} (htags : ∀ tag, tags tag → IsOpaqueTag tag)
    (h : IsTerm (uris.brackets tags) t term) (ht : '[' :: c :: rest = t ++ after) :
    c ∈ [' ', '\t', '\r', '\n', '"', 'W'] := by
  cases h with
  | plain h =>
    cases h with
    | stateToken href => exact absurd (List.cons.inj ht).1 (by decide)
    | etag htag =>
      obtain ⟨he, ws, ws', hws, -, rfl⟩ := htag
      obtain ⟨d, e', rfl, hd⟩ := he.head htags
      have hc : c ∈ ws ++ [d] := by
        cases ws with
        | nil => simp_all
        | cons d' ws => simp_all
      rcases List.mem_append.mp hc with hc | hc
      · exact List.mem_append_left _ (hws c hc)
      · obtain rfl := List.mem_singleton.mp hc
        exact List.mem_append_right [' ', '\t', '\r', '\n'] hd
  | @not word ws t c hword hws h =>
    cases word with
    | nil => cases hword
    | cons d word =>
      obtain ⟨rfl, -⟩ := List.cons.inj ht
      exact absurd (List.cons.inj hword).1 (by decide)

theorem generated_starts {c : Char} {header : IfHeader} (htags : ∀ tag, tags tag → IsOpaqueTag tag)
    (h : Generated uris tags ('(' :: '[' :: c :: rest) header) : c ∈ [' ', '\t', '\r', '\n', '"', 'W'] := by
  obtain ⟨lists⟩ := header
  obtain ⟨hne, hlists | htagged⟩ := h
  · generalize hvalue : '(' :: '[' :: c :: rest = value at hlists
    cases hlists with
    | nil hws => exact absurd rfl hne
    | cons hws hlist hrest =>
      obtain rfl := blank_eq_nil hws hvalue (by decide)
      obtain ⟨hterms, hterms_ne⟩ := hlist
      obtain ⟨-, hbody⟩ := List.cons.inj hvalue
      cases hterms with
      | nil hws => exact absurd rfl hterms_ne
      | cons hws hterm hterms =>
        have hbody' := hbody.trans (List.append_assoc _ _ _)
        rw [List.append_assoc, List.append_assoc] at hbody'
        obtain rfl := blank_eq_nil hws hbody' (by decide)
        exact hterm.starts htags hbody'
  · refine absurd ?_ htagged.head
    rw [skipWhitespace_cons (by decide)]
    rfl

/-- A header that the grammar generates with the entity tag `"a]b"` is refused. And where the brackets hold
something else, or are not even balanced, a value that the grammar does not generate is accepted. -/
theorem bracket_in_tag_refused :
    (IsOpaqueTag "\"a]b\"".toList ∧
      Generated noUris (· = "\"a]b\"".toList) "([\"a]b\"])".toList (oneTag "\"a]b\"".toList) ∧
      parse "([\"a]b\"])".toList = none) ∧
    (∀ uris, ¬ ∃ header, Generated uris IsOpaqueTag "([foo])".toList header) ∧
    parse "([foo])".toList = some (oneTag "foo".toList) ∧
    (∀ uris, ¬ ∃ header, Generated uris IsOpaqueTag "([[\"v1\"])".toList header) ∧
    parse "([[\"v1\"])".toList = some (oneTag "[\"v1\"".toList) := by
  refine ⟨⟨⟨"a]b".toList, rfl, fun c hc => Or.inr (Or.inl ?_)⟩, generated_oneTag rfl, by decide⟩, ?_, by decide,
    ?_, by decide⟩
  · have hall : ("a]b".toList.all fun c => '#' ≤ c ∧ c ≤ '~') = true := by decide
    exact of_decide_eq_true (List.all_eq_true.mp hall c hc)
  · rintro uris ⟨header, h⟩
    exact absurd (generated_starts (fun _ => id) h) (by decide)
  · rintro uris ⟨header, h⟩
    exact absurd (generated_starts (fun _ => id) h) (by decide)

end IfHeader
