-- SUMMARY: What a key pattern denotes as it is written, and exactly which patterns the matcher reads that way.
import NotedThat.Core.Pattern
import NotedThat.Lib.Prog
import Mathlib.Data.List.Forall2

/-!
# The denotation of a pattern

The denotation is read off the pattern's text, one construct at a time. The code instead expands
the braces to texts and then reads each text again, so two stars that come from different places
can meet in an expansion and be read as one `**`.
-/

namespace Pattern

/-! ## Segments -/

/-- The key segments a pattern segment denotes as written. -/
inductive Denotes : Text → Text → Prop where
  | nil : Denotes [] []
  | star {p t : Text} (run : Text) : '/' ∉ run → Denotes p t → Denotes ('*' :: p) (run ++ t)
  | any {p t : Text} (c : Char) : c ≠ '/' → Denotes p t → Denotes ('?' :: p) (c :: t)
  | literal {p t : Text} (c : Char) : c ≠ '*' → c ≠ '?' → c ≠ '{' → Denotes p t →
      Denotes (c :: p) (c :: t)
  | braces {inner branch p s t : Text} : '{' ∉ inner → '}' ∉ inner → branch ∈ inner.splitOn ',' →
      Denotes branch s → Denotes p t → Denotes ('{' :: (inner ++ '}' :: p)) (s ++ t)

/-- A text spelled by a segment: one branch chosen in each pair of braces. -/
inductive Spells : Text → Text → Prop where
  | nil : Spells [] []
  | char {p t : Text} (c : Char) : c ≠ '{' → Spells p t → Spells (c :: p) (c :: t)
  | braces {inner branch p t : Text} : '{' ∉ inner → '}' ∉ inner → branch ∈ inner.splitOn ',' →
      Spells p t → Spells ('{' :: (inner ++ '}' :: p)) (branch ++ t)

theorem Denotes.append {p q s t : Text} (hp : Denotes p s) (hq : Denotes q t) :
    Denotes (p ++ q) (s ++ t) := by
  induction hp with
  | nil => exact hq
  | star run hrun _ ih => simpa using ih.star run hrun
  | any c hc _ ih => exact ih.any c hc
  | literal c h₁ h₂ h₃ _ ih => exact ih.literal c h₁ h₂ h₃
  | braces h₁ h₂ hb hbranch _ _ ih => simpa using Denotes.braces h₁ h₂ hb hbranch ih

/-- A segment that does not start with braces: its first character is a wildcard or itself. -/
theorem Denotes.cons_cases {c : Char} {p k : Text} (hc : c ≠ '{') (h : Denotes (c :: p) k) :
    (c = '*' ∧ ∃ run t, '/' ∉ run ∧ k = run ++ t ∧ Denotes p t) ∨
      (c = '?' ∧ ∃ d t, d ≠ '/' ∧ k = d :: t ∧ Denotes p t) ∨
      (c ≠ '*' ∧ c ≠ '?' ∧ ∃ t, k = c :: t ∧ Denotes p t) := by
  generalize hp : c :: p = q at h
  cases h with
  | nil => cases hp
  | star run hrun h =>
    cases hp
    exact .inl ⟨rfl, run, _, hrun, rfl, h⟩
  | any d hd h =>
    cases hp
    exact .inr (.inl ⟨rfl, d, _, hd, rfl, h⟩)
  | literal d h₁ h₂ _ h =>
    cases hp
    exact .inr (.inr ⟨h₁, h₂, _, rfl, h⟩)
  | braces => exact absurd (List.cons.inj hp).1 hc

theorem Denotes.of_append {p q k : Text} (hp : '{' ∉ p) (h : Denotes (p ++ q) k) :
    ∃ s t, k = s ++ t ∧ Denotes p s ∧ Denotes q t := by
  induction p generalizing k with
  | nil => exact ⟨[], k, rfl, .nil, h⟩
  | cons c p ih =>
    simp only [List.mem_cons, not_or] at hp
    rcases Denotes.cons_cases (Ne.symm hp.1) h with ⟨rfl, run, t, hrun, rfl, hrest⟩ |
      ⟨rfl, d, t, hd, rfl, hrest⟩ | ⟨h₁, h₂, t, rfl, hrest⟩
    · obtain ⟨s, t, rfl, hs, ht⟩ := ih hp.2 hrest
      exact ⟨run ++ s, t, by simp, hs.star run hrun, ht⟩
    · obtain ⟨s, t, rfl, hs, ht⟩ := ih hp.2 hrest
      exact ⟨d :: s, t, rfl, hs.any d hd, ht⟩
    · obtain ⟨s, t, rfl, hs, ht⟩ := ih hp.2 hrest
      exact ⟨c :: s, t, rfl, hs.literal c h₁ h₂ (Ne.symm hp.1), ht⟩

theorem not_mem_of_branch {inner branch : Text} (h : '{' ∉ inner)
    (hb : branch ∈ inner.splitOn ',') : '{' ∉ branch :=
  fun hmem => h (Text.mem_of_mem_splitOn hb hmem)

/-- A segment denotes what the texts it spells denote. -/
theorem denotes_iff_spells {p k : Text} : Denotes p k ↔ ∃ t, Spells p t ∧ Denotes t k := by
  constructor
  · intro h
    induction h with
    | nil => exact ⟨[], .nil, .nil⟩
    | star run hrun _ ih =>
      obtain ⟨t, hs, hd⟩ := ih
      exact ⟨'*' :: t, hs.char _ (by decide), hd.star run hrun⟩
    | any c hc _ ih =>
      obtain ⟨t, hs, hd⟩ := ih
      exact ⟨'?' :: t, hs.char _ (by decide), hd.any c hc⟩
    | literal c h₁ h₂ h₃ _ ih =>
      obtain ⟨t, hs, hd⟩ := ih
      exact ⟨c :: t, hs.char c h₃, hd.literal c h₁ h₂ h₃⟩
    | braces h₁ h₂ hb hbranch _ _ ih =>
      obtain ⟨t, hs, hd⟩ := ih
      exact ⟨_, hs.braces h₁ h₂ hb, hbranch.append hd⟩
  · rintro ⟨t, hs, hd⟩
    induction hs generalizing k with
    | nil => exact hd
    | char c hc _ ih =>
      rcases hd.cons_cases hc with ⟨rfl, run, t, hrun, rfl, hrest⟩ | ⟨rfl, d, t, hne, rfl, hrest⟩ |
        ⟨h₁, h₂, t, rfl, hrest⟩
      · exact (ih hrest).star run hrun
      · exact (ih hrest).any d hne
      · exact (ih hrest).literal c h₁ h₂ hc
    | braces h₁ h₂ hb _ ih =>
      obtain ⟨s, t, rfl, hs, ht⟩ := hd.of_append (not_mem_of_branch h₁ hb)
      exact .braces h₁ h₂ hb hs (ih ht)

/-! ## Brace expansion -/

theorem spells_of_not_mem {p t : Text} (hp : '{' ∉ p) : Spells p t ↔ t = p := by
  constructor
  · intro h
    induction h with
    | nil => rfl
    | char c _ _ ih =>
      simp only [List.mem_cons, not_or] at hp
      rw [ih hp.2]
    | braces => simp at hp
  · rintro rfl
    induction t with
    | nil => exact .nil
    | cons c t ih =>
      simp only [List.mem_cons, not_or] at hp
      exact (ih hp.2).char c (Ne.symm hp.1)

/-- A literal run and the first pair of braces after it. -/
theorem spells_braces {literal inner p t : Text} (hl : '{' ∉ literal) (hi : '{' ∉ inner)
    (hc : '}' ∉ inner) : Spells (literal ++ '{' :: (inner ++ '}' :: p)) t ↔
      ∃ branch ∈ inner.splitOn ',', ∃ u, Spells p u ∧ t = literal ++ branch ++ u := by
  induction literal generalizing t with
  | nil =>
    constructor
    · intro h
      generalize hq : ([] ++ '{' :: (inner ++ '}' :: p) : Text) = q at h
      cases h with
      | nil => cases hq
      | char c hc' => exact absurd (List.cons.inj hq).1.symm hc'
      | @braces inner' branch p' u hi' hc' hb h =>
        have heq := (List.cons.inj hq).2
        have hsplit := congrArg (Text.splitOnce '}') heq
        rw [Text.splitOnce_append hc, Text.splitOnce_append hc'] at hsplit
        cases hsplit
        exact ⟨branch, hb, u, h, rfl⟩
    · rintro ⟨branch, hb, u, h, rfl⟩
      exact h.braces hi hc hb
  | cons c literal ih =>
    simp only [List.mem_cons, not_or] at hl
    constructor
    · intro h
      generalize hq : c :: literal ++ '{' :: (inner ++ '}' :: p) = q at h
      cases h with
      | nil => cases hq
      | char _ _ h =>
        cases hq
        obtain ⟨branch, hb, u, hu, rfl⟩ := (ih hl.2).mp h
        exact ⟨branch, hb, u, hu, by simp⟩
      | braces => exact absurd (List.cons.inj hq).1.symm hl.1
    · rintro ⟨branch, hb, u, hu, rfl⟩
      exact .char c (Ne.symm hl.1) ((ih hl.2).mpr ⟨branch, hb, u, hu, rfl⟩)

/-- What the loop returns: each text read so far, continued by each text the rest spells. -/
theorem mem_expandBracesLoop {segment rest : Text} {results texts : List Text}
    (h : expandBracesLoop segment results rest = .ok texts) :
    (∀ t, t ∈ texts ↔ ∃ r ∈ results, ∃ u, Spells rest u ∧ t = r ++ u) ∧
      (results ≠ [] → texts ≠ []) ∧ ∀ u, Spells rest u → '{' ∉ u := by
  fun_induction expandBracesLoop segment results rest with
  | case1 results rest hnone hclose => cases h
  | case2 results rest hnone hclose =>
    cases h
    rw [Text.splitOnce_eq_none] at hnone
    refine ⟨?_, by simp, ?_⟩
    · intro t
      simp [spells_of_not_mem hnone, eq_comm]
    · intro u hu
      rwa [(spells_of_not_mem hnone).mp hu]
  | case3 => cases h
  | case4 => cases h
  | case5 => cases h
  | case6 => cases h
  | case7 => cases h
  | case8 results rest literal innerAndRest hopen inner rest' hclose hnested _ branches hempty _ _ ih =>
    simp only [List.flatMap_subtype, List.unattach_attach] at ih
    obtain ⟨hmem, hne, hbrace⟩ := ih h
    obtain ⟨rfl, hl⟩ := Text.splitOnce_eq_some.mp hopen
    obtain ⟨rfl, hc⟩ := Text.splitOnce_eq_some.mp hclose
    have hi : '{' ∉ inner := by simpa using hnested
    refine ⟨?_, ?_, ?_⟩
    · intro t
      rw [hmem]
      simp only [List.mem_flatMap, List.mem_map, spells_braces hl hi hc]
      constructor
      · rintro ⟨_, ⟨r, hr, branch, hb, rfl⟩, u, hu, rfl⟩
        exact ⟨r, hr, _, ⟨branch, hb, u, hu, rfl⟩, by simp⟩
      · rintro ⟨r, hr, _, ⟨branch, hb, u, hu, rfl⟩, rfl⟩
        exact ⟨_, ⟨r, hr, branch, hb, rfl⟩, u, hu, by simp⟩
    · intro hr
      refine hne ?_
      obtain ⟨r, rs, rfl⟩ := List.exists_cons_of_ne_nil hr
      obtain ⟨b, bs, hb⟩ := List.exists_cons_of_ne_nil (List.splitOn_ne_nil ',' inner)
      simp [branches, hb]
    · intro u hu
      obtain ⟨branch, hb, v, hv, rfl⟩ := (spells_braces hl hi hc).mp hu
      simp only [List.mem_append, not_or]
      exact ⟨⟨hl, not_mem_of_branch hi hb⟩, hbrace v hv⟩

/-- Brace expansion returns the texts a segment spells. -/
theorem mem_expandBraces {segment : Text} {texts : List Text}
    (h : expandBraces segment = .ok texts) :
    (∀ t, t ∈ texts ↔ Spells segment t) ∧ texts ≠ [] ∧ ∀ t, Spells segment t → '{' ∉ t := by
  unfold expandBraces at h
  split at h
  · next hopen =>
    have hopen : '{' ∉ segment := by simpa using hopen
    split at h
    · cases h
    · cases h
      refine ⟨?_, by simp, ?_⟩
      · intro t
        simp [spells_of_not_mem hopen]
      · intro t ht
        rwa [(spells_of_not_mem hopen).mp ht]
  · obtain ⟨hmem, hne, hbrace⟩ := mem_expandBracesLoop h
    refine ⟨?_, hne (by simp), hbrace⟩
    intro t
    simp [hmem]

/-! ## Tokens -/

/-- The characters a token consumes. -/
def Token.width : Token → Nat
  | .star => 0
  | .any => 1
  | .literal text => text.length

/-- The pieces of a token pattern match in the declarative sense. -/
abbrev TokensMatch : List Token → Text → Prop := Matches (fun t => decide (t = .star)) consumeToken

theorem literal_ne_nil_of_mem_tokenize {literal chars text : Text}
    (h : .literal text ∈ tokenize literal chars) : text ≠ [] := by
  induction chars generalizing literal with
  | nil =>
    rw [tokenize] at h
    split at h
    · cases h
    · next hne =>
      cases List.mem_singleton.mp h
      simpa using hne
  | cons ch chars ih =>
    rw [tokenize] at h
    split at h
    · rcases List.mem_append.mp h with h | h
      · split at h
        · split at h
          · simp at h
          · simp at h
        · next hne =>
          rcases List.mem_cons.mp h with h | h
          · cases h
            simpa using hne
          · split at h
            · simp at h
            · simp at h
      · exact ih h
    · exact ih h

theorem tokenize_advances (literal chars : Text) :
    Advances (fun t => decide (t = .star)) consumeToken Token.width (tokenize literal chars) := by
  intro t ht hstar
  cases t with
  | star => simp at hstar
  | any =>
    refine ⟨Nat.one_pos, ?_⟩
    intro key key' h
    cases key with
    | nil => cases h
    | cons c key =>
      cases h
      simp [Token.width]
  | literal text =>
    refine ⟨List.length_pos_iff.mpr (literal_ne_nil_of_mem_tokenize ht), ?_⟩
    intro key key' h
    obtain rfl := Text.stripPrefix_eq_some.mp h
    simp [Token.width]

/-- A literal that was read and is still to be matched. -/
theorem tokensMatch_literal {literal : Text} {tokens : List Token} {k : Text} :
    TokensMatch ((if literal.isEmpty then [] else [.literal literal]) ++ tokens) k ↔
      ∃ t, k = literal ++ t ∧ TokensMatch tokens t := by
  cases literal with
  | nil => simp
  | cons c literal =>
    simp only [List.isEmpty_cons, Bool.false_eq_true, if_false, List.cons_append, List.nil_append]
    rw [TokensMatch, matches_one_iff (by simp)]
    simp [consumeToken, Text.stripPrefix_eq_some]

theorem tokenize_wild {literal chars : Text} {ch : Char} (h : ch = '*' ∨ ch = '?') :
    tokenize literal (ch :: chars) = (if literal.isEmpty then [] else [.literal literal]) ++
      (if ch = '*' then Token.star else .any) :: tokenize [] chars := by
  rw [tokenize, if_pos h]
  cases literal with
  | nil => rfl
  | cons c literal => rfl

theorem tokenize_other {literal chars : Text} {ch : Char} (h₁ : ch ≠ '*') (h₂ : ch ≠ '?') :
    tokenize literal (ch :: chars) = tokenize (literal ++ [ch]) chars := by
  rw [tokenize, if_neg (by simp [h₁, h₂])]

theorem tokensMatch_star {tokens : List Token} {k : Text} :
    TokensMatch (.star :: tokens) k ↔ ∃ run t, k = run ++ t ∧ TokensMatch tokens t := by
  rw [TokensMatch, matches_star_iff (by simp)]
  constructor
  · rintro ⟨i, -, h⟩
    exact ⟨k.take i, k.drop i, by simp, h⟩
  · rintro ⟨run, t, rfl, h⟩
    exact ⟨run.length, by simp, by simpa using h⟩

theorem tokensMatch_any {tokens : List Token} {k : Text} :
    TokensMatch (.any :: tokens) k ↔ ∃ c t, k = c :: t ∧ TokensMatch tokens t := by
  rw [TokensMatch, matches_one_iff (by simp)]
  cases k with
  | nil => simp [consumeToken]
  | cons c k => simp [consumeToken]

/-- The tokens of a text without braces match what it denotes. -/
theorem tokensMatch_tokenize {literal chars k : Text} (hc : '{' ∉ chars) (hk : '/' ∉ k) :
    TokensMatch (tokenize literal chars) k ↔ ∃ t, k = literal ++ t ∧ Denotes chars t := by
  induction chars generalizing literal k with
  | nil =>
    have hnil : ∀ {t : Text}, TokensMatch [] t ↔ Denotes [] t := by
      intro t
      constructor
      · intro h
        cases h
        exact .nil
      · intro h
        cases h
        exact .nil
    have htokens : tokenize literal [] =
        (if literal.isEmpty then [] else [.literal literal]) ++ [] := by
      rw [tokenize, List.append_nil]
    rw [htokens, tokensMatch_literal]
    simp only [hnil]
  | cons ch chars ih =>
    simp only [List.mem_cons, not_or] at hc
    -- what the rest matches, after a part of the key
    have rest : ∀ {s t : Text}, k = s ++ t →
        (TokensMatch (tokenize [] chars) t ↔ Denotes chars t) := by
      rintro s t rfl
      rw [ih hc.2 (fun h => hk (List.mem_append_right _ h))]
      simp
    by_cases h₁ : ch = '*'
    · subst h₁
      rw [tokenize_wild (.inl rfl), tokensMatch_literal]
      simp only [if_true, tokensMatch_star]
      constructor
      · rintro ⟨t, rfl, run, u, rfl, h⟩
        refine ⟨run ++ u, rfl, .star run ?_ ((rest (s := literal ++ run) (by simp)).mp h)⟩
        exact fun hmem => hk (by simp [hmem])
      · rintro ⟨t, rfl, h⟩
        rcases h.cons_cases (by decide) with ⟨-, run, u, -, rfl, hd⟩ | ⟨hne, -⟩ | ⟨hne, -⟩
        · exact ⟨_, rfl, run, u, rfl, (rest (s := literal ++ run) (by simp)).mpr hd⟩
        · exact absurd hne (by decide)
        · exact absurd rfl hne
    · by_cases h₂ : ch = '?'
      · subst h₂
        rw [tokenize_wild (.inr rfl), tokensMatch_literal]
        simp only [Char.reduceEq, if_false, tokensMatch_any]
        constructor
        · rintro ⟨t, rfl, c, u, rfl, h⟩
          refine ⟨c :: u, rfl, .any c ?_ ((rest (s := literal ++ [c]) (by simp)).mp h)⟩
          rintro rfl
          simp at hk
        · rintro ⟨t, rfl, h⟩
          rcases h.cons_cases (by decide) with ⟨hne, -⟩ | ⟨-, c, u, -, rfl, hd⟩ | ⟨-, hne, -⟩
          · exact absurd hne (by decide)
          · exact ⟨_, rfl, c, u, rfl, (rest (s := literal ++ [c]) (by simp)).mpr hd⟩
          · exact absurd rfl hne
      · rw [tokenize_other h₁ h₂, ih hc.2 hk]
        constructor
        · rintro ⟨t, rfl, h⟩
          exact ⟨ch :: t, by simp, h.literal ch h₁ h₂ (Ne.symm hc.1)⟩
        · rintro ⟨t, rfl, h⟩
          rcases h.cons_cases (Ne.symm hc.1) with ⟨hne, -⟩ | ⟨hne, -⟩ | ⟨-, -, u, rfl, hd⟩
          · exact absurd hne h₁
          · exact absurd hne h₂
          · exact ⟨u, by simp, hd⟩

/-- A text without wildcards denotes itself. -/
theorem denotes_literal {text k : Text} (hb : '{' ∉ text) (hs : '*' ∉ text) (hq : '?' ∉ text) :
    Denotes text k ↔ text = k := by
  induction text generalizing k with
  | nil =>
    constructor
    · intro h
      cases h
      rfl
    · rintro rfl
      exact .nil
  | cons c text ih =>
    simp only [List.mem_cons, not_or] at hb hs hq
    constructor
    · intro h
      rcases h.cons_cases (Ne.symm hb.1) with ⟨rfl, -⟩ | ⟨rfl, -⟩ | ⟨-, -, t, rfl, hd⟩
      · exact absurd rfl hs.1
      · exact absurd rfl hq.1
      · rw [(ih hb.2 hs.2 hq.2).mp hd]
    · rintro rfl
      exact .literal c (Ne.symm hs.1) (Ne.symm hq.1) (Ne.symm hb.1)
        ((ih hb.2 hs.2 hq.2).mpr rfl)

/-! ## Parsed segments -/

/-- Only the text `**` is read as any number of segments. -/
theorem parseSegment_doubleStar {text : Text} {segment : Segment}
    (h : parseSegment text = .ok segment) : segment = .doubleStar ↔ text = ['*', '*'] := by
  unfold parseSegment at h
  split at h
  · next heq =>
    cases h
    simp [heq]
  · next hne =>
    split at h
    · cases h
    · split at h
      · cases h
        simp [hne]
      · cases h
        simp [hne]

/-- A parsed segment other than `**` matches what its text denotes. -/
theorem segmentMatches_iff {text k : Text} {segment : Segment} (hb : '{' ∉ text) (hk : '/' ∉ k)
    (h : parseSegment text = .ok segment) (hne : segment ≠ .doubleStar) :
    segmentMatches segment k = true ↔ Denotes text k := by
  unfold parseSegment at h
  split at h
  · cases h
    exact absurd rfl hne
  · split at h
    · cases h
    · split at h
      · next hwild =>
        cases h
        simp only [Bool.not_eq_true', Bool.or_eq_false_iff] at hwild
        rw [denotes_literal hb (by simpa using hwild.1) (by simpa using hwild.2)]
        simp [segmentMatches]
      · cases h
        rw [segmentMatches, matchTokens, twoPointerMatch_iff (tokenize_advances _ _)]
        have htokens : TokensMatch (tokenize [] text) k ↔ ∃ t, k = [] ++ t ∧ Denotes text t :=
          tokensMatch_tokenize hb hk
        simpa using htokens

/-- A pattern segment that the parser accepts: it spells some text, and every text it spells is
free of braces and can be read. -/
structure Readable (raw : Text) : Prop where
  spelled : ∃ t, Spells raw t
  text : ∀ t, Spells raw t → '{' ∉ t ∧ ∃ segment, parseSegment t = .ok segment

/-- A reading of a pattern segment: one of the texts it spells, parsed. -/
def Reading (raw : Text) (segment : Segment) : Prop :=
  ∃ t, Spells raw t ∧ parseSegment t = .ok segment

theorem mem_mapM {texts : List Text} {segments : List Segment}
    (h : texts.mapM parseSegment = .ok segments) :
    (∀ segment, segment ∈ segments ↔ ∃ t ∈ texts, parseSegment t = .ok segment) ∧
      ∀ t ∈ texts, ∃ segment, parseSegment t = .ok segment := by
  induction texts generalizing segments with
  | nil =>
    cases h
    simp
  | cons t texts ih =>
    rw [List.mapM_cons] at h
    obtain ⟨segment, hs, h⟩ := Except.bind_eq_ok.mp h
    obtain ⟨rest, hrest, h⟩ := Except.bind_eq_ok.mp h
    cases h
    obtain ⟨hmem, hall⟩ := ih hrest
    refine ⟨by simp [hmem, hs, eq_comm], ?_⟩
    intro u hu
    rcases List.mem_cons.mp hu with rfl | hu
    · exact ⟨segment, hs⟩
    · exact hall u hu

/-- The parser returns the combinations of readings, and every segment it accepts is readable. -/
theorem mem_parseSegments {raws : List Text} {heads alternatives : List (List Segment)}
    (h : parseSegments heads raws = .ok alternatives) :
    (∀ alternative, alternative ∈ alternatives ↔
      ∃ head ∈ heads, ∃ tail, List.Forall₂ Reading raws tail ∧ alternative = head ++ tail) ∧
      ∀ raw ∈ raws, Readable raw := by
  induction raws generalizing heads with
  | nil =>
    cases h
    simp [List.forall₂_nil_left_iff]
  | cons raw raws ih =>
    rw [parseSegments] at h
    split at h
    · cases h
    · split at h
      · cases h
      · obtain ⟨expansions, hexp, h⟩ := Except.bind_eq_ok.mp h
        split at h
        · cases h
        · obtain ⟨segments, hseg, h⟩ := Except.bind_eq_ok.mp h
          obtain ⟨hspell, hne, hbrace⟩ := mem_expandBraces hexp
          obtain ⟨hmem, hall⟩ := mem_mapM hseg
          obtain ⟨halt, hread⟩ := ih h
          have hraw : Readable raw := by
            obtain ⟨t, ts, rfl⟩ := List.exists_cons_of_ne_nil hne
            exact ⟨⟨t, (hspell t).mp (by simp)⟩,
              fun t ht => ⟨hbrace t ht, hall t ((hspell t).mpr ht)⟩⟩
          have hreading : ∀ segment, segment ∈ segments ↔ Reading raw segment := by
            intro segment
            rw [hmem]
            simp [hspell, Reading]
          refine ⟨?_, by simpa using ⟨hraw, hread⟩⟩
          intro alternative
          rw [halt]
          simp only [List.mem_flatMap, List.mem_map, hreading]
          constructor
          · rintro ⟨_, ⟨head, hh, segment, hs, rfl⟩, tail, htail, rfl⟩
            exact ⟨head, hh, segment :: tail, .cons hs htail, by simp⟩
          · rintro ⟨head, hh, _, htail, rfl⟩
            cases htail with
            | cons hs htail => exact ⟨_, ⟨head, hh, _, hs, rfl⟩, _, htail, by simp⟩

/-! ## Keys -/

/-- The keys, as lists of segments, of a pattern's segments: those for which `deep` holds stand
for any number of whole segments, every other one for a single segment it denotes. -/
inductive DenotesKey (deep : Text → Prop) : List Text → List Text → Prop where
  | nil : DenotesKey deep [] []
  | deep {raw : Text} {raws ks : List Text} (segments : List Text) :
      deep raw → DenotesKey deep raws ks → DenotesKey deep (raw :: raws) (segments ++ ks)
  | segment {raw k : Text} {raws ks : List Text} :
      ¬ deep raw → Denotes raw k → DenotesKey deep raws ks →
        DenotesKey deep (raw :: raws) (k :: ks)

/-- The segment is written `**`. -/
def IsDoubleStar (raw : Text) : Prop := raw = ['*', '*']

/-- The segment spells `**`, whether or not it is written so. -/
def SpellsDoubleStar (raw : Text) : Prop := Spells raw ['*', '*']

abbrev SegmentsMatch : List Segment → List Text → Prop :=
  Matches (fun s => decide (s = .doubleStar)) consumeSegment

theorem segments_advance (alternative : List Segment) :
    Advances (fun s => decide (s = .doubleStar)) consumeSegment (fun _ => 1) alternative := by
  intro segment _ _
  refine ⟨Nat.one_pos, ?_⟩
  intro key key' h
  cases key with
  | nil => cases h
  | cons candidate key =>
    simp only [consumeSegment] at h
    split at h
    · cases h
      simp
    · cases h

/-- Some combination of readings matches exactly when the key is denoted with every segment that
spells `**` read as `**`. -/
theorem exists_segmentsMatch_iff {raws ks : List Text} (hr : ∀ raw ∈ raws, Readable raw)
    (hk : ∀ k ∈ ks, '/' ∉ k) :
    (∃ alternative, List.Forall₂ Reading raws alternative ∧ SegmentsMatch alternative ks) ↔
      DenotesKey SpellsDoubleStar raws ks := by
  constructor
  · rintro ⟨alternative, hread, hm⟩
    induction hread generalizing ks with
    | nil =>
      cases hm
      exact .nil
    | @cons raw segment raws alternative hs _ ih =>
      simp only [List.mem_cons, forall_eq_or_imp] at hr
      obtain ⟨t, ht, hparse⟩ := hs
      by_cases hd : segment = .doubleStar
      · have hdeep : SpellsDoubleStar raw := by
          rwa [(parseSegment_doubleStar hparse).mp hd] at ht
        cases hm with
        | star skipped _ hm =>
          exact .deep skipped hdeep (ih hr.2 (fun k hmem => hk k (by simp [hmem])) hm)
        | one hone => simp [hd] at hone
      · obtain ⟨ks', hc, hrest⟩ := (matches_one_iff (by simpa using hd)).mp hm
        cases ks with
        | nil => cases hc
        | cons k ks =>
          simp only [List.mem_cons, forall_eq_or_imp] at hk
          simp only [consumeSegment] at hc
          split at hc
          · next hmatch =>
            cases hc
            have hrest := ih hr.2 hk.2 hrest
            rw [segmentMatches_iff (hr.1.text t ht).1 hk.1 hparse hd] at hmatch
            by_cases hdeep : SpellsDoubleStar raw
            · exact .deep [k] hdeep hrest
            · exact .segment hdeep (denotes_iff_spells.mpr ⟨t, ht, hmatch⟩) hrest
          · cases hc
  · intro h
    induction h with
    | nil => exact ⟨[], .nil, .nil⟩
    | @deep raw raws ks segments hdeep _ ih =>
      simp only [List.mem_cons, forall_eq_or_imp] at hr
      obtain ⟨alternative, hread, hm⟩ := ih hr.2 fun k hmem => hk k (by simp [hmem])
      exact ⟨.doubleStar :: alternative, .cons ⟨_, hdeep, rfl⟩ hread, .star segments rfl hm⟩
    | @segment raw k raws ks hdeep hden _ ih =>
      simp only [List.mem_cons, forall_eq_or_imp] at hr hk
      obtain ⟨alternative, hread, hm⟩ := ih hr.2 hk.2
      obtain ⟨t, ht, hden⟩ := denotes_iff_spells.mp hden
      obtain ⟨hbrace, segment, hparse⟩ := hr.1.text t ht
      have hne : segment ≠ .doubleStar := by
        rw [Ne, parseSegment_doubleStar hparse]
        rintro rfl
        exact hdeep ht
      refine ⟨segment :: alternative, .cons ⟨t, ht, hparse⟩ hread,
        .one (by simpa using hne) ?_ hm⟩
      simp only [consumeSegment]
      rw [if_pos ((segmentMatches_iff hbrace hk.1 hparse hne).mpr hden)]

/-! ## Comparing the two readings -/

theorem DenotesKey.append {deep : Text → Prop} {raws raws' ks ks' : List Text}
    (h : DenotesKey deep raws ks) (h' : DenotesKey deep raws' ks') :
    DenotesKey deep (raws ++ raws') (ks ++ ks') := by
  induction h with
  | nil => exact h'
  | deep segments hd _ ih => simpa using DenotesKey.deep segments hd ih
  | segment hd hden _ ih => exact .segment hd hden ih

theorem spellsDoubleStar_doubleStar : SpellsDoubleStar ['*', '*'] :=
  .char '*' (by decide) (.char '*' (by decide) .nil)

/-- The matcher's reading contains the written one. -/
theorem DenotesKey.spells {raws ks : List Text} (h : DenotesKey IsDoubleStar raws ks) :
    DenotesKey SpellsDoubleStar raws ks := by
  induction h with
  | nil => exact .nil
  | deep segments hd _ ih =>
    cases hd
    exact .deep segments spellsDoubleStar_doubleStar ih
  | @segment raw k raws ks _ hden _ ih =>
    by_cases hdeep : SpellsDoubleStar raw
    · exact .deep [k] hdeep ih
    · exact .segment hdeep hden ih

theorem DenotesKey.written {raws ks : List Text}
    (hraws : ∀ raw ∈ raws, SpellsDoubleStar raw → IsDoubleStar raw)
    (h : DenotesKey SpellsDoubleStar raws ks) : DenotesKey IsDoubleStar raws ks := by
  induction h with
  | nil => exact .nil
  | deep segments hd _ ih =>
    simp only [List.mem_cons, forall_eq_or_imp] at hraws
    exact .deep segments (hraws.1 hd) (ih hraws.2)
  | @segment raw k raws ks hd hden _ ih =>
    simp only [List.mem_cons, forall_eq_or_imp] at hraws
    refine .segment ?_ hden (ih hraws.2)
    rintro rfl
    exact hd spellsDoubleStar_doubleStar

/-- The segments of a pattern that are not written `**`. -/
def proper (raws : List Text) : List Text := raws.filter fun raw => decide (raw ≠ ['*', '*'])

/-- Every proper segment takes one segment of the key. -/
theorem DenotesKey.length_le {raws ks : List Text} (h : DenotesKey IsDoubleStar raws ks) :
    (proper raws).length ≤ ks.length ∧ (['*', '*'] ∉ raws → ks.length = (proper raws).length) := by
  induction h with
  | nil => simp [proper]
  | deep segments hd _ ih =>
    cases hd
    refine ⟨?_, by simp⟩
    simpa [proper] using Nat.le_add_left_of_le ih.1
  | @segment raw k raws ks hd _ _ ih =>
    have hne : raw ≠ ['*', '*'] := hd
    simp only [proper, List.mem_cons, not_or] at ih ⊢
    simp only [ne_eq, hne, not_false_eq_true, decide_true, List.filter_cons_of_pos,
      List.length_cons, Nat.add_le_add_iff_right, Nat.add_right_cancel_iff]
    exact ⟨ih.1, fun h => ih.2 h.2⟩

/-- A text without braces denotes some segment. -/
theorem exists_denotes {t : Text} (hb : '{' ∉ t) (hs : '/' ∉ t) : ∃ k, '/' ∉ k ∧ Denotes t k := by
  induction t with
  | nil => exact ⟨[], by simp, .nil⟩
  | cons c t ih =>
    simp only [List.mem_cons, not_or] at hb hs
    obtain ⟨k, hk, h⟩ := ih hb.2 hs.2
    by_cases h₁ : c = '*'
    · subst h₁
      exact ⟨k, hk, h.star [] (by simp)⟩
    · by_cases h₂ : c = '?'
      · subst h₂
        exact ⟨'x' :: k, by simpa using hk, h.any 'x' (by decide)⟩
      · refine ⟨c :: k, ?_, h.literal c h₁ h₂ (Ne.symm hb.1)⟩
        simpa using ⟨hs.1, hk⟩

theorem Spells.not_mem {c : Char} {raw t : Text} (h : Spells raw t) (hraw : c ∉ raw) : c ∉ t := by
  induction h with
  | nil => exact hraw
  | char d _ _ ih =>
    simp only [List.mem_cons, not_or] at hraw ⊢
    exact ⟨hraw.1, ih hraw.2⟩
  | braces _ _ hb _ ih =>
    simp only [List.mem_cons, List.mem_append, not_or] at hraw ⊢
    exact ⟨fun hmem => hraw.2.1 (Text.mem_of_mem_splitOn hb hmem), ih hraw.2.2.2⟩

/-- The matcher's reading has keys with one segment for each proper one. -/
theorem exists_spells {raws : List Text} (hr : ∀ raw ∈ raws, Readable raw ∧ '/' ∉ raw) :
    ∃ ks, DenotesKey SpellsDoubleStar raws ks ∧ ks.length = (proper raws).length ∧
      ∀ k ∈ ks, '/' ∉ k := by
  induction raws with
  | nil => exact ⟨[], .nil, rfl, by simp⟩
  | cons raw raws ih =>
    simp only [List.mem_cons, forall_eq_or_imp] at hr
    obtain ⟨ks, hks, hlen, hslash⟩ := ih hr.2
    by_cases hraw : raw = ['*', '*']
    · subst hraw
      exact ⟨ks, .deep [] spellsDoubleStar_doubleStar hks, by simpa [proper] using hlen, hslash⟩
    · obtain ⟨t, ht⟩ := hr.1.1.spelled
      obtain ⟨k, hk, hden⟩ := exists_denotes (hr.1.1.text t ht).1 (ht.not_mem hr.1.2)
      refine ⟨k :: ks, ?_, by simpa [proper, hraw] using hlen, by simpa using ⟨hk, hslash⟩⟩
      by_cases hdeep : SpellsDoubleStar raw
      · exact .deep [k] hdeep hks
      · exact .segment hdeep (denotes_iff_spells.mpr ⟨t, ht, hden⟩) hks

/-- A proper segment that spells `**` takes any number of segments of the key. -/
theorem exists_spells_of_mem {raws : List Text} (hr : ∀ raw ∈ raws, Readable raw ∧ '/' ∉ raw)
    {raw : Text} (hmem : raw ∈ raws) (hne : ¬ IsDoubleStar raw) (hdeep : SpellsDoubleStar raw)
    (n : Nat) : ∃ ks, DenotesKey SpellsDoubleStar raws ks ∧
      ks.length + 1 = (proper raws).length + n ∧ ∀ k ∈ ks, '/' ∉ k := by
  obtain ⟨before, after, rfl⟩ := List.append_of_mem hmem
  simp only [List.mem_append, List.mem_cons] at hr
  have hbefore : ∀ r ∈ before, Readable r ∧ '/' ∉ r := fun r h => hr r (.inl h)
  have hafter : ∀ r ∈ after, Readable r ∧ '/' ∉ r := fun r h => hr r (.inr (.inr h))
  obtain ⟨ks, hks, hlen, hslash⟩ := exists_spells hbefore
  obtain ⟨ls, hls, hlen', hslash'⟩ := exists_spells hafter
  refine ⟨ks ++ (List.replicate n ['x'] ++ ls), hks.append (.deep _ hdeep hls), ?_, ?_⟩
  · have hne : raw ≠ ['*', '*'] := hne
    simp only [proper] at hlen hlen'
    simp [proper, hne, hlen, hlen']
    omega
  · intro k hk
    simp only [List.mem_append, List.mem_replicate] at hk
    rcases hk with hk | ⟨-, rfl⟩ | hk
    · exact hslash k hk
    · decide
    · exact hslash' k hk

/-- Segments all written `**` denote no segment at all and, if there is one, every key. -/
theorem denotesKey_doubleStars {raws : List Text} (h : ∀ raw ∈ raws, IsDoubleStar raw) :
    DenotesKey IsDoubleStar raws [] ∧ (raws ≠ [] → ∀ ks, DenotesKey IsDoubleStar raws ks) := by
  induction raws with
  | nil => exact ⟨.nil, fun h => absurd rfl h⟩
  | cons raw raws ih =>
    simp only [List.mem_cons, forall_eq_or_imp] at h
    have hrest := (ih h.2).1
    refine ⟨.deep [] h.1 hrest, ?_⟩
    intro _ ks
    simpa using DenotesKey.deep ks h.1 hrest

/-- A segment that spells `**`, with only segments written `**` around it, denotes every key. -/
theorem denotesKey_of_surrounded {raws ks : List Text} {raw : Text} (hmem : raw ∈ raws)
    (hne : ¬ IsDoubleStar raw) (hdeep : SpellsDoubleStar raw) (hstar : ['*', '*'] ∈ raws)
    (hone : (proper raws).length = 1) (hks : ks ≠ []) (hslash : ∀ k ∈ ks, '/' ∉ k) :
    DenotesKey IsDoubleStar raws ks := by
  obtain ⟨before, after, rfl⟩ := List.append_of_mem hmem
  have hne' : raw ≠ ['*', '*'] := hne
  have hcount : (proper before).length = 0 ∧ (proper after).length = 0 := by
    simp only [proper, List.filter_append, ne_eq, hne', not_false_eq_true, decide_true,
      List.filter_cons_of_pos, List.length_append, List.length_cons] at hone ⊢
    omega
  have written : ∀ {rs : List Text}, (proper rs).length = 0 → ∀ r ∈ rs, IsDoubleStar r := by
    intro rs h
    simpa [proper, IsDoubleStar] using h
  obtain ⟨hbefore, hbefore'⟩ := denotesKey_doubleStars (written hcount.1)
  obtain ⟨hafter, hafter'⟩ := denotesKey_doubleStars (written hcount.2)
  have hden : ∀ k ∈ ks, Denotes raw k := by
    intro k hk
    refine denotes_iff_spells.mpr ⟨_, hdeep, ?_⟩
    simpa using Denotes.star k (hslash k hk) (Denotes.star [] (by simp) .nil)
  by_cases hb : before = []
  · subst hb
    have ha : after ≠ [] := by
      rintro rfl
      exact hne (List.mem_singleton.mp hstar).symm
    obtain ⟨k, ks, rfl⟩ := List.exists_cons_of_ne_nil hks
    exact .segment hne (hden k (by simp)) (hafter' ha ks)
  · rw [← List.dropLast_append_getLast hks]
    exact (hbefore' hb _).append (.segment hne (hden _ (List.getLast_mem hks)) hafter)

end Pattern

namespace KeyPattern

open Pattern

/-- The segments of a pattern as written. -/
def segments (pattern : KeyPattern) : List Text := pattern.source.splitOn '/'

/-- The keys a pattern denotes as written. -/
def Denotes (pattern : KeyPattern) (key : Text) : Prop :=
  DenotesKey IsDoubleStar pattern.segments (key.splitOn '/')

theorem parseSegments_eq (pattern : KeyPattern) :
    parseSegments [[]] pattern.segments = .ok pattern.alternatives := by
  have h := pattern.parsed
  simp only [Pattern.parse, invalid] at h
  repeat
    split at h
    · cases h
  exact h

theorem readable (pattern : KeyPattern) : ∀ raw ∈ pattern.segments, Readable raw :=
  (mem_parseSegments pattern.parseSegments_eq).2

/-- The matcher reads every segment that spells `**` as `**`. -/
theorem matchesKey_iff (pattern : KeyPattern) (key : Text) :
    pattern.matchesKey key = true ↔
      DenotesKey SpellsDoubleStar pattern.segments (key.splitOn '/') := by
  rw [← exists_segmentsMatch_iff pattern.readable fun k hk => Text.not_mem_of_mem_splitOn hk]
  simp only [matchesKey, List.any_eq_true, matchSegments,
    twoPointerMatch_iff (segments_advance _), (mem_parseSegments pattern.parseSegments_eq).1]
  constructor
  · rintro ⟨_, ⟨head, hh, tail, htail, rfl⟩, hm⟩
    cases List.mem_singleton.mp hh
    exact ⟨tail, htail, hm⟩
  · rintro ⟨tail, htail, hm⟩
    exact ⟨tail, ⟨[], by simp, tail, htail, rfl⟩, hm⟩

/-- No segment that is not written `**` spells it, or else it stands alone among segments written
`**`. -/
def ReadAsWritten (pattern : KeyPattern) : Prop :=
  (∀ raw ∈ pattern.segments, SpellsDoubleStar raw → IsDoubleStar raw) ∨
    ['*', '*'] ∈ pattern.segments ∧ (proper pattern.segments).length = 1

/-- The text of a key with given segments. -/
theorem splitOn_of_segments {ks : List Text} (hks : ks ≠ []) (hslash : ∀ k ∈ ks, '/' ∉ k) :
    ∃ key : Text, key.splitOn '/' = ks :=
  ⟨['/'].intercalate ks, List.splitOn_intercalate _ hslash hks⟩

/-- A pattern matches exactly the keys it denotes as written if and only if it is read as
written. -/
theorem matchesKey_iff_denotes (pattern : KeyPattern) :
    (∀ key, pattern.matchesKey key = true ↔ pattern.Denotes key) ↔ pattern.ReadAsWritten := by
  constructor
  · intro h
    by_contra hcond
    simp only [ReadAsWritten, not_or, not_forall, not_and] at hcond
    obtain ⟨⟨raw, hmem, hdeep, hne⟩, hmany⟩ := hcond
    have hread : ∀ raw ∈ pattern.segments, Readable raw ∧ '/' ∉ raw := fun raw hraw =>
      ⟨pattern.readable raw hraw, Text.not_mem_of_mem_splitOn hraw⟩
    have hproper : 0 < (proper pattern.segments).length :=
      List.length_pos_of_mem (a := raw) (List.mem_filter.mpr ⟨hmem, decide_eq_true hne⟩)
    -- a key the matcher accepts is denoted, so it has a segment for each proper one
    have agree : ∀ ks, ks ≠ [] → (∀ k ∈ ks, '/' ∉ k) →
        DenotesKey SpellsDoubleStar pattern.segments ks →
        DenotesKey IsDoubleStar pattern.segments ks := by
      intro ks hks hslash hspells
      obtain ⟨key, rfl⟩ := splitOn_of_segments hks hslash
      exact (h key).mp ((pattern.matchesKey_iff key).mpr hspells)
    by_cases hstar : ['*', '*'] ∈ pattern.segments
    · obtain ⟨ks, hks, hlen, hslash⟩ := exists_spells_of_mem hread hmem hne hdeep 0
      have hone := hmany hstar
      have hne : ks ≠ [] := by
        rintro rfl
        simp only [List.length_nil] at hlen
        omega
      have := (agree ks hne hslash hks).length_le.1
      omega
    · obtain ⟨ks, hks, hlen, hslash⟩ := exists_spells_of_mem hread hmem hne hdeep 2
      have hne : ks ≠ [] := by
        rintro rfl
        simp only [List.length_nil] at hlen
        omega
      have := (agree ks hne hslash hks).length_le.2 hstar
      omega
  · intro hcond key
    rw [matchesKey_iff]
    refine ⟨?_, DenotesKey.spells⟩
    intro hspells
    by_cases hwritten : ∀ raw ∈ pattern.segments, SpellsDoubleStar raw → IsDoubleStar raw
    · exact hspells.written hwritten
    · obtain ⟨hstar, hone⟩ := hcond.resolve_left hwritten
      simp only [not_forall] at hwritten
      obtain ⟨raw, hmem, hdeep, hne⟩ := hwritten
      exact denotesKey_of_surrounded hmem hne hdeep hstar hone (List.splitOn_ne_nil _ _)
        fun k hk => Text.not_mem_of_mem_splitOn hk

theorem parse_eq_ok {input : Text} {alternatives : List (List Segment)}
    (h : Pattern.parse input = .ok alternatives) :
    KeyPattern.parse input = .ok ⟨input, alternatives, h⟩ := by
  unfold KeyPattern.parse
  split
  · next alternatives' h' =>
    rw [h] at h'
    cases h'
    rfl
  · next e h' =>
    rw [h] at h'
    cases h'

/-- Braces around one of two stars: the segment is not written `**`, and yet it matches a key of
two segments. -/
theorem braced_star_matches_two_segments :
    ∃ pattern key, KeyPattern.parse "\x7b*\x7d*".toList = .ok pattern ∧
      pattern.matchesKey key = true ∧ ¬ pattern.Denotes key := by
  have hparse : Pattern.parse "\x7b*\x7d*".toList = .ok [[.doubleStar]] := by decide +kernel
  refine ⟨_, "a/b".toList, parse_eq_ok hparse, ?_, ?_⟩
  · show [[Segment.doubleStar]].any (fun a => matchSegments a ("a/b".toList.splitOn '/')) = true
    decide
  intro h
  have hsplit : ("\x7b*\x7d*".toList : Text).splitOn '/' = ["\x7b*\x7d*".toList] := by
    decide
  have hlen := h.length_le.2
  simp only [segments, hsplit] at hlen
  exact absurd (hlen (by decide)) (by decide)

end KeyPattern
