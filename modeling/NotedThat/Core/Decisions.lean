-- SUMMARY: The evaluator's decisions against the order-free specification of a policy, and the soundness of its shortcuts.
import NotedThat.Core.Access
import NotedThat.Core.Denotation

/-!
# Access decisions

The specification of a policy says, for one principal, verb and key, which rules must exist and
which must not. The evaluator compiles a filter first and decides keys by it; the other questions
a surface asks of a policy or a filter never name a key, and are sound approximations.
-/

/-! ## The specification -/

/-- A subject of a rule covers a principal. -/
def Who.Covers : Who → Principal → Prop
  | .anyone, principal => principal = .anyone
  | .signedIn, principal => ∃ identity, principal = .signedIn identity
  | .group name, principal => ∃ user, principal = .signedIn (.user user) ∧ name ∈ user.groups
  | .user name, principal => ∃ user, principal = .signedIn (.user user) ∧ user.subject = name

theorem Who.matchesPrincipal_iff {who : Who} {principal : Principal} :
    who.matchesPrincipal principal = true ↔ who.Covers principal := by
  cases who with
  | anyone => cases principal <;> simp [Who.matchesPrincipal, Who.Covers]
  | signedIn => cases principal <;> simp [Who.matchesPrincipal, Who.Covers]
  | group name =>
    cases principal with
    | anyone => simp [Who.matchesPrincipal, Who.Covers]
    | signedIn identity => cases identity <;> simp [Who.matchesPrincipal, Who.Covers]
  | user name =>
    cases principal with
    | anyone => simp [Who.matchesPrincipal, Who.Covers]
    | signedIn identity => cases identity <;> simp [Who.matchesPrincipal, Who.Covers]

namespace AccessPolicy

/-- Some rule with this effect covers the principal, names the verb and has a pattern that matches
the key. -/
def Says (policy : AccessPolicy) (effect : Effect) (principal : Principal) (verb : Verb)
    (key : Text) : Prop :=
  ∃ rule ∈ policy.rules, rule.effect = effect ∧ rule.who.Covers principal ∧ verb ∈ rule.verbs ∧
    ∃ pattern ∈ rule.under, pattern.matchesKey key = true

/-- The decision a policy specifies. -/
def Allowed (policy : AccessPolicy) (principal : Principal) (verb : Verb) (key : Text) : Prop :=
  if isInternalPath key then principal = .signedIn .serviceToken
  else ¬ (principal = .anyone ∧ verb.isMutating = true) ∧
    policy.Says .allow principal verb key ∧ ¬ policy.Says .deny principal verb key

variable {policy policy' : AccessPolicy} {effect : Effect} {principal : Principal} {verb : Verb}
variable {key : Text}

theorem any_patterns :
    (policy.patterns effect principal verb).any (·.matchesKey key) = true ↔
      policy.Says effect principal verb key := by
  simp only [patterns, Says, List.any_eq_true, List.mem_flatMap, List.mem_filter,
    Bool.and_eq_true, decide_eq_true_eq, AccessRule.covers, Who.matchesPrincipal_iff,
    List.contains_iff_mem]
  constructor
  · rintro ⟨pattern, ⟨rule, ⟨hmem, ⟨hwho, hverb⟩, heffect⟩, hunder⟩, hmatch⟩
    exact ⟨rule, hmem, heffect, hwho, hverb, pattern, hunder, hmatch⟩
  · rintro ⟨rule, hmem, heffect, hwho, hverb, pattern, hunder, hmatch⟩
    exact ⟨pattern, ⟨rule, ⟨hmem, ⟨hwho, hverb⟩, heffect⟩, hunder⟩, hmatch⟩

@[simp] theorem keyFilter_reach : (policy.keyFilter principal verb).reach = principal.reach := by
  unfold keyFilter
  split
  · rfl
  · rfl

theorem reach_serviceToken : principal.reach = .serviceToken ↔ principal = .signedIn .serviceToken := by
  cases principal with
  | anyone => simp [Principal.reach]
  | signedIn identity => cases identity <;> simp [Principal.reach]

theorem reach_anonymous : principal.reach = .anonymous ↔ principal = .anyone := by
  cases principal with
  | anyone => simp [Principal.reach]
  | signedIn identity => cases identity <;> simp [Principal.reach]

/-- The evaluator decides the specification. -/
theorem allows_iff_allowed :
    policy.allows principal verb key = true ↔ policy.Allowed principal verb key := by
  unfold allows KeyFilter.allows Allowed
  split
  · simp [reach_serviceToken]
  · unfold keyFilter
    simp only [reach_anonymous]
    split
    · next h => simp [h]
    · next h =>
      simp only [Bool.and_eq_true, Bool.not_eq_true', ← Bool.not_eq_true, any_patterns, h,
        not_false_eq_true, true_and]

theorem Says.mono (h : ∀ rule ∈ policy.rules, rule.effect = effect → rule ∈ policy'.rules)
    (hs : policy.Says effect principal verb key) : policy'.Says effect principal verb key := by
  obtain ⟨rule, hmem, heffect, hrest⟩ := hs
  exact ⟨rule, h rule hmem heffect, heffect, hrest⟩

/-- Only the set of the rules matters. -/
theorem Allowed.of_mem_iff (h : ∀ rule, rule ∈ policy.rules ↔ rule ∈ policy'.rules) :
    policy.Allowed principal verb key ↔ policy'.Allowed principal verb key := by
  have hsays : ∀ effect, policy.Says effect principal verb key ↔
      policy'.Says effect principal verb key := by
    intro effect
    exact ⟨.mono fun rule hr _ => (h rule).mp hr, .mono fun rule hr _ => (h rule).mpr hr⟩
  simp only [Allowed, hsays]

/-- A denying rule more allows nothing more. -/
theorem Allowed.of_deny {before after : List AccessRule} {rule : AccessRule}
    (hrule : rule.effect = .deny)
    (h : (AccessPolicy.mk (before ++ rule :: after)).Allowed principal verb key) :
    (AccessPolicy.mk (before ++ after)).Allowed principal verb key := by
  unfold Allowed at h ⊢
  split
  · simpa [*] using h
  · next hkey =>
    rw [if_neg hkey] at h
    obtain ⟨hanyone, hallow, hdeny⟩ := h
    refine ⟨hanyone, hallow.mono ?_, fun hd => hdeny (hd.mono ?_)⟩
    · intro r hr heffect
      simp only [List.mem_append, List.mem_cons] at hr ⊢
      rcases hr with hr | rfl | hr
      · exact .inl hr
      · rw [hrule] at heffect
        cases heffect
      · exact .inr hr
    · intro r hr _
      simp only [List.mem_append, List.mem_cons] at hr ⊢
      rcases hr with hr | hr
      · exact .inl hr
      · exact .inr (.inr hr)

/-- The evaluator's decision is the specification's. Hence it does not change when the rules are
permuted or repeated, a denying rule only takes away, and on internal keys every policy decides
the same. -/
theorem decision_spec (policy : AccessPolicy) (principal : Principal) (verb : Verb) (key : Text) :
    (policy.allows principal verb key = true ↔ policy.Allowed principal verb key) ∧
      (∀ policy' : AccessPolicy, (∀ rule, rule ∈ policy'.rules ↔ rule ∈ policy.rules) →
        policy'.allows principal verb key = policy.allows principal verb key) ∧
      (∀ before rule after, policy.rules = before ++ after → rule.effect = .deny →
        (AccessPolicy.mk (before ++ rule :: after)).allows principal verb key = true →
        policy.allows principal verb key = true) ∧
      (isInternalPath key = true → ∀ policy' : AccessPolicy,
        policy'.allows principal verb key = policy.allows principal verb key) := by
  refine ⟨allows_iff_allowed, ?_, ?_, ?_⟩
  · intro policy' h
    rw [Bool.eq_iff_iff, allows_iff_allowed, allows_iff_allowed]
    exact Allowed.of_mem_iff h
  · intro before rule after heq hrule h
    rw [allows_iff_allowed] at h ⊢
    have hpolicy : policy = ⟨before ++ after⟩ := by
      cases policy
      simpa using heq
    rw [hpolicy]
    exact h.of_deny hrule
  · intro hkey policy'
    rw [Bool.eq_iff_iff, allows_iff_allowed, allows_iff_allowed]
    simp [Allowed, hkey]

/-- Everyone signed in may read, except below `drafts`. -/
def publicButDrafts : AccessPolicy :=
  ⟨[.new .signedIn [.read], ⟨.signedIn, .deny, [.read],
    [⟨"drafts/**".toList, [[.literal "drafts".toList, .doubleStar]], by decide⟩]⟩]⟩

/-- The same rules, repeated and in the other order. -/
theorem decision_spec_publicButDrafts :
    (AccessPolicy.mk (publicButDrafts.rules.reverse ++ publicButDrafts.rules)).allows
      (.signedIn .serviceToken) .read "drafts/a".toList =
    publicButDrafts.allows (.signedIn .serviceToken) .read "drafts/a".toList := by
  refine (decision_spec publicButDrafts (.signedIn .serviceToken) .read "drafts/a".toList).2.1 _ ?_
  intro rule
  simp

end AccessPolicy

/-! ## Shortcuts -/

namespace KeyPattern

/-- The pattern `**` matches every key. -/
theorem matchesKey_of_isWholeKb {pattern : KeyPattern} (h : pattern.isWholeKb = true) (key : Text) :
    pattern.matchesKey key = true := by
  have hp : pattern = wholeKb := KeyPattern.ext (of_decide_eq_true h)
  rw [hp, matchesKey_iff]
  have hsegments : wholeKb.segments = [['*', '*']] := by decide
  rw [hsegments, ← List.append_nil (key.splitOn '/')]
  exact .deep _ Pattern.spellsDoubleStar_doubleStar .nil

theorem literalPrefixLoop_eq_some {shortest : Option Text} {alternatives : List (List Pattern.Segment)}
    {first : Text} (h : literalPrefixLoop shortest alternatives = some first) :
    (∀ s ∈ shortest, s = first) ∧
      ∀ alternative ∈ alternatives, alternative.head? = some (.literal first) := by
  induction alternatives generalizing shortest with
  | nil =>
    cases h
    simp
  | cons alternative rest ih =>
    rw [literalPrefixLoop] at h
    split at h
    · next text hhead =>
      cases shortest with
      | none =>
        obtain ⟨hfirst, hrest⟩ := ih h
        have htext : text = first := hfirst text rfl
        simpa [hhead, htext] using hrest
      | some existing =>
        simp only at h
        split at h
        · next heq =>
          obtain ⟨hfirst, hrest⟩ := ih h
          have htext : existing = first := hfirst existing rfl
          simp only [Option.mem_some_iff, forall_eq', List.mem_cons, forall_eq_or_imp]
          exact ⟨htext, by rw [hhead, ← heq, htext], hrest⟩
        · cases h
    · cases h

/-- A pattern with a literal prefix matches keys that equal it or go on below it. -/
theorem prefix_of_literalPrefix {pattern : KeyPattern} {first key : Text}
    (hfirst : pattern.literalPrefix = some first) (hkey : pattern.matchesKey key = true) :
    key = first ∨ first ++ ['/'] <+: key := by
  obtain ⟨alternative, hmem, hmatch⟩ := List.any_eq_true.mp hkey
  have hhead := (literalPrefixLoop_eq_some hfirst).2 alternative hmem
  rw [Pattern.matchSegments, Pattern.twoPointerMatch_iff (Pattern.segments_advance _)] at hmatch
  obtain ⟨rest, rfl⟩ : ∃ rest, alternative = .literal first :: rest := by
    cases alternative with
    | nil => cases hhead
    | cons segment rest =>
      simp only [List.head?_cons, Option.some.injEq] at hhead
      exact ⟨rest, by rw [hhead]⟩
  obtain ⟨key', hc, -⟩ := (Pattern.matches_one_iff (by simp)).mp hmatch
  -- the key's first segment is the literal
  have hjoin : ['/'].intercalate (key.splitOn '/') = key := List.intercalate_splitOn '/'
  cases hsplit : key.splitOn '/' with
  | nil => exact absurd hsplit (List.splitOn_ne_nil _ _)
  | cons k ks =>
    rw [hsplit] at hc hjoin
    simp only [Pattern.consumeSegment, Pattern.segmentMatches] at hc
    by_cases heq : first = k
    · subst heq
      cases ks with
      | nil => exact .inl (by rw [← hjoin, List.intercalate_singleton])
      | cons k' ks =>
        rw [← hjoin, List.intercalate_cons_cons]
        exact .inr (List.prefix_append _ _)
    · simp [heq] at hc

end KeyPattern

namespace KeyFilter

variable {filter : KeyFilter} {key first : Text}

theorem allows_of_isAllowAll (h : filter.isAllowAll = true) : filter.allows key = true := by
  simp only [isAllowAll, Bool.and_eq_true, decide_eq_true_eq, List.isEmpty_iff,
    List.any_eq_true] at h
  obtain ⟨⟨hreach, hdeny⟩, pattern, hmem, hwhole⟩ := h
  unfold allows
  split
  · simp [hreach]
  · simp only [hdeny, List.any_nil, Bool.not_false, Bool.and_true, List.any_eq_true]
    exact ⟨pattern, hmem, KeyPattern.matchesKey_of_isWholeKb hwhole key⟩

theorem allows_of_coversWholeKb (h : filter.coversWholeKb = true)
    (hkey : isInternalPath key = false) : filter.allows key = true := by
  simp only [coversWholeKb, Bool.and_eq_true, List.isEmpty_iff, List.any_eq_true] at h
  obtain ⟨hdeny, pattern, hmem, hwhole⟩ := h
  simp only [allows, hkey, Bool.false_eq_true, if_false, hdeny, List.any_nil, Bool.not_false,
    Bool.and_true, List.any_eq_true]
  exact ⟨pattern, hmem, KeyPattern.matchesKey_of_isWholeKb hwhole key⟩

theorem allows_of_isDenyAll (h : filter.isDenyAll = true) : filter.allows key = false := by
  simp only [isDenyAll, Bool.and_eq_true, decide_eq_true_eq, Bool.or_eq_true, List.isEmpty_iff,
    List.any_eq_true] at h
  obtain ⟨hreach, hempty | ⟨pattern, hmem, hwhole⟩⟩ := h
  · unfold allows
    split
    · simpa using hreach
    · simp [hempty]
  · have hdeny : filter.deny.any (·.matchesKey key) = true :=
      List.any_eq_true.mpr ⟨pattern, hmem, KeyPattern.matchesKey_of_isWholeKb hwhole key⟩
    unfold allows
    split
    · simpa using hreach
    · simp [hdeny]

theorem literalPrefixHintLoop_eq_some {shared : Option Text} {patterns : List KeyPattern}
    (h : literalPrefixHintLoop shared patterns = some first) :
    (∀ s ∈ shared, s = first) ∧ ∀ pattern ∈ patterns, pattern.literalPrefix = some first := by
  induction patterns generalizing shared with
  | nil =>
    cases h
    simp
  | cons pattern rest ih =>
    rw [literalPrefixHintLoop] at h
    split at h
    · cases h
    · next text htext =>
      cases shared with
      | none =>
        obtain ⟨hfirst, hrest⟩ := ih h
        have heq : text = first := hfirst text rfl
        simpa [htext, heq] using hrest
      | some existing =>
        simp only at h
        split at h
        · next heq =>
          obtain ⟨hfirst, hrest⟩ := ih h
          have hexisting : existing = first := hfirst existing rfl
          simp only [Option.mem_some_iff, forall_eq', List.mem_cons, forall_eq_or_imp]
          exact ⟨hexisting, by rw [htext, ← heq, hexisting], hrest⟩
        · cases h

theorem prefix_of_literalPrefixHint (h : filter.literalPrefixHint = some first)
    (hkey : isInternalPath key = false) (hallows : filter.allows key = true) :
    key = first ∨ first ++ ['/'] <+: key := by
  simp only [allows, hkey, Bool.false_eq_true, if_false, Bool.and_eq_true] at hallows
  obtain ⟨pattern, hmem, hmatch⟩ := List.any_eq_true.mp hallows.1
  exact KeyPattern.prefix_of_literalPrefix ((literalPrefixHintLoop_eq_some h).2 pattern hmem) hmatch

end KeyFilter

namespace AccessPolicy

variable {policy : AccessPolicy} {principal : Principal} {verb : Verb} {key : Text}

/-- No grant was found, or a rule denies the whole knowledge base. -/
theorem grantsAnyLoop_eq_false {granted : Bool} {rules : List AccessRule}
    (h : grantsAnyLoop granted rules = false) :
    (granted = false ∧ ∀ rule ∈ rules, rule.effect = .deny) ∨
      ∃ rule ∈ rules, rule.effect = .deny ∧ rule.isWholeKb = true := by
  induction rules generalizing granted with
  | nil => exact .inl ⟨h, by simp⟩
  | cons rule rules ih =>
    rw [grantsAnyLoop] at h
    split at h
    · rcases ih h with ⟨hgranted, -⟩ | ⟨r, hr, hrest⟩
      · cases hgranted
      · exact .inr ⟨r, by simp [hr], hrest⟩
    · next heffect =>
      split at h
      · next hwhole => exact .inr ⟨rule, by simp, heffect, hwhole⟩
      · rcases ih h with ⟨hgranted, hall⟩ | ⟨r, hr, hrest⟩
        · exact .inl ⟨hgranted, by simpa using ⟨heffect, hall⟩⟩
        · exact .inr ⟨r, by simp [hr], hrest⟩

theorem not_allowed_of_grantsAny (h : policy.grantsAny principal verb = false)
    (hkey : isInternalPath key = false) : ¬ policy.Allowed principal verb key := by
  rw [Allowed, if_neg (by simp [hkey])]
  rintro ⟨hanyone, ⟨rule, hmem, heffect, hwho, hverb, -⟩, hdeny⟩
  have covers : ∀ r : AccessRule, r.covers principal verb = true ↔
      r.who.Covers principal ∧ verb ∈ r.verbs := by
    intro r
    simp [AccessRule.covers, Who.matchesPrincipal_iff]
  unfold grantsAny at h
  split at h
  · next hmut =>
    refine hanyone ⟨?_, hmut.2⟩
    cases principal with
    | anyone => rfl
    | signedIn identity => cases hmut.1
  · rcases grantsAnyLoop_eq_false h with ⟨-, hall⟩ | ⟨r, hr, hreffect, hwhole⟩
    · have := hall rule (List.mem_filter.mpr ⟨hmem, (covers rule).mpr ⟨hwho, hverb⟩⟩)
      rw [heffect] at this
      cases this
    · obtain ⟨hmem', hcovers⟩ := List.mem_filter.mp hr
      obtain ⟨hwho', hverb'⟩ := (covers r).mp hcovers
      obtain ⟨pattern, hpattern, hp⟩ := List.any_eq_true.mp hwhole
      exact hdeny ⟨r, hmem', hreffect, hwho', hverb', pattern, hpattern,
        KeyPattern.matchesKey_of_isWholeKb hp key⟩

theorem not_allowed_of_visibleInListing (h : policy.visibleInListing principal = false) :
    ¬ policy.Allowed principal verb key := by
  simp only [visibleInListing, Bool.or_eq_false_iff, List.any_eq_false] at h
  by_cases hkey : isInternalPath key = true
  · rw [Allowed, if_pos hkey]
    rintro rfl
    cases h.1
  · refine not_allowed_of_grantsAny ?_ (by simpa using hkey)
    have hverb : verb ∈ Verb.all := by cases verb <;> decide
    simpa using h.2 verb hverb

/-- Every answer given without a key is sound for the decisions about keys. -/
theorem shortcuts_sound (policy : AccessPolicy) (principal : Principal) (verb : Verb) :
    ((policy.keyFilter principal verb).isAllowAll = true →
      ∀ key, policy.allows principal verb key = true) ∧
    ((policy.keyFilter principal verb).isDenyAll = true →
      ∀ key, policy.allows principal verb key = false) ∧
    ((policy.keyFilter principal verb).coversWholeKb = true →
      ∀ key, isInternalPath key = false → policy.allows principal verb key = true) ∧
    (policy.grantsAny principal verb = false →
      ∀ key, isInternalPath key = false → policy.allows principal verb key = false) ∧
    (∀ first, (policy.keyFilter principal verb).literalPrefixHint = some first →
      ∀ key, isInternalPath key = false → policy.allows principal verb key = true →
        key = first ∨ first ++ ['/'] <+: key) ∧
    (policy.visibleInListing principal = false →
      ∀ key verb', policy.allows principal verb' key = false) := by
  have refused : ∀ {v k}, ¬ policy.Allowed principal v k → policy.allows principal v k = false := by
    intro v k h
    rwa [← allows_iff_allowed, Bool.not_eq_true] at h
  refine ⟨?_, ?_, ?_, ?_, ?_, ?_⟩
  · intro h key
    exact KeyFilter.allows_of_isAllowAll h
  · intro h key
    exact KeyFilter.allows_of_isDenyAll h
  · intro h key hkey
    exact KeyFilter.allows_of_coversWholeKb h hkey
  · intro h key hkey
    exact refused (not_allowed_of_grantsAny h hkey)
  · intro first h key hkey hallows
    exact KeyFilter.prefix_of_literalPrefixHint h hkey hallows
  · intro h key verb'
    exact refused (not_allowed_of_visibleInListing h)

theorem expandBraces_shelves : Pattern.expandBraces "\x7bdocs,notes\x7d".toList =
    .ok ["docs".toList, "notes".toList] := by
  have hopen : Text.splitOnce '\x7b' "\x7bdocs,notes\x7d".toList =
      some ([], "docs,notes\x7d".toList) := by decide
  have hclose : Text.splitOnce '\x7d' "docs,notes\x7d".toList =
      some ("docs,notes".toList, []) := by decide
  rw [Pattern.expandBraces, if_neg (by decide), Pattern.expandBracesLoop]
  split
  · next h => cases h.symm.trans hopen
  · next literal innerAndRest h =>
    cases h.symm.trans hopen
    split
    · next h => cases h.symm.trans hclose
    · next inner rest h =>
      cases h.symm.trans hclose
      rw [if_neg (by decide), if_neg (by decide), if_neg (by decide), if_neg (by decide),
        Pattern.expandBracesLoop]
      rfl

theorem parse_shelves : Pattern.parse "public/\x7bdocs,notes\x7d/**".toList =
    .ok [[.literal "public".toList, .literal "docs".toList, .doubleStar],
      [.literal "public".toList, .literal "notes".toList, .doubleStar]] := by
  have hpublic : Pattern.expandBraces "public".toList = .ok ["public".toList] := by decide
  have hstars : Pattern.expandBraces "**".toList = .ok ["**".toList] := by decide
  have hsplit : List.splitOn '/' "public/\x7bdocs,notes\x7d/**".toList =
      ["public".toList, "\x7bdocs,notes\x7d".toList, "**".toList] := by decide
  rw [Pattern.parse, if_neg (by decide), if_neg (by decide), if_neg (by decide),
    if_neg (by decide), if_neg (by decide)]
  simp only [hsplit, Pattern.parseSegments, hpublic, hstars, expandBraces_shelves]
  rfl

/-- The docs and notes below `public` are for everybody to list and read, except the drafts among
the docs. -/
def publicShelves : AccessPolicy :=
  ⟨[⟨.anyone, .allow, [.list, .read], [⟨_, _, parse_shelves⟩]⟩,
    ⟨.anyone, .deny, [.read], [⟨"public/docs/drafts/**".toList,
      [[.literal "public".toList, .literal "docs".toList, .literal "drafts".toList, .doubleStar]],
      by decide⟩]⟩]⟩

/-- Both alternatives of the grant lie below `public`, so a key that only begins with these letters
is not for a stranger to read; and no key is one to write. -/
theorem shortcuts_sound_publicShelves :
    publicShelves.allows .anyone .read "public/docs/a.md".toList = true ∧
      publicShelves.allows .anyone .read "public/docs/drafts/a.md".toList = false ∧
      publicShelves.allows .anyone .read "publicity/a.md".toList = false ∧
      publicShelves.allows .anyone .write "public/docs/a.md".toList = false := by
  obtain ⟨-, -, -, -, hhint, -⟩ := shortcuts_sound publicShelves .anyone .read
  obtain ⟨-, -, -, hgrants, -, -⟩ := shortcuts_sound publicShelves .anyone .write
  refine ⟨by decide, by decide, ?_, hgrants (by decide) _ (by decide)⟩
  rw [← Bool.not_eq_true]
  intro h
  exact absurd (hhint "public".toList (by decide) _ (by decide) h) (by decide)

end AccessPolicy
