-- SUMMARY: While a session has a subscribed key it has a keeper, exactly one, unless a stranded key expires just as the keeper looks.
import NotedThat.Mcp.SubscriptionEffects

/-!
# The keeper

Only `subscribe` starts a keeper, and only the keeper itself stands down. Keys move between watches and
what is stranded without it, so it has to be running for as long as there is a key anywhere.
-/

namespace Mcp

namespace Subscriptions

/-- A registered watch holds a key, or one is stranded, whether or not it has expired. -/
def Holdings.Subscribed (h : Holdings) : Prop :=
  (∃ watchKey id key, (watchKey, id) ∈ h.kbs ∧ (h.watches id).keys.contains key = true) ∨
    ∃ watchKey st key, (watchKey, st) ∈ h.stranded ∧ st.keys.contains key = true

/-- The same, but what has expired does not count. -/
def Holdings.SubscribedNow (h : Holdings) : Prop :=
  (∃ watchKey id key, (watchKey, id) ∈ h.kbs ∧ (h.watches id).keys.contains key = true) ∨
    ∃ watchKey st key, (watchKey, st) ∈ h.stranded ∧ st.keys.contains key = true ∧ h.now < st.expires

namespace Holdings

variable {h h' : Holdings}

theorem SubscribedNow.subscribed (hsub : h.SubscribedNow) : h.Subscribed := by
  rcases hsub with hwatch | ⟨watchKey, st, key, hmem, hkey, -⟩
  · exact Or.inl hwatch
  · exact Or.inr ⟨watchKey, st, key, hmem, hkey⟩

theorem anySubscribed_iff : h.anySubscribed = true ↔ h.SubscribedNow := by
  have hempty : ∀ m : Assoc Text Text, (!m.isEmpty) = true ↔ ∃ key, m.contains key = true := by
    intro m
    rw [Bool.not_eq_true', Bool.eq_false_iff, ne_eq, Assoc.isEmpty_iff]
    simp
  unfold anySubscribed SubscribedNow Stranded.expired
  rw [Bool.or_eq_true, List.any_eq_true, List.any_eq_true]
  simp only [hempty, Bool.and_eq_true, Bool.not_eq_true', decide_eq_false_iff_not, Nat.not_le]
  constructor
  · rintro (⟨⟨watchKey, id⟩, hmem, key, hkey⟩ | ⟨⟨watchKey, st⟩, hmem, ⟨key, hkey⟩, hnow⟩)
    · exact Or.inl ⟨watchKey, id, key, hmem, hkey⟩
    · exact Or.inr ⟨watchKey, st, key, hmem, hkey, hnow⟩
  · rintro (⟨watchKey, id, key, hmem, hkey⟩ | ⟨watchKey, st, key, hmem, hkey, hnow⟩)
    · exact Or.inl ⟨(watchKey, id), hmem, key, hkey⟩
    · exact Or.inr ⟨(watchKey, st), hmem, ⟨key, hkey⟩, hnow⟩

/-- Where there is a key afterwards there was one before, if watches and entries have only lost some. -/
theorem Subscribed.of_fewer (hsub : h'.Subscribed)
    (hwatches : ∀ watchKey id key, (watchKey, id) ∈ h'.kbs → (h'.watches id).keys.contains key = true →
      h.Subscribed)
    (hstranded : ∀ watchKey st key, (watchKey, st) ∈ h'.stranded → st.keys.contains key = true →
      h.Subscribed) : h.Subscribed := by
  rcases hsub with ⟨watchKey, id, key, hmem, hkey⟩ | ⟨watchKey, st, key, hmem, hkey⟩
  · exact hwatches watchKey id key hmem hkey
  · exact hstranded watchKey st key hmem hkey

theorem Subscribed.of_watch {watchKey : WatchKey} {id : Nat} {key : Text} (hmem : (watchKey, id) ∈ h.kbs)
    (hkey : (h.watches id).keys.contains key = true) : h.Subscribed :=
  Or.inl ⟨watchKey, id, key, hmem, hkey⟩

theorem Subscribed.of_stranded {watchKey : WatchKey} {st : Stranded} {key : Text}
    (hmem : (watchKey, st) ∈ h.stranded) (hkey : st.keys.contains key = true) : h.Subscribed :=
  Or.inr ⟨watchKey, st, key, hmem, hkey⟩

/-- A watch may lose keys. -/
theorem Subscribed.of_setWatch {id : Nat} {w : KbWatch} (hsub : (h.setWatch id w).Subscribed)
    (hw : ∀ key, w.keys.contains key = true → (h.watches id).keys.contains key = true) :
    h.Subscribed := by
  refine hsub.of_fewer (fun watchKey id' key hmem hkey => ?_) fun _ _ _ hmem hkey => .of_stranded hmem hkey
  by_cases hid : id' = id
  · cases hid
    rw [setWatch_self] at hkey
    exact .of_watch hmem (hw key hkey)
  · rw [setWatch_of_ne hid] at hkey
    exact .of_watch hmem hkey

theorem Subscribed.of_unsubscribe {kb key : Text} (hsub : (h.unsubscribe kb key).Subscribed) :
    h.Subscribed := by
  refine hsub.of_fewer ?_ ?_
  · rintro ⟨kb', credential⟩ id key' hmem hkey
    have hreg := (mem_unsubscribe_kbs.mp hmem).1
    by_cases hkb : ∃ credential, ((kb, credential), id) ∈ h.kbs
    · obtain ⟨credential', hmem'⟩ := hkb
      rw [unsubscribe_of_mem hmem', withoutKey_keys, Assoc.contains_erase] at hkey
      exact .of_watch hreg hkey.2
    · rw [unsubscribe_of_not_mem (not_exists.mp hkb)] at hkey
      exact .of_watch hreg hkey
  · intro watchKey st key' hmem hkey
    obtain ⟨st', hmem', heq⟩ := Assoc.mem_mapVal.mp (Assoc.mem_retain.mp hmem).1
    subst heq
    split at hkey
    · exact .of_stranded hmem' (Assoc.contains_erase.mp hkey).2
    · exact .of_stranded hmem' hkey

/-- Stranding takes the keys of a watch that is registered, as it holds some. -/
theorem Subscribed.of_strand (hinv : h.Inv) (hsession : h.cancelled = false) {id : Nat}
    (hsub : (h.strand id).Subscribed) : h.Subscribed := by
  have hkeys : ∀ key, (h.watches id).keys.contains key = true → h.Subscribed := by
    intro key hkey
    by_cases hreg : ∃ watchKey, (watchKey, id) ∈ h.kbs
    · obtain ⟨watchKey, hmem⟩ := hreg
      exact .of_watch hmem hkey
    · rw [hinv.unregistered hsession id (not_exists.mp hreg) key] at hkey
      cases hkey
  refine hsub.of_fewer (fun watchKey id' key hmem hkey => ?_) fun watchKey st key hmem hkey => ?_
  · rw [strand_kbs] at hmem
    rw [strand_watches] at hkey
    exact Subscribed.of_setWatch (.of_watch hmem hkey) fun _ hkey => hkey
  · rcases contains_of_mem_strand hmem hkey with ⟨st', hmem', hkey'⟩ | ⟨-, hkey'⟩
    · exact .of_stranded hmem' hkey'
    · exact hkeys key hkey'

theorem Subscribed.of_watchList {watchKey : WatchKey} (hsub : (h.watchList watchKey).Subscribed) :
    h.Subscribed := by
  unfold Holdings.watchList at hsub
  rcases h.amendWatch_cases watchKey fun w => { w with listChanged := true } with
    ⟨id, -, heq⟩ | ⟨-, heq⟩
  · rw [heq] at hsub
    exact hsub.of_setWatch fun _ hkey => hkey
  · rw [heq] at hsub
    refine hsub.of_fewer (fun watchKey' id key hmem hkey => ?_) fun _ _ _ hmem hkey => .of_stranded hmem hkey
    by_cases hid : id = h.started
    · cases hid
      simp only [setWatch_self] at hkey
      cases hkey
    · simp only [setWatch_of_ne hid] at hkey
      rcases Assoc.mem_insert.mp hmem with ⟨hold, -⟩ | hnew
      · exact .of_watch hold hkey
      · exact absurd (congrArg Prod.snd hnew) hid

/-- Only subscribing puts a key where there was none. -/
theorem Subscribed.of_apply (hinv : h.Inv) {e : Effect} (hallowed : e.Allowed h)
    (hsession : h.cancelled = false) (hother : ∀ watchKey key uri, e ≠ .enroll watchKey key uri)
    (hsub : (e.apply h).Subscribed) : h.Subscribed := by
  cases e with
  | enroll watchKey key uri => exact absurd rfl (hother watchKey key uri)
  | move kb client key uri =>
    obtain ⟨credential, st, hmem, -, hkey⟩ := mem_of_strandedUri hallowed
    exact .of_stranded hmem hkey
  | take kb client key =>
    refine hsub.of_fewer (fun _ _ _ hmem hkey => .of_watch hmem hkey) fun watchKey st key' hmem hkey => ?_
    obtain ⟨st', hmem', heq⟩ := Assoc.mem_mapVal.mp hmem
    subst heq
    split at hkey
    · exact .of_stranded hmem' (Assoc.contains_erase.mp hkey).2
    · exact .of_stranded hmem' hkey
  | takeLists client =>
    refine hsub.of_fewer (fun _ _ _ hmem hkey => .of_watch hmem hkey) fun watchKey st key hmem hkey => ?_
    obtain ⟨st', hmem', heq⟩ := Assoc.mem_mapVal.mp hmem
    subst heq
    split at hkey <;> exact .of_stranded hmem' hkey
  | watchList watchKey => exact hsub.of_watchList
  | unsubscribe kb key => exact hsub.of_unsubscribe
  | prune =>
    refine hsub.of_fewer (fun _ _ _ hmem hkey => .of_watch hmem hkey) fun watchKey st key hmem hkey => ?_
    exact .of_stranded (Assoc.mem_retain.mp hmem).1 hkey
  | opened id => exact hsub.of_setWatch fun _ hkey => hkey
  | refused id status => exact hsub.of_setWatch fun _ hkey => hkey
  | left id => exact hsub.of_setWatch fun _ hkey => hkey
  | strand id => exact hsub.of_strand hinv hsession
  | clear id =>
    refine hsub.of_setWatch fun key hkey => ?_
    cases hkey
  | forget id =>
    refine hsub.of_fewer (fun watchKey id' key hmem hkey => ?_) fun _ _ _ hmem hkey => .of_stranded hmem hkey
    obtain ⟨-, hkeys, -⟩ := sameKeys_forget hallowed.2 id'
    exact .of_watch (mem_forget_kbs.mp hmem).1 (hkeys ▸ hkey)
  | done id => exact hsub.of_setWatch fun _ hkey => hkey
  | giveUp => exact hsub
  | shutdown => exact hsub
  | closeTransport => exact hsub
  | tick elapsed => exact hsub

end Holdings

theorem Effects.subscribed {h h' : Holdings} {es : List Effect} (hes : Effects h es h') (hinv : h.Inv)
    (hsession : h'.cancelled = false) (hother : ∀ watchKey key uri, .enroll watchKey key uri ∉ es)
    (hsub : h'.Subscribed) : h.Subscribed := by
  induction hes with
  | nil => exact hsub
  | @cons h h' e es hallowed hes ih =>
    have hnext := ih (hinv.apply hallowed) hsession
      (fun watchKey key uri hmem => hother watchKey key uri (List.mem_cons_of_mem _ hmem)) hsub
    have hsession' : h.cancelled = false := (h.flags_of_apply e).2.1 (hes.flags.2.1 hsession)
    refine hnext.of_apply hinv hallowed hsession' ?_
    rintro watchKey key uri rfl
    exact hother watchKey key uri List.mem_cons_self

-- ---------------------------------------------------------------------------
-- Runs
-- ---------------------------------------------------------------------------

/-- The keeper does not wake while a stranded key expires: none does so between the two readings of its
clock. -/
def Punctual (s : State) : Action → Prop
  | .wake _ later => ∀ watchKey st key, (watchKey, st) ∈ s.stranded → st.keys.contains key = true →
      ¬ (s.now < st.expires ∧ st.expires ≤ s.now + later)
  | _ => True

/-- While the session is deliverable, a key anywhere means a keeper, and there is one keeper at most. -/
def State.Kept (s : State) : Prop :=
  s.stillDeliverable = true →
    (s.Subscribed → s.keeperStarted = true) ∧ s.keepers.length = if s.keeperStarted then 1 else 0

section Kept

variable {s s' : State}

/-- The keeper that stands down leaves no key subscribed. -/
theorem standDownIfIdle_idle {later : Nat} (hidle : (s.standDownIfIdle later).1 = true) :
    ¬ (s.standDownIfIdle later).2.SubscribedNow := by
  unfold State.standDownIfIdle at hidle ⊢
  dsimp only at hidle ⊢
  split
  · next hany =>
    rw [if_pos hany] at hidle
    cases hidle
  · next hany =>
    intro hsub
    exact hany (Holdings.anySubscribed_iff.mpr hsub)

/-- And none stranded, if none expired while it looked. -/
theorem standDownIfIdle_punctual {i later : Nat} (hidle : (s.standDownIfIdle later).1 = true)
    (hpunctual : Punctual s (.wake i later)) : ¬ (s.standDownIfIdle later).2.Subscribed := by
  have hnow := standDownIfIdle_idle hidle
  have hholdings : (s.standDownIfIdle later).2.toHoldings =
      { s.pruneStranded with now := s.now + later } := by
    unfold State.standDownIfIdle
    dsimp only
    split <;> rfl
  rw [hholdings] at hnow ⊢
  intro hsub
  rcases hsub with hwatch | ⟨watchKey, st, key, hmem, hkey⟩
  · exact hnow (Or.inl hwatch)
  · -- it had not expired when the others were pruned, so it has not now
    obtain ⟨hold, hpruned⟩ := Assoc.mem_retain.mp hmem
    simp only [Stranded.expired, Bool.and_eq_true, Bool.not_eq_true', decide_eq_false_iff_not,
      Nat.not_le] at hpruned
    refine hnow (Or.inr ⟨watchKey, st, key, hmem, hkey, ?_⟩)
    by_contra hexpired
    exact hpunctual watchKey st key hold hkey ⟨hpruned.2, Nat.not_lt.mp hexpired⟩

theorem standDownIfIdle_keepers (s : State) (later : Nat) :
    (s.standDownIfIdle later).2.keepers = s.keepers ∧
      ((s.standDownIfIdle later).1 = true → (s.standDownIfIdle later).2.keeperStarted = false) ∧
      ((s.standDownIfIdle later).1 = false →
        (s.standDownIfIdle later).2.keeperStarted = s.keeperStarted) := by
  unfold State.standDownIfIdle
  dsimp only
  split
  · exact ⟨rfl, nofun, fun _ => rfl⟩
  · exact ⟨rfl, fun _ => rfl, nofun⟩

theorem Kept.step {a : Action} (hstep : s.step a = some s') (hinv : s.Inv) (hpunctual : Punctual s a)
    (hkept : s.Kept) : s'.Kept := by
  intro hlive
  obtain ⟨es, hes, hfrom⟩ := step_effects hstep
  have hlive' : s.stillDeliverable = true := by
    obtain ⟨hgone, hsession⟩ := Holdings.stillDeliverable_iff.mp hlive
    exact Holdings.stillDeliverable_iff.mpr ⟨hes.flags.1 hgone, hes.flags.2.1 hsession⟩
  obtain ⟨hstarted, hcount⟩ := hkept hlive'
  -- a key that is there afterwards was there before, unless the step subscribed one
  have hback : (∀ i, a ≠ .register i) → s'.Subscribed → s.Subscribed := by
    intro hother
    refine hes.subscribed hinv (Holdings.stillDeliverable_iff.mp hlive).2 ?_
    rintro watchKey key uri he
    obtain ⟨i, call, rfl, -⟩ := hfrom _ he
    exact hother i rfl
  cases hchanges : a.changesKeepers with
  | false =>
    obtain ⟨hsame, hkeepers⟩ := (step_frame hstep).keepers hchanges
    rw [hsame, hkeepers]
    refine ⟨fun hsub => hstarted (hback ?_ hsub), hcount⟩
    rintro i rfl
    cases hchanges
  | true =>
    cases step_moves hstep with
    | register =>
      unfold State.ensureKeeper
      split
      · next hrunning =>
        have hrunning' : s.keeperStarted = true := hrunning
        exact ⟨fun _ => hrunning, by simpa [hrunning'] using hcount⟩
      · next hidle =>
        refine ⟨fun _ => rfl, ?_⟩
        rw [if_neg hidle] at hcount
        simp [hcount]
    | @wake i later hkeeper =>
      obtain ⟨hi, -⟩ := List.getElem?_eq_some_iff.mp hkeeper
      have hrunning : s.keeperStarted = true := by
        by_contra hnone
        rw [if_neg hnone] at hcount
        omega
      rw [if_pos hrunning] at hcount
      obtain ⟨hkeepers, hidle, hbusy⟩ := standDownIfIdle_keepers s later
      cases hstand : (s.standDownIfIdle later).1 with
      | true =>
        refine ⟨fun hsub => absurd hsub (standDownIfIdle_punctual hstand hpunctual), ?_⟩
        simp only [hidle hstand, hkeepers, if_true, List.length_eraseIdx_of_lt hi]
        simp [hcount]
      | false =>
        simp only [hbusy hstand, hrunning, hkeepers]
        simp [hcount]
    | answered => exact ⟨hstarted, by simpa using hcount⟩
    | unanswered => cases hlive
    | stopKeeper hcancelled =>
      rw [(Holdings.stillDeliverable_iff.mp hlive').2] at hcancelled
      cases hcancelled
    | _ => cases hchanges

/-- In every run in which no stranded key expires while the keeper looks: a key in a watch or stranded
means a keeper, exactly one, for as long as the session is deliverable; and a keeper that stands down
leaves no key subscribed. -/
theorem keeper_runs_while_subscribed {s : State} (hreach : Reaches Punctual State.new s) :
    (s.stillDeliverable = true → s.SubscribedNow → s.keeperStarted = true ∧ s.keepers.length = 1) ∧
    ∀ later, (s.standDownIfIdle later).1 = true → ¬ (s.standDownIfIdle later).2.SubscribedNow := by
  have hkept : s.Inv ∧ s.Kept := by
    refine hreach.invariant (I := fun s => s.Inv ∧ s.Kept) ?_ ⟨(@Reaches.refl anyAction State.new).inv, ?_⟩
    · rintro s a s' hpunctual hs ⟨hinv, hkept⟩
      obtain ⟨es, hes, -⟩ := step_effects hs
      exact ⟨hinv.effects hes, Kept.step hs hinv hpunctual hkept⟩
    · refine fun _ => ⟨fun hsub => ?_, rfl⟩
      rcases hsub with ⟨watchKey, id, key, hmem, -⟩ | ⟨watchKey, st, key, hmem, -⟩
      · exact absurd hmem Assoc.not_mem_empty
      · exact absurd hmem Assoc.not_mem_empty
  refine ⟨fun hlive hsub => ?_, fun later hidle => standDownIfIdle_idle hidle⟩
  obtain ⟨hstarted, hcount⟩ := hkept.2 hlive
  have hrunning := hstarted hsub.subscribed
  rw [if_pos hrunning] at hcount
  exact ⟨hrunning, hcount⟩

theorem keeper_runs_while_subscribed_aMd :
    ∃ s, State.new.run subscribed = some s ∧ s.anySubscribed = true ∧
      s.keeperStarted = true ∧ s.keepers.length = 1 := by
  have hkept : ∀ s, State.new.run subscribed = some s → s.stillDeliverable = true →
      s.anySubscribed = true → s.keeperStarted = true ∧ s.keepers.length = 1 := by
    intro s hrun hlive hsub
    have hreach : Reaches Punctual State.new s := Reaches.of_run hrun (by simp [subscribed, Punctual])
    exact (keeper_runs_while_subscribed hreach).1 hlive (Holdings.anySubscribed_iff.mp hsub)
  exact ⟨_, rfl, by decide, hkept _ rfl rfl (by decide)⟩

/-- The key is stranded; just before it expires the client presents its new credential and a re-home
starts. The keeper finds it expired, without having pruned it, and stands down. Then it is moved. -/
def expiringMove : List Action :=
  subscribed ++ [.streamRefused 0 401, .strand 0, .clear 0, .forget 0, .leave 0,
    .tick (strandedTtl - 2), .noteCaller newToken, .beginRehome 0, .tick 1, .wake 0 1, .probed 0 .move,
    .commit 0, .streamOpened 1]

/-- A live watch holds the key, and there is no keeper. -/
theorem watch_without_keeper :
    ∃ s, State.new.run expiringMove = some s ∧ s.stillDeliverable = true ∧
      s.kbs.get? (notes, newToken) = some 1 ∧ (s.watches 1).keys.contains aMd = true ∧
      s.keeperStarted = false ∧ s.keepers = [] :=
  ⟨_, rfl, by decide, by decide, by decide, by decide, rfl⟩

end Kept

end Subscriptions

end Mcp
