-- SUMMARY: A key that was unsubscribed is in no watch and not stranded until it is subscribed again, and nothing new is sent about it.
import NotedThat.Mcp.SubscriptionEffects

/-!
# Unsubscribing

`unsubscribe` takes the key from every watch and everything stranded under one lock. What could bring
it back afterwards reads the key under the same lock, from a place where it is no longer.
-/

namespace Mcp

namespace Subscriptions

/-- No watch of the knowledge base holds the key, registered or not, and it is not stranded there. -/
structure Holdings.Free (h : Holdings) (kb key : Text) : Prop where
  watches : ∀ id, (h.watches id).watchKey.1 = kb → (h.watches id).keys.contains key = false
  stranded : ∀ credential st, ((kb, credential), st) ∈ h.stranded → st.keys.contains key = false

namespace Holdings

variable {h h' : Holdings} {kb key : Text}

/-- A key is not brought back by a change that leaves the watches of its knowledge base without it. -/
theorem Free.amendWatch (hfree : h.Free kb key) (hinv : h.Inv) {watchKey : WatchKey}
    {f : KbWatch → KbWatch} (hkey : ∀ w, (f w).watchKey = w.watchKey)
    (hf : watchKey.1 = kb → ∀ w, w.keys.contains key = false → (f w).keys.contains key = false) :
    (h.amendWatch watchKey f).Free kb key := by
  obtain ⟨-, -, -, -, hstranded⟩ := h.amendWatch_frame watchKey f
  refine ⟨fun id hid => ?_, hstranded ▸ hfree.stranded⟩
  rcases h.amendWatch_cases watchKey f with ⟨id', husable, heq⟩ | ⟨-, heq⟩
  · rw [heq] at hid ⊢
    by_cases hsame : id = id'
    · cases hsame
      have hnamed := hinv.named watchKey id (usable_eq_some.mp husable).1
      rw [setWatch_self] at hid ⊢
      rw [hkey] at hid
      exact hf (hnamed ▸ hid) _ (hfree.watches id hid)
    · rw [setWatch_of_ne hsame] at hid ⊢
      exact hfree.watches id hid
  · rw [heq] at hid ⊢
    by_cases hsame : id = h.started
    · cases hsame
      simp only [setWatch_self, hkey] at hid ⊢
      exact hf hid _ rfl
    · simp only [setWatch_of_ne hsame] at hid ⊢
      exact hfree.watches id hid

theorem Free.enroll (hfree : h.Free kb key) (hinv : h.Inv) {watchKey : WatchKey} {key' uri : Text}
    (hother : ¬ (watchKey.1 = kb ∧ key' = key)) : (h.enroll watchKey key' uri).Free kb key := by
  unfold Holdings.enroll
  refine hfree.amendWatch hinv (fun w => rfl) fun hkb w hw => ?_
  rw [Bool.eq_false_iff, ne_eq, Assoc.contains_insert, hw]
  rintro (hkey | hkey)
  · exact hother ⟨hkb, hkey.symm⟩
  · cases hkey

/-- A watch that is only marked holds no more than before. -/
theorem Free.setWatch (hfree : h.Free kb key) {id : Nat} {w : KbWatch}
    (hkey : w.watchKey = (h.watches id).watchKey)
    (hw : ∀ key, w.keys.contains key = true → (h.watches id).keys.contains key = true) :
    (h.setWatch id w).Free kb key := by
  refine ⟨fun id' hid' => ?_, hfree.stranded⟩
  by_cases hsame : id' = id
  · cases hsame
    rw [setWatch_self] at hid' ⊢
    rw [hkey] at hid'
    have hold := hfree.watches id hid'
    rw [Bool.eq_false_iff] at hold ⊢
    exact fun hnew => hold (hw key hnew)
  · rw [setWatch_of_ne hsame] at hid' ⊢
    exact hfree.watches id' hid'

/-- What is stranded may lose keys. -/
theorem Free.of_stranded (hfree : h.Free kb key) (hwatches : h'.watches = h.watches)
    (hstranded : ∀ watchKey st, (watchKey, st) ∈ h'.stranded → ∃ st', (watchKey, st') ∈ h.stranded ∧
      ∀ key, st.keys.contains key = true → st'.keys.contains key = true) : h'.Free kb key := by
  refine ⟨fun id hid => ?_, fun credential st hmem => ?_⟩
  · rw [hwatches] at hid ⊢
    exact hfree.watches id hid
  · obtain ⟨st', hmem', hsub⟩ := hstranded _ st hmem
    have hold := hfree.stranded credential st' hmem'
    rw [Bool.eq_false_iff] at hold ⊢
    exact fun hnew => hold (hsub key hnew)

theorem Free.takeStranded (hfree : h.Free kb key) (kb' : Text) (client : Credential) (key' : Text) :
    (h.takeStranded kb' client key').Free kb key := by
  refine hfree.of_stranded rfl fun watchKey st hmem => ?_
  obtain ⟨st', hmem', heq⟩ := Assoc.mem_mapVal.mp hmem
  refine ⟨st', hmem', fun key hkey => ?_⟩
  subst heq
  split at hkey
  · exact (Assoc.contains_erase.mp hkey).2
  · exact hkey

theorem Free.strand (hfree : h.Free kb key) (id : Nat) : (h.strand id).Free kb key := by
  have hmarked : (h.setWatch id { h.watches id with forward := .stranded }).Free kb key :=
    hfree.setWatch rfl fun _ hkey => hkey
  refine ⟨fun id' hid' => ?_, fun credential st hmem => ?_⟩
  · rw [strand_watches] at hid' ⊢
    exact hmarked.watches id' hid'
  · rw [Bool.eq_false_iff]
    intro hkey
    rcases contains_of_mem_strand hmem hkey with ⟨st', hmem', hkey'⟩ | ⟨hwatchKey, hkey'⟩
    · rw [hfree.stranded credential st' hmem'] at hkey'
      cases hkey'
    · rw [hfree.watches id (congrArg Prod.fst hwatchKey).symm] at hkey'
      cases hkey'

theorem Free.unsubscribe (hfree : h.Free kb key) (kb' key' : Text) :
    (h.unsubscribe kb' key').Free kb key := by
  refine ⟨fun id hid => ?_, fun credential st hmem => ?_⟩
  · by_cases hreg : ∃ credential, ((kb', credential), id) ∈ h.kbs
    · obtain ⟨credential, hreg⟩ := hreg
      rw [unsubscribe_of_mem hreg] at hid ⊢
      rw [withoutKey_watchKey] at hid
      rw [withoutKey_keys, Bool.eq_false_iff, ne_eq, Assoc.contains_erase, hfree.watches id hid]
      simp
    · rw [unsubscribe_of_not_mem (not_exists.mp hreg)] at hid ⊢
      exact hfree.watches id hid
  · obtain ⟨st', hmem', heq⟩ := Assoc.mem_mapVal.mp (Assoc.mem_retain.mp hmem).1
    have hold := hfree.stranded credential st' hmem'
    subst heq
    split
    · rw [Bool.eq_false_iff, ne_eq, Assoc.contains_erase, hold]
      simp
    · exact hold

/-- Only subscribing the key brings it back. -/
theorem Free.apply (hfree : h.Free kb key) (hinv : h.Inv) {e : Effect} (hallowed : e.Allowed h)
    (hother : ∀ credential uri, e ≠ .enroll (kb, credential) key uri) : (e.apply h).Free kb key := by
  cases e with
  | enroll watchKey key' uri =>
    refine hfree.enroll hinv ?_
    rintro ⟨rfl, rfl⟩
    exact hother watchKey.2 uri rfl
  | move kb' client key' uri =>
    have htaken : (h.takeStranded kb' client key').Inv :=
      @Inv.apply h hinv (.take kb' client key') trivial
    refine (hfree.takeStranded kb' client key').enroll htaken ?_
    rintro ⟨rfl, rfl⟩
    obtain ⟨credential, st, hmem, -, hkey⟩ := mem_of_strandedUri hallowed
    rw [hfree.stranded credential st hmem] at hkey
    cases hkey
  | take kb' client key' => exact hfree.takeStranded kb' client key'
  | takeLists client =>
    refine hfree.of_stranded rfl fun watchKey st hmem => ?_
    obtain ⟨st', hmem', heq⟩ := Assoc.mem_mapVal.mp hmem
    refine ⟨st', hmem', fun key hkey => ?_⟩
    subst heq
    split at hkey <;> exact hkey
  | watchList watchKey =>
    unfold Effect.apply Holdings.watchList
    exact hfree.amendWatch hinv (fun w => rfl) fun _ w hw => hw
  | unsubscribe kb' key' => exact hfree.unsubscribe kb' key'
  | prune =>
    refine hfree.of_stranded rfl fun watchKey st hmem => ?_
    exact ⟨st, (Assoc.mem_retain.mp hmem).1, fun _ hkey => hkey⟩
  | opened id => exact hfree.setWatch rfl fun _ hkey => hkey
  | refused id status => exact hfree.setWatch rfl fun _ hkey => hkey
  | left id => exact hfree.setWatch rfl fun _ hkey => hkey
  | strand id => exact hfree.strand id
  | clear id =>
    refine hfree.setWatch rfl fun key hkey => ?_
    cases hkey
  | forget id =>
    refine ⟨fun id' hid' => ?_, hfree.stranded⟩
    obtain ⟨hkey, hkeys, -⟩ := sameKeys_forget hallowed.2 id'
    have hold := hfree.watches id' (hkey ▸ hid')
    rw [← hkeys] at hold
    exact hold
  | done id => exact hfree.setWatch rfl fun _ hkey => hkey
  | giveUp => exact ⟨hfree.watches, hfree.stranded⟩
  | shutdown => exact ⟨hfree.watches, hfree.stranded⟩
  | closeTransport => exact ⟨hfree.watches, hfree.stranded⟩
  | tick elapsed => exact ⟨hfree.watches, hfree.stranded⟩

/-- Unsubscribing a key frees it, wherever it was held. -/
theorem free_unsubscribe (hinv : h.Inv) (hsession : h.cancelled = false) (kb key : Text) :
    (h.unsubscribe kb key).Free kb key := by
  refine ⟨fun id hid => ?_, fun credential st hmem => ?_⟩
  · by_cases hreg : ∃ credential, ((kb, credential), id) ∈ h.kbs
    · obtain ⟨credential, hreg⟩ := hreg
      rw [unsubscribe_of_mem hreg, withoutKey_keys, Bool.eq_false_iff, ne_eq, Assoc.contains_erase]
      exact fun hkey => hkey.1 rfl
    · -- no watch of this knowledge base is registered as this one, so it is not registered at all
      rw [unsubscribe_of_not_mem (not_exists.mp hreg)] at hid ⊢
      refine hinv.unregistered hsession id ?_ key
      rintro ⟨kb', credential⟩ hmem
      have hnamed := hinv.named _ id hmem
      rw [hnamed] at hid
      cases hid
      exact hreg ⟨credential, hmem⟩
  · obtain ⟨st', hmem', heq⟩ := Assoc.mem_mapVal.mp (Assoc.mem_retain.mp hmem).1
    subst heq
    rw [if_pos rfl, Bool.eq_false_iff, ne_eq, Assoc.contains_erase]
    exact fun hkey => hkey.1 rfl

end Holdings

-- ---------------------------------------------------------------------------
-- Notices
-- ---------------------------------------------------------------------------

/-- The notice is about the key. -/
def Notice.carries (kb key : Text) (n : Notice) : Bool := n.kb = kb && n.key = key

section Sent

variable {s s' : State} {kb key : Text}

/-- New notices that are not about the key leave those that are. -/
theorem filter_append_others {old new : List Notice} (h : ∀ n ∈ new, n.carries kb key = false) :
    (old ++ new).filter (Notice.carries kb key) = old.filter (Notice.carries kb key) := by
  have hnone : new.filter (Notice.carries kb key) = [] :=
    List.filter_eq_nil_iff.mpr fun n hn => by simp [h n hn]
  rw [List.filter_append, hnone, List.append_nil]

theorem carries_eq_false {kb' key' uri : Text} (h : ¬ (kb' = kb ∧ key' = key)) :
    Notice.carries kb key ⟨kb', key', uri⟩ = false := by
  simpa [Notice.carries] using h

theorem settle_notices_one {client : Credential} {kept : List (Text × Text)}
    (hfree : s.Free kb key) (kb' key' : Text) (verdict : Verdict) :
    (State.settle client (s, kept) (kb', key', verdict)).1.notices.filter (Notice.carries kb key) =
      s.notices.filter (Notice.carries kb key) := by
  unfold State.settle
  dsimp only
  split
  · rfl
  · cases huri : s.strandedUri kb' client key' with
    | none => rfl
    | some uri =>
      dsimp only
      split
      · refine filter_append_others fun n hn => ?_
        cases List.mem_singleton.mp hn
        refine carries_eq_false ?_
        rintro ⟨rfl, rfl⟩
        obtain ⟨credential, st, hmem, -, hkey⟩ := mem_of_strandedUri huri
        rw [hfree.stranded credential st hmem] at hkey
        cases hkey
      · rfl

theorem settle_notices (client : Credential) (verdicts : List (Text × Text × Verdict))
    (done : State × List (Text × Text)) (hinv : done.1.Inv) (hfree : done.1.Free kb key) :
    (verdicts.foldl (State.settle client) done).1.notices.filter (Notice.carries kb key) =
      done.1.notices.filter (Notice.carries kb key) := by
  induction verdicts generalizing done with
  | nil => rfl
  | cons found verdicts ih =>
    obtain ⟨s, kept⟩ := done
    obtain ⟨kb', key', verdict⟩ := found
    obtain ⟨es, hes, hform⟩ := settle_effects_one client s kept kb' key' verdict
    have hnext : (State.settle client (s, kept) (kb', key', verdict)).1.Inv ∧
        (State.settle client (s, kept) (kb', key', verdict)).1.Free kb key := by
      refine hes.invariant (I := fun h => h.Inv ∧ h.Free kb key) (fun e he h hallowed hboth => ?_)
        ⟨hinv, hfree⟩
      refine ⟨hboth.1.apply hallowed, hboth.2.apply hboth.1 hallowed fun credential uri heq => ?_⟩
      rcases hform e he with ⟨uri', rfl, -⟩ | ⟨rfl, -⟩
      · cases heq
      · cases heq
    rw [List.foldl_cons, ih _ hnext.1 hnext.2]
    exact settle_notices_one hfree kb' key' verdict

theorem commit_notices (task : Rehome) (hinv : s.Inv) (hfree : s.Free kb key) :
    (s.commit task).notices.filter (Notice.carries kb key) =
      s.notices.filter (Notice.carries kb key) := by
  unfold State.commit
  dsimp only
  split
  · rw [State.rehomeUnlessJustTried_eq]
    exact settle_notices task.client task.verdicts ({ s with rehoming := false }, []) hinv hfree
  · rfl

/-- A step takes up no notice about a key that nothing holds. -/
theorem step_notices {a : Action} (hstep : s.step a = some s') (hinv : s.Inv) (hfree : s.Free kb key) :
    (s'.notices.filter (Notice.carries kb key)).Sublist (s.notices.filter (Notice.carries kb key)) := by
  cases hchanges : a.changesNotices with
  | false => rw [(step_frame hstep).notices hchanges]
  | true =>
    cases step_moves hstep with
    | @changed id key' uri _ _ _ huri =>
      refine (filter_append_others fun n hn => ?_).symm ▸ List.Sublist.refl _
      cases List.mem_singleton.mp hn
      refine carries_eq_false ?_
      rintro ⟨hkb, rfl⟩
      have hkey := Assoc.contains_iff.mpr ⟨uri, Assoc.get?_eq_some.mp huri⟩
      rw [hfree.watches id hkb] at hkey
      cases hkey
    | changedOther => exact List.Sublist.refl _
    | @strand id =>
      refine (filter_append_others fun n hn => ?_).symm ▸ List.Sublist.refl _
      obtain ⟨⟨key', uri⟩, hmem, rfl⟩ := List.mem_map.mp hn
      refine carries_eq_false ?_
      rintro ⟨hkb, rfl⟩
      have hkey := Assoc.contains_iff.mpr ⟨uri, hmem⟩
      rw [hfree.watches id hkb] at hkey
      cases hkey
    | send => exact (List.eraseIdx_sublist _ _).filter _
    | @commit i task =>
      have hcommit := @commit_notices { s with rehomes := s.rehomes.eraseIdx i } kb key task hinv hfree
      rw [hcommit]
    | _ => cases hchanges

/-- The step is a `subscribe` that puts the key into a watch. -/
def Registers (kb key : Text) (s : State) (a : Action) : Prop :=
  ∃ i call, a = .register i ∧ s.calls[i]? = some call ∧ call.kb = kb ∧ call.key = key

/-- Whatever happened before and happens after: once a key was unsubscribed, and until it is subscribed
again, no watch of its knowledge base holds it and nothing has it stranded, and what is still sent about
it was already on its way. -/
theorem unsubscribed_until_registered {s₀ s s' : State} {kb key : Text}
    (hbefore : Reaches anyAction State.new s₀) (hsession : s₀.cancelled = false)
    (hstep : s₀.step (.unsubscribe kb key) = some s)
    (hafter : Reaches (fun s a => ¬ Registers kb key s a) s s') :
    (∀ id, (s'.watches id).watchKey.1 = kb → (s'.watches id).keys.contains key = false) ∧
    (∀ credential st, ((kb, credential), st) ∈ s'.stranded → st.keys.contains key = false) ∧
    (s'.notices.filter (Notice.carries kb key)).Sublist (s₀.notices.filter (Notice.carries kb key)) := by
  cases hstep
  have hinv := hbefore.inv
  have hkept : s'.Inv ∧ s'.Free kb key ∧
      (s'.notices.filter (Notice.carries kb key)).Sublist (s₀.notices.filter (Notice.carries kb key)) := by
    refine hafter.invariant (I := fun s => s.Inv ∧ s.Free kb key ∧
      (s.notices.filter (Notice.carries kb key)).Sublist (s₀.notices.filter (Notice.carries kb key))) ?_
      ⟨hinv.unsubscribe kb key, Holdings.free_unsubscribe hinv hsession kb key, List.Sublist.refl _⟩
    rintro s a s'' hother hs ⟨hinv, hfree, hsub⟩
    obtain ⟨es, hes, hfrom⟩ := step_effects hs
    have hboth : s''.Inv ∧ s''.Free kb key := by
      refine hes.invariant (I := fun h => h.Inv ∧ h.Free kb key) (fun e he h hallowed hboth => ?_)
        ⟨hinv, hfree⟩
      refine ⟨hboth.1.apply hallowed, hboth.2.apply hboth.1 hallowed ?_⟩
      rintro credential uri rfl
      obtain ⟨i, call, rfl, hcall, hkb, rfl⟩ := hfrom _ he
      exact hother ⟨i, call, rfl, hcall, (congrArg Prod.fst hkb).symm, rfl⟩
    exact ⟨hboth.1, hboth.2, (step_notices hs hinv hfree).trans hsub⟩
  exact ⟨hkept.2.1.watches, hkept.2.1.stranded, hkept.2.2⟩

theorem unsubscribed_until_registered_aMd :
    ∃ s₀ s s', State.new.run (subscribed ++ [.changed 0 aMd]) = some s₀ ∧ s₀.cancelled = false ∧
      s₀.step (.unsubscribe notes aMd) = some s ∧
      s.step (.tick 1) = some s' ∧
      (s'.watches 0).keys.contains aMd = false ∧
      (s'.notices.filter (Notice.carries notes aMd)).Sublist
        (s₀.notices.filter (Notice.carries notes aMd)) := by
  have hlater : ∀ s₀ s s', State.new.run (subscribed ++ [.changed 0 aMd]) = some s₀ →
      s₀.cancelled = false → s₀.step (.unsubscribe notes aMd) = some s → s.step (.tick 1) = some s' →
      (s'.watches 0).watchKey.1 = notes → (s'.watches 0).keys.contains aMd = false ∧
        (s'.notices.filter (Notice.carries notes aMd)).Sublist
          (s₀.notices.filter (Notice.carries notes aMd)) := by
    intro s₀ s s' hrun hsession hstep htick hkb
    have hother : ¬ Registers notes aMd s (.tick 1) := by
      rintro ⟨i, call, hregister, -⟩
      cases hregister
    obtain ⟨hwatches, -, hnotices⟩ := unsubscribed_until_registered
      (Reaches.of_run hrun fun _ _ _ => trivial) hsession hstep (Reaches.refl.step hother htick)
    exact ⟨hwatches 0 hkb, hnotices⟩
  exact ⟨_, _, _, rfl, rfl, rfl, rfl, hlater _ _ _ rfl rfl rfl rfl rfl⟩

/-- A notice that is on its way when the key is unsubscribed is sent nonetheless. And in a session that
was given up on, a watch that was replaced while it held the key strands it afterwards. -/
theorem sent_after_unsubscribe :
    (∃ s₀ s, State.new.run (subscribed ++ [.changed 0 aMd]) = some s₀ ∧
      s₀.step (.unsubscribe notes aMd) = some s ∧
      s.notices[0]? = some ⟨notes, aMd, aUri⟩ ∧ (s.step (.send 0)).isSome = true) ∧
    ∃ s₀ s s', State.new.run (subscribed ++
        [.call notes "b.md".toList "notedthat://notes/b.md".toList oldToken, .wake 0 0, .unanswered 0,
          .streamRefused 0 401, .register 0]) = some s₀ ∧
      s₀.step (.unsubscribe notes aMd) = some s ∧ s.step (.strand 0) = some s' ∧
      s'.stranded.entries.any (fun e => e.1 = (notes, oldToken) && e.2.keys.contains aMd) = true :=
  ⟨⟨_, _, rfl, rfl, rfl, rfl⟩, _, _, _, rfl, rfl, rfl, by decide⟩

end Sent

end Subscriptions

end Mcp
