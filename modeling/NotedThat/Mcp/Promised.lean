-- SUMMARY: A subscribe that answers has its key held, and it stays held: what a session owes its client over any run.
import NotedThat.Mcp.Held

/-!
# What a session owes

A `subscribe` puts its key into a watch, waits for the stream and then answers. In between, its watch may
be refused, or the key be unsubscribed. If it answers that the key is subscribed, the watch is still
there, with the key.
-/

namespace Mcp

namespace Subscriptions

-- ---------------------------------------------------------------------------
-- Watches with a forwarder
-- ---------------------------------------------------------------------------

/-- A forwarder that runs was not refused; and a watch that was neither stopped nor refused has a
forwarder that runs, while notifications reach the client. -/
structure Holdings.Tended (h : Holdings) : Prop where
  unrefused : ∀ id, (h.watches id).forward = .running → (h.watches id).link.isRefused = false
  running : h.Deliverable → ∀ id, (h.watches id).alive = true → (h.watches id).cancelled = false →
    (h.watches id).link.isRefused = false → (h.watches id).forward = .running

namespace Holdings

variable {h h' : Holdings}

theorem Deliverable.of_apply {e : Effect} (hlive : (e.apply h).Deliverable) : h.Deliverable := by
  obtain ⟨hgone, hsession⟩ := stillDeliverable_iff.mp hlive.1
  obtain ⟨hgone', hsession', htransport⟩ := h.flags_of_apply e
  exact ⟨stillDeliverable_iff.mpr ⟨hgone' hgone, hsession' hsession⟩, htransport hlive.2⟩

theorem Tended.of_watches (htended : h.Tended) (hwatches : h'.watches = h.watches)
    (hlive : h'.Deliverable → h.Deliverable) : h'.Tended := by
  refine ⟨fun id => ?_, fun hlive' id => ?_⟩
  · rw [hwatches]
    exact htended.unrefused id
  · rw [hwatches]
    exact htended.running (hlive hlive') id

theorem Tended.setWatch (htended : h.Tended) {id : Nat} {w : KbWatch}
    (hunrefused : w.forward = .running → w.link.isRefused = false)
    (hrunning : h.Deliverable → w.alive = true → w.cancelled = false → w.link.isRefused = false →
      w.forward = .running) : (h.setWatch id w).Tended := by
  refine ⟨fun id' => ?_, fun hlive id' => ?_⟩
  · by_cases hid : id' = id
    · cases hid
      rw [setWatch_self]
      exact hunrefused
    · rw [setWatch_of_ne hid]
      exact htended.unrefused id'
  · by_cases hid : id' = id
    · cases hid
      rw [setWatch_self]
      exact hrunning hlive
    · rw [setWatch_of_ne hid]
      exact htended.running hlive id'

/-- What is changed of a watch that has nothing to do with its forwarder. -/
def KeepsForwarder (f : KbWatch → KbWatch) : Prop :=
  ∀ w, (f w).alive = w.alive ∧ (f w).cancelled = w.cancelled ∧ (f w).link = w.link ∧
    (f w).forward = w.forward

theorem keepsForwarder_insert (key uri : Text) :
    KeepsForwarder fun w => { w with keys := w.keys.insert key uri } := fun _ => ⟨rfl, rfl, rfl, rfl⟩

theorem keepsForwarder_list : KeepsForwarder fun w => { w with listChanged := true } :=
  fun _ => ⟨rfl, rfl, rfl, rfl⟩

theorem Tended.amendWatch (htended : h.Tended) (watchKey : WatchKey) {f : KbWatch → KbWatch}
    (hf : KeepsForwarder f) : (h.amendWatch watchKey f).Tended := by
  rcases h.amendWatch_cases watchKey f with ⟨id, -, heq⟩ | ⟨-, heq⟩
  · rw [heq]
    obtain ⟨halive, hcancelled, hlink, hforward⟩ := hf (h.watches id)
    refine htended.setWatch ?_ ?_
    · rw [hlink, hforward]
      exact htended.unrefused id
    · rw [halive, hcancelled, hlink, hforward]
      exact fun hlive => htended.running hlive id
  · rw [heq]
    obtain ⟨halive, hcancelled, hlink, hforward⟩ := hf (.new watchKey)
    have hnew : (h.setWatch h.started (f (.new watchKey))).Tended := by
      refine htended.setWatch ?_ ?_
      · rw [hlink]
        exact fun _ => rfl
      · rw [hforward]
        exact fun _ _ _ _ => rfl
    exact hnew.of_watches rfl fun hlive => hlive

theorem Tended.unsubscribe (htended : h.Tended) (kb key : Text) : (h.unsubscribe kb key).Tended := by
  have hwatch : ∀ id, (h.unsubscribe kb key).watches id = h.watches id ∨
      (h.unsubscribe kb key).watches id = withoutKey (h.watches id) key := by
    intro id
    by_cases hreg : ∃ credential, ((kb, credential), id) ∈ h.kbs
    · obtain ⟨credential, hmem⟩ := hreg
      exact Or.inr (unsubscribe_of_mem hmem)
    · exact Or.inl (unsubscribe_of_not_mem (not_exists.mp hreg))
  refine ⟨fun id => ?_, fun hlive id => ?_⟩
  · rcases hwatch id with heq | heq
    · rw [heq]
      exact htended.unrefused id
    · rw [heq, withoutKey_forward, withoutKey_link]
      exact htended.unrefused id
  · rcases hwatch id with heq | heq
    · rw [heq]
      exact htended.running hlive id
    · rw [heq, withoutKey_forward, withoutKey_link, withoutKey_alive]
      intro halive hcancelled
      refine htended.running hlive id halive ?_
      rw [Bool.eq_false_iff] at hcancelled ⊢
      exact fun hold => hcancelled ((withoutKey_cancelled _ _).mpr (Or.inl hold))

theorem Tended.apply (htended : h.Tended) (hinv : h.Inv) {e : Effect} (hallowed : e.Allowed h) :
    (e.apply h).Tended := by
  have hstopped : ∀ id, (h.watches id).forward.past = true → (h.watches id).alive = false := hinv.cleared
  cases e with
  | enroll watchKey key uri => exact htended.amendWatch watchKey (keepsForwarder_insert key uri)
  | move kb client key uri =>
    have htaken : (h.takeStranded kb client key).Tended := htended.of_watches rfl fun hlive => hlive
    exact htaken.amendWatch (kb, client) (keepsForwarder_insert key uri)
  | take kb client key => exact htended.of_watches rfl fun hlive => hlive
  | takeLists client => exact htended.of_watches rfl fun hlive => hlive
  | watchList watchKey => exact htended.amendWatch watchKey keepsForwarder_list
  | unsubscribe kb key => exact htended.unsubscribe kb key
  | prune => exact htended.of_watches rfl fun hlive => hlive
  | opened id => exact htended.setWatch (fun _ => rfl) fun _ _ _ _ => hallowed.2
  | refused id status => exact htended.setWatch nofun fun _ _ _ => nofun
  | left id =>
    refine htended.setWatch nofun fun hlive halive hcancelled => ?_
    obtain ⟨-, -, hwhy | hwhy | hwhy⟩ := hallowed
    · rw [hcancelled] at hwhy
      cases hwhy
    · rw [hlive.cancelled] at hwhy
      cases hwhy
    · rw [hlive.2] at hwhy
      cases hwhy
  | strand id =>
    have hmarked : (h.setWatch id { h.watches id with forward := .stranded }).Tended := by
      refine htended.setWatch nofun fun _ _ _ hlink => ?_
      rw [hallowed.2.2] at hlink
      cases hlink
    refine hmarked.of_watches (strand_watches id) fun hlive => ?_
    exact @Deliverable.of_apply h (.strand id) hlive
  | clear id => exact htended.setWatch nofun fun _ => nofun
  | forget id =>
    have hmarked : (h.setWatch id { h.watches id with forward := .forgotten }).Tended := by
      refine htended.setWatch nofun fun _ halive => ?_
      rw [hstopped id (by rw [hallowed.2]; rfl)] at halive
      cases halive
    exact hmarked.of_watches rfl fun hlive => hlive
  | done id =>
    refine htended.setWatch nofun fun _ halive => ?_
    rw [hstopped id (by rw [hallowed.2]; rfl)] at halive
    cases halive
  | giveUp => exact htended.of_watches rfl fun hlive => hlive.of_apply (e := .giveUp)
  | shutdown => exact htended.of_watches rfl fun hlive => hlive.of_apply (e := .shutdown)
  | closeTransport => exact htended.of_watches rfl fun hlive => hlive.of_apply (e := .closeTransport)
  | tick elapsed => exact htended.of_watches rfl fun hlive => hlive

end Holdings

-- ---------------------------------------------------------------------------
-- Calls that wait
-- ---------------------------------------------------------------------------

/-- The watch is registered and its forwarder runs, and it holds the key. -/
structure Holdings.Feeds (h : Holdings) (watchKey : WatchKey) (id : Nat) (key : Text) : Prop where
  registered : (watchKey, id) ∈ h.kbs
  alive : (h.watches id).alive = true
  cancelled : (h.watches id).cancelled = false
  running : (h.watches id).forward = .running
  key : (h.watches id).keys.contains key = true

/-- A call that waits for a watch finds its key there, unless the watch was refused. -/
def Holdings.Waits (h : Holdings) (watchKey : WatchKey) (id : Nat) (key : Text) : Prop :=
  h.Deliverable → (h.watches id).link.isRefused = false → h.Feeds watchKey id key

namespace Holdings

variable {h h' : Holdings} {watchKey : WatchKey} {id : Nat} {key : Text}

theorem Feeds.held (hfeeds : h.Feeds watchKey id key) : h.Held watchKey.1 key :=
  .of_watch hfeeds.registered
    (KbWatch.feeding_iff.mpr ⟨hfeeds.alive, hfeeds.cancelled, Or.inl hfeeds.running⟩) hfeeds.key

theorem Feeds.setWatch (hfeeds : h.Feeds watchKey id key) {id' : Nat} {w : KbWatch}
    (hw : id' = id → w.alive = true ∧ w.cancelled = false ∧ w.forward = .running ∧
      w.keys.contains key = true) : (h.setWatch id' w).Feeds watchKey id key := by
  by_cases hid : id = id'
  · cases hid
    obtain ⟨halive, hcancelled, hforward, hkey⟩ := hw rfl
    refine ⟨hfeeds.registered, ?_, ?_, ?_, ?_⟩ <;> rw [setWatch_self] <;> assumption
  · refine ⟨hfeeds.registered, ?_, ?_, ?_, ?_⟩ <;> rw [setWatch_of_ne hid]
    · exact hfeeds.alive
    · exact hfeeds.cancelled
    · exact hfeeds.running
    · exact hfeeds.key

/-- A watch that has no running forwarder is not one that a call waits for. -/
theorem Waits.setWatch_stopped (hwaits : h.Waits watchKey id key) {id' : Nat} {w : KbWatch}
    (hlink : w.link = (h.watches id').link)
    (hstopped : h.Deliverable → w.link.isRefused = false → ¬ (h.Feeds watchKey id' key)) :
    (h.setWatch id' w).Waits watchKey id key := by
  intro hlive hrefused
  by_cases hid : id = id'
  · cases hid
    rw [setWatch_self] at hrefused
    exact absurd (hwaits hlive (hlink ▸ hrefused)) (hstopped hlive hrefused)
  · rw [setWatch_of_ne hid] at hrefused
    exact (hwaits hlive hrefused).setWatch fun heq => absurd heq.symm hid

theorem Waits.amendWatch (hwaits : h.Waits watchKey id key) (watchKey' : WatchKey)
    {f : KbWatch → KbWatch} (hf : KeepsForwarder f) (hf' : KeepsFeeding f) (hid : id < h.started) :
    (h.amendWatch watchKey' f).Waits watchKey id key := by
  intro hlive hrefused
  obtain ⟨hgone, hcancelled, htransport, -, -⟩ := h.amendWatch_frame watchKey' f
  have hlive' : h.Deliverable := by
    unfold Deliverable stillDeliverable at hlive ⊢
    rw [hgone, hcancelled, htransport] at hlive
    exact hlive
  rcases h.amendWatch_cases watchKey' f with ⟨id', -, heq⟩ | ⟨husable, heq⟩
  · rw [heq] at hrefused ⊢
    obtain ⟨halive, hcancelled, hlink, hforward⟩ := hf (h.watches id')
    have hrefused' : (h.watches id).link.isRefused = false := by
      by_cases hsame : id = id'
      · cases hsame
        rw [setWatch_self, hlink] at hrefused
        exact hrefused
      · rw [setWatch_of_ne hsame] at hrefused
        exact hrefused
    have hfeeds := hwaits hlive' hrefused'
    refine hfeeds.setWatch fun hsame => ?_
    cases hsame
    rw [halive, hcancelled, hforward]
    exact ⟨hfeeds.alive, hfeeds.cancelled, hfeeds.running, (hf' _).2 key hfeeds.key⟩
  · rw [heq] at hrefused ⊢
    simp only [setWatch_of_ne hid.ne] at hrefused
    have hfeeds := hwaits hlive' hrefused
    have hother : watchKey ≠ watchKey' := by
      rintro rfl
      rw [usable_eq_some.mpr ⟨hfeeds.registered, hfeeds.alive, hfeeds.cancelled, hlive'.cancelled⟩] at husable
      cases husable
    refine ⟨Assoc.mem_insert.mpr (Or.inl ⟨hfeeds.registered, hother⟩), ?_, ?_, ?_, ?_⟩ <;>
      simp only [setWatch_of_ne hid.ne]
    · exact hfeeds.alive
    · exact hfeeds.cancelled
    · exact hfeeds.running
    · exact hfeeds.key

theorem Waits.unsubscribe (hwaits : h.Waits watchKey id key) (hinv : h.Inv) {kb' key' : Text}
    (hother : ¬ (kb' = watchKey.1 ∧ key' = key)) : (h.unsubscribe kb' key').Waits watchKey id key := by
  intro hlive hrefused
  obtain ⟨kb, credential⟩ := watchKey
  by_cases hreg : ∃ credential', ((kb', credential'), id) ∈ h.kbs
  · obtain ⟨credential', hreg⟩ := hreg
    have hwatch := @unsubscribe_of_mem h kb' key' credential' id hreg
    rw [hwatch, withoutKey_link] at hrefused
    have hfeeds := hwaits hlive hrefused
    have hkb : kb' = kb := by
      have hnamed := (hinv.named _ id hreg).symm.trans (hinv.named _ id hfeeds.registered)
      exact congrArg Prod.fst hnamed
    have hkey : (withoutKey (h.watches id) key').keys.contains key = true := by
      rw [withoutKey_keys]
      exact Assoc.contains_erase.mpr ⟨fun heq => hother ⟨hkb, heq.symm⟩, hfeeds.key⟩
    have hwanted : (withoutKey (h.watches id) key').wanted = true := wanted_iff.mpr (Or.inr ⟨key, hkey⟩)
    refine ⟨mem_unsubscribe_kbs.mpr ⟨hfeeds.registered, Or.inr (hwatch ▸ hwanted)⟩, ?_, ?_, ?_, ?_⟩ <;>
      rw [hwatch]
    · rw [withoutKey_alive]
      exact hfeeds.alive
    · rw [Bool.eq_false_iff, ne_eq, withoutKey_cancelled, hfeeds.cancelled, hwanted]
      simp
    · rw [withoutKey_forward]
      exact hfeeds.running
    · exact hkey
  · have hwatch := @unsubscribe_of_not_mem h kb' key' id (not_exists.mp hreg)
    rw [hwatch] at hrefused
    have hfeeds := hwaits hlive hrefused
    have hkb : kb ≠ kb' := by
      rintro rfl
      exact hreg ⟨credential, hfeeds.registered⟩
    refine ⟨mem_unsubscribe_kbs.mpr ⟨hfeeds.registered, Or.inl hkb⟩, ?_, ?_, ?_, ?_⟩ <;> rw [hwatch]
    · exact hfeeds.alive
    · exact hfeeds.cancelled
    · exact hfeeds.running
    · exact hfeeds.key

/-- A watch that is stranded had been refused. -/
theorem Waits.strand (hwaits : h.Waits watchKey id key) {id' : Nat}
    (hrefused' : (h.watches id').link.isRefused = true) : (h.strand id').Waits watchKey id key := by
  have hmarked : (h.setWatch id' { h.watches id' with forward := .stranded }).Waits watchKey id key := by
    refine hwaits.setWatch_stopped rfl fun _ hrefused => ?_
    rw [hrefused'] at hrefused
    cases hrefused
  intro hlive hrefused
  have hwatch := congrFun (@strand_watches h id') id
  have hlive' : h.Deliverable := @Deliverable.of_apply h (.strand id') hlive
  have hfeeds := hmarked hlive' (hwatch ▸ hrefused)
  refine ⟨(@strand_kbs h id').symm ▸ hfeeds.registered, ?_, ?_, ?_, ?_⟩ <;> rw [hwatch]
  · exact hfeeds.alive
  · exact hfeeds.cancelled
  · exact hfeeds.running
  · exact hfeeds.key

theorem Waits.forget (hwaits : h.Waits watchKey id key) {id' : Nat}
    (hcleared : (h.watches id').forward = .cleared) : (h.forget id').Waits watchKey id key := by
  have hmarked : (h.setWatch id' { h.watches id' with forward := .forgotten }).Waits watchKey id key := by
    refine hwaits.setWatch_stopped rfl fun _ _ hfeeds => ?_
    rw [hfeeds.running] at hcleared
    cases hcleared
  intro hlive hrefused
  have hfeeds := hmarked hlive hrefused
  have hsame : id ≠ id' := by
    rintro rfl
    have hforward := hfeeds.running
    rw [setWatch_self] at hforward
    cases hforward
  exact ⟨mem_forget_kbs.mpr ⟨hfeeds.registered, fun heq => hsame heq.2⟩, hfeeds.alive, hfeeds.cancelled,
    hfeeds.running, hfeeds.key⟩

theorem started_le_apply (h : Holdings) (e : Effect) : h.started ≤ (e.apply h).started := by
  have hamend : ∀ (h : Holdings) watchKey f, h.started ≤ (h.amendWatch watchKey f).started := by
    intro h watchKey f
    rcases h.amendWatch_cases watchKey f with ⟨id, -, heq⟩ | ⟨-, heq⟩ <;> rw [heq]
    · exact Nat.le_refl _
    · exact Nat.le_succ _
  cases e with
  | enroll watchKey key uri => exact hamend h watchKey _
  | watchList watchKey => exact hamend h watchKey _
  | move kb client key uri => exact hamend (h.takeStranded kb client key) (kb, client) _
  | strand id =>
    unfold Effect.apply Holdings.strand
    dsimp only
    split <;> exact Nat.le_refl _
  | _ => exact Nat.le_refl _

theorem Waits.apply (hwaits : h.Waits watchKey id key) (hinv : h.Inv) (htended : h.Tended)
    (hid : id < h.started) {e : Effect} (hallowed : e.Allowed h)
    (hother : e ≠ .unsubscribe watchKey.1 key) : (e.apply h).Waits watchKey id key := by
  cases e with
  | enroll watchKey' key' uri =>
    exact hwaits.amendWatch watchKey' (keepsForwarder_insert key' uri) (keepsFeeding_insert key' uri) hid
  | move kb client key' uri =>
    have htaken : (h.takeStranded kb client key').Waits watchKey id key := fun hlive hrefused =>
      have hfeeds := hwaits hlive hrefused
      ⟨hfeeds.registered, hfeeds.alive, hfeeds.cancelled, hfeeds.running, hfeeds.key⟩
    exact htaken.amendWatch (kb, client) (keepsForwarder_insert key' uri) (keepsFeeding_insert key' uri) hid
  | watchList watchKey' => exact hwaits.amendWatch watchKey' keepsForwarder_list keepsFeeding_list hid
  | unsubscribe kb' key' =>
    refine hwaits.unsubscribe hinv ?_
    rintro ⟨rfl, rfl⟩
    exact hother rfl
  | opened id' =>
    intro hlive hrefused
    by_cases hsame : id = id'
    · cases hsame
      have hfeeds := hwaits hlive (htended.unrefused id hallowed.2)
      exact hfeeds.setWatch fun _ => ⟨hfeeds.alive, hfeeds.cancelled, hfeeds.running, hfeeds.key⟩
    · simp only [Effect.apply, setWatch_of_ne hsame] at hrefused
      exact (hwaits hlive hrefused).setWatch fun heq => absurd heq.symm hsame
  | refused id' status =>
    intro hlive hrefused
    by_cases hsame : id = id'
    · cases hsame
      simp only [Effect.apply, setWatch_self] at hrefused
      cases hrefused
    · simp only [Effect.apply, setWatch_of_ne hsame] at hrefused
      exact (hwaits hlive hrefused).setWatch fun heq => absurd heq.symm hsame
  | left id' =>
    refine hwaits.setWatch_stopped rfl fun hlive _ hfeeds => ?_
    obtain ⟨-, -, hwhy | hwhy | hwhy⟩ := hallowed
    · rw [hfeeds.cancelled] at hwhy
      cases hwhy
    · rw [hlive.cancelled] at hwhy
      cases hwhy
    · rw [hlive.2] at hwhy
      cases hwhy
  | strand id' => exact hwaits.strand hallowed.2.2
  | clear id' =>
    refine hwaits.setWatch_stopped rfl fun _ _ hfeeds => ?_
    obtain ⟨-, ⟨hforward, -⟩ | hforward⟩ := hallowed
    · rw [hfeeds.running] at hforward
      cases hforward
    · rw [hfeeds.running] at hforward
      cases hforward
  | forget id' => exact hwaits.forget hallowed.2
  | done id' =>
    refine hwaits.setWatch_stopped rfl fun _ _ hfeeds => ?_
    have hforward := hallowed.2
    rw [hfeeds.running] at hforward
    cases hforward
  | giveUp =>
    intro hlive
    cases hlive.1
  | shutdown =>
    intro hlive
    cases hlive.cancelled
  | closeTransport =>
    intro hlive
    cases hlive.2
  | _ =>
    intro hlive hrefused
    have hfeeds := hwaits hlive hrefused
    exact ⟨hfeeds.registered, hfeeds.alive, hfeeds.cancelled, hfeeds.running, hfeeds.key⟩

/-- A key that was put into a watch is waited for there. -/
theorem waits_enroll (hinv : h.Inv) (htended : h.Tended) (watchKey : WatchKey) (key uri : Text) :
    (h.ensureWatch watchKey).2 < (h.enroll watchKey key uri).started ∧
      (h.enroll watchKey key uri).Waits watchKey (h.ensureWatch watchKey).2 key := by
  unfold Holdings.enroll
  rcases h.amendWatch_cases watchKey fun w => { w with keys := w.keys.insert key uri } with
    ⟨id, husable, heq⟩ | ⟨husable, heq⟩
  · have hid : (h.ensureWatch watchKey).2 = id := by
      unfold ensureWatch
      rw [husable]
    obtain ⟨hmem, halive, hcancelled, -⟩ := usable_eq_some.mp husable
    rw [heq, hid]
    refine ⟨hinv.started watchKey id hmem, fun hlive hrefused => ?_⟩
    rw [setWatch_self] at hrefused
    refine ⟨hmem, ?_, ?_, ?_, ?_⟩ <;> rw [setWatch_self]
    · exact halive
    · exact hcancelled
    · exact htended.running hlive id halive hcancelled hrefused
    · exact Assoc.contains_insert.mpr (Or.inl rfl)
  · have hid : (h.ensureWatch watchKey).2 = h.started := by
      unfold ensureWatch
      rw [husable]
    rw [heq, hid]
    refine ⟨Nat.lt_succ_self _, fun hlive hrefused => ?_⟩
    refine ⟨Assoc.mem_insert.mpr (Or.inr rfl), ?_, ?_, ?_, ?_⟩ <;> simp only [setWatch_self]
    · rfl
    · rfl
    · rfl
    · exact Assoc.contains_insert.mpr (Or.inl rfl)

theorem Tended.effects (htended : h.Tended) (hinv : h.Inv) {es : List Effect} (hes : Effects h es h') :
    h'.Tended := by
  have hboth : h'.Inv ∧ h'.Tended :=
    hes.invariant (I := fun h => h.Inv ∧ h.Tended)
      (fun e _ h hallowed hboth => ⟨hboth.1.apply hallowed, hboth.2.apply hboth.1 hallowed⟩) ⟨hinv, htended⟩
  exact hboth.2

theorem Waits.effects (hwaits : h.Waits watchKey id key) (hinv : h.Inv) (htended : h.Tended)
    (hid : id < h.started) {es : List Effect} (hes : Effects h es h')
    (hother : .unsubscribe watchKey.1 key ∉ es) : id < h'.started ∧ h'.Waits watchKey id key := by
  have hall : h'.Inv ∧ h'.Tended ∧ id < h'.started ∧ h'.Waits watchKey id key := by
    refine hes.invariant (I := fun h => h.Inv ∧ h.Tended ∧ id < h.started ∧ h.Waits watchKey id key) ?_
      ⟨hinv, htended, hid, hwaits⟩
    rintro e he h hallowed ⟨hinv, htended, hid, hwaits⟩
    refine ⟨hinv.apply hallowed, htended.apply hinv hallowed, hid.trans_le (h.started_le_apply e), ?_⟩
    refine hwaits.apply hinv htended hid hallowed ?_
    rintro rfl
    exact hother he
  exact hall.2.2

end Holdings

/-- Every call that waits for a watch finds its key there, unless it was unsubscribed. -/
def State.Waiting (s : State) : Prop :=
  ∀ call ∈ s.calls, ∀ id, call.watch = some id →
    id < s.started ∧ (call.withdrawn = false → s.Waits (call.kb, call.client) id call.key)

theorem Waiting.step {s s' : State} {a : Action} (hstep : s.step a = some s') (hinv : s.Inv)
    (htended : s.Tended) (hwaiting : s.Waiting) : s'.Waiting := by
  obtain ⟨es, hes, hfrom⟩ := step_effects hstep
  -- the calls that were there already go on waiting, but for what the step unsubscribes
  have hold : ∀ call ∈ s.calls, ∀ id, call.watch = some id → a ≠ .unsubscribe call.kb call.key →
      id < s'.started ∧ (call.withdrawn = false → s'.Waits (call.kb, call.client) id call.key) := by
    intro call hcall id hid hother
    obtain ⟨hstarted, hwaits⟩ := hwaiting call hcall id hid
    have hnone : .unsubscribe call.kb call.key ∉ es := fun hmem => hother (hfrom _ hmem)
    cases hwithdrawn : call.withdrawn with
    | false =>
      obtain ⟨hstarted', hwaits'⟩ := (hwaits hwithdrawn).effects hinv htended hstarted hes hnone
      exact ⟨hstarted', fun _ => hwaits'⟩
    | true =>
      refine ⟨hstarted.trans_le ?_, nofun⟩
      exact hes.invariant (I := fun h => s.started ≤ h.started)
        (fun e _ h _ hle => hle.trans (h.started_le_apply e)) (Nat.le_refl _)
  cases hchanges : a.changesCalls with
  | false =>
    unfold State.Waiting
    rw [(step_frame hstep).calls hchanges]
    intro call hcall id hid
    refine hold call hcall id hid ?_
    rintro rfl
    cases hchanges
  | true =>
    cases step_moves hstep with
    | call =>
      intro call hcall id hid
      rcases List.mem_append.mp hcall with hcall | hnew
      · exact hold call hcall id hid (fun heq => by cases heq)
      · cases List.mem_singleton.mp hnew
        cases hid
    | @register i call' =>
      intro call hcall id hid
      rw [State.ensureKeeper_calls] at hcall
      rcases List.mem_or_eq_of_mem_set hcall with hcall | rfl
      · exact hold call hcall id hid (fun heq => by cases heq)
      · cases hid
        rw [State.ensureKeeper_toHoldings]
        obtain ⟨hstarted, hwaits⟩ :=
          Holdings.waits_enroll hinv htended (call'.kb, call'.client) call'.key call'.uri
        exact ⟨hstarted, fun _ => hwaits⟩
    | answer =>
      intro call hcall id hid
      exact hold call (List.mem_of_mem_eraseIdx hcall) id hid (fun heq => by cases heq)
    | unsubscribe =>
      intro call hcall id hid
      obtain ⟨call', hcall', rfl⟩ := List.mem_map.mp hcall
      split at hid
      · next hsame =>
        -- this one is withdrawn
        have hwatch : call'.watch = some id := hid
        rw [if_pos hsame]
        refine ⟨(hwaiting call' hcall' id hwatch).1, fun hwithdrawn => ?_⟩
        have hnone : call'.watch.isSome = false := hwithdrawn
        rw [hwatch] at hnone
        cases hnone
      · next hsame =>
        rw [if_neg hsame]
        refine hold call' hcall' id hid ?_
        rintro heq
        cases heq
        exact hsame ⟨rfl, rfl⟩
    | _ => cases hchanges

-- ---------------------------------------------------------------------------
-- What is owed
-- ---------------------------------------------------------------------------

namespace State

/-- The key of a `subscribe` that this step answers, unless it was unsubscribed in the meantime. -/
def answers (s : State) : Action → List (Text × Text)
  | .answer i =>
    match s.calls[i]? with
    | some call =>
      match call.watch with
      | some id =>
        if s.subscribeAnswer id = .ok () ∧ call.withdrawn = false then [(call.kb, call.key)] else []
      | none => []
    | none => []
  | _ => []

theorem mem_answers {s : State} {a : Action} {kb key : Text} (hmem : (kb, key) ∈ s.answers a) :
    ∃ i call id, a = .answer i ∧ s.calls[i]? = some call ∧ call.watch = some id ∧
      s.subscribeAnswer id = .ok () ∧ call.withdrawn = false ∧ call.kb = kb ∧ call.key = key := by
  cases a with
  | answer i =>
    unfold answers at hmem
    dsimp only at hmem
    cases hcall : s.calls[i]? with
    | none => simp [hcall] at hmem
    | some call =>
      simp only [hcall] at hmem
      cases hid : call.watch with
      | none => simp [hid] at hmem
      | some id =>
        simp only [hid] at hmem
        split at hmem
        · next hok =>
          cases List.mem_singleton.mp hmem
          exact ⟨i, call, id, rfl, hcall, hid, hok.1, hok.2, rfl, rfl⟩
        · cases hmem
  | _ => cases hmem

end State

-- ---------------------------------------------------------------------------
-- Deciding what is held
-- ---------------------------------------------------------------------------

instance (h : Holdings) (kb key : Text) : Decidable (h.Held kb key) :=
  decidable_of_iff
    ((∃ e ∈ h.kbs.entries, e.1.1 = kb ∧ (h.watches e.2).feeding = true ∧
        (h.watches e.2).keys.contains key = true) ∨
      ∃ e ∈ h.stranded.entries, e.1.1 = kb ∧ e.2.keys.contains key = true ∧ h.now < e.2.expires) <| by
    constructor
    · rintro (⟨⟨⟨kb', credential⟩, id⟩, hmem, rfl, hwatch⟩ | ⟨⟨⟨kb', credential⟩, st⟩, hmem, rfl, hst⟩)
      · exact Or.inl ⟨credential, id, hmem, hwatch⟩
      · exact Or.inr ⟨credential, st, hmem, hst⟩
    · rintro (⟨credential, id, hmem, hwatch⟩ | ⟨credential, st, hmem, hst⟩)
      · exact Or.inl ⟨((kb, credential), id), hmem, rfl, hwatch⟩
      · exact Or.inr ⟨((kb, credential), st), hmem, rfl, hst⟩

instance (h : Holdings) (kb key : Text) (elapsed : Nat) : Decidable (h.Expires kb key elapsed) :=
  decidable_of_iff
    (∃ e ∈ h.stranded.entries, e.1.1 = kb ∧ e.2.keys.contains key = true ∧ h.now < e.2.expires ∧
      e.2.expires ≤ h.now + elapsed) <| by
    constructor
    · rintro ⟨⟨⟨kb', credential⟩, st⟩, hmem, rfl, hst⟩
      exact ⟨credential, st, hmem, hst⟩
    · rintro ⟨credential, st, hmem, hst⟩
      exact ⟨((kb, credential), st), hmem, rfl, hst⟩

instance (s : State) (kb key : Text) : (a : Action) → Decidable (s.LetsGo kb key a)
  | .unsubscribe kb' key' => inferInstanceAs (Decidable (kb' = kb ∧ key' = key))
  | .streamRefused id status =>
    inferInstanceAs (Decidable (status ≠ 401 ∧ (s.watches id).watchKey.1 = kb ∧
      (s.watches id).keys.contains key = true))
  | .commit i => inferInstanceAs (Decidable (∃ task ∈ s.rehomes[i]?, (kb, key, .drop) ∈ task.verdicts))
  | .tick elapsed => inferInstanceAs (Decidable (s.Expires kb key elapsed))
  | .wake _ elapsed => inferInstanceAs (Decidable (s.Expires kb key elapsed))
  | .call .. | .register _ | .answer _ | .noteCaller _ | .watchListChanges .. | .streamOpened _
  | .streamLeft _ | .changed .. | .strand _ | .clear _ | .forget _ | .leave _ | .send _
  | .beginRehome _ | .probed .. | .stopRehome _ | .answered _ | .unanswered _ | .stopKeeper _
  | .closeTransport | .shutdown => inferInstanceAs (Decidable False)

-- ---------------------------------------------------------------------------
-- Runs
-- ---------------------------------------------------------------------------

/-- What is owed after a step: the keys that were owed before and have not ceased to be held for a reason,
and the key of a `subscribe` that was answered. -/
def owedAfter (s : State) (a : Action) (s' : State) (owed : List (Text × Text)) : List (Text × Text) :=
  owed.filter (fun k => ¬ (s.LetsGo k.1 k.2 a ∧ ¬ s'.Held k.1 k.2)) ++ s.answers a

/-- The states reached by allowed steps, with the keys that are then owed. -/
inductive Owing (allowed : State → Action → Prop) : State → List (Text × Text) → Prop where
  | start : Owing allowed State.new []
  | step {s s' : State} {a : Action} {owed : List (Text × Text)} :
      Owing allowed s owed → allowed s a → s.step a = some s' → Owing allowed s' (owedAfter s a s' owed)

/-- A `subscribe` that answers has its key in a live watch. -/
theorem held_of_answers {s : State} {a : Action} {kb key : Text} (hwaiting : s.Waiting)
    (hlive : s.Deliverable) (hmem : (kb, key) ∈ s.answers a) : s.Held kb key := by
  obtain ⟨i, call, id, -, hcall, hid, hok, hwithdrawn, rfl, rfl⟩ := State.mem_answers hmem
  have hwaits := (hwaiting call (List.mem_of_getElem? hcall) id hid).2 hwithdrawn
  have hrefused : (s.watches id).link.isRefused = false := by
    unfold State.subscribeAnswer at hok
    rw [if_pos hlive.1] at hok
    cases hlink : (s.watches id).link with
    | refused status =>
      simp only [hlink] at hok
      split_ifs at hok
    | _ => rfl
  exact (hwaits hlive hrefused).held

/-- In every run in which no re-home moves a key onto a watch that is being torn down: every key that is
owed is held by a live watch or stranded, for as long as the session is deliverable. -/
theorem owed_is_held {s : State} {owed : List (Text × Text)}
    (howing : Owing (fun s a => s.Lands a) s owed) (hlive : s.Deliverable) :
    ∀ kb key, (kb, key) ∈ owed → s.Held kb key := by
  have hall : s.Inv ∧ s.Tended ∧ s.Waiting ∧ (s.Deliverable → ∀ kb key, (kb, key) ∈ owed → s.Held kb key) := by
    clear hlive
    induction howing with
    | start =>
      refine ⟨(@Reaches.refl anyAction State.new).inv, ⟨fun _ _ => rfl, fun _ _ => nofun⟩, ?_, ?_⟩
      · intro call hcall
        cases hcall
      · intro _ kb key hmem
        cases hmem
    | @step s s' a owed _ hlands hstep ih =>
      obtain ⟨hinv, htended, hwaiting, howed⟩ := ih
      obtain ⟨es, hes, -⟩ := step_effects hstep
      refine ⟨hinv.effects hes, htended.effects hinv hes, Waiting.step hstep hinv htended hwaiting, ?_⟩
      intro hlive kb key hmem
      have hlive' : s.Deliverable := hlive.of_effects hes
      rcases List.mem_append.mp hmem with hmem | hmem
      · -- owed before: still held, or let go for a reason
        obtain ⟨hbefore, hreason⟩ := List.mem_filter.mp hmem
        rw [decide_eq_true_eq, not_and_not_right] at hreason
        by_cases hletsGo : s.LetsGo kb key a
        · exact hreason hletsGo
        · exact Held.step hstep hinv hlive hlands hletsGo (howed hlive' kb key hbefore)
      · -- answered just now, which changes nothing that holds keys
        have hheld := held_of_answers hwaiting hlive' hmem
        obtain ⟨i, -, -, rfl, -⟩ := State.mem_answers hmem
        cases step_moves hstep
        exact hheld
  exact hall.2.2.2 hlive

/-- The steps of a list, one after the other, with what is owed. -/
def runOwing (s : State) (owed : List (Text × Text)) : List Action → Option (State × List (Text × Text))
  | [] => some (s, owed)
  | a :: rest => do
    let s' ← s.step a
    runOwing s' (owedAfter s a s' owed) rest

theorem Owing.of_run {allowed : State → Action → Prop} {s s' : State} {owed owed' : List (Text × Text)}
    {actions : List Action} (howing : Owing allowed s owed) (hall : ∀ a ∈ actions, ∀ s, allowed s a)
    (hrun : runOwing s owed actions = some (s', owed')) : Owing allowed s' owed' := by
  induction actions generalizing s owed with
  | nil =>
    cases hrun
    exact howing
  | cons a rest ih =>
    simp only [runOwing, Option.bind_eq_bind, Option.bind_eq_some_iff] at hrun
    obtain ⟨next, hstep, hrest⟩ := hrun
    exact ih (howing.step (hall a List.mem_cons_self s) hstep)
      (fun a ha => hall a (List.mem_cons_of_mem _ ha)) hrest

/-- The credential expires, and the key is stranded. -/
def expired : List Action :=
  subscribed ++ [.streamRefused 0 401, .strand 0, .clear 0, .forget 0, .leave 0]

theorem owed_is_held_expired :
    ∃ s owed, runOwing State.new [] expired = some (s, owed) ∧ s.Deliverable ∧ (notes, aMd) ∈ owed ∧
      s.Held notes aMd := by
  have hheld : ∀ s owed, runOwing State.new [] expired = some (s, owed) → s.Deliverable →
      (notes, aMd) ∈ owed → s.Held notes aMd := by
    intro s owed hrun hlive hmem
    refine owed_is_held (Owing.start.of_run ?_ hrun) hlive notes aMd hmem
    simp [expired, subscribed, State.Lands]
  exact ⟨_, _, rfl, ⟨rfl, rfl⟩, by decide, hheld _ _ rfl ⟨rfl, rfl⟩ (by decide)⟩

/-- The key of the expired credential is being moved to the new one when that expires too; it is put into
the watch of the new one after its keys were stranded, and before they are cleared. -/
def movedOntoTornDown : List Action :=
  subscribed ++ [.noteCaller newToken, .watchListChanges [notes] newToken, .streamOpened 1,
    .streamRefused 0 401, .strand 0, .clear 0, .forget 0, .leave 0, .beginRehome 0, .probed 0 .move,
    .streamRefused 1 401, .strand 1, .commit 0, .clear 1, .forget 1]

/-- The key is still owed, and nothing holds it: no watch is left, no re-home runs, and it is not
stranded. -/
theorem owed_key_lost :
    ∃ s owed, Owing anyAction s owed ∧ s.Deliverable ∧ (notes, aMd) ∈ owed ∧ ¬ s.Held notes aMd ∧
      s.kbs.entries.isEmpty = true ∧ s.rehomes.isEmpty = true ∧
      s.stranded.entries.all (fun e => !e.2.keys.contains aMd) = true := by
  have hrun : ∀ s owed, runOwing State.new [] movedOntoTornDown = some (s, owed) →
      Owing anyAction s owed := fun s owed => Owing.start.of_run fun _ _ _ => trivial
  exact ⟨_, _, hrun _ _ rfl, ⟨rfl, rfl⟩, by decide, by decide, by decide, by decide, by decide⟩

end Subscriptions

end Mcp
