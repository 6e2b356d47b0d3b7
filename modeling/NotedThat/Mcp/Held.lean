-- SUMMARY: A subscribed key is held by a live watch or stranded until it is unsubscribed, refused or given up on, if no re-home moves it onto a watch that is being torn down.
import NotedThat.Mcp.SubscriptionEffects

/-!
# Held keys

What a `subscribe` that answered promises is that its key stays somewhere from where notifications come,
or will come again. A key that is moved between these places is in one of them after every step.
-/

namespace Mcp

namespace Subscriptions

/-- The forwarder reads its stream, or was refused an expired credential and has yet to strand what it
was feeding. -/
def KbWatch.feeding (w : KbWatch) : Bool :=
  w.alive && !w.cancelled && (w.forward = .running || (w.forward = .exited && w.link = .refused 401))

theorem KbWatch.feeding_iff {w : KbWatch} :
    w.feeding = true ↔ w.alive = true ∧ w.cancelled = false ∧
      (w.forward = .running ∨ w.forward = .exited ∧ w.link = .refused 401) := by
  simp [feeding, and_assoc]

namespace Holdings

/-- Notifications reach the client. -/
def Deliverable (h : Holdings) : Prop := h.stillDeliverable = true ∧ h.transport = true

/-- A live watch holds the key, or it is stranded and has not expired. -/
def Held (h : Holdings) (kb key : Text) : Prop :=
  (∃ credential id, ((kb, credential), id) ∈ h.kbs ∧ (h.watches id).feeding = true ∧
    (h.watches id).keys.contains key = true) ∨
  ∃ credential st, ((kb, credential), st) ∈ h.stranded ∧ st.keys.contains key = true ∧ h.now < st.expires

variable {h h' : Holdings} {kb key : Text}

theorem Deliverable.cancelled (hlive : h.Deliverable) : h.cancelled = false :=
  (stillDeliverable_iff.mp hlive.1).2

theorem Held.of_places (hheld : h.Held kb key)
    (hwatch : ∀ credential id, ((kb, credential), id) ∈ h.kbs → (h.watches id).feeding = true →
      (h.watches id).keys.contains key = true → h'.Held kb key)
    (hstranded : ∀ credential st, ((kb, credential), st) ∈ h.stranded → st.keys.contains key = true →
      h.now < st.expires → h'.Held kb key) : h'.Held kb key := by
  rcases hheld with ⟨credential, id, hmem, hfeeding, hkey⟩ | ⟨credential, st, hmem, hkey, hnow⟩
  · exact hwatch credential id hmem hfeeding hkey
  · exact hstranded credential st hmem hkey hnow

theorem Held.of_watch {credential : Credential} {id : Nat} (hmem : ((kb, credential), id) ∈ h.kbs)
    (hfeeding : (h.watches id).feeding = true) (hkey : (h.watches id).keys.contains key = true) :
    h.Held kb key := Or.inl ⟨credential, id, hmem, hfeeding, hkey⟩

theorem Held.of_stranded {credential : Credential} {st : Stranded}
    (hmem : ((kb, credential), st) ∈ h.stranded) (hkey : st.keys.contains key = true)
    (hnow : h.now < st.expires) : h.Held kb key := Or.inr ⟨credential, st, hmem, hkey, hnow⟩

/-- A watch that is changed goes on holding the key, if it was live. -/
theorem Held.setWatch (hheld : h.Held kb key) {id : Nat} {w : KbWatch}
    (hw : (h.watches id).feeding = true → (h.watches id).keys.contains key = true →
      w.feeding = true ∧ w.keys.contains key = true) : (h.setWatch id w).Held kb key := by
  refine hheld.of_places (fun credential id' hmem hfeeding hkey => ?_)
    fun credential st hmem hkey hnow => .of_stranded hmem hkey hnow
  by_cases hid : id' = id
  · cases hid
    obtain ⟨hfeeding', hkey'⟩ := hw hfeeding hkey
    refine .of_watch hmem ?_ ?_
    · rw [setWatch_self]
      exact hfeeding'
    · rw [setWatch_self]
      exact hkey'
  · refine .of_watch hmem ?_ ?_
    · rw [setWatch_of_ne hid]
      exact hfeeding
    · rw [setWatch_of_ne hid]
      exact hkey

/-- What is changed of a watch for another reason leaves it live. -/
def KeepsFeeding (f : KbWatch → KbWatch) : Prop :=
  ∀ w, (f w).feeding = w.feeding ∧
    ∀ key, w.keys.contains key = true → (f w).keys.contains key = true

theorem Held.amendWatch (hheld : h.Held kb key) (hinv : h.Inv) (hsession : h.cancelled = false)
    (watchKey : WatchKey) {f : KbWatch → KbWatch} (hf : KeepsFeeding f) :
    (h.amendWatch watchKey f).Held kb key := by
  rcases h.amendWatch_cases watchKey f with ⟨id, -, heq⟩ | ⟨husable, heq⟩
  · rw [heq]
    refine hheld.setWatch fun hfeeding hkey => ?_
    exact ⟨(hf _).1.trans hfeeding, (hf _).2 key hkey⟩
  · rw [heq]
    refine hheld.of_places (fun credential id hmem hfeeding hkey => ?_)
      fun credential st hmem hkey hnow => .of_stranded hmem hkey hnow
    have hid : id ≠ h.started := (hinv.started _ id hmem).ne
    refine @Held.of_watch _ kb key credential id (Assoc.mem_insert.mpr (Or.inl ⟨hmem, ?_⟩)) ?_ ?_
    · -- the watch that was replaced was not usable, and so not live
      rintro rfl
      obtain ⟨halive, hcancelled, -⟩ := KbWatch.feeding_iff.mp hfeeding
      rw [usable_eq_some.mpr ⟨hmem, halive, hcancelled, hsession⟩] at husable
      cases husable
    · simp only [setWatch_of_ne hid]
      exact hfeeding
    · simp only [setWatch_of_ne hid]
      exact hkey

theorem keepsFeeding_insert (key uri : Text) :
    KeepsFeeding fun w => { w with keys := w.keys.insert key uri } :=
  fun _ => ⟨rfl, fun _ hkey => Assoc.contains_insert.mpr (Or.inr hkey)⟩

theorem keepsFeeding_list : KeepsFeeding fun w => { w with listChanged := true } :=
  fun _ => ⟨rfl, fun _ hkey => hkey⟩

/-- Where a key is enrolled it is held, if the watch is live. -/
theorem held_enroll {credential : Credential} {uri : Text}
    (hlands : ∀ id, h.usable (kb, credential) = some id → (h.watches id).feeding = true) :
    (h.enroll (kb, credential) key uri).Held kb key := by
  unfold Holdings.enroll
  rcases h.amendWatch_cases (kb, credential) fun w => { w with keys := w.keys.insert key uri } with
    ⟨id, husable, heq⟩ | ⟨-, heq⟩
  · rw [heq]
    refine .of_watch (usable_eq_some.mp husable).1 ?_ ?_
    · rw [setWatch_self]
      exact hlands id husable
    · rw [setWatch_self]
      exact Assoc.contains_insert.mpr (Or.inl rfl)
  · rw [heq]
    refine @Held.of_watch _ kb key credential h.started (Assoc.mem_insert.mpr (Or.inr rfl)) ?_ ?_
    · simp only [setWatch_self]
      rfl
    · simp only [setWatch_self]
      exact Assoc.contains_insert.mpr (Or.inl rfl)

theorem Held.takeStranded (hheld : h.Held kb key) {kb' key' : Text} (client : Credential)
    (hother : ¬ (kb' = kb ∧ key' = key)) : (h.takeStranded kb' client key').Held kb key := by
  refine hheld.of_places (fun credential id hmem hfeeding hkey => .of_watch hmem hfeeding hkey)
    fun credential st hmem hkey hnow => ?_
  have hmem' := (@Assoc.mem_mapVal _ _ (fun watchKey st =>
    if watchKey.1 = kb' ∧ watchKey.2 ≠ client then { st with keys := st.keys.erase key' } else st)
    h.stranded (kb, credential) _).mpr ⟨st, hmem, rfl⟩
  refine .of_stranded hmem' ?_ ?_
  · split
    · next hforeign =>
      refine Assoc.contains_erase.mpr ⟨?_, hkey⟩
      rintro rfl
      exact hother ⟨hforeign.1.symm, rfl⟩
    · exact hkey
  · split <;> exact hnow

theorem Stranded.wanted_of_contains {st : Stranded} (hkey : st.keys.contains key = true) :
    st.wanted = true := by
  unfold Stranded.wanted
  rw [Bool.or_eq_true, Bool.not_eq_true', Bool.eq_false_iff, ne_eq, Assoc.isEmpty_iff]
  exact Or.inr fun hempty => by simp [hempty key] at hkey

theorem Held.unsubscribe (hheld : h.Held kb key) (hinv : h.Inv) {kb' key' : Text}
    (hother : ¬ (kb' = kb ∧ key' = key)) : (h.unsubscribe kb' key').Held kb key := by
  refine hheld.of_places (fun credential id hmem hfeeding hkey => ?_)
    fun credential st hmem hkey hnow => ?_
  · by_cases hreg : ∃ credential', ((kb', credential'), id) ∈ h.kbs
    · obtain ⟨credential', hreg⟩ := hreg
      have hkb : kb' = kb := by
        have hnamed := (hinv.named _ id hreg).symm.trans (hinv.named _ id hmem)
        exact congrArg Prod.fst hnamed
      cases hkb
      have hkey' : (withoutKey (h.watches id) key').keys.contains key = true := by
        rw [withoutKey_keys]
        exact Assoc.contains_erase.mpr ⟨fun heq => hother ⟨rfl, heq.symm⟩, hkey⟩
      have hwanted : (withoutKey (h.watches id) key').wanted = true := wanted_iff.mpr (Or.inr ⟨key, hkey'⟩)
      obtain ⟨halive, hcancelled, hforward⟩ := KbWatch.feeding_iff.mp hfeeding
      have hfeeding' : (withoutKey (h.watches id) key').feeding = true := by
        rw [KbWatch.feeding_iff, withoutKey_alive, withoutKey_forward, withoutKey_link]
        refine ⟨halive, ?_, hforward⟩
        rw [Bool.eq_false_iff, ne_eq, withoutKey_cancelled, hcancelled, hwanted]
        simp
      rw [← unsubscribe_of_mem hreg] at hkey' hwanted hfeeding'
      exact .of_watch (mem_unsubscribe_kbs.mpr ⟨hmem, Or.inr hwanted⟩) hfeeding' hkey'
    · have hkb : kb ≠ kb' := by
        rintro rfl
        exact hreg ⟨credential, hmem⟩
      rw [← unsubscribe_of_not_mem (not_exists.mp hreg)] at hfeeding hkey
      exact .of_watch (mem_unsubscribe_kbs.mpr ⟨hmem, Or.inl hkb⟩) hfeeding hkey
  · by_cases hkb : kb = kb'
    · cases hkb
      have hkey' : (st.keys.erase key').contains key = true :=
        Assoc.contains_erase.mpr ⟨fun heq => hother ⟨rfl, heq.symm⟩, hkey⟩
      refine @Held.of_stranded _ kb key credential { st with keys := st.keys.erase key' } ?_ hkey' hnow
      refine Assoc.mem_retain.mpr ⟨Assoc.mem_mapVal.mpr ⟨st, hmem, ?_⟩, Stranded.wanted_of_contains hkey'⟩
      rw [if_pos rfl]
    · refine .of_stranded (Assoc.mem_retain.mpr ⟨Assoc.mem_mapVal.mpr ⟨st, hmem, ?_⟩, Stranded.wanted_of_contains hkey⟩) hkey hnow
      rw [if_neg hkb]

theorem Held.strand (hheld : h.Held kb key) (hinv : h.Inv) {id : Nat}
    (hforward : (h.watches id).forward = .exited) : (h.strand id).Held kb key := by
  refine hheld.of_places (fun credential id' hmem hfeeding hkey => ?_)
    fun credential st hmem hkey hnow' => ?_
  · by_cases hid : id' = id
    · -- its keys are stranded
      cases hid
      have hlink : (h.watches id).link = .refused 401 := by
        obtain ⟨-, -, hrunning | ⟨-, hlink⟩⟩ := KbWatch.feeding_iff.mp hfeeding
        · rw [hforward] at hrunning
          cases hrunning
        · exact hlink
      have hwanted : (h.watches id).wanted = true := wanted_iff.mpr (Or.inr ⟨key, hkey⟩)
      have hnamed := hinv.named _ id hmem
      unfold Holdings.strand
      dsimp only
      rw [if_pos (by simp [hlink, hwanted]), hnamed]
      refine .of_stranded (Assoc.mem_insert.mpr (Or.inr rfl)) ?_ ?_
      · exact Assoc.contains_extend.mpr (Or.inr hkey)
      · exact Nat.lt_add_of_pos_right (by decide)
    · have hwatch : (h.strand id).watches id' = h.watches id' := by
        rw [strand_watches, setWatch_of_ne hid]
      refine .of_watch (strand_kbs id ▸ hmem) ?_ ?_
      · rw [hwatch]
        exact hfeeding
      · rw [hwatch]
        exact hkey
  · unfold Holdings.strand
    dsimp only
    split
    · by_cases hwatchKey : (kb, credential) = (h.watches id).watchKey
      · rw [← hwatchKey]
        refine .of_stranded (Assoc.mem_insert.mpr (Or.inr rfl)) ?_ ?_
        · refine Assoc.contains_extend.mpr (Or.inl ?_)
          simp only [setWatch_stranded, Assoc.get?_eq_some.mpr hmem, Option.getD_some]
          exact hkey
        · exact Nat.lt_add_of_pos_right (by decide)
      · exact .of_stranded (Assoc.mem_insert.mpr (Or.inl ⟨hmem, hwatchKey⟩)) hkey hnow'
    · exact .of_stranded hmem hkey hnow'

theorem Held.pruneStranded (hheld : h.Held kb key) : h.pruneStranded.Held kb key := by
  refine hheld.of_places (fun credential id hmem hfeeding hkey => .of_watch hmem hfeeding hkey)
    fun credential st hmem hkey hnow => .of_stranded (Assoc.mem_retain.mpr ⟨hmem, ?_⟩) hkey hnow
  simp [Stranded.wanted_of_contains hkey, Stranded.expired, hnow]

end Holdings

/-- The effect leaves the key where it is held, or moves it to where it is held. -/
def Effect.Keeps (h : Holdings) (kb key : Text) : Effect → Prop
  | .unsubscribe kb' key' => ¬ (kb' = kb ∧ key' = key)
  | .take kb' _ key' => ¬ (kb' = kb ∧ key' = key)
  | .move kb' client key' _ => kb' = kb → key' = key →
      ∀ id, h.usable (kb, client) = some id → (h.watches id).feeding = true
  | .refused id status => status ≠ 401 → (h.watches id).keys.contains key = true →
      (h.watches id).watchKey.1 ≠ kb
  | .tick elapsed => ∀ credential st, ((kb, credential), st) ∈ h.stranded →
      st.keys.contains key = true → ¬ (h.now < st.expires ∧ st.expires ≤ h.now + elapsed)
  | _ => True

namespace Holdings

variable {h h' : Holdings} {kb key : Text}

theorem not_feeding {w : KbWatch} (hrunning : w.forward ≠ .running) (hexited : w.forward ≠ .exited) :
    w.feeding = false := by
  rw [Bool.eq_false_iff, ne_eq, KbWatch.feeding_iff]
  rintro ⟨-, -, hforward | ⟨hforward, -⟩⟩
  · exact hrunning hforward
  · exact hexited hforward

/-- A watch that is not live may be changed in any way. -/
theorem Held.setWatch_of_not_feeding (hheld : h.Held kb key) {id : Nat} {w : KbWatch}
    (hdead : (h.watches id).feeding = false) : (h.setWatch id w).Held kb key := by
  refine hheld.setWatch fun hfeeding => ?_
  rw [hdead] at hfeeding
  cases hfeeding

theorem Held.forget (hheld : h.Held kb key) {id : Nat} (hcleared : (h.watches id).forward = .cleared) :
    (h.forget id).Held kb key := by
  have hdead := not_feeding (w := h.watches id) (by simp [hcleared]) (by simp [hcleared])
  refine hheld.of_places (fun credential id' hmem hfeeding hkey => ?_)
    fun credential st hmem hkey hnow => .of_stranded hmem hkey hnow
  have hid : id' ≠ id := by
    rintro rfl
    rw [hdead] at hfeeding
    cases hfeeding
  have hwatch : (h.forget id).watches id' = h.watches id' := setWatch_of_ne hid _
  rw [← hwatch] at hfeeding hkey
  exact .of_watch (mem_forget_kbs.mpr ⟨hmem, fun hsame => hid hsame.2⟩) hfeeding hkey

theorem Held.apply (hheld : h.Held kb key) (hinv : h.Inv) {e : Effect} (hallowed : e.Allowed h)
    (hlive : (e.apply h).Deliverable) (hkeeps : e.Keeps h kb key) : (e.apply h).Held kb key := by
  have hsession : h.cancelled = false := (h.flags_of_apply e).2.1 hlive.cancelled
  cases e with
  | enroll watchKey key' uri => exact hheld.amendWatch hinv hsession watchKey (keepsFeeding_insert key' uri)
  | move kb' client key' uri =>
    have htaken : (h.takeStranded kb' client key').Inv :=
      @Inv.apply h hinv (.take kb' client key') trivial
    by_cases hsame : kb' = kb ∧ key' = key
    · obtain ⟨rfl, rfl⟩ := hsame
      exact held_enroll fun id husable => hkeeps rfl rfl id husable
    · exact (hheld.takeStranded client hsame).amendWatch htaken hsession (kb', client)
        (keepsFeeding_insert key' uri)
  | take kb' client key' => exact hheld.takeStranded client hkeeps
  | takeLists client =>
    refine hheld.of_places (fun credential id hmem hfeeding hkey => .of_watch hmem hfeeding hkey)
      fun credential st hmem hkey hnow => ?_
    refine .of_stranded (Assoc.mem_mapVal.mpr ⟨st, hmem, rfl⟩) ?_ ?_
    · split <;> exact hkey
    · split <;> exact hnow
  | watchList watchKey => exact hheld.amendWatch hinv hsession watchKey keepsFeeding_list
  | unsubscribe kb' key' => exact hheld.unsubscribe hinv hkeeps
  | prune => exact hheld.pruneStranded
  | opened id =>
    refine hheld.setWatch fun hfeeding hkey => ⟨?_, hkey⟩
    obtain ⟨halive, hcancelled, -⟩ := KbWatch.feeding_iff.mp hfeeding
    exact KbWatch.feeding_iff.mpr ⟨halive, hcancelled, Or.inl hallowed.2⟩
  | refused id status =>
    by_cases hstatus : status = 401
    · cases hstatus
      refine hheld.setWatch fun hfeeding hkey => ⟨?_, hkey⟩
      obtain ⟨halive, hcancelled, -⟩ := KbWatch.feeding_iff.mp hfeeding
      exact KbWatch.feeding_iff.mpr ⟨halive, hcancelled, Or.inr ⟨rfl, rfl⟩⟩
    · -- another watch holds it, or it is stranded
      refine hheld.of_places (fun credential id' hmem hfeeding hkey => ?_)
        fun credential st hmem hkey hnow => .of_stranded hmem hkey hnow
      by_cases hid : id' = id
      · cases hid
        exact absurd (congrArg Prod.fst (hinv.named _ id hmem)) (hkeeps hstatus hkey)
      · refine Held.of_watch hmem ?_ ?_
        · simp only [Effect.apply, setWatch_of_ne hid]
          exact hfeeding
        · simp only [Effect.apply, setWatch_of_ne hid]
          exact hkey
  | left id =>
    refine hheld.setWatch_of_not_feeding ?_
    obtain ⟨-, -, hcancelled | hcancelled | htransport⟩ := hallowed
    · rw [Bool.eq_false_iff, ne_eq, KbWatch.feeding_iff, hcancelled]
      simp
    · rw [hsession] at hcancelled
      cases hcancelled
    · have hopen : h.transport = true := hlive.2
      rw [hopen] at htransport
      cases htransport
  | strand id => exact hheld.strand hinv hallowed.2.1
  | clear id =>
    refine hheld.setWatch_of_not_feeding ?_
    obtain ⟨-, ⟨hforward, hlink⟩ | hforward⟩ := hallowed
    · rw [Bool.eq_false_iff, ne_eq, KbWatch.feeding_iff, hforward]
      rintro ⟨-, -, hforward | ⟨-, hrefused⟩⟩
      · cases hforward
      · rw [hrefused] at hlink
        cases hlink
    · exact not_feeding (by simp [hforward]) (by simp [hforward])
  | forget id => exact hheld.forget hallowed.2
  | done id =>
    refine hheld.setWatch_of_not_feeding ?_
    exact not_feeding (by simp [hallowed.2]) (by simp [hallowed.2])
  | giveUp => cases hlive.1
  | shutdown => cases hlive.cancelled
  | closeTransport => cases hlive.2
  | tick elapsed =>
    refine hheld.of_places (fun credential id hmem hfeeding hkey => .of_watch hmem hfeeding hkey)
      fun credential st hmem hkey hnow => .of_stranded hmem hkey ?_
    by_contra hexpired
    exact hkeeps credential st hmem hkey ⟨hnow, Nat.not_lt.mp hexpired⟩

theorem Deliverable.of_effects {es : List Effect} (hes : Effects h es h') (hlive : h'.Deliverable) :
    h.Deliverable := by
  obtain ⟨hgone, hsession⟩ := stillDeliverable_iff.mp hlive.1
  obtain ⟨hgone', hsession', htransport⟩ := hes.flags
  exact ⟨stillDeliverable_iff.mpr ⟨hgone' hgone, hsession' hsession⟩, htransport hlive.2⟩

/-- Effects that each keep the key, as long as `J` holds of what they start from. -/
theorem Held.effects {J : Holdings → Prop} {es : List Effect} (hes : Effects h es h') (hinv : h.Inv)
    (hlive : h'.Deliverable) (hJ : J h) (hkeeps : ∀ e ∈ es, ∀ h, J h → e.Keeps h kb key)
    (hnext : ∀ e ∈ es, ∀ h, h.Inv → J h → J (e.apply h)) (hheld : h.Held kb key) : h'.Held kb key := by
  induction hes with
  | nil => exact hheld
  | @cons h h' e es hallowed hes ih =>
    refine ih (hinv.apply hallowed) hlive (hnext e List.mem_cons_self h hinv hJ)
      (fun e he => hkeeps e (List.mem_cons_of_mem _ he)) (fun e he => hnext e (List.mem_cons_of_mem _ he)) ?_
    exact hheld.apply hinv hallowed (hlive.of_effects hes) (hkeeps e List.mem_cons_self h hJ)

/-- The watches of the credential that a re-home would be handed back are live. -/
def Landing (client : Credential) (kbs : Text → Prop) (h : Holdings) : Prop :=
  ∀ kb, kbs kb → ∀ id, h.usable (kb, client) = some id → (h.watches id).feeding = true

theorem Landing.amendWatch {client : Credential} {kbs : Text → Prop} (hlanding : Landing client kbs h)
    (hinv : h.Inv) (watchKey : WatchKey) {f : KbWatch → KbWatch}
    (hf : ∀ w, (f w).alive = w.alive ∧ (f w).cancelled = w.cancelled ∧ (f w).feeding = w.feeding) :
    Landing client kbs (h.amendWatch watchKey f) := by
  intro kb hkb id husable
  rcases h.amendWatch_cases watchKey f with ⟨id', -, heq⟩ | ⟨-, heq⟩
  · rw [heq] at husable ⊢
    obtain ⟨hmem, halive, hcancelled, hsession⟩ := usable_eq_some.mp husable
    by_cases hid : id = id'
    · cases hid
      obtain ⟨halive', hcancelled', hfeeding'⟩ := hf (h.watches id)
      rw [setWatch_self] at halive hcancelled ⊢
      rw [halive'] at halive
      rw [hcancelled'] at hcancelled
      rw [hfeeding']
      exact hlanding kb hkb id (usable_eq_some.mpr ⟨hmem, halive, hcancelled, hsession⟩)
    · rw [setWatch_of_ne hid] at halive hcancelled ⊢
      exact hlanding kb hkb id (usable_eq_some.mpr ⟨hmem, halive, hcancelled, hsession⟩)
  · rw [heq] at husable ⊢
    obtain ⟨hmem, halive, hcancelled, hsession⟩ := usable_eq_some.mp husable
    rcases Assoc.mem_insert.mp hmem with ⟨hold, -⟩ | hnew
    · have hid : id ≠ h.started := (hinv.started _ id hold).ne
      simp only [setWatch_of_ne hid] at halive hcancelled ⊢
      exact hlanding kb hkb id (usable_eq_some.mpr ⟨hold, halive, hcancelled, hsession⟩)
    · cases hnew
      simp only [setWatch_self]
      exact (hf _).2.2

/-- What a re-home does with watches leaves those it is handed back live. -/
theorem Landing.apply {client : Credential} {kbs : Text → Prop} (hlanding : Landing client kbs h)
    (hinv : h.Inv) {e : Effect}
    (he : (∃ kb key uri, e = .move kb client key uri) ∨ (∃ kb key, e = .take kb client key) ∨
      e = .takeLists client ∨ (∃ kb, e = .watchList (kb, client)) ∨ e = .prune) :
    Landing client kbs (e.apply h) := by
  rcases he with ⟨kb, key, uri, rfl⟩ | ⟨kb, key, rfl⟩ | rfl | ⟨kb, rfl⟩ | rfl
  · have htaken : (h.takeStranded kb client key).Inv := @Inv.apply h hinv (.take kb client key) trivial
    have hlanding' : Landing client kbs (h.takeStranded kb client key) := hlanding
    exact hlanding'.amendWatch htaken (kb, client) fun w => ⟨rfl, rfl, rfl⟩
  · exact hlanding
  · exact hlanding
  · exact hlanding.amendWatch hinv (kb, client) fun w => ⟨rfl, rfl, rfl⟩
  · exact hlanding

end Holdings

-- ---------------------------------------------------------------------------
-- What a step lets go
-- ---------------------------------------------------------------------------

/-- A stranded key expires within some time. -/
def Holdings.Expires (h : Holdings) (kb key : Text) (elapsed : Nat) : Prop :=
  ∃ credential st, ((kb, credential), st) ∈ h.stranded ∧ st.keys.contains key = true ∧
    h.now < st.expires ∧ st.expires ≤ h.now + elapsed

/-- Why a key may cease to be held: it is unsubscribed, the events route refuses a watch that holds it
for another reason than an expired credential, the new credential may not list it, or it has been
stranded for too long. -/
def State.LetsGo (s : State) (kb key : Text) : Action → Prop
  | .unsubscribe kb' key' => kb' = kb ∧ key' = key
  | .streamRefused id status => status ≠ 401 ∧ (s.watches id).watchKey.1 = kb ∧
      (s.watches id).keys.contains key = true
  | .commit i => ∃ task ∈ s.rehomes[i]?, (kb, key, .drop) ∈ task.verdicts
  | .tick elapsed | .wake _ elapsed => s.Expires kb key elapsed
  | _ => False

/-- A re-home that ends moves no key onto a watch that is being torn down: one that the events route
refused and whose keys are dropped or have already been stranded. -/
def State.Lands (s : State) : Action → Prop
  | .commit i => ∀ task kb key, s.rehomes[i]? = some task → (kb, key, .move) ∈ task.verdicts →
      ∀ id, s.usable (kb, task.client) = some id → (s.watches id).feeding = true
  | _ => True

theorem Held.step {s s' : State} {a : Action} {kb key : Text} (hstep : s.step a = some s') (hinv : s.Inv)
    (hlive : s'.Deliverable) (hlands : s.Lands a) (hkept : ¬ s.LetsGo kb key a) (hheld : s.Held kb key) :
    s'.Held kb key := by
  cases step_moves hstep with
  | @unsubscribe kb' key' =>
    exact Holdings.Held.apply (e := .unsubscribe kb' key') hheld hinv trivial hlive hkept
  | @streamRefused id status hid hrunning hstatus =>
    refine Holdings.Held.apply (e := .refused id status) hheld hinv ⟨hid, hrunning, hstatus⟩ hlive ?_
    exact fun hother hkey hkb => hkept ⟨hother, hkb, hkey⟩
  | @tick elapsed =>
    refine Holdings.Held.apply (e := .tick elapsed) hheld hinv trivial hlive ?_
    exact fun credential st hmem hkey hexpires => hkept ⟨credential, st, hmem, hkey, hexpires⟩
  | @wake i later hkeeper =>
    dsimp only at hlive ⊢
    rw [standDownIfIdle_toHoldings] at hlive ⊢
    refine hheld.pruneStranded.apply (@Holdings.Inv.apply _ hinv .prune trivial) trivial hlive ?_
    intro credential st hmem hkey hexpires
    exact hkept ⟨credential, st, (Assoc.mem_retain.mp hmem).1, hkey, hexpires⟩
  | @commit i task htask hdone =>
    obtain ⟨es, hes, hform⟩ := commit_effects { s with rehomes := s.rehomes.eraseIdx i } task
    refine Holdings.Held.effects
      (J := Holdings.Landing task.client fun kb => ∃ key, (kb, key, .move) ∈ task.verdicts)
      hes hinv hlive ?_ ?_ ?_ hheld
    · rintro kb' ⟨key', hmem⟩ id husable
      exact hlands task kb' key' htask hmem id husable
    · intro e he h hlanding
      rcases hform e he with ⟨kb', key', uri, rfl, hmem⟩ | ⟨kb', key', rfl, hmem⟩ | rfl | ⟨kb', rfl⟩ | rfl
      · rintro rfl rfl
        exact hlanding kb' ⟨key', hmem⟩
      · rintro ⟨rfl, rfl⟩
        exact hkept ⟨task, htask, hmem⟩
      · trivial
      · trivial
      · trivial
    · intro e he h hinv hlanding
      refine hlanding.apply hinv ?_
      rcases hform e he with ⟨kb', key', uri, rfl, -⟩ | ⟨kb', key', rfl, -⟩ | rfl | ⟨kb', rfl⟩ | rfl
      · exact Or.inl ⟨kb', key', uri, rfl⟩
      · exact Or.inr (Or.inl ⟨kb', key', rfl⟩)
      · exact Or.inr (Or.inr (Or.inl rfl))
      · exact Or.inr (Or.inr (Or.inr (Or.inl ⟨kb', rfl⟩)))
      · exact Or.inr (Or.inr (Or.inr (Or.inr rfl)))
  | _ =>
    -- the other steps have no effect that depends on where the key is
    obtain ⟨es, hes, hfrom⟩ := step_effects hstep
    refine Holdings.Held.effects (J := fun _ => True) hes hinv hlive trivial ?_ (fun _ _ _ _ _ => trivial) hheld
    intro e he h _
    have horigin := hfrom e he
    cases e with
    | unsubscribe kb' key' => cases horigin
    | take kb' client key' =>
      obtain ⟨i, task, heq, -⟩ := horigin
      cases heq
    | move kb' client key' uri =>
      obtain ⟨i, task, heq, -⟩ := horigin
      cases heq
    | refused id status => cases horigin
    | tick elapsed =>
      rcases horigin with heq | ⟨i, heq⟩
      · cases heq
      · cases heq
    | _ => trivial

end Subscriptions

end Mcp
