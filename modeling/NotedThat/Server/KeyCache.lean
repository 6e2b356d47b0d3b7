-- SUMMARY: The issuer is asked for its keys at a limited rate, and tokens are judged by keys it has published, none of them stale.
import NotedThat.Server.Oidc

/-!
# The cached keys

However the verifications interleave, and whoever goes away: one fetch is under way at a time, and the
next begins no sooner than an interval after it. A verification looks up its key among those that the
issuer published last, as far as it could be asked, and refuses an unknown key only then.
-/

namespace Oidc

open Traces

variable {K J T : Type}

/-! ## What happened -/

/-- When a fetch ended. -/
def Event.endedAt : Event K J T → Option Nat
  | .stored _ _ at_ => some at_
  | .failed _ at_ => some at_
  | _ => none

def Event.storedKeys : Event K J T → Option (List (Jwk J))
  | .stored _ jwks _ => some jwks
  | _ => none

def Event.isStart : Event K J T → Bool
  | .fetchStarted _ _ => true
  | _ => false

def Event.isAbandoned : Event K J T → Bool
  | .abandoned _ => true
  | _ => false

/-- When the keys were last fetched, or when that failed. -/
def lastFetch (start : Nat) (events : List (Event K J T)) : Nat := (events.filterMap Event.endedAt).getLastD start

/-- The set that was fetched last. -/
def published (jwks : List (Jwk J)) (events : List (Event K J T)) : List (Jwk J) :=
  (events.filterMap Event.storedKeys).getLastD jwks

def starts (events : List (Event K J T)) : Nat := events.countP Event.isStart

def ends (events : List (Event K J T)) : Nat := (events.filterMap Event.endedAt).length

def abandons (events : List (Event K J T)) : Nat := events.countP Event.isAbandoned

/-- An event that is no part of a fetch. -/
def Event.IsQuiet (e : Event K J T) : Prop :=
  (e.endedAt = none ∧ e.storedKeys = none) ∧ e.isStart = false ∧ e.isAbandoned = false

/-! ## The tasks -/

/-- The task has the lock. -/
def Stage.holds : Stage K J → Bool
  | .locked _ | .fetching _ | .fetched _ _ | .failed _ _ | .releasing _ => true
  | _ => false

/-- The task has asked the issuer and has not noted the outcome. -/
def Stage.fetches : Stage K J → Bool
  | .fetching _ | .fetched _ _ | .failed _ _ => true
  | _ => false

/-- The header of a verification, which its token has. -/
def Verification.Proper (crate : JsonWebToken K J) (v : Verification) : Prop :=
  crate.decodeHeader v.token = some v.header ∧ v.header.alg ∈ acceptedAlgorithms

/-- What a task knows, of the keys, which were fetched at `last`, and of what happened. -/
def Stage.Ok (crate : JsonWebToken K J) (events : List (Event K J T)) (keys : List (CachedKey K)) (last now : Nat)
    (t : T) : Stage K J → Prop
  | .idle => True
  | .checkingAge token header => crate.decodeHeader token = some header ∧ header.alg ∈ acceptedAlgorithms
  | .checkingKey v => v.Proper crate ∧ v.began ≤ now ∧ v.began ≤ last + maxKeyAge
  | .waiting v | .locked v => v.Proper crate ∧ v.began ≤ now
  | .fetching v | .fetched v _ => v.Proper crate ∧ v.began ≤ now ∧ last + minRefetchInterval ≤ now
  | .failed v at_ => v.Proper crate ∧ v.began ≤ at_ ∧ last + minRefetchInterval ≤ at_ ∧ at_ ≤ now
  | .releasing v => v.Proper crate ∧ v.began ≤ now ∧ v.began < last + minRefetchInterval
  | .looking v => v.Proper crate ∧ v.began ≤ now ∧ v.began ≤ last + maxKeyAge ∧
      (lookupIn keys v.header.kid = none → v.began < last + minRefetchInterval)
  | .decoding v found => v.Proper crate ∧ .looked t v found ∈ events

section

variable {crate : JsonWebToken K J} {events events' : List (Event K J T)} {keys keys' : List (CachedKey K)}
  {last last' now now' : Nat} {t : T} {stage : Stage K J}

theorem Stage.Ok.mono (h : stage.Ok crate events keys last now t) (hevents : events ⊆ events') (hnow : now ≤ now') :
    stage.Ok crate events' keys last now' t := by
  cases stage with
  | idle => trivial
  | checkingAge => exact h
  | checkingKey => exact ⟨h.1, h.2.1.trans hnow, h.2.2⟩
  | waiting => exact ⟨h.1, h.2.trans hnow⟩
  | locked => exact ⟨h.1, h.2.trans hnow⟩
  | fetching => exact ⟨h.1, h.2.1.trans hnow, h.2.2.trans hnow⟩
  | fetched => exact ⟨h.1, h.2.1.trans hnow, h.2.2.trans hnow⟩
  | failed => exact ⟨h.1, h.2.1, h.2.2.1, h.2.2.2.trans hnow⟩
  | releasing => exact ⟨h.1, h.2.1.trans hnow, h.2.2⟩
  | looking => exact ⟨h.1, h.2.1.trans hnow, h.2.2⟩
  | decoding => exact ⟨h.1, hevents h.2⟩

/-- Somebody else has fetched the keys, or failed to. -/
theorem Stage.Ok.refetched (h : stage.Ok crate events keys last now t) (hholds : stage.holds = false)
    (hlast : last ≤ last') (hkeys : keys' = keys ∨ now ≤ last') : stage.Ok crate events keys' last' now t := by
  cases stage with
  | idle => trivial
  | checkingAge => exact h
  | checkingKey => exact ⟨h.1, h.2.1, by have := h.2.2; omega⟩
  | waiting => exact h
  | looking v =>
    obtain ⟨hproper, hbegan, hage, hfound⟩ := h
    refine ⟨hproper, hbegan, by omega, fun hnone => ?_⟩
    rcases hkeys with rfl | hnow
    · have := hfound hnone
      omega
    · have : 0 < minRefetchInterval := by decide
      omega
  | decoding => exact h
  | locked => cases hholds
  | fetching => cases hholds
  | fetched => cases hholds
  | failed => cases hholds
  | releasing => cases hholds

end

/-! ## The invariant -/

section

variable [DecidableEq T] {crate : JsonWebToken K J} {settings : OidcSettings} {jwks : List (Jwk J)} {start : Nat}
  {events : List (Event K J T)} {e : Event K J T} {s s' : State K J T} {t : T} {stage : Stage K J}

structure Inv (crate : JsonWebToken K J) (jwks : List (Jwk J)) (start : Nat) (events : List (Event K J T))
    (s : State K J T) : Prop where
  keys : s.cache.keys = cacheKeys crate (published jwks events)
  fetchedAt : s.cache.fetchedAt = some (lastFetch start events)
  clock : lastFetch start events ≤ s.now
  rate : start + ends events * minRefetchInterval ≤ lastFetch start events
  stamps : ∀ e ∈ events, ∀ at_, e.endedAt = some at_ → at_ ≤ lastFetch start events
  busy : ∀ t, (s.stage t).fetches = true → starts events = ends events + abandons events + 1
  still : (∀ t, (s.stage t).fetches = false) → starts events = ends events + abandons events
  holder : ∀ t, (s.stage t).holds = true ↔ s.refetch = some t
  stages : ∀ t, (s.stage t).Ok crate events s.cache.keys (lastFetch start events) s.now t

omit [DecidableEq T] in
/-- An event that ends no fetch. -/
theorem unended_append (start : Nat) (jwks : List (Jwk J)) (events : List (Event K J T))
    (h : e.endedAt = none ∧ e.storedKeys = none) : lastFetch start (events ++ [e]) = lastFetch start events ∧
      published jwks (events ++ [e]) = published jwks events ∧ Oidc.ends (events ++ [e]) = Oidc.ends events := by
  simp [lastFetch, published, Oidc.ends, h.1, h.2]

omit [DecidableEq T] in
theorem starts_append (events : List (Event K J T)) (e : Event K J T) :
    starts (events ++ [e]) = starts events + if e.isStart then 1 else 0 := by
  rw [starts, starts, List.countP_append, List.countP_singleton]

omit [DecidableEq T] in
theorem abandons_append (events : List (Event K J T)) (e : Event K J T) :
    abandons (events ++ [e]) = abandons events + if e.isAbandoned then 1 else 0 := by
  rw [abandons, abandons, List.countP_append, List.countP_singleton]

theorem set_self (s : State K J T) (t : T) (stage : Stage K J) : (s.set t stage).stage t = stage :=
  Function.update_self _ _ _

theorem set_other (s : State K J T) {t u : T} (hu : u ≠ t) (stage : Stage K J) :
    (s.set t stage).stage u = s.stage u := Function.update_of_ne hu _ _

/-- Who holds the lock after a step of one task. -/
theorem holder_set {refetch : Option T} (h : ∀ u, (s.stage u).holds = true ↔ s.refetch = some u)
    (hholder : stage.holds = true ↔ refetch = some t)
    (hothers : ∀ u, u ≠ t → (refetch = some u ↔ s.refetch = some u)) (u : T) :
    ((s.set t stage).stage u).holds = true ↔ refetch = some u := by
  by_cases hu : u = t
  · subst hu
    rw [set_self]
    exact hholder
  · rw [set_other s hu, h u, hothers u hu]

/-- A step of one task that ends no fetch. -/
theorem Inv.unended {refetch : Option T} (h : Inv crate jwks start events s)
    (hunended : e.endedAt = none ∧ e.storedKeys = none)
    (hok : stage.Ok crate (events ++ [e]) s.cache.keys (lastFetch start events) s.now t)
    (hholder : stage.holds = true ↔ refetch = some t)
    (hothers : ∀ u, u ≠ t → (refetch = some u ↔ s.refetch = some u))
    (hbusy : ∀ u, ((s.set t stage).stage u).fetches = true →
      starts (events ++ [e]) = Oidc.ends events + abandons (events ++ [e]) + 1)
    (hstill : (∀ u, ((s.set t stage).stage u).fetches = false) →
      starts (events ++ [e]) = Oidc.ends events + abandons (events ++ [e])) :
    Inv crate jwks start (events ++ [e]) { s.set t stage with refetch := refetch } := by
  obtain ⟨hlast, hpublished, hends⟩ := unended_append start jwks events hunended
  refine ⟨?_, ?_, ?_, ?_, fun e' hmem at_ hended => ?_, ?_, ?_, ?_, fun u => ?_⟩
  · rw [hpublished]; exact h.keys
  · rw [hlast]; exact h.fetchedAt
  · rw [hlast]; exact h.clock
  · rw [hlast, hends]; exact h.rate
  · rw [hlast]
    rcases List.mem_append.mp hmem with hmem | hmem
    · exact h.stamps e' hmem at_ hended
    · rw [List.mem_singleton.mp hmem, hunended.1] at hended
      cases hended
  · rw [hends]; exact hbusy
  · rw [hends]; exact hstill
  · exact holder_set h.holder hholder hothers
  · rw [hlast]
    by_cases hu : u = t
    · subst hu
      show ((s.set u stage).stage u).Ok _ _ _ _ _ _
      rw [set_self]
      exact hok
    · show ((s.set t stage).stage u).Ok _ _ _ _ _ _
      rw [set_other s hu]
      exact (h.stages u).mono (List.subset_append_left _ _) (Nat.le_refl _)

omit [DecidableEq T] in
theorem quiet_step : (.step : Event K J T).IsQuiet := ⟨⟨rfl, rfl⟩, rfl, rfl⟩

/-- A step of one task that is no part of a fetch. -/
theorem Inv.quiet {refetch : Option T} (h : Inv crate jwks start events s) (hquiet : e.IsQuiet)
    (hok : stage.Ok crate (events ++ [e]) s.cache.keys (lastFetch start events) s.now t)
    (hfetches : stage.fetches = (s.stage t).fetches) (hholder : stage.holds = true ↔ refetch = some t)
    (hothers : ∀ u, u ≠ t → (refetch = some u ↔ s.refetch = some u)) :
    Inv crate jwks start (events ++ [e]) { s.set t stage with refetch := refetch } := by
  obtain ⟨hunended, hstart, habandoned⟩ := hquiet
  have hsame (u : T) : ((s.set t stage).stage u).fetches = (s.stage u).fetches := by
    by_cases hu : u = t
    · subst hu
      rw [set_self, hfetches]
    · rw [set_other s hu]
  refine h.unended hunended hok hholder hothers (fun u hu => ?_) fun hnone => ?_
  · rw [starts_append, abandons_append, hstart, habandoned]
    exact h.busy u ((hsame u).symm.trans hu)
  · rw [starts_append, abandons_append, hstart, habandoned]
    exact h.still fun u => (hsame u).symm.trans (hnone u)

/-- A step of one task that leaves the lock where it is. -/
theorem Inv.free {old : Stage K J} (h : Inv crate jwks start events s) (hquiet : e.IsQuiet) (hstage : s.stage t = old)
    (hok : stage.Ok crate (events ++ [e]) s.cache.keys (lastFetch start events) s.now t)
    (hfetches : stage.fetches = old.fetches) (hholds : stage.holds = old.holds) :
    Inv crate jwks start (events ++ [e]) (s.set t stage) := by
  subst hstage
  exact h.quiet hquiet hok hfetches (by rw [hholds]; exact h.holder t) fun _ _ => Iff.rfl

omit [DecidableEq T] in
theorem Inv.stage_ok (h : Inv crate jwks start events s) (hstage : s.stage t = stage) :
    stage.Ok crate events s.cache.keys (lastFetch start events) s.now t :=
  hstage ▸ h.stages t

/-- The task that has the lock frees it without a fetch. -/
theorem Inv.freed {v : Verification} {old : Stage K J} (h : Inv crate jwks start events s) (hstage : s.stage t = old)
    (hholds : old.holds = true) (hfetches : old.fetches = false)
    (hok : (Stage.looking v : Stage K J).Ok crate (events ++ [.step]) s.cache.keys (lastFetch start events) s.now t) :
    Inv crate jwks start (events ++ [.step]) { s.set t (.looking v) with refetch := none } := by
  subst hstage
  refine h.quiet quiet_step hok (by rw [hfetches]; rfl) (by simp [Stage.holds]) fun u hu => ?_
  rw [(h.holder t).mp hholds]
  simp [Ne.symm hu]

omit [DecidableEq T] in
/-- Who fetches has the lock. -/
theorem Stage.holds_of_fetches (h : stage.fetches = true) : stage.holds = true := by
  cases stage <;> first | rfl | cases h

omit [DecidableEq T] in
/-- Then nobody else fetches. -/
theorem Inv.others_rest (h : Inv crate jwks start events s) (ht : (s.stage t).holds = true) {u : T} (hu : u ≠ t) :
    (s.stage u).holds = false ∧ (s.stage u).fetches = false := by
  have hholds : (s.stage u).holds = false := by
    by_contra hother
    have hlock := (h.holder u).mp (by simpa using hother)
    rw [(h.holder t).mp ht] at hlock
    exact hu (Option.some.inj hlock).symm
  refine ⟨hholds, ?_⟩
  by_contra hfetches
  rw [Stage.holds_of_fetches (by simpa using hfetches)] at hholds
  cases hholds

/-- The issuer is asked for its keys. -/
theorem Inv.started {v : Verification} (h : Inv crate jwks start events s) (hstage : s.stage t = .locked v)
    (hage : lastFetch start events + minRefetchInterval ≤ s.now) :
    Inv crate jwks start (events ++ [.fetchStarted t s.now]) (s.set t (.fetching v)) := by
  have hholds : (s.stage t).holds = true := by rw [hstage]; rfl
  have hnone : ∀ u, (s.stage u).fetches = false := by
    intro u
    by_cases hu : u = t
    · rw [hu, hstage]; rfl
    · exact (h.others_rest hholds hu).2
  have hok := h.stage_ok hstage
  refine h.unended ⟨rfl, rfl⟩ ⟨hok.1, hok.2, hage⟩ ?_ (fun _ _ => Iff.rfl) (fun _ _ => ?_) fun hno => ?_
  · rw [← h.holder t, hholds]
    exact Iff.rfl
  · rw [starts_append, abandons_append, h.still hnone]
    rfl
  · have hself := hno t
    rw [set_self] at hself
    cases hself

/-- The request of the task that fetches goes away. -/
theorem Inv.abandoned {v : Verification} (h : Inv crate jwks start events s) (hstage : s.stage t = .fetching v) :
    Inv crate jwks start (events ++ [.abandoned t]) { s.set t .idle with refetch := none } := by
  have hholds : (s.stage t).holds = true := by rw [hstage]; rfl
  refine h.unended ⟨rfl, rfl⟩ trivial (by simp [Stage.holds]) (fun u hu => ?_) (fun u hu => ?_) fun _ => ?_
  · rw [(h.holder t).mp hholds]
    simp [Ne.symm hu]
  · by_cases heq : u = t
    · subst heq
      rw [set_self] at hu
      cases hu
    · rw [set_other s heq, (h.others_rest hholds heq).2] at hu
      cases hu
  · rw [starts_append, abandons_append, h.busy t (by rw [hstage]; rfl)]
    rfl

/-- The outcome of a fetch is noted. -/
theorem Inv.ended {v : Verification} {keys : List (CachedKey K)} {at_ : Nat} (h : Inv crate jwks start events s)
    (hfetches : (s.stage t).fetches = true) (hended : e.endedAt = some at_)
    (hkind : e.isStart = false ∧ e.isAbandoned = false) (hproper : v.Proper crate) (hbegan : v.began ≤ at_)
    (hage : lastFetch start events + minRefetchInterval ≤ at_) (hnow : at_ ≤ s.now)
    (hkeys : keys = cacheKeys crate (published jwks (events ++ [e]))) (hothers : keys = s.cache.keys ∨ s.now ≤ at_) :
    Inv crate jwks start (events ++ [e]) { s.set t (.releasing v) with cache := ⟨keys, some at_⟩ } := by
  have hholds := Stage.holds_of_fetches hfetches
  have hlast : lastFetch start (events ++ [e]) = at_ := by simp [lastFetch, hended]
  have hends : ends (events ++ [e]) = ends events + 1 := by simp [ends, hended]
  have hinterval : 0 < minRefetchInterval := by decide
  have hnone (u : T) : ((s.set t (.releasing v)).stage u).fetches = false := by
    by_cases hu : u = t
    · subst hu
      rw [set_self]
      rfl
    · rw [set_other s hu, (h.others_rest hholds hu).2]
  refine ⟨hkeys, by rw [hlast], by rw [hlast]; exact hnow, ?_, fun e' hmem at' hended' => ?_, fun u hu => ?_,
    fun _ => ?_, ?_, fun u => ?_⟩
  · rw [hlast, hends, Nat.add_one_mul]
    have := h.rate
    omega
  · rw [hlast]
    rcases List.mem_append.mp hmem with hmem | hmem
    · have := h.stamps e' hmem at' hended'
      omega
    · rw [List.mem_singleton.mp hmem, hended] at hended'
      exact (Option.some.inj hended').ge
  · exact absurd hu (by rw [hnone u]; decide)
  · rw [starts_append, abandons_append, hends, hkind.1, hkind.2, h.busy t hfetches]
    simp only [Bool.false_eq_true, if_false]
    omega
  · refine holder_set h.holder ?_ fun _ _ => Iff.rfl
    show _ ↔ s.refetch = some t
    rw [← h.holder t, hholds]
    exact Iff.rfl
  · rw [hlast]
    by_cases hu : u = t
    · subst hu
      show ((s.set u (.releasing v)).stage u).Ok _ _ _ _ _ _
      rw [set_self]
      exact ⟨hproper, hbegan.trans hnow, by omega⟩
    · show ((s.set t (.releasing v)).stage u).Ok _ _ _ _ _ _
      rw [set_other s hu]
      refine ((h.stages u).mono (List.subset_append_left _ _) (Nat.le_refl _)).refetched
        (h.others_rest hholds hu).1 (by omega) hothers

omit [DecidableEq T] in
theorem Inv.isOlder (h : Inv crate jwks start events s) (age : Nat) :
    s.cache.isOlder s.now age = decide (age < s.now - lastFetch start events) := by
  rw [KeyCache.isOlder, h.fetchedAt]

omit [DecidableEq T] in
theorem Inv.isYounger (h : Inv crate jwks start events s) (age : Nat) :
    s.cache.isYounger s.now age = decide (s.now - lastFetch start events < age) := by
  rw [KeyCache.isYounger, h.fetchedAt]

omit [DecidableEq T] in
/-- No task takes a step, and time passes. -/
theorem Inv.tick {now : Nat} (h : Inv crate jwks start events s) (hquiet : e.IsQuiet) (hnow : s.now ≤ now) :
    Inv crate jwks start (events ++ [e]) { s with now := now } := by
  obtain ⟨hunended, hstart, habandoned⟩ := hquiet
  obtain ⟨hlast, hpublished, hends⟩ := unended_append start jwks events hunended
  have hstarts : starts (events ++ [e]) = starts events := by rw [starts_append, hstart]; rfl
  have habandons : abandons (events ++ [e]) = abandons events := by rw [abandons_append, habandoned]; rfl
  refine ⟨?_, ?_, ?_, ?_, fun e' hmem at_ hended => ?_, ?_, ?_, h.holder, fun u => ?_⟩
  · rw [hpublished]; exact h.keys
  · rw [hlast]; exact h.fetchedAt
  · rw [hlast]; exact h.clock.trans hnow
  · rw [hlast, hends]; exact h.rate
  · rw [hlast]
    rcases List.mem_append.mp hmem with hmem | hmem
    · exact h.stamps e' hmem at_ hended
    · rw [List.mem_singleton.mp hmem, hunended.1] at hended
      cases hended
  · rw [hstarts, hends, habandons]; exact h.busy
  · rw [hstarts, hends, habandons]; exact h.still
  · rw [hlast]
    exact (h.stages u).mono (List.subset_append_left _ _) hnow

theorem Inv.step (h : Inv crate jwks start events s) (hstep : Step crate settings s e s') :
    Inv crate jwks start (events ++ [e]) s' := by
  have hclock := h.clock
  cases hstep with
  | tick now hle => exact h.tick quiet_step hle
  | malformed => exact h.tick ⟨⟨rfl, rfl⟩, rfl, rfl⟩ (Nat.le_refl _)
  | algorithm => exact h.tick ⟨⟨rfl, rfl⟩, rfl, rfl⟩ (Nat.le_refl _)
  | @verify t token header hstage hheader halg =>
    exact h.free quiet_step hstage ⟨hheader, halg⟩ rfl rfl
  | @old t token header hstage hold =>
    have hok := h.stage_ok hstage
    exact h.free quiet_step hstage ⟨hok, Nat.le_refl _⟩ rfl rfl
  | @young t token header hstage hyoung =>
    have hok := h.stage_ok hstage
    rw [h.isOlder, decide_eq_false_iff_not] at hyoung
    exact h.free quiet_step hstage ⟨hok, Nat.le_refl _, by show s.now ≤ _; omega⟩ rfl rfl
  | @hasKey t v key hstage hfound =>
    have hok := h.stage_ok hstage
    refine h.free quiet_step hstage ⟨hok.1, hok.2.1, hok.2.2, fun hnone => ?_⟩ rfl rfl
    rw [hfound] at hnone
    cases hnone
  | @hasNoKey t v hstage hnone =>
    have hok := h.stage_ok hstage
    exact h.free quiet_step hstage ⟨hok.1, hok.2.1⟩ rfl rfl
  | @lock t v hstage hfree =>
    have hok := h.stage_ok hstage
    have hlocked : (Stage.locked v : Stage K J).Ok crate (events ++ [.step]) s.cache.keys (lastFetch start events)
      s.now t := hok
    refine h.quiet quiet_step hlocked (by rw [hstage]; rfl) (by simp [Stage.holds]) fun u hu => ?_
    rw [hfree]
    simp [Ne.symm hu]
  | @recent t v hstage hyoung =>
    have hok := h.stage_ok hstage
    rw [h.isYounger, decide_eq_true_eq] at hyoung
    have hmax : minRefetchInterval ≤ maxKeyAge := by decide
    have hbegan := hok.2
    exact h.freed hstage rfl rfl ⟨hok.1, hbegan, by omega, fun _ => by omega⟩
  | @fetch t v hstage hyoung =>
    rw [h.isYounger, decide_eq_false_iff_not] at hyoung
    exact h.started hstage (by omega)
  | @fetched t v fetched hstage =>
    have hok := h.stage_ok hstage
    exact h.free quiet_step hstage hok rfl rfl
  | @fetchFails t v hstage =>
    have hok := h.stage_ok hstage
    exact h.free quiet_step hstage ⟨hok.1, hok.2.1, hok.2.2, Nat.le_refl _⟩ rfl rfl
  | @store t v stored hstage =>
    have hok := h.stage_ok hstage
    exact h.ended (by rw [hstage]; rfl) rfl ⟨rfl, rfl⟩ hok.1 hok.2.1 hok.2.2 (Nat.le_refl _)
      (by simp [published, Event.storedKeys]) (.inr (Nat.le_refl _))
  | @keep t v at_ hstage =>
    have hok := h.stage_ok hstage
    exact h.ended (by rw [hstage]; rfl) rfl ⟨rfl, rfl⟩ hok.1 hok.2.1 hok.2.2.1 hok.2.2.2
      (by simpa [published, Event.storedKeys] using h.keys) (.inl rfl)
  | @release t v hstage =>
    have hok := h.stage_ok hstage
    have hmax : minRefetchInterval ≤ maxKeyAge := by decide
    have hbegan := hok.2.2
    exact h.freed hstage rfl rfl ⟨hok.1, hok.2.1, by omega, fun _ => hbegan⟩
  | @look t v hstage =>
    have hok := h.stage_ok hstage
    exact h.free ⟨⟨rfl, rfl⟩, rfl, rfl⟩ hstage ⟨hok.1, List.mem_append_right _ (List.mem_singleton_self _)⟩ rfl rfl
  | @unknown t v hstage => exact h.free ⟨⟨rfl, rfl⟩, rfl, rfl⟩ hstage trivial rfl rfl
  | @verified t v key vouched wall hstage =>
    exact h.free ⟨⟨rfl, rfl⟩, rfl, rfl⟩ hstage trivial rfl rfl
  | @rejected t v key rejection wall hstage =>
    exact h.free ⟨⟨rfl, rfl⟩, rfl, rfl⟩ hstage trivial rfl rfl
  | @dropWaiting t v hstage => exact h.free quiet_step hstage trivial rfl rfl
  | @dropFetching t v hstage => exact h.abandoned hstage

/-- The invariant holds along every run. -/
theorem Inv.run (hrun : Run (Step crate settings) (.assemble crate jwks start) events s) :
    Inv crate jwks start events s := by
  refine hrun.invariant ⟨rfl, rfl, Nat.le_refl _, ?_, ?_, ?_, ?_, ?_, fun _ => trivial⟩ fun _ _ _ _ => Inv.step
  · show start + 0 * minRefetchInterval ≤ start
    omega
  · intro e hmem
    cases hmem
  · intro t h
    cases h
  · intro _
    rfl
  · intro t
    simp [State.assemble, Stage.holds]

/-! ## How often the issuer is asked -/

/-- Whatever tokens are sent, by however many requests, of which some go away: no two fetches are under way at
once, each begins an interval or more after every fetch that ended before it, and so of those that end there
is at most one for each interval that has passed. -/
theorem fetches_are_limited (crate : JsonWebToken K J) (settings : OidcSettings) (jwks : List (Jwk J)) (start : Nat)
    (events : List (Event K J T)) (s : State K J T)
    (hrun : Run (Step crate settings) (.assemble crate jwks start) events s) :
    (∀ before after t at_, events = before ++ .fetchStarted t at_ :: after →
      start + minRefetchInterval ≤ at_ ∧
        ∀ e ∈ before, ∀ ended, e.endedAt = some ended → ended + minRefetchInterval ≤ at_) ∧
    starts events ≤ ends events + abandons events + 1 ∧
    start + ends events * minRefetchInterval ≤ s.now := by
  have hinv := Inv.run hrun
  refine ⟨fun before after t at_ hsplit => ?_, ?_, hinv.rate.trans hinv.clock⟩
  · subst hsplit
    obtain ⟨middle, next, hbefore, hstep, -⟩ := hrun.at_event
    have hmiddle := Inv.run hbefore
    cases hstep with
    | fetch hstage hyoung =>
      rw [hmiddle.isYounger, decide_eq_false_iff_not] at hyoung
      have hclock := hmiddle.clock
      have hrate := hmiddle.rate
      refine ⟨by omega, fun e hmem ended hended => ?_⟩
      have := hmiddle.stamps e hmem ended hended
      omega
  · by_cases hbusy : ∃ t, (s.stage t).fetches = true
    · obtain ⟨t, ht⟩ := hbusy
      exact (hinv.busy t ht).le
    · have := hinv.still fun t => by simpa using fun ht => hbusy ⟨t, ht⟩
      omega

/-! ## What a token is judged by -/

omit [DecidableEq T] in
/-- A key that is looked up is a published one, and no shared secret. -/
theorem lookupIn_cacheKeys {kid : Option Text} {key : K} (h : lookupIn (cacheKeys crate jwks) kid = some key) :
    ∃ jwk ∈ jwks, (jwk.algorithm = .RSA ∨ jwk.algorithm = .EllipticCurve) ∧ crate.fromJwk jwk = some key ∧
      (kid = none ∨ jwk.keyId = kid) := by
  have hmem : ∀ cached ∈ cacheKeys crate jwks, ∃ jwk ∈ jwks,
      (jwk.algorithm = .RSA ∨ jwk.algorithm = .EllipticCurve) ∧ crate.fromJwk jwk = some cached.key ∧
        jwk.keyId = cached.kid := by
    intro cached hcached
    obtain ⟨jwk, hjwk, hkey⟩ := List.mem_filterMap.mp hcached
    obtain ⟨hjwk, hkind⟩ := List.mem_filter.mp hjwk
    obtain ⟨usable, husable, rfl⟩ := Option.map_eq_some_iff.mp hkey
    exact ⟨jwk, hjwk, of_decide_eq_true hkind, husable, rfl⟩
  unfold lookupIn at h
  obtain ⟨cached, hfound, rfl⟩ := Option.map_eq_some_iff.mp h
  cases kid with
  | some kid =>
    dsimp only at hfound
    obtain ⟨jwk, hjwk, hkind, husable, hkid⟩ := hmem cached (List.mem_of_find?_eq_some hfound)
    have hsame := List.find?_some hfound
    exact ⟨jwk, hjwk, hkind, husable, .inr (hkid.trans (of_decide_eq_true hsame))⟩
  | none =>
    dsimp only at hfound
    split at hfound
    · obtain ⟨jwk, hjwk, hkind, husable, -⟩ := hmem cached (List.mem_of_mem_head? hfound)
      exact ⟨jwk, hjwk, hkind, husable, .inl rfl⟩
    · cases hfound

omit [DecidableEq T] in
/-- Whoever is vouched for has a name. -/
theorem vouch_subject {claims : Claims} {vouched : Vouched} (h : vouch settings claims = .ok vouched) :
    vouched.identity.subject ≠ [] := by
  unfold vouch at h
  cases hsubject : subject settings claims with
  | none => simp [hsubject] at h
  | some name =>
    have hname : name ≠ [] := by
      unfold subject at hsubject
      split at hsubject
      · split at hsubject
        · cases hsubject
        · next hne => exact Option.some.inj hsubject ▸ hne
      · cases hsubject
    simp only [hsubject] at h
    cases hdeadline : validUntil claims with
    | error e => rw [hdeadline] at h; cases h
    | ok deadline =>
      rw [hdeadline] at h
      cases h
      exact hname

/-- A verification looks up its key in the set that the issuer published last, when the issuer was last asked
within the age that keys may have; and if none is found, within the shortest interval between two fetches. A
token is accepted only with a key of that set, never a symmetric one, that verified it for the configured
issuer and audiences. -/
theorem tokens_are_judged_by_published_keys (crate : JsonWebToken K J) (settings : OidcSettings)
    (jwks : List (Jwk J)) (start : Nat) (events : List (Event K J T)) (s : State K J T)
    (hrun : Run (Step crate settings) (.assemble crate jwks start) events s) :
    (∀ before after t v found, events = before ++ .looked t v found :: after →
      found = lookupIn (cacheKeys crate (published jwks before)) v.header.kid ∧
        v.began ≤ lastFetch start before + maxKeyAge ∧
        (found = none → v.began < lastFetch start before + minRefetchInterval)) ∧
    (∀ before after t v key vouched, events = before ++ .verified t v key vouched :: after →
      v.Proper crate ∧ vouched.identity.subject ≠ [] ∧
        (∃ first second, before = first ++ .looked t v (some key) :: second ∧
          ∃ jwk ∈ published jwks first, (jwk.algorithm = .RSA ∨ jwk.algorithm = .EllipticCurve) ∧
            crate.fromJwk jwk = some key ∧ (v.header.kid = none ∨ jwk.keyId = v.header.kid)) ∧
        ∃ wall claims, crate.decode wall v.token key (validation settings v.header.alg) = .ok claims ∧
          vouch settings claims = .ok vouched) := by
  have hlooked : ∀ before after t v found, events = before ++ .looked t v found :: after →
      found = lookupIn (cacheKeys crate (published jwks before)) v.header.kid ∧
        v.began ≤ lastFetch start before + maxKeyAge ∧
        (found = none → v.began < lastFetch start before + minRefetchInterval) := by
    rintro before after t v found rfl
    obtain ⟨middle, next, hbefore, hstep, -⟩ := hrun.at_event
    have hmiddle := Inv.run hbefore
    cases hstep with
    | look hstage =>
      have hok := hmiddle.stages t
      rw [hstage] at hok
      exact ⟨by rw [hmiddle.keys], hok.2.2.1, hok.2.2.2⟩
  refine ⟨hlooked, ?_⟩
  rintro before after t v key vouched rfl
  obtain ⟨middle, next, hbefore, hstep, -⟩ := hrun.at_event
  have hmiddle := Inv.run hbefore
  cases hstep with
  | verified wall hstage hjudge =>
    have hok := hmiddle.stages t
    rw [hstage] at hok
    obtain ⟨first, second, rfl⟩ := List.append_of_mem hok.2
    obtain ⟨hfound, -⟩ := hlooked first (second ++ .verified t v key vouched :: after) t v (some key) (by simp)
    unfold judge at hjudge
    cases hdecode : crate.decode wall v.token key (validation settings v.header.alg) with
    | error e => simp [hdecode] at hjudge
    | ok claims =>
      simp only [hdecode] at hjudge
      exact ⟨hok.1, vouch_subject hjudge, ⟨first, second, rfl, lookupIn_cacheKeys hfound.symm⟩,
        wall, claims, hdecode, hjudge⟩

end

/-! ## A key that the issuer has just begun to publish -/

def rotatedKey : Jwk Nat := ⟨some "2026".toList, .RSA, 7⟩

/-- A token that is signed with the key of the year. -/
@[irreducible] def rotatedToken : Text :=
  ("eyJhbGciOiJSUzI1NiIsImtpZCI6IjIwMjYifQ." ++
    "eyJpc3MiOiJodHRwczovL2lkLmV4YW1wbGUiLCJhdWQiOiJub3RlZHRoYXQiLCJzdWIiOiJhbGljZSIsImV4cCI6MTAwfQ." ++
    "c2lnbmVkIGJ5IDc").toList

def rotatedClaims : Claims :=
  [("iss".toList, .string "https://id.example".toList), ("aud".toList, .string "notedthat".toList),
    ("sub".toList, .string "alice".toList), ("exp".toList, .number (.posInt 100))]

/-- The crate with this token for the only one: its signature, algorithm, issuer, audience and expiry
are checked. -/
def rotatedCrate : JsonWebToken Nat Nat where
  decodeHeader token := if token = rotatedToken then some ⟨.RS256, some "2026".toList⟩ else none
  fromJwk jwk := if jwk.algorithm = .RSA then some jwk.rest else none
  decode wall token key validation :=
    if token ≠ rotatedToken ∨ key ≠ 7 then .error .invalidSignature
    else if validation.algorithm ≠ .RS256 then .error .invalidAlgorithm
    else if validation.issuer ≠ "https://id.example".toList then .error .invalidIssuer
    else if "notedthat".toList ∉ validation.audiences then .error .invalidAudience
    else if 100 + validation.leeway < wall then .error .expiredSignature
    else .ok rotatedClaims

def rotatedSettings : OidcSettings where
  issuer := "https://id.example".toList
  audiences := ["notedthat".toList]
  usernameClaim := "preferred_username".toList
  groupsClaim := "groups".toList

theorem rotated_decode : rotatedCrate.decode 0 rotatedToken 7 (validation rotatedSettings .RS256) =
    .ok rotatedClaims := by
  rw [rotatedCrate]
  dsimp only
  rw [if_neg (by simp), if_neg (by decide), if_neg (by decide), if_neg (by decide),
    if_neg (by decide)]

def rotatedVerification : Verification :=
  ⟨rotatedToken, ⟨.RS256, some "2026".toList⟩, minRefetchInterval⟩

def alice : Vouched := ⟨⟨"alice".toList, []⟩, some 161⟩

theorem rotated_judge : judge rotatedCrate rotatedSettings 0 rotatedVerification 7 = .ok alice := by
  simp only [judge, rotatedVerification, rotated_decode]
  decide

def rotatedEvents : List (Event Nat Nat Unit) :=
  [.step, .step, .step, .step, .step, .fetchStarted () minRefetchInterval, .step,
    .stored () [rotatedKey] minRefetchInterval, .step, .looked () rotatedVerification (some 7),
    .verified () rotatedVerification 7 alice]

/-- The token of a new key is verified after one fetch. -/
theorem rotated_run : ∃ s : State Nat Nat Unit, minRefetchInterval ≤ s.now ∧
    Run (Step rotatedCrate rotatedSettings) (.assemble rotatedCrate [] 0) rotatedEvents s := by
  have hstart : Run (Step rotatedCrate rotatedSettings) (.assemble rotatedCrate [] 0) []
      (.assemble rotatedCrate [] 0 : State Nat Nat Unit) := .start
  have hchecked := ((hstart.step (.tick minRefetchInterval (Nat.zero_le _))).step
    (.verify (t := ()) rfl (if_pos rfl) (by decide))).step
    (.young (t := ()) rfl (by decide))
  have hlocked := (hchecked.step (.hasNoKey (t := ()) rfl rfl)).step (.lock (t := ()) rfl rfl)
  have hfetched := (hlocked.step (.fetch (t := ()) rfl (by decide))).step (.fetched (t := ()) [rotatedKey] rfl)
  have hreleased := (hfetched.step (.store (t := ()) rfl)).step (.release (t := ()) rfl)
  have hlooked := hreleased.step (.look (t := ()) rfl)
  exact ⟨_, Nat.le_refl _, hlooked.step (.verified (t := ()) 0 rfl rotated_judge)⟩

theorem fetches_are_limited_rotated : ∃ s : State Nat Nat Unit,
    Run (Step rotatedCrate rotatedSettings) (.assemble rotatedCrate [] 0) rotatedEvents s ∧
      starts rotatedEvents = 1 ∧ 0 + ends rotatedEvents * minRefetchInterval ≤ s.now :=
  have ⟨s, _, hrun⟩ := rotated_run
  ⟨s, hrun, rfl, (fetches_are_limited _ _ _ _ _ _ hrun).2.2⟩

theorem tokens_are_judged_by_published_keys_rotated : ∃ first second,
    rotatedEvents.dropLast = first ++ .looked () rotatedVerification (some 7) :: second ∧
      (∃ jwk ∈ published [] first, jwk.keyId = some "2026".toList ∧
        rotatedCrate.fromJwk jwk = some 7) ∧
      ∃ wall claims, rotatedCrate.decode wall rotatedToken 7 (validation rotatedSettings .RS256) =
        .ok claims ∧ vouch rotatedSettings claims = .ok alice := by
  obtain ⟨s, -, hrun⟩ := rotated_run
  obtain ⟨-, -, ⟨first, second, hsplit, jwk, hjwk, -, husable, hkid⟩, hdecoded⟩ :=
    (tokens_are_judged_by_published_keys _ _ _ _ _ _ hrun).2 rotatedEvents.dropLast [] () _ _ alice rfl
  refine ⟨first, second, hsplit, ⟨jwk, hjwk, ?_, husable⟩, hdecoded⟩
  rcases hkid with hnone | hkid
  · cases hnone
  · exact hkid

end Oidc
