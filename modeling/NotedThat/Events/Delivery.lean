-- SUMMARY: In every interleaving of publishes and subscribers, a stream of the in-memory log delivers its events without a gap until it lags.
import NotedThat.Events.Memory

/-!
# Delivery of the in-memory log

A stream has delivered exactly the events of its knowledge base between the position it started
behind and the position it has reached. It waits only when it has reached the end of the log, and
it ends only by a lag, which reports the position reached.
-/

namespace Events

/-! ## A stream's turns come to an end -/

/-- An upper bound on the turns a subscription makes before it waits, while nothing is published.
A receiver that is not at the end of the channel may still lag once. -/
def Subscription.left (publisher : MemoryPublisher) (sub : Subscription) : Nat :=
  if sub.refilling then publisher.ring.buf.length + 1
  else sub.backlog.length + (publisher.tx.sent.length - sub.rx) +
    if publisher.tx.sent.length ≤ sub.rx then 0 else publisher.ring.buf.length + 2

variable {publisher : MemoryPublisher} {sub sub' : Subscription} {out : Step} {start : Nat}

theorem Subscription.pass_eq {e : Entry} (h : sub.pass e = (out, sub')) :
    sub'.backlog = sub.backlog ∧ sub'.rx = sub.rx ∧ sub'.refilling = sub.refilling := by
  unfold Subscription.pass at h
  split at h
  · cases h
    exact ⟨rfl, rfl, rfl⟩
  · obtain ⟨-, rfl⟩ := Prod.mk.inj h
    exact ⟨rfl, rfl, rfl⟩

theorem Subscription.step_left (hs : sub.step publisher = some (out, sub')) :
    out = .lagged ∨ sub'.left publisher < sub.left publisher := by
  unfold Subscription.step at hs
  split at hs
  · next hrefill =>
    simp only [Subscription.refill, Option.some.injEq] at hs
    split at hs
    · cases hs
      exact .inl rfl
    · cases hs
      have hlen : (publisher.ring.after sub.cursor).length ≤ publisher.ring.buf.length :=
        List.length_filter_le _ _
      right
      simp only [Subscription.left, hrefill, if_true, Channel.subscribe]
      simp
      omega
  · next hrefill =>
    right
    split at hs
    · next e backlog hbacklog =>
      obtain ⟨hb, hr, hf⟩ := Subscription.pass_eq (Option.some.inj hs)
      simp only [Subscription.left, hb, hr, hf, hrefill, hbacklog, List.length_cons]
      simp
    · next hbacklog =>
      unfold Channel.recv at hs
      cases hget : publisher.tx.sent[sub.rx]? with
      | none => simp [hget] at hs
      | some e =>
        simp only [hget] at hs
        have hlt := (List.getElem?_eq_some_iff.mp hget).1
        by_cases hlag : publisher.tx.depth < publisher.tx.sent.length - sub.rx
        · simp only [hlag, if_true, Option.some.injEq, Prod.mk.injEq] at hs
          obtain ⟨-, rfl⟩ := hs
          simp only [Subscription.left, hrefill, if_true, Bool.false_eq_true, if_false,
            if_neg (Nat.not_le.mpr hlt)]
          omega
        · simp only [hlag, if_false, Option.some.injEq] at hs
          obtain ⟨hb, hr, hf⟩ := Subscription.pass_eq hs
          simp only [Subscription.left, hb, hr, hf, hrefill, hbacklog, List.length_nil,
            Bool.false_eq_true, if_false, if_neg (Nat.not_le.mpr hlt)]
          split
          · omega
          · omega

/-! ## Streams -/

/-- What a stream has yielded: the events between its start and its position, and after them, if
it has ended, the lag that reports the position. -/
structure Stream.Sound (publisher : MemoryPublisher) (s : Stream) : Prop where
  running : ∀ sub ∈ s.state, sub.kb = s.kb ∧ sub.Follows publisher s.start ∧
    s.items = (between publisher.tx.sent s.kb s.start sub.cursor).map .ok
  ended : s.state = none → ∃ bound, s.start ≤ bound ∧ bound ≤ publisher.tx.sent.length ∧
    s.items = (between publisher.tx.sent s.kb s.start bound).map .ok ++ [.error (.lagged bound)]

variable {s s' : Stream}

theorem Stream.Sound.publish (hp : publisher.Coherent) (h : s.Sound publisher)
    (event : ObjectEvent) : s.Sound (publisher.publish event).2 := by
  have hnum := (hp.publish event).numbered
  have hsent : (publisher.publish event).2.tx.sent =
      publisher.tx.sent ++ [(publisher.ring.nextId, event)] := rfl
  rw [hsent] at hnum
  constructor
  · intro sub hsub
    obtain ⟨hkb, hfollows, hitems⟩ := h.running sub hsub
    refine ⟨hkb, hfollows.publish hp event, ?_⟩
    rw [hsent, between_append hnum hfollows.cursor_le]
    exact hitems
  · intro hnone
    obtain ⟨bound, hstart, hle, hitems⟩ := h.ended hnone
    refine ⟨bound, hstart, ?_, ?_⟩
    · rw [hsent, List.length_append]
      omega
    · rw [hsent, between_append hnum hle]
      exact hitems

/-- A turn that does not lag. -/
theorem Stream.Sound.goOn (hp : publisher.Coherent) (h : s.Sound publisher)
    (hsub : s.state = some sub) (hs : sub.step publisher = some (out, sub')) (hne : out ≠ .lagged) :
    Stream.Sound publisher
      { s with state := some sub', items := s.items ++ out.yielded.map .ok } := by
  obtain ⟨hkb, hfollows, hitems⟩ := h.running sub hsub
  obtain ⟨hnext, hkb', hbetween⟩ := hfollows.step hp hs
  refine ⟨?_, by simp⟩
  simp only [Option.mem_some_iff, forall_eq']
  refine ⟨hkb'.trans hkb, (hnext.resolve_left fun hl => hne hl.1).2, ?_⟩
  rw [hitems, ← hkb, ← List.map_append]
  exact congrArg _ hbetween.symm

theorem Stream.Sound.poll (hp : publisher.Coherent) (h : s.Sound publisher)
    (hs : s.poll publisher = some s') : s'.Sound publisher := by
  unfold Stream.poll at hs
  split at hs
  · cases hs
  · next sub hsub =>
    split at hs
    · cases hs
    · next e sub' heq =>
      cases hs
      exact h.goOn hp hsub heq (by simp)
    · next sub' heq =>
      cases hs
      simpa [Step.yielded] using h.goOn hp hsub heq (by simp)
    · next sub' heq =>
      cases hs
      obtain ⟨hkb, hfollows, hitems⟩ := h.running sub hsub
      refine ⟨by simp, fun _ => ?_⟩
      obtain ⟨hnext, -, hbetween⟩ := hfollows.step hp heq
      have hcursor : sub'.cursor = sub.cursor := (hnext.resolve_right fun hr => hr.1 rfl).2
      refine ⟨sub'.cursor, ?_, ?_, ?_⟩
      · rw [hcursor]
        exact hfollows.start_le
      · rw [hcursor]
        exact hfollows.cursor_le
      · rw [hcursor, hitems]
        rfl

/-- Without a publish a stream's turns end, and then it waits or has ended. -/
theorem Stream.exists_idle (publisher : MemoryPublisher) (s : Stream) :
    ∃ s', Relation.ReflTransGen (fun a b => Stream.poll a publisher = some b) s s' ∧
      s'.poll publisher = none := by
  have hdecrease : ∀ a b : Stream, a.poll publisher = some b →
      (b.state.elim 0 fun sub => sub.left publisher + 1) <
        a.state.elim 0 fun sub => sub.left publisher + 1 := by
    intro a b hb
    unfold Stream.poll at hb
    split at hb
    · cases hb
    · next sub hsub =>
      rw [hsub]
      split at hb
      · cases hb
      · next e sub' hs =>
        cases hb
        simpa using (Subscription.step_left hs).resolve_left (by simp)
      · next sub' hs =>
        cases hb
        simpa using (Subscription.step_left hs).resolve_left (by simp)
      · cases hb
        simp
  obtain ⟨s', hreach, hstuck⟩ := Relation.exists_stuck _ hdecrease s
  exact ⟨s', hreach, Option.eq_none_iff_forall_ne_some.mpr fun b hb => hstuck b hb⟩

/-! ## Any interleaving -/

namespace Broker

variable {capacity depth : Nat} {b : Broker}

theorem Reach.sound (h : Reach capacity depth b) :
    b.publisher.Coherent ∧ ∀ s ∈ b.streams, s.Sound b.publisher := by
  induction h with
  | new => exact ⟨.new capacity depth, by simp⟩
  | publish event _ ih => exact ⟨ih.1.publish event, fun s hs => (ih.2 s hs).publish ih.1 event⟩
  | @subscribe b kb after sub _ hsub ih =>
    refine ⟨ih.1, ?_⟩
    intro s hs
    rcases List.mem_append.mp hs with hs | hs
    · exact ih.2 s hs
    · cases List.mem_singleton.mp hs
      obtain ⟨hkb, hcursor, hfollows⟩ := Subscription.Follows.subscribe ih.1 hsub
      refine ⟨?_, by simp⟩
      simp only [Option.mem_some_iff, forall_eq', Stream.start]
      exact ⟨hkb, hfollows, by simp [hcursor]⟩
  | @poll b s s' before after _ hstreams hs ih =>
    refine ⟨ih.1, ?_⟩
    intro t ht
    simp only [List.mem_append, List.mem_cons] at ht
    rcases ht with ht | rfl | ht
    · exact ih.2 t (by simp [hstreams, ht])
    · exact (ih.2 s (by simp [hstreams])).poll ih.1 hs
    · exact ih.2 t (by simp [hstreams, ht])

/-- A stream has delivered the events up to its position; when it has ended, the position is what
its last item reports. -/
theorem Reach.position (h : Reach capacity depth b) {s : Stream} (hs : s ∈ b.streams) :
    ∃ bound, s.start ≤ bound ∧ bound ≤ b.log.length ∧
      s.delivered = between b.log s.kb s.start bound ∧
      (∀ r, .error (.lagged r) ∈ s.items → s.state = none ∧ r = bound) ∧
      (s.state = none → s.items = s.delivered.map .ok ++ [.error (.lagged bound)]) ∧
      (s.state ≠ none → s.poll b.publisher = none → bound = b.log.length) := by
  have hs := h.sound.2 s hs
  cases hstate : s.state with
  | none =>
    obtain ⟨bound, hstart, hle, hitems⟩ := hs.ended hstate
    have hdelivered : s.delivered = between b.log s.kb s.start bound := by
      simp [Stream.delivered, hitems, List.filterMap_map, Function.comp_def, Except.toOption, log]
    refine ⟨bound, hstart, hle, hdelivered, ?_, ?_, by simp⟩
    · intro r hr
      rw [hitems] at hr
      simpa using hr
    · intro _
      rw [hdelivered]
      exact hitems
  | some sub =>
    obtain ⟨hkb, hfollows, hitems⟩ := hs.running sub hstate
    have hdelivered : s.delivered = between b.log s.kb s.start sub.cursor := by
      simp [Stream.delivered, hitems, List.filterMap_map, Function.comp_def, Except.toOption, log]
    refine ⟨sub.cursor, hfollows.start_le, hfollows.cursor_le, hdelivered, ?_, by simp, ?_⟩
    · intro r hr
      rw [hitems] at hr
      simp at hr
    · intro _ hidle
      refine hfollows.idle ?_
      simp only [Stream.poll, hstate] at hidle
      cases hstep : sub.step b.publisher with
      | none => rfl
      | some out =>
        obtain ⟨out, sub'⟩ := out
        cases out with
        | yield e => simp [hstep] at hidle
        | skip => simp [hstep] at hidle
        | lagged => simp [hstep] at hidle

/-- Two stretches of a log that meet. -/
theorem between_trans {log : List Entry} (h : NumberedFrom 0 log) {kb : KbSlug}
    {start middle bound : Nat} (hle : start ≤ middle) (hle' : middle ≤ bound) :
    between log kb start middle ++ between log kb middle bound = between log kb start bound := by
  have hbefore : ∀ e ∈ log.take middle, e.1 ≤ middle := by
    intro e he
    have := ((h.take middle).lt_of_mem he).2
    rw [List.length_take] at this
    omega
  have hbehind : ∀ e ∈ log.drop middle, middle < e.1 := by
    intro e he
    have hlt := ((h.drop middle).lt_of_mem he).1
    have hne : (log.drop middle).length ≠ 0 := by
      rw [Ne, List.length_eq_zero_iff]
      exact List.ne_nil_of_mem he
    rw [List.length_drop] at hne
    omega
  have hsplit : ∀ i j, between log kb i j =
      between (log.take middle) kb i j ++ between (log.drop middle) kb i j := by
    intro i j
    unfold between
    rw [← List.filter_append, List.take_append_drop]
  have h₁ : between (log.drop middle) kb start middle = [] := by
    refine List.filter_eq_nil_iff.mpr fun e he => ?_
    have := hbehind e he
    simp only [decide_eq_true_eq, not_and]
    omega
  have h₂ : between (log.take middle) kb middle bound = [] := by
    refine List.filter_eq_nil_iff.mpr fun e he => ?_
    have := hbefore e he
    simp only [decide_eq_true_eq, not_and]
    omega
  have h₃ : between (log.take middle) kb start middle = between (log.take middle) kb start bound := by
    refine List.filter_congr fun e he => ?_
    have hle := hbefore e he
    simp [hle, hle.trans hle']
  have h₄ : between (log.drop middle) kb middle bound = between (log.drop middle) kb start bound := by
    refine List.filter_congr fun e he => ?_
    have hlt := hbehind e he
    simp [hlt, hle.trans_lt hlt]
  rw [hsplit, hsplit middle, hsplit start bound, h₁, h₂, h₃, h₄, List.append_nil, List.nil_append]

/-- In every interleaving of publishes and subscriber turns, a stream delivers the events of its
knowledge base behind the position it started from, in order and without a gap, until it lags; a
stream that resumes where it lagged goes on with the next event. A position is refused exactly
when an event behind it was dropped or it is ahead of every id handed out. -/
theorem stream_exact {capacity depth : Nat} {b : Broker} (h : Reach capacity depth b) :
    (∀ s ∈ b.streams, ∃ bound, s.start ≤ bound ∧
      s.delivered = between b.log s.kb s.start bound ∧
      s.delivered.Pairwise (fun d e => d.1 < e.1) ∧
      (s.state = none → s.items = s.delivered.map .ok ++ [.error (.lagged bound)]) ∧
      (∀ r, .error (.lagged r) ∈ s.items → s.state = none ∧ ∀ e ∈ s.delivered, e.1 ≤ r) ∧
      (s.state ≠ none → s.poll b.publisher = none →
        s.delivered = between b.log s.kb s.start b.log.length) ∧
      ∃ s', Relation.ReflTransGen (fun x y => Stream.poll x b.publisher = some y) s s' ∧
        s'.poll b.publisher = none) ∧
    (∀ s ∈ b.streams, ∀ s' ∈ b.streams, ∀ r, .error (.lagged r) ∈ s.items →
      s'.kb = s.kb → s'.after = some r →
        ∃ bound, s.delivered ++ s'.delivered = between b.log s.kb s.start bound) ∧
    (∀ kb requested,
      (∃ oldest, b.publisher.subscribe kb (some requested) = .error (.gone requested oldest)) ↔
        (∃ e ∈ b.log, requested < e.1 ∧ e ∉ b.publisher.ring.buf) ∨ b.log.length < requested) := by
  have hnum := h.sound.1.numbered
  refine ⟨?_, ?_, fun kb requested => h.sound.1.gone_iff⟩
  · intro s hs
    obtain ⟨bound, hstart, -, hdelivered, hlag, hended, hidle⟩ := h.position hs
    refine ⟨bound, hstart, hdelivered, ?_, hended, ?_, ?_, s.exists_idle b.publisher⟩
    · rw [hdelivered]
      exact hnum.pairwise.filter _
    · intro r hr
      obtain ⟨hnone, rfl⟩ := hlag r hr
      refine ⟨hnone, ?_⟩
      intro e he
      rw [hdelivered, between, List.mem_filter] at he
      exact (of_decide_eq_true he.2).2.2
    · intro hrun hpoll
      rw [hdelivered, hidle hrun hpoll]
  · intro s hs s' hs' r hr hkb hafter
    obtain ⟨bound, hstart, -, hdelivered, hlag, -⟩ := h.position hs
    obtain ⟨bound', hstart', -, hdelivered', -⟩ := h.position hs'
    obtain ⟨-, rfl⟩ := hlag r hr
    have hresume : s'.start = r := by simp [Stream.start, hafter]
    refine ⟨bound', ?_⟩
    rw [hdelivered, hdelivered', hkb, hresume]
    exact between_trans hnum hstart (hresume ▸ hstart')

/-- A deletion, published to an empty log. -/
def oneDeleted : Broker :=
  ⟨((MemoryPublisher.new 1 1).publish ⟨.notes, ObjectPath.a, .deleted, .http⟩).2, []⟩

theorem stream_exact_oneDeleted : ∃ b s, Reach 1 1 b ∧ b.streams = [s] ∧ s.start = 0 ∧
    s.delivered.map (·.1) = [1] ∧ ∃ bound, s.delivered = between b.log s.kb s.start bound := by
  have hpublish : Reach 1 1 oneDeleted := .publish _ .new
  have hsubscribe : Reach 1 1 _ := hpublish.subscribe
    (show oneDeleted.publisher.subscribe .notes (some 0) = .ok _ from rfl)
  have hpoll : Reach 1 1 _ := hsubscribe.poll (List.nil_append _).symm
    (show Stream.poll ⟨.notes, some 0, 1, _, []⟩ oneDeleted.publisher = some _ from rfl)
  obtain ⟨bound, -, hdelivered, -⟩ := (stream_exact hpoll).1 _ List.mem_cons_self
  exact ⟨_, _, hpoll, rfl, rfl, rfl, bound, hdelivered⟩

/-- Nothing was published, so no event has the id zero, and yet a subscription behind it is
accepted. -/
theorem zero_accepted : ∃ b : Broker, Reach 1 1 b ∧ (∀ e ∈ b.log, e.1 ≠ 0) ∧
    ∃ sub, b.publisher.subscribe .notes (some 0) = .ok sub :=
  ⟨_, .new, by simp [log, MemoryPublisher.new], _, rfl⟩

end Broker

end Events
