-- SUMMARY: A change that storage has made is handed to the index queue exactly once, wherever the request is dropped, except at the HEAD of a copy.
import NotedThat.Write.Droppable

/-!
# Handing a change over

Whatever storage, the event log and the queue answer, and wherever a request is dropped, the record
of what it did after storage changed an object has one of three shapes: the change was reported, the
report was cut short by a drop while it published and the guard took over, or a copy was dropped at
the HEAD it makes for the stamp of its event, before there is a guard.
-/

namespace Write.Droppable

abbrev Entry := Future.Entry Op Sync Op.Res Sync.Res

/-! ## What a record says -/

/-- The index event of a change that storage said it made. -/
def change : Entry → Option IndexEvent
  | .awaited (.storage (.put kb path _ _ _)) (.ok _) => some (.upsert kb path)
  | .awaited (.storage (.copy kb _ destination _)) (.ok _) => some (.upsert kb destination)
  | .awaited (.storage (.delete kb path _)) (.ok _) => some (.tombstone kb path)
  | _ => none

/-- The event an entry offers, with the queue's answer. -/
def offer : Entry → Option (IndexEvent × Offered)
  | .did (.trySend event) offered => some (event, offered)
  | _ => none

/-- What an entry tells the health view. -/
def stampOf : Entry → Option HealthStamp
  | .did (.stamp stamp) _ => some stamp
  | _ => none

/-- The answer of a publication that completed. -/
def publication : Entry → Option (Except String Unit)
  | .awaited (.publish _) r => some r
  | _ => none

/-- What a failed publication says the write has done. -/
def effectOf : IndexEvent → WriteEffect
  | .tombstone .. => .deleted
  | _ => .stored

def backpressureOf : IndexEvent → WriteError
  | .tombstone .. => .indexerBackpressureTombstone
  | _ => .indexerBackpressureUpsert

/-- The outcome of the publication: none is none that failed. -/
def published (event : IndexEvent) (tr : List Entry) : Except WriteError Unit :=
  match tr.filterMap publication with
  | .error _ :: _ => .error (.eventPublishFailed (effectOf event))
  | _ => .ok ()

/-- The event of a change was offered once and after any publication that completed, the health view
was told once and what the queue answered, and a request that was not dropped answers backpressure
exactly for a full queue and else as the publication went. -/
structure HandedOver {α : Type} (health : Bool) (event : IndexEvent) (tr : List Entry)
    (out : Option (Except WriteError α)) (offered : Offered) : Prop where
  offers : tr.filterMap offer = [(event, offered)]
  stamps : tr.filterMap stampOf = if health then [healthStamp event.key.1 offered] else []
  order : ∃ front back, tr = front ++ .did (.trySend event) offered :: back ∧
    ∀ e ∈ back, publication e = none
  refused : ∀ result, out = some result → (result = .error (backpressureOf event) ↔ offered = .full)
  answered : ∀ result, out = some result → offered ≠ .full →
    result.map (fun _ => ()) = published event tr

/-- A copy was dropped while it awaited the HEAD for its event's stamp. -/
def DroppedAtStamp (tr : List Entry) : Prop :=
  ∃ front kb source destination options outcome, tr = front ++
    [.awaited (.storage (.copy kb source destination options)) (.ok outcome),
      .abandoned (.storage (.head kb destination {}))]

/-! ## The report -/

/-- The entries of an offer. -/
def offering (health : Bool) (event : IndexEvent) (offered : Offered) : List Entry :=
  .did (.trySend event) offered ::
    if health then [.did (.stamp (healthStamp event.key.1 offered)) ()] else []

theorem performs_offerToIndex {health : Bool} {event : IndexEvent} {tr : List Entry}
    {offered : Offered} (h : Future.Performs (offerToIndex health event) tr offered) :
    tr = offering health event offered := by
  cases health with
  | false =>
    cases h with
    | op r hr =>
      cases hr
      rfl
  | true =>
    cases h with
    | op r hr =>
      cases hr with
      | op u hu =>
        cases hu
        rfl

theorem performs_enqueueOnDrop {health : Bool} {event : IndexEvent} {tr : List Entry}
    (h : Future.Performs (enqueueOnDrop health event) tr ()) :
    ∃ offered, tr = offering health event offered := by
  cases health with
  | false =>
    cases h with
    | op r hr =>
      cases hr
      exact ⟨r, rfl⟩
  | true =>
    cases h with
    | op r hr =>
      cases hr with
      | op u hu =>
        cases hu
        exact ⟨r, rfl⟩

/-- The entries of a publication that completed, where there is an event log. -/
inductive Announcement : List Entry → Prop where
  | none : Announcement []
  | some (e : ObjectEvent) (r : Except String Unit) : Announcement [.awaited (.publish e) r]

/-- What a report answers. -/
def answer (event : IndexEvent) (announced : List Entry) (offered : Offered) : Except WriteError Unit :=
  if offered = .full then .error (backpressureOf event) else published event announced

theorem announce_inv {α : Type} {sinks : WriteSinks} {event : ObjectEvent} {indexEvent : IndexEvent}
    {health : Bool} {f : Except WriteError Unit → Task α} {tr : List Entry} {out : Option α}
    (h : Future.Ends (enqueueOnDrop health) (some indexEvent)
      ((Future.lift (announce sinks event (effectOf indexEvent))).bind f) tr out) :
    (∃ offered, tr = .abandoned (.publish event) :: offering health indexEvent offered ∧ out = none) ∨
      ∃ announced rest, tr = announced ++ rest ∧ Announcement announced ∧
        Future.Ends (enqueueOnDrop health) (some indexEvent) (f (published indexEvent announced)) rest
          out := by
  unfold announce at h
  split at h
  · cases h with
    | await r hr =>
      cases r with
      | ok _ => exact .inr ⟨_, _, rfl, .some event (.ok ()), hr⟩
      | error e => exact .inr ⟨_, _, rfl, .some event (.error e), hr⟩
    | dropped hd =>
      cases hd with
      | armed hp =>
        obtain ⟨offered, rfl⟩ := performs_enqueueOnDrop hp
        exact .inl ⟨offered, rfl, rfl⟩
  · exact .inr ⟨[], tr, rfl, .none, h⟩

/-- A report is dropped while it publishes, and its guard offers the event, or it answers. -/
theorem report_inv {α : Type} {sinks : WriteSinks} {event : ObjectEvent} {indexEvent : IndexEvent}
    {health : Bool} {f : Except WriteError Unit → Task α} {tr : List Entry} {out : Option α}
    (h : Future.Ends (enqueueOnDrop health) none ((report sinks health event (effectOf indexEvent)
      indexEvent (backpressureOf indexEvent)).bind f) tr out) :
    (∃ offered, tr = .abandoned (.publish event) :: offering health indexEvent offered ∧ out = none) ∨
      ∃ announced offered rest, tr = announced ++ offering health indexEvent offered ++ rest ∧
        Announcement announced ∧ Future.Ends (enqueueOnDrop health) none
          (f (answer indexEvent announced offered)) rest out := by
  simp only [report, Prog.bind_eq, Prog.call_bind, Prog.op_bind, Prog.bind_assoc] at h
  cases h with
  | arm harmed =>
    rcases announce_inv harmed with hdropped | ⟨announced, rest, rfl, hannounced, hrest⟩
    · exact .inl hdropped
    · cases hrest with
      | disarm hoffer =>
        obtain ⟨front, rest, offered, rfl, hp, hlast⟩ := hoffer.atOnce_inv
        obtain rfl := performs_offerToIndex hp
        refine .inr ⟨announced, offered, rest, by simp, hannounced, ?_⟩
        cases offered with
        | queued => exact hlast
        | full => exact hlast
        | closed => exact hlast

/-! ## The shape of a request's record -/

/-- Storage answered, and any change it made is the one `event` is about. -/
def Storing (event : IndexEvent) (e : Entry) : Prop :=
  (∃ o r, e = .awaited (.storage o) r) ∧ ∀ event', change e = some event' → event' = event

/-- Storage answered and changed nothing. -/
def Quiet (e : Entry) : Prop := (∃ o r, e = .awaited (.storage o) r) ∧ change e = none

theorem Storing.awaited {o : StorageOp} {r : Op.Res (.storage o)} {event : IndexEvent}
    (h : change (.awaited (.storage o) r) = some event) : Storing event (.awaited (.storage o) r) :=
  ⟨⟨o, r, rfl⟩, fun _ he => Option.some.inj (he.symm.trans h)⟩

theorem Quiet.awaited {o : StorageOp} {r : Op.Res (.storage o)}
    (h : change (.awaited (.storage o) r) = none) : Quiet (.awaited (.storage o) r) := ⟨⟨o, r, rfl⟩, h⟩

theorem Quiet.storing {e : Entry} (h : Quiet e) (event : IndexEvent) : Storing event e := by
  refine ⟨h.1, fun event' he => ?_⟩
  rw [h.2] at he
  cases he

/-- How a request may have gone: it changed nothing, its change was reported, its report was dropped
and the guard took over, or it was a copy dropped at its HEAD. -/
inductive Gone {α : Type} (health : Bool) : List Entry → Option (Except WriteError α) → Prop where
  | unchanged {tr : List Entry} {out : Option (Except WriteError α)} :
      (∀ e ∈ tr, change e = none) → Gone health tr out
  | reported {before announced : List Entry} {event : IndexEvent} {offered : Offered}
      {result : Except WriteError α} : (∀ e ∈ before, Storing event e) → Announcement announced →
      result.map (fun _ => ()) = answer event announced offered →
      Gone health (before ++ (announced ++ offering health event offered)) (some result)
  | guarded {before : List Entry} {event : IndexEvent} {e : ObjectEvent} {offered : Offered} :
      (∀ e ∈ before, Storing event e) →
      Gone health (before ++ .abandoned (.publish e) :: offering health event offered) none
  | lost {before : List Entry} {kb : KbSlug} {source destination : ObjectPath}
      {options : CopyObjectOptions} {outcome : PutOutcome} : (∀ e ∈ before, Quiet e) →
      Gone health (before ++ [.awaited (.storage (.copy kb source destination options)) (.ok outcome),
        .abandoned (.storage (.head kb destination {}))]) none

theorem Gone.prepend {α : Type} {health : Bool} {front tr : List Entry}
    {out : Option (Except WriteError α)} (h : Gone health tr out) (hfront : ∀ e ∈ front, Quiet e) :
    Gone health (front ++ tr) out := by
  cases h with
  | unchanged hun => exact .unchanged (List.forall_mem_append.mpr ⟨fun e he => (hfront e he).2, hun⟩)
  | @reported before announced event offered result hbefore hannounced hresult =>
    rw [← List.append_assoc]
    refine .reported (List.forall_mem_append.mpr ⟨fun e he => ?_, hbefore⟩) hannounced hresult
    exact (hfront e he).storing event
  | @guarded before event e offered hbefore =>
    rw [← List.append_assoc]
    refine .guarded (List.forall_mem_append.mpr ⟨fun e he => ?_, hbefore⟩)
    exact (hfront e he).storing event
  | lost hbefore =>
    rw [← List.append_assoc]
    exact .lost (List.forall_mem_append.mpr ⟨hfront, hbefore⟩)

theorem Gone.cons {α : Type} {health : Bool} {e : Entry} {tr : List Entry}
    {out : Option (Except WriteError α)} (he : Quiet e) (h : Gone health tr out) :
    Gone health (e :: tr) out :=
  h.prepend (List.forall_mem_singleton.mpr he)

theorem change_offering {health : Bool} {event : IndexEvent} {offered : Offered} :
    ∀ e ∈ offering health event offered, change e = none := by
  intro e he
  cases health with
  | false =>
    rw [List.mem_singleton.mp he]
    rfl
  | true =>
    rcases List.mem_cons.mp he with rfl | he
    · rfl
    · rw [List.mem_singleton.mp he]
      rfl

theorem change_announcement {announced : List Entry} (h : Announcement announced) :
    ∀ e ∈ announced, change e = none := by
  intro e he
  cases h with
  | none => cases he
  | some published r =>
    rw [List.mem_singleton.mp he]
    rfl

/-! ## Every request -/

/-- The reads of an object. -/
def Reads : Op → Prop
  | .storage (.head ..) => True
  | .storage (.get ..) => True
  | _ => False

theorem quiet_of_reads {e : Entry} (h : e.Answered Reads) : Quiet e := by
  cases e with
  | awaited o r =>
    cases o with
    | storage o =>
      cases o with
      | head kb path c => exact ⟨⟨_, _, rfl⟩, rfl⟩
      | get kb path range c => exact ⟨⟨_, _, rfl⟩, rfl⟩
      | _ => exact h.elim
    | _ => exact h.elim
  | abandoned o => exact h.elim
  | did a r => exact h.elim

theorem headAnchor_reads {target : CasRewrite} : (headAnchor target).Only Reads fun _ => True := by
  refine .call trivial fun r => ?_
  cases r with
  | error e => trivial
  | ok objectMeta =>
    dsimp only
    split
    · trivial
    · split
      · trivial
      · split
        · trivial
        · trivial

theorem checkCopiedManifest_reads {json : ManifestJson} {kb : KbSlug}
    {source destination : ObjectPath} :
    (checkCopiedManifest json kb source destination).Only Reads fun _ => True := by
  unfold checkCopiedManifest
  split
  · trivial
  · refine .call trivial fun r => ?_
    cases r with
    | error e => trivial
    | ok objectMeta =>
      dsimp only
      split
      · trivial
      · refine .call trivial fun r => ?_
        cases r with
        | error e => trivial
        | ok read => trivial

/-- The caller of a step returns what the step answered, up to its value. -/
def Passes {α β : Type} (f : Except WriteError β → Task (Except WriteError α)) : Prop :=
  ∀ r, ∃ result, f r = .ret result ∧ result.map (fun _ => ()) = r.map fun _ => ()

theorem Passes.bind {α β δ : Type} {g : Except WriteError β → Task (Except WriteError α)}
    {f : Except WriteError α → Task (Except WriteError δ)} (hg : Passes g) (hf : Passes f) :
    Passes fun r => (g r).bind f := by
  intro r
  obtain ⟨result, heq, hresult⟩ := hg r
  obtain ⟨result', heq', hresult'⟩ := hf result
  refine ⟨result', ?_, hresult'.trans hresult⟩
  dsimp only
  rw [heq, Prog.ret_bind, heq']

theorem passes_of {α β : Type} {f : Except WriteError β → Task (Except WriteError α)} (v : β → α)
    (herror : ∀ e, f (.error e) = .ret (.error e)) (hok : ∀ b, f (.ok b) = .ret (.ok (v b))) :
    Passes f := by
  intro r
  cases r with
  | error e => exact ⟨_, herror e, rfl⟩
  | ok b => exact ⟨_, hok b, rfl⟩

theorem passes_ret {α : Type} : Passes (.ret : Except WriteError α → Task (Except WriteError α)) :=
  passes_of id (fun _ => rfl) fun _ => rfl

section Requests

variable {json : ManifestJson} {sinks : WriteSinks} {health : Bool} {α β : Type} {tr : List Entry}
variable {out : Option (Except WriteError α)} {f : Except WriteError β → Task (Except WriteError α)}

/-- A request that returned without more to do. -/
theorem gone_ret {r : Except WriteError β} (hf : Passes f)
    (h : Future.Ends (enqueueOnDrop health) none (f r) tr out) : Gone health tr out := by
  obtain ⟨result, heq, -⟩ := hf r
  rw [heq] at h
  obtain ⟨rfl, -⟩ := h.ret_inv
  exact .unchanged (by simp)

/-- A request that was dropped before storage changed anything. -/
theorem gone_abandoned {front : List Entry} {o : Op} (hfront : ∀ e ∈ front, Quiet e) :
    Gone health (front ++ [.abandoned o]) out := by
  refine Gone.prepend (.unchanged fun e he => ?_) hfront
  rw [List.mem_singleton.mp he]
  rfl

/-- A report of a change that storage has made. -/
theorem gone_report {event : ObjectEvent} (indexEvent : IndexEvent) (before : List Entry)
    {f : Except WriteError Unit → Task (Except WriteError α)} (hf : Passes f)
    (hbefore : ∀ e ∈ before, Storing indexEvent e)
    (h : Future.Ends (enqueueOnDrop health) none ((report sinks health event (effectOf indexEvent)
      indexEvent (backpressureOf indexEvent)).bind f) tr out) : Gone health (before ++ tr) out := by
  rcases report_inv h with ⟨offered, rfl, rfl⟩ | ⟨announced, offered, rest, rfl, hannounced, hrest⟩
  · exact .guarded hbefore
  · obtain ⟨result, heq, hresult⟩ := hf (answer indexEvent announced offered)
    rw [heq] at hrest
    obtain ⟨rfl, rfl⟩ := hrest.ret_inv
    rw [List.append_nil]
    refine .reported hbefore hannounced (hresult.trans ?_)
    cases answer indexEvent announced offered with
    | error e => rfl
    | ok _ => rfl

/-- A program that only reads, and what follows. -/
theorem gone_reads {δ : Type} {p : Program δ} (hp : p.Only Reads fun _ => True)
    {f : δ → Task (Except WriteError α)}
    (h : Future.Ends (enqueueOnDrop health) none ((Future.lift p).bind f) tr out)
    (hf : ∀ a tr, Future.Ends (enqueueOnDrop health) none (f a) tr out → Gone health tr out) :
    Gone health tr out := by
  rcases h.lift_inv hp with ⟨front, o, last, rfl, hfront, -, hd, rfl⟩ |
    ⟨front, rest, a, rfl, hfront, -, hrest⟩
  · cases hd
    exact gone_abandoned fun e he => quiet_of_reads (hfront e he)
  · exact (hf a rest hrest).prepend fun e he => quiet_of_reads (hfront e he)

/-- One answer of storage, and what follows. -/
theorem gone_storage {o : StorageOp} {f : Except StorageError o.Out → Task (Except WriteError α)}
    (h : Future.Ends (enqueueOnDrop health) none ((Future.lift (Program.storage o)).bind f) tr out)
    (hf : ∀ r tr, Future.Ends (enqueueOnDrop health) none (f r) tr out →
      Gone health (.awaited (.storage o) r :: tr) out) : Gone health tr out := by
  rcases h.await_inv with ⟨rfl, rfl⟩ | ⟨r, rest, rfl, hrest⟩
  · refine .unchanged fun e he => ?_
    rw [List.mem_singleton.mp he]
    rfl
  · exact hf r rest hrest

theorem gone_commit {kb : KbSlug} {path : ObjectPath} {body : StagedBody}
    {callerContentType : Option Text} {conditionals : ConditionalHeaders}
    {out : Option (Except WriteError PutOutcome)}
    (h : Future.Ends (enqueueOnDrop health) none
      (commit json sinks health kb path body callerContentType conditionals) tr out) :
    Gone health tr out := by
  unfold commit at h
  split at h
  · exact gone_ret passes_ret h
  · split at h
    · exact gone_ret passes_ret h
    · refine gone_storage h fun r tr hr => ?_
      cases r with
      | error e => exact .cons (.awaited rfl) (gone_ret passes_ret hr)
      | ok outcome =>
        refine gone_report (.upsert kb path) [_] ?_ (List.forall_mem_singleton.mpr (.awaited rfl)) hr
        exact passes_of _ (fun _ => rfl) fun _ => rfl

theorem gone_commitDelete {kb : KbSlug} {path : ObjectPath} {conditionals : ConditionalHeaders}
    {out : Option (Except WriteError Unit)}
    (h : Future.Ends (enqueueOnDrop health) none
      (commitDelete sinks health kb path conditionals) tr out) : Gone health tr out := by
  refine gone_storage h fun r tr hr => ?_
  have hreport : ∀ before, (∀ e ∈ before, Storing (.tombstone kb path) e) →
      Future.Ends (enqueueOnDrop health) none (afterDelete sinks health kb path) tr out →
      Gone health (before ++ tr) out := by
    intro before hbefore hr
    rw [← Prog.bind_ret (afterDelete sinks health kb path)] at hr
    exact gone_report (.tombstone kb path) before passes_ret hbefore hr
  cases r with
  | ok outcome => exact hreport [_] (List.forall_mem_singleton.mpr (.awaited rfl)) hr
  | error e =>
    cases e with
    | notFound key =>
      refine hreport [_] (List.forall_mem_singleton.mpr ?_) hr
      exact (Quiet.awaited rfl).storing _
    | _ => exact .cons (.awaited rfl) (gone_ret passes_ret hr)

theorem gone_commitCopy {kb : KbSlug} {source destination : ObjectPath}
    {options : CopyObjectOptions} {out : Option (Except WriteError PutOutcome)}
    (h : Future.Ends (enqueueOnDrop health) none
      (commitCopy json sinks health kb source destination options) tr out) : Gone health tr out := by
  refine gone_reads checkCopiedManifest_reads h fun checked tr hchecked => ?_
  cases checked with
  | error e => exact gone_ret passes_ret hchecked
  | ok _ =>
    refine gone_storage hchecked fun r tr hr => ?_
    cases r with
    | error e => exact .cons (.awaited rfl) (gone_ret passes_ret hr)
    | ok outcome =>
      dsimp only at hr
      unfold copyStamp at hr
      split at hr
      · refine gone_report (.upsert kb destination) [_] ?_ (List.forall_mem_singleton.mpr (.awaited rfl)) hr
        exact passes_of _ (fun _ => rfl) fun _ => rfl
      · cases hr with
        | dropped hd =>
          cases hd
          exact .lost (List.forall_mem_nil _)
        | await stamp hstamp =>
          cases stamp with
          | error e =>
            refine gone_report (.upsert kb destination) [_, _] ?_ ?_ hstamp
            · exact passes_of _ (fun _ => rfl) fun _ => rfl
            · exact List.forall_mem_cons.mpr
                ⟨.awaited rfl, List.forall_mem_singleton.mpr ((Quiet.awaited rfl).storing _)⟩
          | ok objectMeta =>
            refine gone_report (.upsert kb destination) [_, _] ?_ ?_ hstamp
            · exact passes_of _ (fun _ => rfl) fun _ => rfl
            · exact List.forall_mem_cons.mpr
                ⟨.awaited rfl, List.forall_mem_singleton.mpr ((Quiet.awaited rfl).storing _)⟩

theorem gone_casLost {T : Type} {target : CasRewrite}
    {splice : Bytes → Except WriteError (Bytes × T)} {retries : Nat}
    {f : Except WriteError (PutOutcome × T) → Task (Except WriteError α)} (hf : Passes f)
    (hretry : ∀ n tr, retries = n + 1 → Future.Ends (enqueueOnDrop health) none
      ((casAttempt json sinks health target splice n).bind f) tr out → Gone health tr out)
    {e : StorageError} (h : Future.Ends (enqueueOnDrop health) none
      ((casLost json sinks health target splice retries e).bind f) tr out) : Gone health tr out := by
  cases retries with
  | zero => exact gone_ret hf h
  | succ retries =>
    simp only [casLost] at h
    split at h
    · exact hretry retries tr rfl h
    · exact gone_ret hf h

/-- An attempt, if what it goes on with is fine. -/
theorem gone_casAttempt_step {T : Type} {target : CasRewrite}
    {splice : Bytes → Except WriteError (Bytes × T)} {retries : Nat}
    {f : Except WriteError (PutOutcome × T) → Task (Except WriteError α)} (hf : Passes f)
    (hlost : ∀ e tr, Future.Ends (enqueueOnDrop health) none
      ((casLost json sinks health target splice retries e).bind f) tr out → Gone health tr out)
    (h : Future.Ends (enqueueOnDrop health) none
      ((casAttempt json sinks health target splice retries).bind f) tr out) : Gone health tr out := by
  rw [casAttempt, Prog.bind_eq, Prog.bind_assoc] at h
  refine gone_reads headAnchor_reads h fun anchor tr hanchor => ?_
  cases anchor with
  | error e => exact gone_ret hf hanchor
  | ok headEtag =>
    simp only [Prog.bind_eq, Prog.bind_assoc] at hanchor
    refine gone_storage hanchor fun read tr hread => ?_
    cases read with
    | error e => exact .cons (.awaited rfl) (hlost e tr hread)
    | ok read =>
      refine .cons (.awaited rfl) ?_
      dsimp only at hread
      split at hread
      · exact gone_ret hf hread
      · split at hread
        · exact gone_ret hf hread
        · rw [Prog.bind_assoc] at hread
          refine gone_storage hread fun put tr hput => ?_
          cases put with
          | error e => exact .cons (.awaited rfl) (hlost e tr hput)
          | ok outcome =>
            simp only [Prog.bind_assoc] at hput
            refine gone_report (.upsert target.kb target.path) [_] ?_ (List.forall_mem_singleton.mpr (.awaited rfl)) hput
            refine Passes.bind (passes_of _ (fun _ => rfl) fun _ => rfl) hf

theorem gone_casAttempt {T : Type} {target : CasRewrite}
    {splice : Bytes → Except WriteError (Bytes × T)}
    {f : Except WriteError (PutOutcome × T) → Task (Except WriteError α)} (hf : Passes f)
    (retries : Nat) {tr : List Entry} (h : Future.Ends (enqueueOnDrop health) none
      ((casAttempt json sinks health target splice retries).bind f) tr out) : Gone health tr out := by
  induction retries generalizing tr with
  | zero =>
    refine gone_casAttempt_step hf (fun e tr => gone_casLost hf fun n tr hn => ?_) h
    cases hn
  | succ retries ih =>
    refine gone_casAttempt_step hf (fun e tr => gone_casLost hf fun n tr hn => ?_) h
    cases hn
    exact ih

/-- Every request goes in one of the four ways. -/
theorem gone_future (w : WriteRequest) {out : Option (Except WriteError w.Out)}
    (h : Future.Ends (enqueueOnDrop health) none (w.future json sinks health) tr out) :
    Gone health tr out := by
  cases w with
  | commit kb path body callerContentType conditionals => exact gone_commit h
  | commitCopy kb source destination options => exact gone_commitCopy h
  | patch request =>
    simp only [WriteRequest.future, patch] at h
    split at h
    · exact gone_ret passes_ret h
    · refine gone_casAttempt ?_ _ h
      exact passes_of _ (fun _ => rfl) fun _ => rfl
  | replace request =>
    simp only [WriteRequest.future, replace] at h
    split at h
    · exact gone_ret passes_ret h
    · split at h
      · exact gone_ret passes_ret h
      · refine gone_casAttempt ?_ _ h
        exact passes_of _ (fun _ => rfl) fun _ => rfl
  | commitDelete kb path conditionals => exact gone_commitDelete h

end Requests

/-! ## Where the guard stands -/

section Guard

variable {json : ManifestJson} {sinks : WriteSinks} {health : Bool} {α : Type}

/-- There is a guard while the request publishes, and at no other await. -/
abbrev Guarded {α : Type} (p : Task α) : Prop := Future.Guarded guard none none p

theorem guarded_reads {δ : Type} {p : Program δ} (hp : p.Only Reads fun _ => True)
    {f : δ → Task α} (hf : ∀ a, Guarded (f a)) : Guarded ((Future.lift p).bind f) := by
  refine Future.Guarded.bind (Future.guarded_lift (hp.mono (fun o ho => ?_) fun _ h => h)) hf
  cases o with
  | publish event => exact ho.elim
  | _ => rfl

theorem guarded_storage {o : StorageOp} {f : Except StorageError o.Out → Task α}
    (hf : ∀ r, Guarded (f r)) : Guarded ((Future.lift (Program.storage o)).bind f) :=
  ⟨rfl, hf⟩

theorem guarded_report {event : ObjectEvent} {after : WriteEffect} {indexEvent : IndexEvent}
    {backpressure : WriteError} (hguard : guard (.publish event) = some indexEvent) :
    Guarded (report sinks health event after indexEvent backpressure) := by
  have hannounce : (announce sinks event after).Only
      (fun o => guard o = some indexEvent) fun _ => True := by
    unfold announce
    split
    · refine ⟨hguard, fun r => ?_⟩
      cases r with
      | ok _ => trivial
      | error e => trivial
    · trivial
  show Future.Guarded guard none (some indexEvent) ((Future.lift (announce sinks event after)).bind _)
  refine Future.Guarded.bind (Future.guarded_lift hannounce) fun published => ?_
  show Future.Guarded guard none none ((Future.atOnce (offerToIndex health indexEvent)).bind _)
  refine Future.Guarded.bind Future.guarded_atOnce fun offered => ?_
  cases offered with
  | queued => rfl
  | full => rfl
  | closed => rfl

/-- A report, and a return of what its caller makes of the answer. -/
theorem guarded_reported {kb : KbSlug} {path : ObjectPath} {outcome : PutOutcome} {size : Nat}
    {mime : Text} {f : Except WriteError Unit → Task α} (herror : ∀ e, Guarded (f (.error e)))
    (hok : Guarded (f (.ok ()))) :
    Guarded ((afterWrite sinks health kb path outcome size mime).bind f) := by
  refine Future.Guarded.bind (guarded_report rfl) fun reported => ?_
  cases reported with
  | error e => exact herror e
  | ok _ => exact hok

theorem guarded_commit {kb : KbSlug} {path : ObjectPath} {body : StagedBody}
    {callerContentType : Option Text} {conditionals : ConditionalHeaders} :
    Guarded (commit json sinks health kb path body callerContentType conditionals) := by
  unfold commit
  split
  · rfl
  · split
    · rfl
    · refine guarded_storage fun r => ?_
      cases r with
      | error e => rfl
      | ok outcome => exact guarded_reported (fun _ => rfl) rfl

theorem guarded_commitCopy {kb : KbSlug} {source destination : ObjectPath}
    {options : CopyObjectOptions} :
    Guarded (commitCopy json sinks health kb source destination options) := by
  refine guarded_reads checkCopiedManifest_reads fun checked => ?_
  cases checked with
  | error e => rfl
  | ok _ =>
    refine guarded_storage fun r => ?_
    cases r with
    | error e => rfl
    | ok outcome =>
      have hstamp : (copyStamp sinks kb destination options.contentType).Only Reads
          fun _ => True := by
        unfold copyStamp
        split
        · trivial
        · refine .call trivial fun r => ?_
          cases r with
          | error e => trivial
          | ok objectMeta => trivial
      exact guarded_reads hstamp fun stamp => guarded_reported (fun _ => rfl) rfl

theorem guarded_commitDelete {kb : KbSlug} {path : ObjectPath} {conditionals : ConditionalHeaders} :
    Guarded (commitDelete sinks health kb path conditionals) := by
  refine guarded_storage fun r => ?_
  cases r with
  | ok outcome => exact guarded_report rfl
  | error e =>
    cases e with
    | notFound key => exact guarded_report rfl
    | _ => rfl

theorem guarded_casLost {T : Type} {target : CasRewrite}
    {splice : Bytes → Except WriteError (Bytes × T)} {retries : Nat}
    (hretry : ∀ n, retries = n + 1 → Guarded (casAttempt json sinks health target splice n))
    (e : StorageError) : Guarded (casLost json sinks health target splice retries e) := by
  cases retries with
  | zero => rfl
  | succ retries =>
    simp only [casLost]
    split
    · exact hretry retries rfl
    · rfl

/-- An attempt, if what it goes on with is fine. -/
theorem guarded_casAttempt_step {T : Type} {target : CasRewrite}
    {splice : Bytes → Except WriteError (Bytes × T)} {retries : Nat}
    (hlost : ∀ e, Guarded (casLost json sinks health target splice retries e)) :
    Guarded (casAttempt json sinks health target splice retries) := by
  rw [casAttempt]
  refine guarded_reads headAnchor_reads fun anchor => ?_
  cases anchor with
  | error e => rfl
  | ok headEtag =>
    refine guarded_storage fun read => ?_
    cases read with
    | error e => exact hlost e
    | ok read =>
      dsimp only
      split
      · rfl
      · split
        · rfl
        · refine guarded_storage fun put => ?_
          cases put with
          | error e => exact hlost e
          | ok outcome => exact guarded_reported (fun _ => rfl) rfl

theorem guarded_casAttempt {T : Type} {target : CasRewrite}
    {splice : Bytes → Except WriteError (Bytes × T)} (retries : Nat) :
    Guarded (casAttempt json sinks health target splice retries) := by
  induction retries with
  | zero => exact guarded_casAttempt_step (guarded_casLost nofun)
  | succ retries ih =>
    refine guarded_casAttempt_step (guarded_casLost fun n hn => ?_)
    cases hn
    exact ih

/-- Wherever a request awaits, its guard holds what `guard` says. -/
theorem future_guarded (w : WriteRequest) : Guarded (w.future json sinks health) := by
  cases w with
  | commit kb path body callerContentType conditionals => exact guarded_commit
  | commitCopy kb source destination options => exact guarded_commitCopy
  | patch request =>
    simp only [WriteRequest.future, patch]
    split
    · rfl
    · refine Future.Guarded.bind (guarded_casAttempt _) fun rewritten => ?_
      cases rewritten with
      | error e => rfl
      | ok _ => rfl
  | replace request =>
    simp only [WriteRequest.future, replace]
    split
    · rfl
    · split
      · rfl
      · refine Future.Guarded.bind (guarded_casAttempt _) fun rewritten => ?_
        cases rewritten with
        | error e => rfl
        | ok _ => rfl
  | commitDelete kb path conditionals => exact guarded_commitDelete

end Guard

/-! ## Handing over -/

section HandingOver

variable {α : Type} {health : Bool} {event : IndexEvent} {offered : Offered}
variable {tr before announced : List Entry} {out : Option (Except WriteError α)}

theorem filterMap_before {δ : Type} {f : Entry → Option δ}
    (hf : ∀ o r, f (.awaited (.storage o) r) = none) (h : ∀ e ∈ before, Storing event e) :
    before.filterMap f = [] := by
  refine List.filterMap_eq_nil_iff.mpr fun e he => ?_
  obtain ⟨⟨o, r, rfl⟩, -⟩ := h e he
  exact hf o r

theorem offers_offering : (offering health event offered).filterMap offer = [(event, offered)] := by
  cases health with
  | false => rfl
  | true => rfl

theorem stamps_offering : (offering health event offered).filterMap stampOf =
    if health then [healthStamp event.key.1 offered] else [] := by
  cases health with
  | false => rfl
  | true => rfl

theorem publications_offering : (offering health event offered).filterMap publication = [] := by
  cases health with
  | false => rfl
  | true => rfl

/-- The last entry of an offer is not an abandoned operation. -/
theorem not_droppedAtStamp_offering : ¬ DroppedAtStamp (tr ++ offering health event offered) := by
  rintro ⟨front, kb, source, destination, options, outcome, h⟩
  have hlast := congrArg List.getLast? h
  cases health with
  | false => simp [offering] at hlast
  | true => simp [offering] at hlast

/-- What the publication answered does not depend on the storage calls before it and the offer after
it. -/
theorem published_between (hbefore : ∀ e ∈ before, Storing event e) :
    published event (before ++ (announced ++ offering health event offered)) =
      published event announced := by
  unfold published
  rw [List.filterMap_append, List.filterMap_append, filterMap_before (fun _ _ => rfl) hbefore,
    publications_offering, List.append_nil, List.nil_append]

/-- A publication that failed is not backpressure. -/
theorem published_ne_backpressure :
    published event announced ≠ .error (backpressureOf event) := by
  unfold published
  split
  · cases event with
    | upsert kb path => simp [backpressureOf]
    | refresh kb path origin => simp [backpressureOf]
    | tombstone kb path => simp [backpressureOf]
  · simp

theorem answer_eq_backpressure_iff :
    answer event announced offered = .error (backpressureOf event) ↔ offered = .full := by
  unfold answer
  split
  · next hfull => exact iff_of_true rfl hfull
  · next hfull => exact iff_of_false published_ne_backpressure hfull

theorem eq_error_iff_map {ε : Type} {result : Except ε α} {e : ε} :
    result = .error e ↔ result.map (fun _ => ()) = .error e := by
  cases result with
  | error e' => simp [Except.map]
  | ok a => simp [Except.map]

/-- A request whose last entries are an offer has handed its change over, if it answers what the
announcement before the offer and the queue make of it. -/
theorem HandedOver.of_offering (hbefore : ∀ e ∈ before, Storing event e)
    (hoffers : announced.filterMap offer = []) (hstamps : announced.filterMap stampOf = [])
    (hout : ∀ result, out = some result →
      result.map (fun _ => ()) = answer event announced offered) :
    HandedOver health event (before ++ (announced ++ offering health event offered)) out offered where
  offers := by
    rw [List.filterMap_append, List.filterMap_append, filterMap_before (fun _ _ => rfl) hbefore,
      hoffers, offers_offering]
    rfl
  stamps := by
    rw [List.filterMap_append, List.filterMap_append, filterMap_before (fun _ _ => rfl) hbefore,
      hstamps, stamps_offering]
    rfl
  order := by
    refine ⟨before ++ announced, _, (List.append_assoc ..).symm, fun e he => ?_⟩
    have hnone := List.filterMap_eq_nil_iff.mp
      (publications_offering : (offering health event offered).filterMap publication = [])
    exact hnone e (List.mem_cons_of_mem _ he)
  refused result hresult := by
    rw [eq_error_iff_map, hout result hresult]
    exact answer_eq_backpressure_iff
  answered result hresult hne := by
    rw [hout result hresult, answer, if_neg hne, published_between hbefore]

theorem HandedOver.reported {result : Except WriteError α}
    (hbefore : ∀ e ∈ before, Storing event e) (hannounced : Announcement announced)
    (hresult : result.map (fun _ => ()) = answer event announced offered) :
    HandedOver health event (before ++ (announced ++ offering health event offered)) (some result)
      offered := by
  have hout : ∀ r, some result = some r → r.map (fun _ => ()) = answer event announced offered := by
    intro r hr
    cases hr
    exact hresult
  cases hannounced with
  | none => exact .of_offering hbefore rfl rfl hout
  | some e r => exact .of_offering hbefore rfl rfl hout

theorem HandedOver.guarded (hbefore : ∀ e ∈ before, Storing event e) (e : ObjectEvent) :
    HandedOver health event (before ++ .abandoned (.publish e) :: offering health event offered)
      (none : Option (Except WriteError α)) offered := by
  have hout : ∀ result, (none : Option (Except WriteError α)) = some result →
      result.map (fun _ => ()) = answer event [.abandoned (.publish e)] offered := by
    intro result hresult
    cases hresult
  exact of_offering hbefore rfl rfl hout

/-- The event of a change that storage made before the offer is the event offered. -/
theorem event_of_change (hbefore : ∀ e ∈ before, Storing event e)
    (htr : ∀ e ∈ tr, change e = none) {e : Entry} (he : e ∈ before ++ tr) {event' : IndexEvent}
    (hchange : change e = some event') : event' = event := by
  rcases List.mem_append.mp he with he | he
  · exact (hbefore e he).2 event' hchange
  · rw [htr e he] at hchange
    cases hchange

theorem Gone.handedOver_iff (h : Gone health tr out) {e : Entry} (he : e ∈ tr)
    (hchange : change e = some event) :
    (∃ offered, HandedOver health event tr out offered) ↔ ¬ DroppedAtStamp tr := by
  cases h with
  | unchanged hun =>
    rw [hun e he] at hchange
    cases hchange
  | @reported before announced event' offered result hbefore hannounced hresult =>
    obtain rfl : event = event' := by
      refine event_of_change hbefore ?_ he hchange
      exact List.forall_mem_append.mpr ⟨change_announcement hannounced, change_offering⟩
    refine iff_of_true ⟨offered, .reported hbefore hannounced hresult⟩ ?_
    rw [← List.append_assoc]
    exact not_droppedAtStamp_offering
  | @guarded before event' published offered hbefore =>
    obtain rfl : event = event' := by
      refine event_of_change hbefore ?_ he hchange
      exact List.forall_mem_cons.mpr ⟨rfl, change_offering⟩
    refine iff_of_true ⟨offered, .guarded hbefore published⟩ ?_
    rw [List.append_cons]
    exact not_droppedAtStamp_offering
  | @lost before kb source destination options outcome hbefore =>
    refine iff_of_false ?_ (not_not.mpr ⟨before, kb, source, destination, options, outcome, rfl⟩)
    rintro ⟨offered, hover⟩
    have hnone : ∀ entry ∈ before ++
        [.awaited (.storage (.copy kb source destination options)) (.ok outcome),
          .abandoned (.storage (.head kb destination {}))], offer entry = none := by
      intro entry hentry
      rcases List.mem_append.mp hentry with hentry | hentry
      · obtain ⟨⟨o, r, rfl⟩, -⟩ := hbefore entry hentry
        rfl
      · simp only [List.mem_cons, List.not_mem_nil, or_false] at hentry
        rcases hentry with rfl | rfl
        · rfl
        · rfl
    have hoffers := hover.offers
    rw [List.filterMap_eq_nil_iff.mpr hnone] at hoffers
    cases hoffers

end HandingOver

/-! ## Every change is handed over, except at a copy's HEAD -/

/-- A change that storage said it made is handed over exactly where the request is not a copy dropped
at the HEAD for its event's stamp. -/
theorem change_handed_over_iff (w : WriteRequest) (json : ManifestJson) (sinks : WriteSinks)
    (health : Bool) (tr : List Entry) (out : Option (Except WriteError w.Out))
    (h : Future.Ends (enqueueOnDrop health) none (w.future json sinks health) tr out)
    (e : Entry) (he : e ∈ tr) (event : IndexEvent) (hchange : change e = some event) :
    (∃ offered, HandedOver health event tr out offered) ↔ ¬ DroppedAtStamp tr :=
  (gone_future w h).handedOver_iff he hchange

section Records

/-- A document decoder that no request below consults. -/
def noJson : ManifestJson := ⟨fun _ => .error "expected value", fun _ => []⟩

/-- The record of a delete that was dropped while it published. -/
def deleteDropped : List Entry :=
  .awaited (.storage (.delete .notes .aMd {})) (Except.ok DeleteOutcome.deleted) ::
    .abandoned (.publish ⟨.notes, .aMd, .deleted, .http⟩) ::
    offering true (.tombstone .notes .aMd) .queued

/-- The guard of a dropped delete hands its tombstone over. -/
theorem change_handed_over_deleteDropped :
    ∃ offered, HandedOver true (.tombstone .notes .aMd) deleteDropped
      (none : Option (Except WriteError Unit)) offered := by
  have hends : Future.Ends (enqueueOnDrop true) none
      ((WriteRequest.commitDelete .notes .aMd {}).future noJson ⟨true, .http⟩ true) deleteDropped
      none := by
    refine .await _ ?_
    refine .arm ?_
    refine .dropped (.armed ?_)
    refine .op _ ?_
    refine .op _ ?_
    exact .ret ()
  refine (change_handed_over_iff (.commitDelete .notes .aMd {}) noJson ⟨true, .http⟩ true _ none
    hends _ List.mem_cons_self _ rfl).mpr ?_
  rintro ⟨front, kb, source, destination, options, outcome, h⟩
  have hlast := congrArg List.getLast? h
  simp [deleteDropped, offering] at hlast

/-- The record of a copy that was dropped at the HEAD for its event's stamp. -/
def copyDropped : List Entry :=
  [.awaited (.storage (.copy .notes .aMd .bMd ⟨none, none, none⟩))
      (Except.ok (PutOutcome.mk none true)),
    .abandoned (.storage (.head .notes .bMd {}))]

/-- Nobody offers the event of that copy. -/
theorem dropped_copy_not_handed_over :
    ¬ ∀ (w : WriteRequest) (json : ManifestJson) (sinks : WriteSinks) (health : Bool)
      (tr : List Entry) (out : Option (Except WriteError w.Out)),
      Future.Ends (enqueueOnDrop health) none (w.future json sinks health) tr out →
      ∀ e ∈ tr, ∀ event, change e = some event →
        ∃ offered, HandedOver health event tr out offered := by
  intro hall
  have hends : Future.Ends (enqueueOnDrop true) none
      ((WriteRequest.commitCopy .notes .aMd .bMd ⟨none, none, none⟩).future noJson ⟨true, .http⟩ true)
      copyDropped none := by
    simp only [WriteRequest.future, commitCopy, checkCopiedManifest]
    rw [if_pos (by decide)]
    refine .await _ ?_
    exact .dropped .disarmed
  obtain ⟨offered, hover⟩ := hall _ _ _ _ _ _ hends _ List.mem_cons_self (.upsert .notes .bMd) rfl
  have hoffers := hover.offers
  cases hoffers

end Records

end Write.Droppable
