-- SUMMARY: A read that begins after a write reports the content type the write declared, as long as no older read writes its record back after it.
import NotedThat.StorageFs.RecordedTags

/-!
# Recorded content types

The declared content type of an object is kept in its record and nowhere else. A read that finds the
record missing or stale writes it back with the type it found, or a guess, and it does so without a
lock: when a write finishes in between, what the read puts back is the type from before. The stamp
repairs the entity tag of such a record, but nothing repairs its type.
-/

namespace Sidecar

section Types

variable {parseHttpDate : Text → Except String Nat} {etagOf : Bytes → Text}
variable (k : Key) (c : Text)

/-! ## What a read is told and tells -/

/-- The record of `k` is there and has the type `c`. -/
def Typed : (o : Op) → o.Res → Prop
  | .load k', recorded => k' = k → ∃ attrs, recorded = some attrs ∧ attrs.contentType = some c
  | _, _ => True

/-- A read puts back and answers the type `c`. -/
def TellsType : Op → Prop
  | .repair k' attrs => k' = k → attrs.contentType = some c
  | .reply k' _ answer => k' = k → answer.contentType = some c
  | _ => True

variable {k c}

theorem discipline_types : Discipline etagOf (Typed k c) (TellsType k c) (fun _ _ => True)
    (fun _ _ => True) (fun k' _ attrs => k' = k → attrs.contentType = some c) where
  silent o ho := by
    cases o with
    | repair k' attrs => exact absurd trivial ho
    | reply k' metadata answer => exact absurd trivial ho
    | _ => trivial
  lstat _ _ _ := trivial
  opened _ _ _ := ⟨trivial, trivial⟩
  fresh k' metadata attrs _ hload _ hk := by
    obtain ⟨attrs', heq, htype⟩ := hload hk
    cases heq
    exact htype
  repair k' f recorded etag _ hload _ := by
    have hkept : k' = k → (repaired k' f recorded etag).contentType = some c := by
      intro hk
      obtain ⟨attrs, rfl, htype⟩ := hload hk
      simp [repaired, ObjectAttrs.new, htype]
    exact ⟨hkept, hkept⟩
  reply k' size metadata attrs htold := htold
  record _ _ _ _ _ _ := trivial

/-! ## What is on the disk -/

/-- The record has the type that the last write declared. -/
def Disk.Declared (s : Disk) (k : Key) : Prop :=
  ∀ c, s.declared k = some c → ∃ attrs, s.record k = some attrs ∧ attrs.contentType = some c

/-- Nothing was recorded about `k`. -/
structure SameRecord (k : Key) (s s' : Disk) : Prop where
  record : s'.record k = s.record k
  writes : s'.writes k = s.writes k
  declared : s'.declared k = s.declared k

theorem SameRecord.refl (k : Key) (s : Disk) : SameRecord k s s := ⟨rfl, rfl, rfl⟩

theorem sameRecord_repair {k' : Key} (h : k' ≠ k) (s : Disk) (attrs : ObjectAttrs) :
    SameRecord k s (s.repair k' attrs) :=
  ⟨Function.update_of_ne h.symm .., rfl, rfl⟩

theorem sameRecord_setRecord {k' : Key} (h : k' ≠ k) (s : Disk) (new : Option ObjectAttrs) :
    SameRecord k s (s.setRecord k' new) :=
  ⟨Function.update_of_ne h.symm .., Function.update_of_ne h.symm .., Function.update_of_ne h.symm ..⟩

/-- An operation leaves the record of `k` alone, or it is a repair or a write of it. -/
theorem Disk.Step.record_cases {s s' : Disk} {o : Op} {r : o.Res}
    (hs : Disk.Step etagOf s o r s') (k : Key) :
    SameRecord k s s' ∨ (∃ attrs, o = .repair k attrs ∧ s' = s.repair k attrs) ∨
      ∃ new, s' = s.setRecord k new := by
  cases hs with
  | repaired k' attrs =>
    by_cases hk : k' = k
    · exact .inr (.inl ⟨attrs, hk ▸ rfl, hk ▸ rfl⟩)
    · exact .inl (sameRecord_repair hk s attrs)
  | recorded k' attrs =>
    by_cases hk : k' = k
    · exact .inr (.inr ⟨some attrs, hk ▸ rfl⟩)
    · exact .inl (sameRecord_setRecord hk s (some attrs))
  | removed k' =>
    by_cases hk : k' = k
    · exact .inr (.inr ⟨none, hk ▸ rfl⟩)
    · exact .inl (sameRecord_setRecord hk s none)
  | renamed f k' => exact .inl ⟨rfl, rfl, rfl⟩
  | unlinked hf => exact .inl ⟨rfl, rfl, rfl⟩
  | _ => exact .inl (.refl k s)

theorem Disk.Edit.sameRecord {s s' : Disk} (hs : s.Edit s') (k : Key) : SameRecord k s s' := by
  cases hs with
  | replaced k' f => exact ⟨rfl, rfl, rfl⟩
  | removed k' => exact ⟨rfl, rfl, rfl⟩

theorem Disk.Step.typed {s s' : Disk} {o : Op} {r : o.Res} (hs : Disk.Step etagOf s o r s')
    (h : s.Declared k) (hc : s.declared k = some c) : Typed k c o r := by
  cases hs with
  | loaded k' =>
    rintro rfl
    exact h c hc
  | _ => trivial

theorem SameRecord.declared_of {s s' : Disk} (h : SameRecord k s s') (hs : s.Declared k) :
    s'.Declared k := by
  intro c hc
  rw [h.record]
  exact hs c (h.declared ▸ hc)

theorem declared_setRecord (s : Disk) (new : Option ObjectAttrs) : (s.setRecord k new).Declared k := by
  intro c hc
  rw [Disk.setRecord_declared] at hc
  rw [Disk.setRecord_record]
  exact Option.bind_eq_some_iff.mp hc

/-! ## Runs -/

/-- A read that began before the last write of `k` does not put back, after it, a record with
another content type than the write declared. -/
def NoLateRepair (k : Key) (P : Threads) (l : Label) (P' : Threads) : Prop :=
  ∀ since attrs c, l = .op since (.repair k attrs) → since k ≠ P.state.writes k →
    P.state.declared k = some c → P'.state.record k = some attrs → attrs.contentType = some c

/-- A read that began after the last write tells the type that write declared. -/
def Current (k : Key) (since : Key → Nat) (p : Task Unit) (s : Disk) : Prop :=
  since k ≤ s.writes k ∧ (since k = s.writes k → ∀ c, s.declared k = some c →
    p.Assures (Typed k c) (TellsType k c) fun _ => True)

/-- What happens to the record of `k` while others move: nothing that a read would notice, or
another write. -/
def Onward (k : Key) (s s' : Disk) : Prop :=
  s'.writes k = s.writes k ∧ s'.declared k = s.declared k ∨ s.writes k < s'.writes k

theorem Current.onward {since : Key → Nat} {p : Task Unit} {s s' : Disk} (h : Current k since p s)
    (hs : Onward k s s') : Current k since p s' := by
  rcases hs with ⟨hwrites, hdeclared⟩ | hlt
  · rw [Current, hwrites, hdeclared]
    exact h
  · have hle := h.1
    exact ⟨by omega, fun heq => by omega⟩

theorem SameRecord.onward {s s' : Disk} (h : SameRecord k s s') (hs : s.Declared k) :
    s'.Declared k ∧ Onward k s s' :=
  ⟨h.declared_of hs, .inl ⟨h.writes, h.declared⟩⟩

/-- One operation keeps the type of the record, unless it is the repair of an older read. -/
theorem Current.step {since : Key → Nat} {o : Op} {next : o.Res → Task Unit} {r : o.Res}
    {s s' : Disk} (h : Current k since (.op o next) s) (hdeclared : s.Declared k)
    (hs : Disk.Step etagOf s o r s')
    (hlate : ∀ attrs c, o = .repair k attrs → since k ≠ s.writes k → s.declared k = some c →
      s'.record k = some attrs → attrs.contentType = some c) :
    s'.Declared k ∧ Onward k s s' ∧ Current k since (next r) s' := by
  obtain ⟨hle, hassures⟩ := h
  rcases hs.record_cases k with hsame | ⟨attrs, rfl, rfl⟩ | ⟨new, rfl⟩
  · obtain ⟨hdeclared', honward⟩ := hsame.onward hdeclared
    refine ⟨hdeclared', honward, ?_⟩
    rw [Current, hsame.writes, hsame.declared]
    exact ⟨hle, fun heq c hc => (hassures heq c hc).2 r (hs.typed hdeclared hc)⟩
  · have hrecord := s.repair_record k attrs
    refine ⟨fun c hc => ⟨attrs, hrecord, ?_⟩, .inl ⟨rfl, rfl⟩, hle, ?_⟩
    · by_cases heq : since k = s.writes k
      · exact (hassures heq c hc).1 rfl
      · exact hlate attrs c rfl heq hc hrecord
    · exact fun heq c hc => (hassures heq c hc).2 r trivial
  · have hwrites := s.setRecord_writes k new
    exact ⟨declared_setRecord s new, .inr (by omega), by omega, fun heq => by omega⟩

variable {P P' : Threads} {l : Label}

theorem Run.types (h : Run parseHttpDate etagOf (NoLateRepair k) P) :
    P.state.Declared k ∧ ∀ th ∈ P.threads, Current k th.1 th.2 P.state := by
  induction h with
  | start => exact ⟨by simp [Disk.Declared, Disk.empty], by simp⟩
  | @step P P' l _ hs hlate ih =>
    obtain ⟨hdeclared, hthreads⟩ := ih
    refine hs.maintains (I := fun s => s.Declared k) (R := Onward k) (T := Current k) hthreads
      (fun _ _ _ _ hR hT => hT.onward hR) (fun he => (he.sameRecord k).onward hdeclared) ?_ ?_ ?_
    · rintro since p ⟨hp, rfl, heq⟩
      rw [heq]
      exact ⟨hdeclared, .inl ⟨rfl, rfl⟩, le_rfl, fun _ c _ => discipline_types.request hp⟩
    · intro since o next r hl hcurrent hsem
      exact hcurrent.step hdeclared hsem fun attrs c ho =>
        hlate since attrs c (ho ▸ hl)
    · rintro since heq
      rw [heq]
      exact ⟨hdeclared, .inl ⟨rfl, rfl⟩⟩
  | crash _ ih => exact ⟨ih.1, by simp⟩

end Types

/-- In every run in which no older read puts another content type back, a read that began after the
last write reports the content type that write declared. -/
theorem read_reports_declared_type (parseHttpDate : Text → Except String Nat)
    (etagOf : Bytes → Text) (k : Key) (c : Text) (P P' : Threads) (since : Key → Nat)
    (metadata : Metadata) (answer : ObjectMeta)
    (hrun : Run parseHttpDate etagOf (NoLateRepair k) P)
    (hs : Pool.Step (fsStorage parseHttpDate etagOf) P (.op since (.reply k metadata answer)) P')
    (hsince : since k = P.state.writes k) (hc : P.state.declared k = some c) :
    answer.contentType = some c := by
  obtain ⟨-, hthreads⟩ := hrun.types
  cases hs with
  | op hsem =>
    have hcurrent := hthreads _ (List.mem_append_right _ List.mem_cons_self)
    exact (hcurrent.2 hsince c hc).1 rfl

/-- A note as the server stored it. -/
def stored : File := ⟨[0x62], 1, 8, .ofSecs 1700000011 (by decide)⟩

section Witness

variable {parseHttpDate : Text → Except String Nat} {etagOf : Bytes → Text} {k : Key} {s s' : Disk}

/-- A request moves, and it is no repair. -/
theorem Run.other {since : Key → Nat} {o : Op} {next : o.Res → Task Unit} {r : o.Res}
    (h : Run parseHttpDate etagOf (NoLateRepair k) ⟨s, [(since, .op o next)]⟩)
    (hsem : Disk.Step etagOf s o r s') (ho : ¬ o.Tells ∨ ∃ attrs, o = .record k attrs) :
    Run parseHttpDate etagOf (NoLateRepair k) ⟨s', [(since, next r)]⟩ := by
  refine h.step (Pool.Step.op_head hsem) ?_
  rintro since attrs c ⟨⟩
  rcases ho with ho | ⟨_, ⟨⟩⟩
  exact absurd trivial ho

/-- A PUT of a new object, and a HEAD that answers from its record. -/
theorem Run.putThenHead (k : Key) (g : File) (c : Text) :
    ∃ P P' since metadata answer, Run parseHttpDate etagOf (NoLateRepair k) P ∧
      Pool.Step (fsStorage parseHttpDate etagOf) P (.op since (.reply k metadata answer)) P' ∧
      since k = P.state.writes k ∧ P.state.declared k = some c := by
  have hstart : Run parseHttpDate etagOf (NoLateRepair k) ⟨Disk.empty, []⟩ := .start
  have hspawned := hstart.step (.spawn ⟨.put k g.content (some c) {}, rfl, rfl⟩) nofun
  have hbucket := hspawned.other (.bucket _ (.ok ())) (.inl id)
  have hcurrent := hbucket.other (.lstatFailed k (.notFound k.2.val)) (.inl id)
  have hrenamed := (hcurrent.other (.staged g) (.inl id)).other (.renamed g k) (.inl id)
  have hput := hrenamed.other (.recorded k _) (.inr ⟨_, rfl⟩)
  have hreturned := hput.step (@Pool.Step.finish _ _ _ _ _ _ _ _ [] _ rfl) nofun
  have hhead := hreturned.step (.spawn ⟨.head k {}, rfl, rfl⟩) nofun
  have hlinked := (hhead.other (.bucket _ (.ok ())) (.inl id)).other (.lstat (Disk.place_file ..))
    (.inl id)
  have hloaded := hlinked.other (.loaded k) (.inl id)
  have hfresh : (ObjectAttrs.new (etagOf g.content) (some c) g.metadata).isFreshFor g.metadata = true :=
    ObjectAttrs.isFreshFor_new.mpr ⟨rfl, rfl, rfl⟩
  simp only [Prog.ret_bind, Prog.pure_eq, Disk.setRecord_record, Option.filter_some, hfresh,
    if_true] at hloaded
  exact ⟨_, _, _, _, _, hloaded, Pool.Step.op_head (.replied _ _ _), rfl, Disk.setRecord_declared ..⟩

end Witness

theorem read_reports_declared_type_stored : ∃ P P' since metadata answer,
    Run (fun _ => .error "invalid HTTP-date") shaOfLetters
        (NoLateRepair (KbSlug.notes, ObjectPath.aMd)) P ∧
      Pool.Step (fsStorage (fun _ => .error "invalid HTTP-date") shaOfLetters) P
        (.op since (.reply (KbSlug.notes, ObjectPath.aMd) metadata answer)) P' ∧
      answer.contentType = some "text/plain".toList := by
  obtain ⟨P, P', since, metadata, answer, hP, hs, hsince, hc⟩ :=
    Run.putThenHead (KbSlug.notes, ObjectPath.aMd) stored "text/plain".toList
  exact ⟨P, P', since, metadata, answer, hP, hs,
    read_reports_declared_type _ _ _ _ P P' since metadata answer hP hs hsince hc⟩

/-! ## A read that is overtaken -/

section Overtaken

variable {parseHttpDate : Text → Except String Nat} {etagOf : Bytes → Text} {k : Key}
variable (ts : List ((Key → Nat) × Task Unit)) {s : Disk} {f : File}

/-- A HEAD of an object with a stale record, or none, stops before it writes the record back. -/
theorem Run.pausedHead (h : Run parseHttpDate etagOf anyStep ⟨s, ts⟩) (hf : s.file k = some f)
    (hstale : (s.record k).filter (·.isFreshFor f.metadata) = none) :
    ∃ next, Run parseHttpDate etagOf anyStep
      ⟨s, ts ++ [(s.writes, .op (.repair k (repaired k f (s.record k) (etagOf f.content))) next)]⟩ := by
  have hspawned := h.step (.spawn ⟨.head k {}, rfl, rfl⟩) trivial
  have hbucket := Run.op ts hspawned (.bucket _ (.ok ()))
  simp only [Prog.ret_bind, Prog.bind_eq, Prog.bind_assoc] at hbucket
  exact ⟨_, Run.describe ts hbucket hf hstale⟩

/-- A HEAD of such an object answers what it writes back. -/
theorem Run.headStale (h : Run parseHttpDate etagOf anyStep ⟨s, ts⟩) (hf : s.file k = some f)
    (hstale : (s.record k).filter (·.isFreshFor f.metadata) = none) :
    ∃ P P', Run parseHttpDate etagOf anyStep P ∧
      P.state = s.repair k (repaired k f (s.record k) (etagOf f.content)) ∧
      Pool.Step (fsStorage parseHttpDate etagOf) P (.op s.writes (.reply k f.metadata
        (objectMeta k f.metadata.len f.metadata (repaired k f (s.record k) (etagOf f.content))))) P' := by
  have hspawned := h.step (.spawn ⟨.head k {}, rfl, rfl⟩) trivial
  have hbucket := Run.op ts hspawned (.bucket _ (.ok ()))
  simp only [Prog.ret_bind, Prog.bind_eq, Prog.bind_assoc] at hbucket
  have hrepaired := Run.op ts (Run.describe ts hbucket hf hstale) (.repaired k _)
  exact ⟨_, _, hrepaired, rfl, .op (.replied _ _ _)⟩

/-- A PUT over such an object runs from its start to its end. -/
theorem Run.put (g : File) (contentType : Option Text)
    (h : Run parseHttpDate etagOf anyStep ⟨s, ts⟩) (hf : s.file k = some f)
    (hstale : (s.record k).filter (·.isFreshFor f.metadata) = none) :
    Run parseHttpDate etagOf anyStep
      ⟨((s.repair k (repaired k f (s.record k) (etagOf f.content))).place k g).setRecord k
        (some (.new (etagOf g.content) contentType g.metadata)), ts⟩ := by
  have hspawned := h.step (.spawn ⟨.put k g.content contentType {}, rfl, rfl⟩) trivial
  have hbucket := Run.op ts hspawned (.bucket _ (.ok ()))
  simp only [Prog.ret_bind, Prog.bind_eq, current, Prog.bind_assoc] at hbucket
  have hrepaired := Run.op ts (Run.describe ts hbucket hf hstale) (.repaired k _)
  have hrenamed := Run.op ts (Run.op ts hrepaired (.staged g)) (.renamed g k)
  have hrecorded := Run.op ts hrenamed (.recorded k _)
  have hfinished := hrecorded.step (.finish rfl) trivial
  rwa [List.append_nil] at hfinished

/-- A HEAD hashes a file without a record, a PUT overtakes it, and then the HEAD writes back what it
guessed: the reads that follow report the guess. -/
theorem Run.overtaken (k : Key) (f g : File) (c : Text)
    (hstale : (repaired k f none (etagOf f.content)).isFreshFor g.metadata = false) :
    ∃ P P' since metadata answer, Run parseHttpDate etagOf anyStep P ∧
      Pool.Step (fsStorage parseHttpDate etagOf) P (.op since (.reply k metadata answer)) P' ∧
      since k = P.state.writes k ∧ P.state.declared k = some c ∧ P.state.file k = some g ∧
      answer.contentType = guessContentType k.2.val := by
  have hdropped : Run parseHttpDate etagOf anyStep ⟨Disk.empty.place k f, []⟩ :=
    Run.start.step (.env (.replaced k f)) trivial
  obtain ⟨next, hpaused⟩ := hdropped.pausedHead [] (Disk.place_file ..) rfl
  have hput := hpaused.put _ g (some c) (Disk.place_file ..) rfl
  have hlate := Run.op [] hput (.repaired k _)
  have hnone : Disk.empty.record k = none := rfl
  obtain ⟨P, P', hP, hstate, hs⟩ := hlate.headStale (k := k) (f := g) _ (by simp) (by simp [hnone, hstale])
  refine ⟨P, P', _, _, _, hP, hs, ?_, ?_, ?_, ?_⟩
  · simp [hstate]
  · simp [hstate, ObjectAttrs.new]
  · simp [hstate]
  · simp [objectMeta, repaired, ObjectAttrs.new, hnone]

end Overtaken

/-- The note as it had been dropped into the tree, without a record. -/
def droppedIn : File := ⟨[0x61], 1, 7, .ofSecs 1700000010 (by decide)⟩

/-- A HEAD hashes `a.md`, which was dropped into the tree, a PUT of plain text overtakes it, and the
HEAD writes back its guess: a HEAD after the PUT reports Markdown. -/
theorem overtaken_head_loses_type : ∃ P P' since metadata answer,
    Run (fun _ => .error "invalid HTTP-date") shaOfLetters anyStep P ∧
      Pool.Step (fsStorage (fun _ => .error "invalid HTTP-date") shaOfLetters) P
        (.op since (.reply (KbSlug.notes, ObjectPath.aMd) metadata answer)) P' ∧
      since (KbSlug.notes, ObjectPath.aMd) = P.state.writes (KbSlug.notes, ObjectPath.aMd) ∧
      P.state.declared (KbSlug.notes, ObjectPath.aMd) = some "text/plain".toList ∧
      P.state.file (KbSlug.notes, ObjectPath.aMd) = some stored ∧
      answer.contentType ≠ some "text/plain".toList := by
  have hstale : (repaired (KbSlug.notes, ObjectPath.aMd) droppedIn none
      (shaOfLetters droppedIn.content)).isFreshFor stored.metadata = false := by decide
  obtain ⟨P, P', since, metadata, answer, hP, hs, hsince, hc, hfile, htype⟩ :=
    Run.overtaken (KbSlug.notes, ObjectPath.aMd) droppedIn stored "text/plain".toList hstale
  refine ⟨P, P', since, metadata, answer, hP, hs, hsince, hc, hfile, ?_⟩
  rw [htype]
  decide

end Sidecar
