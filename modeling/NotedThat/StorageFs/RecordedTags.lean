-- SUMMARY: The entity tag a read of the filesystem store reports is the hash of the version it describes, as long as records tell versions apart.
import NotedThat.StorageFs.Sidecar
import Mathlib.Data.Set.Basic

/-!
# Recorded entity tags

A record is a cache: it is believed when its stamp is that of the file. Whatever the order of reads,
repairs, writes, crashes and edits, every record ever written describes one version of the object,
so a read reports a wrong tag only where two versions have one stamp. The stamp has nanoseconds and
the inode for that reason, but no times before 1970: these are all recorded as its start.
-/

namespace Sidecar

section Tags

variable {parseHttpDate : Text → Except String Nat} {etagOf : Bytes → Text}
variable (etagOf) (k : Key) (V : Set File)

/-! ## What is believed -/

/-- The record was computed for one of the versions. -/
def Describes (attrs : ObjectAttrs) : Prop :=
  ∃ f ∈ V, ∃ contentType, attrs = .new (etagOf f.content) contentType f.metadata

/-- An answer tells of the versions of `k` what is so. -/
def Truthful : (o : Op) → o.Res → Prop
  | .lstat k', .ok metadata => k' = k → ∃ f ∈ V, f.metadata = metadata
  | .openFile k', .ok f => k' = k → f ∈ V
  | .hashFile f, .ok etag => etag = etagOf f.content
  | .load k', recorded => k' = k → ∀ attrs, recorded = some attrs → Describes etagOf V attrs
  | .stage content, .ok f => f.content = content
  | .rename f k', .ok () => k' = k → f ∈ V
  | _, _ => True

/-- The entity tag is the hash of the version the stat is of. -/
def TagOf (metadata : Metadata) (etag : Option Text) : Prop :=
  (∃ f ∈ V, f.metadata = metadata) ∧ ∀ f ∈ V, f.metadata = metadata → etag = some (etagOf f.content)

/-- What is written and answered about `k` is right. -/
def Right : Op → Prop
  | .repair k' attrs => k' = k → Describes etagOf V attrs
  | .record k' attrs => k' = k → Describes etagOf V attrs
  | .reply k' metadata answer => k' = k → TagOf etagOf V metadata answer.etag
  | _ => True

/-- Versions whose records have one stamp have one content. -/
def Recordable : Prop :=
  ∀ f ∈ V, ∀ g ∈ V, f.content.length = g.content.length → splitMtime f.metadata = splitMtime g.metadata →
    f.ino = g.ino → f.content = g.content

variable {etagOf k V}

theorem TagOf.of_mem (hV : Recordable V) {f : File} (hf : f ∈ V) :
    TagOf etagOf V f.metadata (some (etagOf f.content)) := by
  refine ⟨⟨f, hf, rfl⟩, fun g hg hmeta => ?_⟩
  have hlen := congrArg Metadata.len hmeta
  have hino := congrArg Metadata.ino hmeta
  rw [hV g hg f hf hlen (congrArg splitMtime hmeta) hino]

theorem TagOf.of_fresh (hV : Recordable V) {metadata : Metadata} {attrs : ObjectAttrs}
    (hstat : ∃ f ∈ V, f.metadata = metadata) (hattrs : Describes etagOf V attrs)
    (hfresh : attrs.isFreshFor metadata = true) : TagOf etagOf V metadata (some attrs.etag) := by
  obtain ⟨f, hf, rfl⟩ := hstat
  obtain ⟨g, hg, contentType, rfl⟩ := hattrs
  obtain ⟨hlen, hmtime, hino⟩ := ObjectAttrs.isFreshFor_new.mp hfresh
  have hcontent : g.content = f.content := hV g hg f hf hlen hmtime hino
  exact hcontent ▸ TagOf.of_mem hV hf

/-- Whoever is told the truth about `k` records and reports it. -/
theorem discipline_tags (hV : Recordable V) :
    Discipline etagOf (Truthful etagOf k V) (Right etagOf k V)
      (fun k' metadata => k' = k → ∃ f ∈ V, f.metadata = metadata) (fun k' f => k' = k → f ∈ V)
      (fun k' metadata attrs => k' = k → TagOf etagOf V metadata (some attrs.etag)) where
  silent o ho := by
    cases o with
    | repair k' attrs => exact absurd trivial ho
    | record k' attrs => exact absurd trivial ho
    | reply k' metadata answer => exact absurd trivial ho
    | _ => trivial
  lstat k' metadata h := h
  opened k' f h := ⟨h, fun hk => ⟨f, h hk, rfl⟩⟩
  fresh k' metadata attrs hstat hload hfresh hk :=
    TagOf.of_fresh hV (hstat hk) (hload hk attrs rfl) hfresh
  repair k' f recorded etag hf _ hhash := by
    cases hhash
    exact ⟨fun hk => ⟨f, hf hk, _, rfl⟩, fun hk => TagOf.of_mem hV (hf hk)⟩
  reply k' size metadata attrs htold := htold
  record k' f content contentType hstage hrename := by
    cases hstage
    exact fun hk => ⟨f, hrename hk, contentType, rfl⟩

/-! ## What is on the disk -/

/-- The object and its record are of the versions. -/
structure Kept (etagOf : Bytes → Text) (k : Key) (V : Set File) (s : Disk) : Prop where
  file : ∀ f, s.file k = some f → f ∈ V
  record : ∀ attrs, s.record k = some attrs → Describes etagOf V attrs

/-- Every file `k` has had is of the versions. -/
def Within (k : Key) (V : Set File) (s : Disk) : Prop := ∀ f ∈ s.placed k, f ∈ V

theorem Within.of_place {s : Disk} {k' : Key} {f : File} (h : Within k V (s.place k' f)) :
    Within k V s ∧ (k' = k → f ∈ V) := by
  by_cases hk : k' = k
  · subst hk
    simp only [Within, Disk.place_placed, List.forall_mem_cons] at h
    exact ⟨h.2, fun _ => h.1⟩
  · refine ⟨fun g hg => h g ?_, fun heq => absurd heq hk⟩
    simpa only [Disk.place, Function.update_of_ne (Ne.symm hk)] using hg

theorem Kept.place {s : Disk} (h : Kept etagOf k V s) {k' : Key} {f : File} (hf : k' = k → f ∈ V) :
    Kept etagOf k V (s.place k' f) := by
  refine ⟨fun g hg => ?_, h.record⟩
  by_cases hk : k' = k
  · subst hk
    simp only [Disk.place_file, Option.some.injEq] at hg
    exact hg ▸ hf rfl
  · simp only [Disk.place, Function.update_of_ne (Ne.symm hk)] at hg
    exact h.file g hg

theorem Kept.unlink {s : Disk} (h : Kept etagOf k V s) (k' : Key) :
    Kept etagOf k V (s.unlink k') := by
  refine ⟨fun g hg => ?_, h.record⟩
  by_cases hk : k' = k
  · subst hk
    simp [Disk.unlink] at hg
  · simp only [Disk.unlink, Function.update_of_ne (Ne.symm hk)] at hg
    exact h.file g hg

/-- The record may be replaced by one that is right. -/
theorem Kept.of_record {s s' : Disk} (h : Kept etagOf k V s) {k' : Key} {new : Option ObjectAttrs}
    (hfile : s'.file = s.file) (hrecord : s'.record = Function.update s.record k' new)
    (hnew : k' = k → ∀ attrs, new = some attrs → Describes etagOf V attrs) :
    Kept etagOf k V s' := by
  refine ⟨fun f hf => h.file f (hfile ▸ hf), fun attrs hattrs => ?_⟩
  rw [hrecord] at hattrs
  by_cases hk : k' = k
  · subst hk
    rw [Function.update_self] at hattrs
    exact hnew rfl attrs hattrs
  · rw [Function.update_of_ne (Ne.symm hk)] at hattrs
    exact h.record attrs hattrs

theorem Disk.Step.within {s s' : Disk} {o : Op} {r : o.Res} (hs : Disk.Step etagOf s o r s')
    (h : Within k V s') : Within k V s := by
  cases hs with
  | renamed f k' => exact h.of_place.1
  | _ => exact h

theorem Disk.Edit.within {s s' : Disk} (hs : s.Edit s') (h : Within k V s') : Within k V s := by
  cases hs with
  | replaced k' f => exact h.of_place.1
  | removed k' => exact h

/-- The disk tells the truth, and a right operation keeps it so. -/
theorem Kept.step {s s' : Disk} {o : Op} {r : o.Res} (h : Kept etagOf k V s)
    (hs : Disk.Step etagOf s o r s') (hwithin : Within k V s') (hright : Right etagOf k V o) :
    Kept etagOf k V s' ∧ Truthful etagOf k V o r := by
  cases hs with
  | lstat hf => exact ⟨h, fun hk => ⟨_, h.file _ (hk ▸ hf), rfl⟩⟩
  | opened hf => exact ⟨h, fun hk => h.file _ (hk ▸ hf)⟩
  | hashed f => exact ⟨h, rfl⟩
  | loaded k' => exact ⟨h, fun hk attrs hattrs => h.record attrs (hk ▸ hattrs)⟩
  | repaired k' attrs =>
    refine ⟨h.of_record rfl rfl fun hk attrs hattrs => ?_, trivial⟩
    cases hattrs
    exact hright hk
  | staged f => exact ⟨h, rfl⟩
  | renamed f k' =>
    have hf := hwithin.of_place.2
    exact ⟨h.place hf, hf⟩
  | recorded k' attrs =>
    refine ⟨h.of_record rfl rfl fun hk attrs hattrs => ?_, trivial⟩
    cases hattrs
    exact hright hk
  | unlinked hf => exact ⟨h.unlink _, trivial⟩
  | removed k' => exact ⟨h.of_record rfl rfl (by simp), trivial⟩
  | _ => exact ⟨h, trivial⟩

theorem Kept.edit {s s' : Disk} (h : Kept etagOf k V s) (hs : s.Edit s') (hwithin : Within k V s') :
    Kept etagOf k V s' := by
  cases hs with
  | replaced k' f => exact h.place hwithin.of_place.2
  | removed k' => exact h.unlink k'

/-! ## Runs -/

variable {P P' : Threads} {l : Label}

theorem step_within (hs : Pool.Step (fsStorage parseHttpDate etagOf) P l P')
    (h : Within k V P'.state) : Within k V P.state := by
  cases hs with
  | env he => exact he.within h
  | spawn hsp =>
    obtain ⟨-, -, rfl⟩ := hsp
    exact h
  | op hsem => exact hsem.within h
  | finish hf =>
    cases hf
    exact h

theorem Run.tags {allowed : Threads → Label → Threads → Prop} (hV : Recordable V)
    (h : Run parseHttpDate etagOf allowed P) (hwithin : Within k V P.state) :
    Kept etagOf k V P.state ∧
      ∀ th ∈ P.threads, th.2.Assures (Truthful etagOf k V) (Right etagOf k V) fun _ => True := by
  induction h with
  | start => exact ⟨⟨by simp [Disk.empty], by simp [Disk.empty]⟩, by simp⟩
  | @step P P' l _ hs _ ih =>
    obtain ⟨hkept, hthreads⟩ := ih (step_within hs hwithin)
    refine hs.maintains (I := Kept etagOf k V) (R := fun _ _ => True)
      (T := fun _ p _ => p.Assures (Truthful etagOf k V) (Right etagOf k V) fun _ => True) hthreads
      (fun _ _ _ _ _ hp => hp) (fun he => ⟨hkept.edit he hwithin, trivial⟩) ?_ ?_ ?_
    · rintro since p ⟨hp, -, heq⟩
      exact ⟨heq ▸ hkept, trivial, (discipline_tags hV).request hp⟩
    · intro since o c r _ hp hsem
      obtain ⟨hkept', htruth⟩ := hkept.step hsem hwithin hp.1
      exact ⟨hkept', trivial, hp.2 r htruth⟩
    · rintro since heq
      exact ⟨heq ▸ hkept, trivial⟩
  | crash _ ih => exact ⟨(ih hwithin).1, by simp⟩

/-- A reply reports the hash of the version it describes. -/
theorem Run.reply {allowed : Threads → Label → Threads → Prop} (hV : Recordable V)
    (h : Run parseHttpDate etagOf allowed P) (hwithin : Within k V P.state) {since : Key → Nat}
    {metadata : Metadata} {answer : ObjectMeta}
    (hs : Pool.Step (fsStorage parseHttpDate etagOf) P (.op since (.reply k metadata answer)) P') :
    TagOf etagOf V metadata answer.etag := by
  obtain ⟨-, hthreads⟩ := h.tags hV hwithin
  cases hs with
  | op hsem => exact (hthreads _ (List.mem_append_right _ List.mem_cons_self)).1 rfl

/-! ## Which versions a record tells apart -/

/-- If stamps tell versions apart, so do records, except before 1970. -/
theorem recordable_of_stamps
    (hstamp : ∀ f ∈ V, ∀ g ∈ V, f.stamp = g.stamp → f.content = g.content)
    (h : ∀ f ∈ V, ∀ g ∈ V, f.content ≠ g.content → f.content.length = g.content.length →
      f.ino = g.ino → ¬ (f.modified.UpToEpoch ∧ g.modified.UpToEpoch)) : Recordable V := by
  intro f hf g hg hlen hmtime hino
  rcases splitMtime_eq_iff.mp hmtime with hmodified | hold
  · exact hstamp f hf g hg (Prod.ext hlen (Prod.ext hmodified hino))
  · by_contra hne
    exact h f hf g hg hne hlen hino hold

/-- A walk over an object without a record leaves one. -/
theorem Run.walk {s : Disk} {f : File} (h : Run parseHttpDate etagOf anyStep ⟨s, []⟩)
    (hf : s.file k = some f) (hrecord : s.record k = none) :
    Run parseHttpDate etagOf anyStep ⟨s.repair k (repaired k f none (etagOf f.content)), []⟩ := by
  have hspawned := h.step (.spawn ⟨.walk k, rfl, rfl⟩) trivial
  have hdescribed := Run.describe [] hspawned hf (by simp [hrecord])
  rw [hrecord] at hdescribed
  exact (Run.op [] hdescribed (.repaired k _)).step (@Pool.Step.finish _ _ _ _ _ _ _ _ [] _ rfl) trivial

/-- A HEAD answers from a fresh record. -/
theorem Run.head {s : Disk} {f : File} {attrs : ObjectAttrs}
    (h : Run parseHttpDate etagOf anyStep ⟨s, []⟩) (hf : s.file k = some f)
    (hrecord : s.record k = some attrs) (hfresh : attrs.isFreshFor f.metadata = true) :
    ∃ P P', Run parseHttpDate etagOf anyStep P ∧ P.state = s ∧
      Pool.Step (fsStorage parseHttpDate etagOf) P
        (.op s.writes (.reply k f.metadata (objectMeta k f.metadata.len f.metadata attrs))) P' := by
  have hload : Disk.Step etagOf s (.load k) (some attrs) s := hrecord ▸ .loaded k
  have hspawned := h.step (.spawn ⟨.head k {}, rfl, rfl⟩) trivial
  have hlinked := Run.op [] (Run.op [] hspawned (.bucket _ (.ok ()))) (.lstat hf)
  have hloaded := Run.op [] hlinked hload
  simp only [Prog.ret_bind, Prog.pure_eq, Option.filter_some, hfresh, if_true] at hloaded
  exact ⟨_, _, hloaded, rfl, Pool.Step.op_head (.replied _ _ _)⟩

/-- Where two versions are recorded alike, an edit from the one to the other is reported under the
old tag. -/
theorem Run.collision {f g : File} (hlen : f.content.length = g.content.length)
    (hmtime : splitMtime f.metadata = splitMtime g.metadata) (hino : f.ino = g.ino) :
    ∃ P P' since answer, Run parseHttpDate etagOf anyStep P ∧ P.state.placed k = [g, f] ∧
      Pool.Step (fsStorage parseHttpDate etagOf) P (.op since (.reply k g.metadata answer)) P' ∧
      answer.etag = some (etagOf f.content) := by
  have hplaced : Run parseHttpDate etagOf anyStep ⟨Disk.empty.place k f, []⟩ :=
    Run.start.step (.env (.replaced k f)) trivial
  have hedited := (hplaced.walk (Disk.place_file ..) rfl).step (.env (.replaced k g)) trivial
  have hfresh : (repaired k f none (etagOf f.content)).isFreshFor g.metadata = true :=
    ObjectAttrs.isFreshFor_new.mpr ⟨hlen, hmtime, hino⟩
  obtain ⟨P, P', hP, hstate, hs⟩ :=
    hedited.head (Disk.place_file ..) (Disk.repair_record ..) hfresh
  refine ⟨P, P', _, _, hP, ?_, hs, rfl⟩
  simp [hstate, Disk.empty]

end Tags

/-- The versions of `k` there have been. -/
abbrev Disk.versions (s : Disk) (k : Key) : Set File := {f | f ∈ s.placed k}

/-- In every run every entity tag reported is the hash of the version described, if and only if no
two versions that differ in content have one size, one inode and both a modification time not after
the start of 1970. -/
theorem reported_tag_is_hash_iff (parseHttpDate : Text → Except String Nat) (etagOf : Bytes → Text)
    (hsha : Function.Injective etagOf) (k : Key) (V : Set File)
    (hstamp : ∀ f ∈ V, ∀ g ∈ V, f.stamp = g.stamp → f.content = g.content) :
    (∀ P P' since metadata answer, Run parseHttpDate etagOf anyStep P → P.state.versions k ⊆ V →
      Pool.Step (fsStorage parseHttpDate etagOf) P (.op since (.reply k metadata answer)) P' →
      TagOf etagOf (P.state.versions k) metadata answer.etag) ↔
    ∀ f ∈ V, ∀ g ∈ V, f.content ≠ g.content → f.content.length = g.content.length →
      f.ino = g.ino → ¬ (f.modified.UpToEpoch ∧ g.modified.UpToEpoch) := by
  constructor
  · intro h f hf g hg hne hlen hino hold
    obtain ⟨P, P', since, answer, hP, hplaced, hs, htag⟩ :=
      Run.collision (k := k) (f := f) (g := g) hlen (splitMtime_eq_iff.mpr (.inr hold)) hino
    have hsub : P.state.versions k ⊆ V := by
      intro f' hf'
      have hmem : f' ∈ [g, f] := hplaced ▸ hf'
      rcases List.mem_pair.mp hmem with rfl | rfl
      · exact hg
      · exact hf
    have htag' := (h P P' since _ answer hP hsub hs).2 g (by simp [hplaced]) rfl
    rw [htag, Option.some.injEq] at htag'
    exact hne (hsha htag')
  · intro h P P' since metadata answer hP hsub hs
    have hV := recordable_of_stamps hstamp h
    exact hP.reply (fun f hf g hg => hV f (hsub hf) g (hsub hg)) (fun _ hf => hf) hs

/-- The tag of the note `a`. -/
def tagOfA : Text := "\"ca978112ca1bbdcafac231b39a23dc4da786eff8147c4e72b9807785afee48bb\"".toList

/-- The tag of the note `b`. -/
def tagOfB : Text := "\"3e23e8160039594a33894f6564e1b1348bbd7a0088d42c4acb73eeaed59c009d\"".toList

/-- The SHA-256 of `a` and of `b`, and of nothing else. -/
def shaOfLetters (bytes : Bytes) : Text :=
  if bytes = [0x61] then tagOfA
  else if bytes = [0x62] then tagOfB
  else '→' :: bytes.map fun b => Char.ofNat b.toNat

theorem ofNat_toNat_injective : Function.Injective fun b : UInt8 => Char.ofNat b.toNat := by
  intro b c hbc
  have hval : b.toNat = c.toNat := by
    rw [← Utf8.toNat_ofNat_toNat b, ← Utf8.toNat_ofNat_toNat c]
    exact congrArg Char.toNat hbc
  exact UInt8.toNat_inj.mp hval

theorem shaOfLetters_injective : Function.Injective shaOfLetters := by
  have hab : tagOfA ≠ tagOfB := by
    refine mt String.toList_inj.mp ?_
    decide
  have ha : ∀ t, tagOfA ≠ '→' :: t := fun t h => by
    have hquote : '"' = '→' := (List.cons.inj (String.toList_ofList.symm.trans h)).1
    exact absurd hquote (by decide)
  have hb : ∀ t, tagOfB ≠ '→' :: t := fun t h => by
    have hquote : '"' = '→' := (List.cons.inj (String.toList_ofList.symm.trans h)).1
    exact absurd hquote (by decide)
  intro x y h
  simp only [shaOfLetters] at h
  split at h
  · next hx =>
    split at h
    · next hy => rw [hx, hy]
    · split at h
      · exact absurd h hab
      · exact absurd h (ha _)
  · split at h
    · next hx =>
      split at h
      · exact absurd h.symm hab
      · split at h
        · next hy => rw [hx, hy]
        · exact absurd h (hb _)
    · split at h
      · exact absurd h.symm (ha _)
      · split at h
        · exact absurd h.symm (hb _)
        · exact List.map_injective_iff.mpr ofNat_toNat_injective (List.cons.inj h).2

/-- A note of one letter, saved under inode 7 in a second of the clock. -/
def oneLetter (letter : UInt8) (secs : Int) (inRange : -2 ^ 63 ≤ secs ∧ secs < 2 ^ 63) : File :=
  ⟨[letter], 1, 7, .ofSecs secs inRange⟩

/-- Two saves after 1970. -/
def recentSaves : Set File :=
  { f | f = oneLetter 0x61 1700000000 (by decide) ∨ f = oneLetter 0x62 1700000001 (by decide) }

theorem reported_tag_is_hash_iff_recentSaves :
    (∀ f ∈ recentSaves, ∀ g ∈ recentSaves, f.stamp = g.stamp → f.content = g.content) ∧
    ∀ P P' since metadata answer,
      Run (fun _ => .error "invalid HTTP-date") shaOfLetters anyStep P →
      P.state.versions (KbSlug.notes, ObjectPath.aMd) ⊆ recentSaves →
      Pool.Step (fsStorage (fun _ => .error "invalid HTTP-date") shaOfLetters) P
        (.op since (.reply (KbSlug.notes, ObjectPath.aMd) metadata answer)) P' →
      TagOf shaOfLetters (P.state.versions (KbSlug.notes, ObjectPath.aMd)) metadata answer.etag := by
  have hstamped : ∀ f ∈ recentSaves, ∀ g ∈ recentSaves, f.stamp = g.stamp → f.content = g.content := by
    rintro f (rfl | rfl) g (rfl | rfl) hstamp
    · rfl
    · cases (show (1700000000 : Int) = 1700000001 from congrArg (fun s => s.2.1.secs) hstamp)
    · cases (show (1700000001 : Int) = 1700000000 from congrArg (fun s => s.2.1.secs) hstamp)
    · rfl
  refine ⟨hstamped, (reported_tag_is_hash_iff _ shaOfLetters shaOfLetters_injective _ recentSaves
    hstamped).mpr ?_⟩
  rintro f (rfl | rfl) g - - - - ⟨hold, -⟩
  · simp [oneLetter, SystemTime.ofSecs, SystemTime.UpToEpoch] at hold
  · simp [oneLetter, SystemTime.ofSecs, SystemTime.UpToEpoch] at hold

/-- An editor saves `b` over `a`, in the last seconds of 1969 and under the inode of `a`: the stamps
differ, and a HEAD still reports the hash of `a`. -/
theorem edit_before_1970_keeps_tag : Function.Injective shaOfLetters ∧
    ∃ P P' since metadata answer,
      Run (fun _ => .error "invalid HTTP-date") shaOfLetters anyStep P ∧
      (∀ f ∈ P.state.versions (KbSlug.notes, ObjectPath.aMd),
        ∀ g ∈ P.state.versions (KbSlug.notes, ObjectPath.aMd),
          f.stamp = g.stamp → f.content = g.content) ∧
      Pool.Step (fsStorage (fun _ => .error "invalid HTTP-date") shaOfLetters) P
        (.op since (.reply (KbSlug.notes, ObjectPath.aMd) metadata answer)) P' ∧
      ¬ TagOf shaOfLetters (P.state.versions (KbSlug.notes, ObjectPath.aMd)) metadata answer.etag := by
  refine ⟨shaOfLetters_injective, ?_⟩
  obtain ⟨P, P', since, answer, hP, hplaced, hs, htag⟩ :=
    Run.collision (k := (KbSlug.notes, ObjectPath.aMd)) (f := oneLetter 0x61 (-2) (by decide))
      (g := oneLetter 0x62 (-1) (by decide)) rfl (by decide) rfl
  refine ⟨P, P', since, _, answer, hP, ?_, hs, ?_⟩
  · simp only [Disk.versions, Set.mem_ofPred_eq, hplaced, List.mem_pair]
    rintro f (rfl | rfl) g (rfl | rfl) hstamp
    · rfl
    · cases (show (-1 : Int) = -2 from congrArg (fun s => s.2.1.secs) hstamp)
    · cases (show (-2 : Int) = -1 from congrArg (fun s => s.2.1.secs) hstamp)
    · rfl
  · intro htag'
    have hwrong := htag'.2 _ (by simp [hplaced]) rfl
    rw [htag] at hwrong
    cases shaOfLetters_injective (Option.some.inj hwrong)

end Sidecar
