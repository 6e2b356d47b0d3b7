-- SUMMARY: When an index that agrees on one entity tag holds the whole document, over every run of handlings of one key.
import NotedThat.Core.Versions
import NotedThat.Indexer.Specs
import Mathlib.Data.Set.List

/-!
# Half-written indexes

`indexed_etag` reports an entity tag when all points of an object carry it, and a refresh skips
the object then. A handling that stops between two batches leaves the first chunks of the new
version over the points of the old one. As long as a point of the old version is left, the points
disagree and nothing is skipped; where none is left, the object looks indexed and is not.
-/

namespace IndexCompleteness

open Prog (wp)
open Semantics (Event)
open Indexer

/-! ## What the points of a key may be -/

section Points

variable (worker : IndexerWorker) (k : Key) (history : List (Key × Version))

/-- Every point is a chunk of the version its entity tag names. -/
def Sound (s : PointSet) : Prop :=
  ∀ p ∈ s, ∃ v items, (k, v) ∈ history ∧ p.etag = v.etag.val ∧
    chunkStream worker k.2 v.bytes = .ok items ∧ items[p.chunkIndex]? = some (.ok p.chunk)

/-- If the points agree on an entity tag, they are all chunks of the version it names. -/
def Complete (s : PointSet) : Prop :=
  ∀ e, s.indexedEtag = some e → ∃ v chunks, (k, v) ∈ history ∧ v.etag.val = e ∧
    chunkStream worker k.2 v.bytes = .ok (chunks.map .ok) ∧ IsChunkSet s chunks e

/-- The condition on a handling that upserted `m` points of what it read, over `pre`: if it stopped
early, `pre` has a point of another version behind them, or a point for each chunk that is
missing. -/
def LeavesMark (pre : PointSet) (m : Nat) (read : Option ObjectRead) : Prop :=
  ∀ r items, read = some r → chunkStream worker k.2 r.bytes = .ok items → 0 < m →
    m < items.length →
    (∃ p ∈ pre, m ≤ p.chunkIndex ∧ some p.etag ≠ r.objectMeta.etag) ∨
      ∀ i, m ≤ i → i < items.length → ∃ p ∈ pre, p.chunkIndex = i

variable {worker k history} {pre s : PointSet} {m : Nat} {read : Option ObjectRead}
variable {S : Semantics} {skip : Skip}

theorem Complete.of_mem_iff (h : ∀ p, p ∈ s ↔ p ∈ pre) (hpre : Complete worker k history pre) :
    Complete worker k history s := by
  intro e he
  simp only [PointSet.mem_indexedEtag, h] at he
  obtain ⟨v, chunks, hv, hetag, hstream, hset⟩ := hpre e (PointSet.mem_indexedEtag.mpr he)
  refine ⟨v, chunks, hv, hetag, hstream, ?_⟩
  rw [isChunkSet_iff] at hset ⊢
  simpa only [h] using hset

theorem sound_empty : Sound worker k history .empty := fun _ hp => absurd hp PointSet.not_mem_empty

theorem complete_empty : Complete worker k history .empty := fun e he => by cases he

theorem Sound.mono {history' : List (Key × Version)} (hsub : ∀ e ∈ history, e ∈ history')
    (hs : Sound worker k history s) : Sound worker k history' s := by
  intro p hp
  obtain ⟨v, items, hv, hrest⟩ := hs p hp
  exact ⟨v, items, hsub _ hv, hrest⟩

theorem Complete.mono {history' : List (Key × Version)} (hsub : ∀ e ∈ history, e ∈ history')
    (hs : Complete worker k history s) : Complete worker k history' s := by
  intro e he
  obtain ⟨v, chunks, hv, hrest⟩ := hs e he
  exact ⟨v, chunks, hsub _ hv, hrest⟩

/-- The whole of a version is complete, and sound. -/
theorem complete_of_isChunkSet {v : Version} {chunks : List Chunk} (hv : (k, v) ∈ history)
    (hstream : chunkStream worker k.2 v.bytes = .ok (chunks.map .ok))
    (hset : IsChunkSet s chunks v.etag.val) : Complete worker k history s := by
  intro e he
  obtain ⟨⟨p, hp⟩, hall⟩ := PointSet.mem_indexedEtag.mp he
  obtain rfl : v.etag.val = e := (hset.2 p hp).symm.trans (hall p hp)
  exact ⟨v, chunks, hv, rfl, hstream, hset⟩

theorem sound_of_isChunkSet {v : Version} {chunks : List Chunk} (hv : (k, v) ∈ history)
    (hstream : chunkStream worker k.2 v.bytes = .ok (chunks.map .ok))
    (hset : IsChunkSet s chunks v.etag.val) : Sound worker k history s := by
  intro p hp
  obtain ⟨hetag, hchunk⟩ := (isChunkSet_iff.mp hset).1 p hp
  exact ⟨v, _, hv, hetag, hstream, by rw [List.getElem?_map, hchunk]; rfl⟩

/-! ## A handling that stopped -/

section Stopped

variable {v : Version} {snapshot : PreparedSnapshot} {items : List (Except String Chunk)}
variable {done : List Chunk}

theorem sound_of_written (hv : (k, v) ∈ history)
    (hetag : snapshot.objectMeta.etag = some v.etag.val)
    (hstream : chunkStream worker k.2 v.bytes = .ok items)
    (hs : Written k.2 snapshot items pre m s) (hpre : Sound worker k history pre) :
    Sound worker k history s := by
  intro p hp
  rcases (hs p).mp hp with ⟨hp, -⟩ | ⟨-, c, hc, hp⟩
  · exact hpre p hp
  · refine ⟨v, items, hv, ?_, hstream, ?_⟩
    · rw [hp]
      simp [chunkPoint, hetag]
    · rw [hc, hp]
      rfl

/-- A point under the entity tag of `v` is a chunk of `v`. -/
theorem Sound.chunk (hs : Sound worker k history s)
    (hid : ∀ v', (k, v') ∈ history → v'.etag = v.etag → v'.bytes = v.bytes)
    (hstream : chunkStream worker k.2 v.bytes = .ok items) {p : Point} (hp : p ∈ s)
    (hetag : p.etag = v.etag.val) : items[p.chunkIndex]? = some (.ok p.chunk) := by
  obtain ⟨v', items', hv', hetag', hstream', hchunk⟩ := hs p hp
  rw [hid v' hv' (ETag.ext (hetag'.symm.trans hetag)), hstream] at hstream'
  cases hstream'
  exact hchunk

/-- Of the points of the version that was being written, some is new. -/
theorem exists_written (hetag : snapshot.objectMeta.etag = some v.etag.val)
    (hdone : done.map .ok <+: items) (hpos : 0 < done.length)
    (hs : Written k.2 snapshot items pre done.length s) : ∃ p ∈ s, p.etag = v.etag.val := by
  have hfirst : items[0]? = some (.ok done[0]) := by
    obtain ⟨rest, rfl⟩ := hdone
    rw [List.getElem?_append_left (by simpa using hpos)]
    simp [hpos]
  refine ⟨chunkPoint k.2 snapshot 0 done[0], (hs _).mpr (.inr ⟨hpos, done[0], hfirst, rfl⟩), ?_⟩
  simp [chunkPoint, hetag]

/-- A stream with a chunk at every index is all chunks. -/
theorem exists_chunks (h : ∀ i < items.length, ∃ c, items[i]? = some (.ok c)) :
    ∃ chunks : List Chunk, items = chunks.map .ok := by
  have hrange : items ∈ Set.range (List.map (Except.ok : Chunk → Except String Chunk)) := by
    rw [Set.range_list_map]
    intro item hitem
    obtain ⟨i, hi, rfl⟩ := List.getElem_of_mem hitem
    obtain ⟨c, hc⟩ := h i hi
    rw [List.getElem?_eq_getElem hi] at hc
    exact ⟨c, (Option.some.inj hc).symm⟩
  obtain ⟨chunks, hchunks⟩ := hrange
  exact ⟨chunks, hchunks.symm⟩

/-- A handling stopped after the chunks `done`: the index is complete wherever its points agree,
exactly if the handling left a mark. -/
theorem complete_iff_of_written
    (hid : ∀ v', (k, v') ∈ history → v'.etag = v.etag → v'.bytes = v.bytes)
    (hv : (k, v) ∈ history) (hetag : snapshot.objectMeta.etag = some v.etag.val)
    (hstream : chunkStream worker k.2 v.bytes = .ok items) (hdone : done.map .ok <+: items)
    (hs : Written k.2 snapshot items pre done.length s) (hpre : Sound worker k history pre)
    (hcomplete : Complete worker k history pre) :
    Complete worker k history s ↔
      LeavesMark worker k pre done.length (some (v.wholeRead k.2)) := by
  rcases Nat.eq_zero_or_pos done.length with hzero | hpos
  · rw [hzero] at hs ⊢
    refine ⟨fun _ r items' _ _ hpos => absurd hpos (Nat.lt_irrefl 0), fun _ => ?_⟩
    exact hcomplete.of_mem_iff fun p => by simpa using hs p
  have hsound := sound_of_written hv hetag hstream hs hpre
  obtain ⟨new, hnew, hnewtag⟩ := exists_written hetag hdone hpos hs
  constructor
  · intro hc r items' hr hstream' _ _
    cases hr
    rw [show (v.wholeRead k.2).bytes = v.bytes from rfl, hstream] at hstream'
    cases hstream'
    by_cases hmark : ∃ p ∈ pre, done.length ≤ p.chunkIndex ∧
        some p.etag ≠ (v.wholeRead k.2).objectMeta.etag
    · exact .inl hmark
    -- no point of another version is left, so the points agree on the new tag
    have hagree : s.indexedEtag = some v.etag.val := by
      refine PointSet.mem_indexedEtag.mpr ⟨⟨new, hnew⟩, fun p hp => ?_⟩
      rcases (hs p).mp hp with ⟨hp, hle⟩ | ⟨-, c, -, hp⟩
      · by_contra hne
        exact hmark ⟨p, hp, hle, fun heq => hne (Option.some.inj heq)⟩
      · rw [hp]
        simp [chunkPoint, hetag]
    obtain ⟨v', chunks, hv', hetag', hstream', hset⟩ := hc _ hagree
    rw [hid v' hv' (ETag.ext hetag'), hstream] at hstream'
    cases hstream'
    refine .inr fun i hle hlt => ?_
    obtain ⟨p, hp, rfl⟩ := (isChunkSet_iff.mp hset).2 i (by simpa using hlt)
    rcases (hs p).mp hp with ⟨hp, -⟩ | ⟨hlt', -⟩
    · exact ⟨p, hp, rfl⟩
    · omega
  · intro hmark e he
    obtain ⟨-, hall⟩ := PointSet.mem_indexedEtag.mp he
    obtain rfl : v.etag.val = e := hnewtag.symm.trans (hall new hnew)
    -- every chunk of the version has its point
    have hpoint : ∀ i < items.length, ∃ p ∈ s, p.chunkIndex = i := by
      intro i hi
      by_cases hlt : i < done.length
      · obtain ⟨rest, rfl⟩ := hdone
        refine ⟨chunkPoint k.2 snapshot i done[i], (hs _).mpr (.inr ⟨hlt, done[i], ?_, rfl⟩), rfl⟩
        rw [List.getElem?_append_left (by simpa [chunkPoint] using hlt)]
        simp [chunkPoint, hlt]
      · rcases hmark _ items rfl hstream hpos (by omega) with ⟨p, hp, hle, hne⟩ | hold
        · exact absurd (congrArg some (hall p ((hs p).mpr (.inl ⟨hp, hle⟩)))) hne
        · obtain ⟨p, hp, rfl⟩ := hold i (by omega) hi
          exact ⟨p, (hs p).mpr (.inl ⟨hp, by omega⟩), rfl⟩
    have hchunk : ∀ p ∈ s, items[p.chunkIndex]? = some (.ok p.chunk) :=
      fun p hp => hsound.chunk hid hstream hp (hall p hp)
    obtain ⟨chunks, rfl⟩ := exists_chunks fun i hi => by
      obtain ⟨p, hp, rfl⟩ := hpoint i hi
      exact ⟨p.chunk, hchunk p hp⟩
    refine ⟨v, chunks, hv, rfl, hstream, isChunkSet_iff.mpr ⟨fun p hp => ⟨hall p hp, ?_⟩, ?_⟩⟩
    · have hp' := hchunk p hp
      rw [List.getElem?_map] at hp'
      obtain ⟨c, hc, heq⟩ := Option.map_eq_some_iff.mp hp'
      cases heq
      exact hc
    · simpa using hpoint

end Stopped

/-! ## Any handling -/

/-- What a handling that saw versions of `history` only does. -/
theorem sound_of_handled {seen : Option Version → Prop}
    (hseen : ∀ v, seen (some v) → (k, v) ∈ history)
    (hH : Handled worker S k seen skip pre s m read) (hpre : Sound worker k history pre) :
    Sound worker k history s := by
  cases hH with
  | failed hmay hs =>
    rcases hs with rfl | rfl
    · exact hpre
    · exact sound_empty
  | missing hwhy => exact sound_empty
  | excluded v hv hwhy => exact sound_empty
  | blank v hv hyields => exact sound_empty
  | skipped v hv hskip hindexed => exact hpre
  | refused v hv hwhy => exact hpre
  | raced o o' hne ho ho' => exact hpre
  | stopped v hv snapshot hetag items hstream done hdone hwritten hwhy =>
    exact sound_of_written (hseen v hv) hetag hstream hwritten hpre
  | indexed v hv chunks hyields hset => exact sound_of_isChunkSet (hseen v hv) hyields.stream hset

theorem leavesMark_zero : LeavesMark worker k pre 0 read :=
  fun _ _ _ _ hpos => absurd hpos (Nat.lt_irrefl 0)

theorem complete_iff_of_handled {seen : Option Version → Prop}
    (hseen : ∀ v, seen (some v) → (k, v) ∈ history)
    (hid : ∀ v v', (k, v) ∈ history → (k, v') ∈ history → v.etag = v'.etag → v.bytes = v'.bytes)
    (hH : Handled worker S k seen skip pre s m read) (hpre : Sound worker k history pre)
    (hcomplete : Complete worker k history pre) :
    Complete worker k history s ↔ LeavesMark worker k pre m read := by
  cases hH with
  | failed hmay hs =>
    refine iff_of_true ?_ leavesMark_zero
    rcases hs with rfl | rfl
    · exact hcomplete
    · exact complete_empty
  | missing hwhy => exact iff_of_true complete_empty leavesMark_zero
  | excluded v hv hwhy => exact iff_of_true complete_empty leavesMark_zero
  | blank v hv hyields => exact iff_of_true complete_empty leavesMark_zero
  | skipped v hv hskip hindexed => exact iff_of_true hcomplete leavesMark_zero
  | refused v hv hwhy => exact iff_of_true hcomplete leavesMark_zero
  | raced o o' hne ho ho' => exact iff_of_true hcomplete leavesMark_zero
  | stopped v hv snapshot hetag items hstream done hdone hwritten hwhy =>
    exact complete_iff_of_written (fun v' hv' => hid v' v hv' (hseen v hv)) (hseen v hv) hetag
      hstream hdone hwritten hpre hcomplete
  | indexed v hv chunks hyields hset =>
    refine iff_of_true (complete_of_isChunkSet (hseen v hv) hyields.stream hset) ?_
    intro r items hr hstream _ hlt
    cases hr
    rw [show (v.wholeRead k.2).bytes = v.bytes from rfl, hyields.stream] at hstream
    cases hstream
    simp at hlt

end Points

/-! ## Runs -/

section Runs

variable (S : Semantics) (worker : IndexerWorker) (k : Key)

/-- What other parties do, between the operations of a handling and between handlings: anything,
but the points of `k` are touched by its own handlings only. -/
def Others (w w' : World) : Prop :=
  w'.points k = w.points k ∧ ∃ server, S.Env server w w'

/-- One handling of an event: the world it started in, its operations, the world it left. -/
structure Handling where
  event : IndexEvent
  before : World
  trace : List Event
  after : World

/-- A run of the pipeline over one key. It starts with nothing indexed; handlings follow one
another, each carried through to its end, and other parties move in between and meanwhile. -/
inductive Runs : List Handling → World → Prop where
  | start {w : World} (hempty : w.points k = .empty) (hid : w.store.IdentifiedBy Version.bytes) :
      Runs [] w
  | others {xs : List Handling} {w w' : World} (hrun : Runs xs w) (h : Others S k w w') :
      Runs xs w'
  | handling {xs : List Handling} {x : Handling} (hrun : Runs xs x.before) (hkey : x.event.key = k)
      (hex : Prog.Exec S.Step (Others S k) x.before (handle worker x.event) x.trace x.after
        (.ret ())) : Runs (xs ++ [x]) x.after

variable {S worker k}

/-- Whatever moves the store forgets no version, and keeps bytes identified by their tag. -/
def Later (w w' : World) : Prop :=
  (∀ e ∈ w.store.history, e ∈ w'.store.history) ∧
    (w.store.IdentifiedBy Version.bytes → w'.store.IdentifiedBy Version.bytes)

theorem later_apply {effect : StorageOp.Effect} {server : Bool} {w w' : World}
    (h : w.store.IdentifiesBy Version.bytes effect)
    (hw' : w'.store = w.store.apply effect server) : Later w w' := by
  rw [Later, hw']
  exact ⟨fun e he => w.store.history_subset_apply effect server he, .apply h server⟩

theorem later_of_store_eq {w w' : World} (h : w'.store = w.store) : Later w w' := by
  rw [Later, h]
  exact ⟨fun _ he => he, id⟩

theorem Others.later (hS : S.IdentifiesBytes) {w w' : World} (h : Others S k w w') :
    Later w w' := by
  obtain ⟨-, server, heq | ⟨effect, hadm, heq⟩⟩ := h
  · exact later_of_store_eq heq
  · exact later_apply (hS _ _ hadm) heq

theorem step_later (hS : S.IdentifiesBytes) {w w' : World} {o : Op} {r : o.Res}
    (h : S.Step w o r w') : Later w w' := by
  rcases h.store_effect with heq | ⟨effect, hadm, heq⟩
  · exact later_of_store_eq heq
  · exact later_apply (hS _ _ hadm) heq

theorem Later.trans {w w' w'' : World} (h : Later w w') (h' : Later w' w'') : Later w w'' :=
  ⟨fun e he => h'.1 e (h.1 e he), h'.2 ∘ h.2⟩

/-- The rely of a handling: its points stay, and no version is forgotten. -/
def rely (k : Key) : Rely World where
  rel := fun w w' => w'.points k = w.points k ∧ ∀ e ∈ w.store.history, e ∈ w'.store.history
  refl := fun _ => ⟨rfl, fun _ he => he⟩
  trans := fun h h' => ⟨h'.1.trans h.1, fun e he => h'.2 e (h.2 e he)⟩

/-- What a handling found of the key is a version the key had. -/
def Had (k : Key) (o : Option Version) (w : World) : Prop :=
  ∀ v, o = some v → (k, v) ∈ w.store.history

theorem observes : Observes k (rely k) (Had k) where
  stable _ :=
    { points := fun hR => hR.1
      rely := fun hR ho v hv => hR.2 _ (ho v hv)
      store := fun heq ho v hv => heq ▸ ho v hv }
  found := fun w v hv => w.store.recorded k v hv

/-- What is known of a handling that ran to its end. -/
theorem handled_of_exec (hS : S.IdentifiesBytes) {x : Handling} (hkey : x.event.key = k)
    (hex : Prog.Exec S.Step (Others S k) x.before (handle worker x.event) x.trace x.after
      (.ret ())) :
    Later x.before x.after ∧
      Ends worker S k (Had k) (skipOf x.event) (x.before.points k) x.trace x.after := by
  subst hkey
  refine ⟨?_, ?_⟩
  · exact hex.invariant (fun w w' hw ho => hw.trans (ho.later hS))
      (fun w o r w' hw ho => hw.trans (step_later hS ho)) (later_of_store_eq rfl)
  · have hstart : hwp S (rely x.event.key) (handle worker x.event) _ [] x.before :=
      hwp_handle observes rfl
    have hothers : ∀ w w', Others S x.event.key w w' → (rely x.event.key).rel w w' :=
      fun w w' h => ⟨h.1, (h.later hS).1⟩
    exact (hstart.exec hex hothers).2 _ ((rely _).refl _)

/-- The points of a key look complete only if they are. -/
def LooksRight (worker : IndexerWorker) (k : Key) (w : World) : Prop :=
  Complete worker k w.store.history (w.points k)

/-- The condition on a handling: if it stopped early, it left a mark. -/
def Handling.Marked (worker : IndexerWorker) (k : Key) (x : Handling) : Prop :=
  LeavesMark worker k (x.before.points k) (upserted x.trace) (served x.trace)

theorem Runs.invariant (hS : S.IdentifiesBytes) {xs : List Handling} {w : World}
    (hrun : Runs S worker k xs w) :
    w.store.IdentifiedBy Version.bytes ∧ Sound worker k w.store.history (w.points k) := by
  induction hrun with
  | start hempty hid =>
    rw [hempty]
    exact ⟨hid, sound_empty⟩
  | others hrun h ih =>
    obtain ⟨hsub, hid⟩ := h.later hS
    rw [h.1]
    exact ⟨hid ih.1, ih.2.mono hsub⟩
  | handling hrun hkey hex ih =>
    obtain ⟨⟨hsub, hid⟩, hend⟩ := handled_of_exec hS hkey hex
    exact ⟨hid ih.1, sound_of_handled (fun v hv => hv v rfl) hend (ih.2.mono hsub)⟩

/-- What one handling of a run does, seen from the state before it. -/
theorem Runs.handling_iff (hS : S.IdentifiesBytes) {xs : List Handling} {x : Handling}
    (hrun : Runs S worker k xs x.before) (hkey : x.event.key = k)
    (hex : Prog.Exec S.Step (Others S k) x.before (handle worker x.event) x.trace x.after
      (.ret ())) (hbefore : LooksRight worker k x.before) :
    LooksRight worker k x.after ↔ x.Marked worker k := by
  obtain ⟨⟨hsub, hid⟩, hend⟩ := handled_of_exec hS hkey hex
  obtain ⟨hidBefore, hsound⟩ := hrun.invariant hS
  exact complete_iff_of_handled (fun v hv => hv v rfl) (fun v v' => hid hidBefore k v v') hend
    (hsound.mono hsub) (hbefore.mono hsub)

/-- Every handling of a run started in a state the run reached. -/
theorem Runs.mem {xs : List Handling} {w : World} (hrun : Runs S worker k xs w) {x : Handling}
    (hx : x ∈ xs) : ∃ ys, Runs S worker k ys x.before ∧ x.event.key = k ∧
      Prog.Exec S.Step (Others S k) x.before (handle worker x.event) x.trace x.after (.ret ()) := by
  induction hrun with
  | start hempty hid => cases hx
  | others hrun h ih => exact ih hx
  | handling hrun hkey hex ih =>
    rcases List.mem_append.mp hx with hx | hx
    · exact ih hx
    · cases List.mem_singleton.mp hx
      exact ⟨_, hrun, hkey, hex⟩

/-- A run whose handlings all leave a mark looks right wherever it gets. -/
theorem Runs.looksRight (hS : S.IdentifiesBytes) {xs : List Handling} {w : World}
    (hrun : Runs S worker k xs w) (hmarked : ∀ x ∈ xs, x.Marked worker k) :
    (∀ x ∈ xs, LooksRight worker k x.before ∧ LooksRight worker k x.after) ∧
      LooksRight worker k w := by
  induction hrun with
  | start hempty hid =>
    refine ⟨List.forall_mem_nil _, ?_⟩
    rw [LooksRight, hempty]
    exact complete_empty
  | others hrun h ih =>
    obtain ⟨hall, hw⟩ := ih hmarked
    refine ⟨hall, ?_⟩
    rw [LooksRight, h.1]
    exact hw.mono (h.later hS).1
  | @handling xs x hrun hkey hex ih =>
    obtain ⟨hearlier, hx⟩ := List.forall_mem_append.mp hmarked
    obtain ⟨hall, hbefore⟩ := ih hearlier
    have hafter := (hrun.handling_iff hS hkey hex hbefore).mpr (hx x List.mem_cons_self)
    refine ⟨List.forall_mem_append.mpr ⟨hall, fun y hy => ?_⟩, hafter⟩
    cases List.mem_singleton.mp hy
    exact ⟨hbefore, hafter⟩

/-- In every run of handlings of one key, whatever fails in them and whoever changes the object
meanwhile: before and after every handling, and where the run has got, points that agree on an
entity tag are the complete chunk set of the version it names, if and only if every handling that
stopped after some but not all chunks had a point of another version behind them, or one for each
chunk it had not come to. -/
theorem looks_right_iff {S : Semantics} {worker : IndexerWorker} {k : Key}
    (hS : S.IdentifiesBytes) {xs : List Handling} {w : World} (hrun : Runs S worker k xs w) :
    ((∀ x ∈ xs, LooksRight worker k x.before ∧ LooksRight worker k x.after) ∧
      LooksRight worker k w) ↔ ∀ x ∈ xs, x.Marked worker k := by
  refine ⟨fun ⟨hall, _⟩ x hx => ?_, hrun.looksRight hS⟩
  obtain ⟨ys, hbefore, hkey, hex⟩ := hrun.mem hx
  exact (hbefore.handling_iff hS hkey hex (hall x hx).1).mp (hall x hx).2

end Runs

/-! ## A document indexed for the first time -/

/-- Only the embedder may fail. -/
def embedderMayFail : Semantics where
  parseHttpDate := fun _ => .error "invalid HTTP-date"
  admissible := Store.IdentifiesBy Version.bytes
  mayFail := fun o => ∃ texts, o = .embed texts

/-- The stamp of a store the handlings below never ask to store anything. -/
def unusedStamp : Stamp := ⟨ETag.ofInner [] (by decide), 0⟩

/-- A machine whose embedder answers so often, and fails from then on. -/
def embedding (o : Op) : World × Nat → o.Res × (World × Nat) :=
  match o with
  | .embed texts => fun
    | (w, 0) => (.error "embedder unavailable", (w, 0))
    | (w, n + 1) => (.ok texts.length, (w, n))
  | o => fun (w, n) =>
    let answer := w.perform embedderMayFail.parseHttpDate unusedStamp o
    (answer.1, (answer.2, n))

def noteKey : Key := (KbSlug.notes, ObjectPath.aMd)

/-- A note of two letters, stored and not indexed yet. -/
def stored : World :=
  World.empty.apply (.stored noteKey (Version.tagged '1' (Utf8.encode "ab".toList)))

theorem embedding_step {k : Key} (o : Op) (t : World × Nat) (ho : HandlerOp k o) :
    embedderMayFail.Step t.1 o (embedding o t).1 (embedding o t).2.1 := by
  obtain ⟨w, n⟩ := t
  cases o with
  | storage o =>
    cases o with
    | head kb path c =>
      refine .storage (.head kb path c) unusedStamp ?_
      rw [StorageOp.eval_head_effect]
      trivial
    | get kb path range c =>
      refine .storage (.get kb path range c) unusedStamp ?_
      rw [StorageOp.eval_get_effect]
      trivial
    | put => exact ho.elim
    | copy => exact ho.elim
    | delete => exact ho.elim
    | list => exact ho.elim
  | embed texts =>
    cases n with
    | zero =>
      refine .failed _ _ ⟨texts, rfl⟩ fun h => ?_
      cases h
    | succ n => exact .other (.embed texts) unusedStamp (by simp)
  | _ => exact .other _ unusedStamp (by simp)

/-- The handling of the note's event when the embedder answers `n` times. -/
def firstHandling (n : Nat) : Handling where
  event := .upsert noteKey.1 noteKey.2
  before := stored
  trace := ((handle (lettersWorker false) (.upsert noteKey.1 noteKey.2)).trace embedding
    (stored, n)).map fun e => ⟨e.pre.1, e.op, e.res, e.post.1⟩
  after := ((handle (lettersWorker false) (.upsert noteKey.1 noteKey.2)).run embedding
    (stored, n)).2.1

theorem runs_firstHandling (n : Nat) :
    Runs embedderMayFail (lettersWorker false) noteKey [firstHandling n]
      (firstHandling n).after := by
  have hstart : Runs embedderMayFail (lettersWorker false) noteKey [] stored := by
    refine .start rfl (Store.IdentifiedBy.apply (.of_history (by decide)) true ?_)
    intro k v v' hv
    cases hv
  exact Runs.handling (x := firstHandling n) hstart rfl
    (Prog.Exec.of_run embedding_step handle_only (stored, n))

theorem note_chunks {items : List (Except String Chunk)}
    (h : chunkStream (lettersWorker false) noteKey.2 (Utf8.encode "ab".toList) = .ok items) :
    items.length = 2 := by
  have hcount : (chunkStream (lettersWorker false) noteKey.2
    (Utf8.encode "ab".toList)).map List.length = .ok 2 := by decide
  rw [h] at hcount
  exact Except.ok.inj hcount

/-- The embedder answers once and then fails. The index holds one of the note's two chunks, under
the note's entity tag, so it looks complete. -/
theorem half_indexed_looks_complete :
    embedderMayFail.IdentifiesBytes ∧
      Runs embedderMayFail (lettersWorker false) noteKey [firstHandling 1]
        (firstHandling 1).after ∧
      ((firstHandling 1).after.points noteKey).indexedEtag =
        (stored.get noteKey).map (·.etag.val) ∧
      ¬ LooksRight (lettersWorker false) noteKey (firstHandling 1).after := by
  have hagree : ((firstHandling 1).after.points noteKey).indexedEtag =
      some (Version.tagged '1' (Utf8.encode "ab".toList)).etag.val := by decide
  refine ⟨fun _ _ h => h, runs_firstHandling 1, hagree.trans (by decide), fun hright => ?_⟩
  obtain ⟨v, chunks, hv, -, hstream, hset, -⟩ := hright _ hagree
  have hpoints : ((firstHandling 1).after.points noteKey).points.length = 1 := by decide
  have hhistory : (firstHandling 1).after.store.history =
      [(noteKey, Version.tagged '1' (Utf8.encode "ab".toList))] := by decide
  rw [hhistory] at hv
  obtain ⟨-, rfl⟩ := Prod.mk.inj (List.mem_singleton.mp hv)
  have htwo := note_chunks hstream
  have hone := hset.length_eq
  simp only [List.length_map, List.length_zipIdx] at htwo hone
  omega

/-- The embedder answers throughout: the handling leaves nothing to mark, and the index is
complete. -/
theorem looks_right_iff_first :
    embedderMayFail.IdentifiesBytes ∧
      Runs embedderMayFail (lettersWorker false) noteKey [firstHandling 2]
        (firstHandling 2).after ∧
      ((firstHandling 2).after.points noteKey).points.length = 2 ∧
      LooksRight (lettersWorker false) noteKey (firstHandling 2).after := by
  refine ⟨fun _ _ h => h, runs_firstHandling 2, by decide +kernel, ?_⟩
  refine ((looks_right_iff (fun _ _ h => h) (runs_firstHandling 2)).mpr fun x hx => ?_).2
  cases List.mem_singleton.mp hx
  intro r items hr hstream _ hlt
  have hserved : (served (firstHandling 2).trace).map (·.bytes) =
      some (Utf8.encode "ab".toList) := by decide
  have hupserted : upserted (firstHandling 2).trace = 2 := by decide
  rw [hr] at hserved
  have hbytes : r.bytes = Utf8.encode "ab".toList := Option.some.inj hserved
  rw [hbytes] at hstream
  have htwo := note_chunks hstream
  omega

end IndexCompleteness
