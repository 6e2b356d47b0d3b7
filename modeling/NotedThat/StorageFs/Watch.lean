-- SUMMARY: The filesystem watcher: kernel events to pending work, and the directories it remembers.
import NotedThat.Lib.FileTree
import NotedThat.StorageFs.Layout
import NotedThat.StorageFs.Pending
import Mathlib.Data.List.Find

/-!
# The watcher

The kernel reports a path, not what happened there. A path that is a directory, or that was known
as one, is a subtree to examine again; any other path is an object. Whether a path that is gone was a
directory is looked up in the set of directories the watcher remembers.
-/

namespace StorageFs

/-- Names of directories whose contents are never objects. -/
def vcsDirs : List Text := [".git".toList, ".svn".toList, ".hg".toList]

/-- One watched knowledge base, and the directory its objects live in. -/
structure Watched where
  kb : KbSlug
  dir : FsPath

/-- The watched directories of `watch_kbs`. -/
def targets (tenant : TenantSlug) (kbs : List KbSlug) : List Watched :=
  kbs.map fun kb => ⟨kb, bucketDir tenant kb⟩

/-- Whether a name on the way to an object may stand there: no file that is still being written, and
not the directory of a version control system. -/
def isObjectName (name : Bytes) : Bool :=
  match Utf8.decode? name with
  | none => false
  | some name => ¬ tempPrefix <+: name ∧ name ∉ vcsDirs

/-- Which knowledge base and object key a path names, if any. The key of a directory is no object,
so it is a text. -/
def keyFor (watched : List Watched) (path : FsPath) : Option (KbSlug × Text) :=
  match watched.find? fun entry => entry.dir <+: path ∧ path ≠ entry.dir with
  | none => none
  | some entry =>
    if (path.drop entry.dir.length).all isObjectName then
      match keyFromPath entry.dir path with
      | none => none
      | some key => if isInternalPath key then none else some (entry.kb, key)
    else none

/-- At or above a watched directory nothing is named. -/
def Outside (watched : List Watched) (path : FsPath) : Prop :=
  ∀ entry ∈ watched, ¬ path <+: entry.dir

section

variable {watched : List Watched} {p q : FsPath} {kb : KbSlug} {key : Text}

theorem keyFor_eq_some (h : keyFor watched q = some (kb, key)) :
    ∃ entry rel, watched.find? (fun entry => entry.dir <+: q ∧ q ≠ entry.dir) = some entry ∧
      entry ∈ watched ∧ q = entry.dir ++ rel ∧ rel.all isObjectName = true ∧ entry.kb = kb ∧
      keyFromPath entry.dir q = some key ∧ isInternalPath key = false := by
  unfold keyFor at h
  split at h
  · cases h
  next entry hentry =>
  have hdir := List.find?_some hentry
  rw [decide_eq_true_eq] at hdir
  obtain ⟨rel, hrel⟩ := hdir.1
  split at h
  · next hnames =>
    split at h
    · cases h
    next key' hkey =>
    split at h
    · cases h
    · next hinternal =>
      cases h
      rw [← hrel, List.drop_left] at hnames
      exact ⟨entry, rel, hentry, List.mem_of_find?_eq_some hentry, hrel.symm, hnames, rfl, hkey,
        Bool.eq_false_of_not_eq_true hinternal⟩
  · cases h

theorem isInternalPath_below {key' : Text} (hle : key' ++ ['/'] <+: key)
    (h : isInternalPath key = false) : isInternalPath key' = false := by
  rw [← Bool.not_eq_true] at h ⊢
  simp only [isInternalPath, Bool.or_eq_true, decide_eq_true_eq, List.isPrefixOf_iff_prefix,
    not_or] at h ⊢
  constructor
  · rintro rfl
    exact h.2 hle
  · exact fun hbelow => h.2 (hbelow.trans ((List.prefix_append key' ['/']).trans hle))

/-- Whatever is above a path that is named is named too, unless it is above the whole knowledge
base: a directory on the way to an object, with the key of a directory. -/
theorem keyFor_above (h : keyFor watched q = some (kb, key)) (hle : p <+: q) (hne : p ≠ q)
    (hout : Outside watched p) :
    ∃ key', keyFor watched p = some (kb, key') ∧ key' ++ ['/'] <+: key := by
  obtain ⟨entry, rel, hfind, hentry, rfl, hnames, rfl, hkey, hinternal⟩ := keyFor_eq_some h
  have hbelow : ∀ {other}, other ∈ watched → other.dir <+: entry.dir ++ rel → other.dir <+: p := by
    intro other hother hle'
    exact (List.prefix_or_prefix_of_prefix hle hle').resolve_left (hout other hother)
  have hsame : watched.find? (fun entry => entry.dir <+: p ∧ p ≠ entry.dir) = some entry := by
    rw [← hfind]
    refine List.find?_congr fun other hother => decide_eq_decide.mpr ⟨?_, ?_⟩
    · rintro ⟨hle', -⟩
      exact ⟨hle'.trans hle, fun heq => hout other hother (heq ▸ hle)⟩
    · rintro ⟨hle', -⟩
      exact ⟨hbelow hother hle', fun heq => hout other hother (heq ▸ List.prefix_rfl)⟩
  obtain ⟨rel', rfl⟩ := hbelow hentry (List.prefix_append entry.dir rel)
  obtain ⟨rest, rfl⟩ := (List.prefix_append_right_inj entry.dir).mp hle
  have hrel : rel' ≠ [] := by
    rintro rfl
    exact hout entry hentry (by simp)
  have hrest : rest ≠ [] := by
    rintro rfl
    exact hne (by simp)
  obtain ⟨key', hkey', hslash⟩ := keyFromPath_below hrel hrest hkey
  refine ⟨key', ?_, hslash⟩
  rw [List.all_append, Bool.and_eq_true] at hnames
  unfold keyFor
  simp only [hsame, List.drop_left, hnames.1, if_true, hkey', isInternalPath_below hslash hinternal,
    Bool.false_eq_true, if_false]

end

/-! ## Events -/

/-- What the kernel says of an event, as far as it is told apart. -/
inductive EventKind where
  | access
  | metadata
  | create
  | modify
  | rename
  | remove
  | other
deriving DecidableEq

/-- Whether an event kind means bytes may have moved. -/
def EventKind.isChange : EventKind → Bool
  | .access | .metadata => false
  | _ => true

structure Event where
  kind : EventKind
  paths : List FsPath
  needRescan : Bool := false

/-- What the event handler keeps: the directories it has seen, and the pending work. -/
structure Seen where
  directories : List FsPath
  pending : Pending

namespace Seen

/-- Every watched knowledge base needs a full pass: the kernel dropped events, or a watch failed. -/
def rescan (watched : List Watched) (now : Nat) (s : Seen) : Seen :=
  { s with pending := watched.foldl (fun pending entry => pending.wholeKb entry.kb now) s.pending }

/-- One path of an event. -/
def handlePath (watched : List Watched) (isDir : FsPath → Bool) (now : Nat) (s : Seen)
    (path : FsPath) : Seen :=
  match keyFor watched path with
  | none => s
  | some (kb, key) =>
    if isDir path then
      ⟨s.directories.insert path, s.pending.underPrefix kb (key ++ ['/']) now⟩
    else if path ∈ s.directories then
      -- gone, and known as a directory: its descendants go with it
      ⟨s.directories.filter fun known => ¬ path <+: known,
        s.pending.underPrefix kb (key ++ ['/']) now⟩
    else
      match ObjectPath.tryFromStr key with
      | .ok key => { s with pending := s.pending.key kb key now }
      | .error _ => s

/-- Turn one kernel event into pending work. `isDir` asks the tree as it is by then. -/
def handleEvent (watched : List Watched) (isDir : FsPath → Bool) (now : Nat) (s : Seen)
    (event : Event) : Seen :=
  if event.needRescan then s.rescan watched now
  else if event.kind.isChange then event.paths.foldl (handlePath watched isDir now) s
  else s

/-- Turn a watcher error into pending work. -/
def handleError (watched : List Watched) (now : Nat) (s : Seen) : Seen := s.rescan watched now

end Seen

/-- Every directory at or below `root`. -/
def collectDirectories (tree : FileTree Bytes) (root : FsPath) : List FsPath :=
  tree.entries.keys.filter fun path => root <+: path ∧ (path, .dir) ∈ tree

/-! ## Runs -/

/-- The tree, the events the kernel has queued and the watcher has not handled, and the watcher. -/
structure Watch where
  tree : FileTree Bytes
  queue : List Event
  seen : Seen

/-- What happens: the tree changes, the event thread handles the first event or is told of an error,
an event that reports no change is queued, or the settler takes what has settled. -/
inductive WatchStep where
  | change (op : FileTree.Op Bytes) (kind : EventKind) (reports : kind.isChange = true)
  | notice (event : Event) (quiet : event.needRescan = true ∨ event.kind.isChange = false)
  | handle (now : Nat)
  | error (now : Nat)
  | settle (now : Nat)

namespace Watch

/-- How much pending work is held before trading the detail for a full pass. -/
def pendingCapacity : Nat := 65536

/-- The watcher as `watch_kbs` starts it. -/
def start (watched : List Watched) (tree : FileTree Bytes) : Watch where
  tree := tree
  queue := []
  seen := ⟨watched.flatMap fun entry => collectDirectories tree entry.dir, .new pendingCapacity⟩

variable (watched : List Watched) (debounce : Nat)

/-- The signals a step emits, and the state after it. A call that fails changes nothing. The change
is reported at its tops alone. -/
def step (s : Watch) : WatchStep → List FsSignal × Watch
  | .change op kind _ =>
    match op.apply s.tree with
    | none => ([], s)
    | some tree => ([], { s with tree := tree, queue := s.queue ++ [⟨kind, op.tops, false⟩] })
  | .notice event _ => ([], { s with queue := s.queue ++ [event] })
  | .handle now =>
    match s.queue with
    | [] => ([], s)
    | event :: queue =>
      ([], { s with
        queue := queue
        seen := s.seen.handleEvent watched (fun path => (path, .dir) ∈ s.tree) now event })
  | .error now => ([], { s with seen := s.seen.handleError watched now })
  | .settle now =>
    let (settled, pending) := s.seen.pending.takeSettled now debounce
    (settled, { s with seen := { s.seen with pending := pending.takeOverflowed.2 } })

section

variable {watched debounce} {s : Watch} {op : FileTree.Op Bytes} {kind : EventKind} {now : Nat}
variable {reports : kind.isChange = true}

theorem step_change {tree : FileTree Bytes} (h : op.apply s.tree = some tree) :
    step watched debounce s (.change op kind reports) =
      ([], { s with tree := tree, queue := s.queue ++ [⟨kind, op.tops, false⟩] }) := by
  simp only [step, h]

theorem step_change_failed (h : op.apply s.tree = none) :
    step watched debounce s (.change op kind reports) = ([], s) := by
  simp only [step, h]

theorem step_handle {event : Event} {queue : List Event} (h : s.queue = event :: queue) :
    step watched debounce s (.handle now) = ([], { s with
      queue := queue
      seen := s.seen.handleEvent watched (fun path => (path, .dir) ∈ s.tree) now event }) := by
  simp only [step, h]

theorem step_handle_idle (h : s.queue = []) : step watched debounce s (.handle now) = ([], s) := by
  simp only [step, h]

end

def run : List WatchStep → Watch → List FsSignal × Watch
  | [], s => ([], s)
  | next :: steps, s =>
    let (emitted, s) := step watched debounce s next
    let (emitted', s) := run steps s
    (emitted ++ emitted', s)

end Watch

/-! ## Pending work -/

namespace Pending

variable {capacity : Nat} {s : Pending} {x : FsSignal}

/-- A report is covered from then on, and what was covered stays so. -/
theorem Tidy.report (hs : s.Tidy capacity) (r : Report) (now : Nat) : (r.apply now s).Tidy capacity ∧
    (r.apply now s).Covered r.signal ∧ ∀ x, s.Covered x → (r.apply now s).Covered x :=
  ⟨(hs.step (.report r now)).1, (report_reported hs).covered, fun _ hx => (report_reported hs).keeps hx⟩

theorem Covered.of_covers {y : FsSignal} (h : s.Covered y) (hcovers : y.Covers x) : s.Covered x := by
  obtain ⟨z, since, hmem, hz⟩ := h
  exact ⟨z, since, hmem, hz.trans hcovers⟩

end Pending

namespace Seen

variable {watched : List Watched} {isDir : FsPath → Bool} {now : Nat} {s : Seen} {p : FsPath}
variable {kb : KbSlug} {key : Text}

/-- What one path does: nothing that is named, a directory that is there, one that is gone, or
an object. -/
theorem handlePath_cases (watched : List Watched) (isDir : FsPath → Bool) (now : Nat) (s : Seen)
    (p : FsPath) :
    (keyFor watched p = none ∧ s.handlePath watched isDir now p = s) ∨
    (∃ kb key, keyFor watched p = some (kb, key) ∧ isDir p = true ∧
      s.handlePath watched isDir now p =
        ⟨s.directories.insert p, s.pending.underPrefix kb (key ++ ['/']) now⟩) ∨
    (∃ kb key, keyFor watched p = some (kb, key) ∧ isDir p = false ∧ p ∈ s.directories ∧
      s.handlePath watched isDir now p =
        ⟨s.directories.filter fun known => ¬ p <+: known,
          s.pending.underPrefix kb (key ++ ['/']) now⟩) ∨
    (∃ kb key, keyFor watched p = some (kb, key) ∧ isDir p = false ∧ p ∉ s.directories ∧
      ((∃ path, ObjectPath.tryFromStr key = .ok path ∧
          s.handlePath watched isDir now p = ⟨s.directories, s.pending.key kb path now⟩) ∨
        (∃ e, ObjectPath.tryFromStr key = .error e) ∧ s.handlePath watched isDir now p = s)) := by
  unfold handlePath
  split
  · next hkey => exact .inl ⟨hkey, rfl⟩
  next kb key hkey =>
  split
  · next hdir => exact .inr (.inl ⟨kb, key, hkey, hdir, rfl⟩)
  next hdir =>
  rw [Bool.not_eq_true] at hdir
  split
  · next hknown => exact .inr (.inr (.inl ⟨kb, key, hkey, hdir, hknown, rfl⟩))
  next hknown =>
  refine .inr (.inr (.inr ⟨kb, key, hkey, hdir, hknown, ?_⟩))
  cases htry : ObjectPath.tryFromStr key with
  | ok path => exact .inl ⟨path, rfl, rfl⟩
  | error e => exact .inr ⟨⟨e, rfl⟩, rfl⟩

/-- The pending work stays tidy and forgets nothing. -/
def Keeps (s s' : Seen) : Prop :=
  s.pending.Tidy Watch.pendingCapacity → s'.pending.Tidy Watch.pendingCapacity ∧
    ∀ x, s.pending.Covered x → s'.pending.Covered x

theorem Keeps.refl (s : Seen) : s.Keeps s := fun hs => ⟨hs, fun _ hx => hx⟩

theorem Keeps.trans {s₁ s₂ s₃ : Seen} (h : s₁.Keeps s₂) (h' : s₂.Keeps s₃) : s₁.Keeps s₃ :=
  fun hs => ⟨(h' (h hs).1).1, fun x hx => (h' (h hs).1).2 x ((h hs).2 x hx)⟩

theorem keeps_handlePath : s.Keeps (s.handlePath watched isDir now p) := by
  intro hs
  rcases handlePath_cases watched isDir now s p with ⟨-, heq⟩ | ⟨kb, key, -, -, heq⟩ |
    ⟨kb, key, -, -, -, heq⟩ | ⟨kb, key, -, -, -, ⟨path, -, heq⟩ | ⟨-, heq⟩⟩
  · rw [heq]
    exact Keeps.refl s hs
  · rw [heq]
    have h := hs.report (.underPrefix kb (key ++ ['/']) List.getLast?_concat) now
    exact ⟨h.1, h.2.2⟩
  · rw [heq]
    have h := hs.report (.underPrefix kb (key ++ ['/']) List.getLast?_concat) now
    exact ⟨h.1, h.2.2⟩
  · rw [heq]
    have h := hs.report (.key kb path) now
    exact ⟨h.1, h.2.2⟩
  · rw [heq]
    exact Keeps.refl s hs

theorem keeps_rescan : s.Keeps (s.rescan watched now) := by
  unfold rescan
  induction watched generalizing s with
  | nil => exact Keeps.refl s
  | cons entry watched ih =>
    have hone : s.Keeps { s with pending := s.pending.wholeKb entry.kb now } := fun hs =>
      have h := hs.report (.wholeKb entry.kb) now
      ⟨h.1, h.2.2⟩
    exact hone.trans ih

end Seen

/-- The paths an event makes the watcher look at. -/
def Event.changedPaths (event : Event) : List FsPath :=
  if event.needRescan = false ∧ event.kind.isChange then event.paths else []

namespace Seen

theorem handleEvent_eq (watched : List Watched) (isDir : FsPath → Bool) (now : Nat) (s : Seen)
    (event : Event) : s.handleEvent watched isDir now event =
      if event.needRescan then s.rescan watched now
      else event.changedPaths.foldl (handlePath watched isDir now) s := by
  unfold handleEvent Event.changedPaths
  split
  · rfl
  · next hrescan =>
    rw [Bool.not_eq_true] at hrescan
    split
    · next hchange => simp [hrescan, hchange]
    · next hchange => simp [hchange]

end Seen

/-! ## The directories -/

/-- A path the watcher looks at. -/
def Named (watched : List Watched) (path : FsPath) : Prop := keyFor watched path ≠ none

theorem Named.of_eq {watched : List Watched} {p : FsPath} {named : KbSlug × Text}
    (h : keyFor watched p = some named) : Named watched p := by
  rw [Named, h]
  exact Option.some_ne_none named

/-- What the remembered directories say of the tree, with `todo` the paths still to be looked at: a
directory is remembered unless it is still to be looked at, and what is remembered is a directory
unless it, or a directory above it, is still to be found gone. -/
structure Mirrors (watched : List Watched) (tree : FileTree Bytes) (directories todo : List FsPath) :
    Prop where
  known : ∀ p, Named watched p → (p, .dir) ∈ tree → p ∈ directories ∨ p ∈ todo
  stale : ∀ p, Named watched p → p ∈ directories → (p, .dir) ∈ tree ∨
    ∃ q ∈ todo, q <+: p ∧ Named watched q ∧ q ∈ directories ∧ (q, .dir) ∉ tree

/-- The key of the path `k` is gone, and a path still to be looked at will say so: a directory above
it, known as one, or the path itself, by then not known as a directory. -/
def Owed (watched : List Watched) (tree : FileTree Bytes) (directories todo : List FsPath)
    (k : FsPath) : Prop :=
  (∃ q ∈ todo, q <+: k ∧ q ≠ k ∧ Named watched q ∧ q ∈ directories) ∨
    (k, .dir) ∉ tree ∧ ∃ before after, todo = before ++ k :: after ∧ (k ∈ directories → k ∈ before)

section

variable {watched : List Watched} {tree : FileTree Bytes} {todo : List FsPath} {s : Seen}
variable {p k : FsPath} {kb : KbSlug} {key : ObjectPath} {now : Nat}

theorem Mirrors.handlePath (h : Mirrors watched tree s.directories (p :: todo)) :
    Mirrors watched tree
      (s.handlePath watched (fun path => (path, .dir) ∈ tree) now p).directories todo := by
  rcases Seen.handlePath_cases watched (fun path => (path, .dir) ∈ tree) now s p with
    ⟨hkey, heq⟩ | ⟨kb, key, -, hdir, heq⟩ | ⟨kb, key, -, hdir, hknown, heq⟩ |
    ⟨kb, key, -, hdir, hknown, heq⟩
  · rw [heq]
    refine ⟨fun q hq hdir => ?_, fun q hq hmem => ?_⟩
    · refine (h.known q hq hdir).imp_right fun hmem => (List.mem_cons.mp hmem).resolve_left ?_
      rintro rfl
      exact hq hkey
    · refine (h.stale q hq hmem).imp_right ?_
      rintro ⟨r, hr, hle, hnamed, hrest⟩
      refine ⟨r, (List.mem_cons.mp hr).resolve_left ?_, hle, hnamed, hrest⟩
      rintro rfl
      exact hnamed hkey
  · rw [heq]
    rw [decide_eq_true_eq] at hdir
    refine ⟨fun q hq hmem => ?_, fun q hq hmem => ?_⟩
    · rw [List.mem_insert_iff]
      rcases h.known q hq hmem with hmem | hmem
      · exact .inl (.inr hmem)
      · exact (List.mem_cons.mp hmem).imp_left .inl
    · rcases List.mem_insert_iff.mp hmem with rfl | hmem
      · exact .inl hdir
      · refine (h.stale q hq hmem).imp_right ?_
        rintro ⟨r, hr, hle, hnamed, hr', hgone⟩
        refine ⟨r, (List.mem_cons.mp hr).resolve_left ?_, hle, hnamed, ?_, hgone⟩
        · rintro rfl
          exact hgone hdir
        · exact List.mem_insert_of_mem hr'
  · rw [heq]
    rw [decide_eq_false_iff_not] at hdir
    refine ⟨fun q hq hmem => ?_, fun q hq hmem => ?_⟩
    · -- what is below a path that is gone is gone too
      have hout : ¬ p <+: q := fun hle =>
        (FileTree.eq_or_dir_above hmem hle).elim (fun heq => hdir (heq ▸ hmem)) hdir
      refine (h.known q hq hmem).imp (fun hmem => ?_) fun hmem => ?_
      · exact List.mem_filter.mpr ⟨hmem, decide_eq_true hout⟩
      · refine (List.mem_cons.mp hmem).resolve_left ?_
        rintro rfl
        exact hout List.prefix_rfl
    · obtain ⟨hmem, hout⟩ := List.mem_filter.mp hmem
      rw [decide_eq_true_eq] at hout
      refine (h.stale q hq hmem).imp_right ?_
      rintro ⟨r, hr, hle, hnamed, hr', hgone⟩
      have hout' : ¬ p <+: r := fun hle' => hout (hle'.trans hle)
      refine ⟨r, (List.mem_cons.mp hr).resolve_left ?_, hle, hnamed, ?_, hgone⟩
      · rintro rfl
        exact hout' List.prefix_rfl
      · exact List.mem_filter.mpr ⟨hr', decide_eq_true hout'⟩
  · rw [decide_eq_false_iff_not] at hdir
    have heq' : (s.handlePath watched (fun path => (path, .dir) ∈ tree) now p).directories =
        s.directories := by
      rcases heq with ⟨path, -, heq⟩ | ⟨-, heq⟩ <;> rw [heq]
    rw [heq']
    refine ⟨fun q hq hmem => ?_, fun q hq hmem => ?_⟩
    · refine (h.known q hq hmem).imp_right fun hmem' => (List.mem_cons.mp hmem').resolve_left ?_
      rintro rfl
      exact hdir hmem
    · refine (h.stale q hq hmem).imp_right ?_
      rintro ⟨r, hr, hle, hnamed, hr', hgone⟩
      refine ⟨r, (List.mem_cons.mp hr).resolve_left ?_, hle, hnamed, hr', hgone⟩
      rintro rfl
      exact hknown hr'

/-- A subtree that is looked at again covers the keys under it. -/
theorem underPrefix_covers (hk : keyFor watched k = some (kb, key.val)) (hle : p <+: k) (hne : p ≠ k)
    (hout : Outside watched p) {kb' : KbSlug} {key' : Text} (hp : keyFor watched p = some (kb', key')) :
    (FsSignal.underPrefix kb' (key' ++ ['/'])).Covers (.changed kb key) := by
  obtain ⟨key'', hp', hslash⟩ := keyFor_above hk hle hne hout
  rw [hp] at hp'
  cases hp'
  exact ⟨rfl, hslash⟩

/-- The paths after the first still owe the key, if the first was no directory above it that is
known, and if nothing is forgotten that the others rely on. -/
theorem Owed.tail {known known' : List FsPath} (h : Owed watched tree known (p :: todo) k)
    (habove : p <+: k → p ≠ k → Named watched p → p ∉ known)
    (hself : (k, .dir) ∉ tree → p = k → k ∈ known ∧ k ∉ known')
    (hkeep : ∀ q, q <+: k → q ≠ k → q ∈ known → q ∈ known')
    (hnew : (k, .dir) ∉ tree → k ∈ known' → k ∈ known) : Owed watched tree known' todo k := by
  rcases h with ⟨q, hq, hle, hne, hnamed, hmem⟩ | ⟨hgone, before, after, heq, hbefore⟩
  · refine .inl ⟨q, (List.mem_cons.mp hq).resolve_left ?_, hle, hne, hnamed, hkeep q hle hne hmem⟩
    rintro rfl
    exact habove hle hne hnamed hmem
  · cases before with
    | nil =>
      have hmem := (hself hgone (List.cons.inj heq).1).1
      exact absurd (hbefore hmem) List.not_mem_nil
    | cons p' before =>
      obtain ⟨rfl, rfl⟩ := List.cons.inj heq
      refine .inr ⟨hgone, before, after, rfl, fun hmem => ?_⟩
      refine (List.mem_cons.mp (hbefore (hnew hgone hmem))).resolve_left fun hk => ?_
      exact (hself hgone hk.symm).2 hmem

/-- One path: a key that is owed is covered, or still owed by the paths after it. -/
theorem Owed.handlePath (hflat : ∀ p, Named watched p → Outside watched p)
    (hs : s.pending.Tidy Watch.pendingCapacity) (hk : keyFor watched k = some (kb, key.val))
    (h : Owed watched tree s.directories (p :: todo) k) :
    (s.handlePath watched (fun path => (path, .dir) ∈ tree) now p).pending.Covered
        (.changed kb key) ∨
      Owed watched tree
        (s.handlePath watched (fun path => (path, .dir) ∈ tree) now p).directories todo k := by
  have hsubtree : ∀ {kb' key'}, keyFor watched p = some (kb', key') → p <+: k → p ≠ k →
      (s.pending.underPrefix kb' (key' ++ ['/']) now).Covered (.changed kb key) :=
    fun {kb' key'} hp hle hne =>
      (hs.report (.underPrefix kb' (key' ++ ['/']) List.getLast?_concat) now).2.1.of_covers
        (underPrefix_covers hk hle hne (hflat p (.of_eq hp)) hp)
  rcases Seen.handlePath_cases watched (fun path => (path, .dir) ∈ tree) now s p with
    ⟨hkey, heq⟩ | ⟨kb', key', hp, hdir, heq⟩ | ⟨kb', key', hp, hdir, hknown, heq⟩ |
    ⟨kb', key', hp, hdir, hknown, heq⟩
  · rw [heq]
    refine .inr (h.tail (fun _ _ hnamed => absurd hkey hnamed) ?_ (fun q _ _ hq => hq) fun _ hq => hq)
    rintro - rfl
    exact absurd hkey (Named.of_eq hk)
  · rw [heq]
    rw [decide_eq_true_eq] at hdir
    by_cases hle : p <+: k ∧ p ≠ k
    · exact .inl (hsubtree hp hle.1 hle.2)
    · refine .inr (h.tail (fun h h' => absurd ⟨h, h'⟩ hle) ?_
        (fun q _ _ hq => List.mem_insert_of_mem hq) fun hgone hmem => ?_)
      · rintro hgone rfl
        exact absurd hdir hgone
      · refine (List.mem_insert_iff.mp hmem).resolve_left ?_
        rintro rfl
        exact hgone hdir
  · rw [heq]
    by_cases hle : p <+: k ∧ p ≠ k
    · exact .inl (hsubtree hp hle.1 hle.2)
    · refine .inr (h.tail (fun h h' => absurd ⟨h, h'⟩ hle) ?_ (fun q hq hne hmem => ?_)
        fun _ hmem => (List.mem_filter.mp hmem).1)
      · rintro - rfl
        exact ⟨hknown, fun hmem => of_decide_eq_true (List.mem_filter.mp hmem).2 List.prefix_rfl⟩
      · refine List.mem_filter.mpr ⟨hmem, decide_eq_true fun hpq => hle ⟨hpq.trans hq, ?_⟩⟩
        rintro rfl
        exact hne (hq.eq_of_length_le hpq.length_le)
  · by_cases hself : p = k
    · subst hself
      rw [hk] at hp
      cases hp
      rcases heq with ⟨path, hpath, heq⟩ | ⟨⟨e, he⟩, -⟩
      · rw [ObjectPath.tryFromStr_val] at hpath
        cases hpath
        rw [heq]
        exact .inl (hs.report (.key kb key) now).2.1
      · rw [ObjectPath.tryFromStr_val] at he
        cases he
    · have hsame : (s.handlePath watched (fun path => (path, .dir) ∈ tree) now p).directories =
          s.directories := by
        rcases heq with ⟨path, -, heq⟩ | ⟨-, heq⟩ <;> rw [heq]
      rw [hsame]
      exact .inr (h.tail (fun _ _ _ => hknown) (fun _ heq => absurd heq hself) (fun q _ _ hq => hq)
        fun _ hq => hq)

theorem Seen.keeps_foldl {isDir : FsPath → Bool} {paths : List FsPath} :
    s.Keeps (paths.foldl (Seen.handlePath watched isDir now) s) := by
  induction paths generalizing s with
  | nil => exact .refl s
  | cons p paths ih => exact keeps_handlePath.trans ih

theorem Seen.keeps_handleEvent {isDir : FsPath → Bool} {event : Event} :
    s.Keeps (s.handleEvent watched isDir now event) := by
  rw [handleEvent_eq]
  split
  · exact keeps_rescan
  · exact keeps_foldl

theorem Event.changedPaths_rescan {event : Event} (h : event.needRescan = true) :
    event.changedPaths = [] := by
  simp [changedPaths, h]

theorem Mirrors.foldl {paths : List FsPath} (h : Mirrors watched tree s.directories (paths ++ todo)) :
    Mirrors watched tree
      (paths.foldl (Seen.handlePath watched (fun path => (path, .dir) ∈ tree) now) s).directories
      todo := by
  induction paths generalizing s with
  | nil => exact h
  | cons p paths ih => exact ih h.handlePath

theorem Mirrors.handleEvent {event : Event}
    (h : Mirrors watched tree s.directories (event.changedPaths ++ todo)) :
    Mirrors watched tree
      (s.handleEvent watched (fun path => (path, .dir) ∈ tree) now event).directories todo := by
  rw [Seen.handleEvent_eq]
  split
  · next hrescan =>
    rw [Event.changedPaths_rescan hrescan] at h
    exact h
  · exact h.foldl

theorem Owed.foldl {paths : List FsPath} (hflat : ∀ p, Named watched p → Outside watched p)
    (hs : s.pending.Tidy Watch.pendingCapacity) (hk : keyFor watched k = some (kb, key.val))
    (h : Owed watched tree s.directories (paths ++ todo) k) :
    (paths.foldl (Seen.handlePath watched (fun path => (path, .dir) ∈ tree) now) s).pending.Covered
        (.changed kb key) ∨
      Owed watched tree
        (paths.foldl (Seen.handlePath watched (fun path => (path, .dir) ∈ tree) now) s).directories
        todo k := by
  induction paths generalizing s with
  | nil => exact .inr h
  | cons p paths ih =>
    obtain ⟨hs', -⟩ := Seen.keeps_handlePath hs
    rcases h.handlePath hflat hs hk with hcovered | h
    · exact .inl ((Seen.keeps_foldl hs').2 _ hcovered)
    · exact ih hs' h

theorem Owed.handleEvent {event : Event} (hflat : ∀ p, Named watched p → Outside watched p)
    (hs : s.pending.Tidy Watch.pendingCapacity) (hk : keyFor watched k = some (kb, key.val))
    (h : Owed watched tree s.directories (event.changedPaths ++ todo) k) :
    (s.handleEvent watched (fun path => (path, .dir) ∈ tree) now event).pending.Covered
        (.changed kb key) ∨
      Owed watched tree
        (s.handleEvent watched (fun path => (path, .dir) ∈ tree) now event).directories todo k := by
  rw [Seen.handleEvent_eq]
  split
  · next hrescan =>
    rw [Event.changedPaths_rescan hrescan] at h
    exact .inr h
  · exact h.foldl hflat hs hk

theorem not_owed_nil {directories : List FsPath} : ¬ Owed watched tree directories [] k := by
  rintro (⟨q, hq, -⟩ | ⟨-, before, after, heq, -⟩)
  · exact List.not_mem_nil hq
  · simp at heq

theorem Owed.change {tree' : FileTree Bytes} {directories : List FsPath}
    (h : Owed watched tree directories todo k) (hk : Named watched k)
    (hsame : ∀ p ∈ todo, Named watched p → ((p, .dir) ∈ tree' ↔ (p, .dir) ∈ tree)) :
    Owed watched tree' directories todo k := by
  refine h.imp_right ?_
  rintro ⟨hgone, before, after, rfl, hbefore⟩
  refine ⟨fun hdir => hgone ((hsame k ?_ hk).mp hdir), before, after, rfl, hbefore⟩
  exact List.mem_append_right _ List.mem_cons_self

end

/-! ## Runs that can be followed -/

namespace Watch

variable {watched : List Watched} {debounce : Nat} {s : Watch} {tree : FileTree Bytes}

/-- The paths the queued events make the watcher look at. -/
def todo (s : Watch) : List FsPath := s.queue.flatMap Event.changedPaths

/-- A change the watcher can follow. It is not of the directory of a knowledge base, or of one above
it. A directory that comes to be is reported, so it brings no directory inside it. And a path that is
reported and not looked at yet does not become a directory, or stop being one. -/
structure Followed (watched : List Watched) (s : Watch) (op : FileTree.Op Bytes)
    (tree : FileTree Bytes) : Prop where
  inside : ∀ top ∈ op.tops, Outside watched top
  reported : ∀ p, Named watched p → (p, .dir) ∈ tree → (p, .dir) ∉ s.tree → p ∈ op.tops
  inTime : ∀ p ∈ s.todo, Named watched p → ((p, .dir) ∈ tree ↔ (p, .dir) ∈ s.tree)

theorem followed_iff_listed (watched : List Watched) (s : Watch) (op : FileTree.Op Bytes) (tree : FileTree Bytes) :
    Followed watched s op tree ↔
      (∀ top ∈ op.tops, ∀ entry ∈ watched, ¬ top <+: entry.dir) ∧
      (∀ p ∈ tree.entries.keys, keyFor watched p = none ∨ (p, FileKind.dir) ∉ tree ∨
        (p, FileKind.dir) ∈ s.tree ∨ p ∈ op.tops) ∧
      ∀ p ∈ s.todo, keyFor watched p = none ∨
        ((p, FileKind.dir) ∈ tree ↔ (p, FileKind.dir) ∈ s.tree) := by
  constructor
  · intro h
    refine ⟨h.inside, fun p _ => ?_, fun p hp => or_iff_not_imp_left.mpr (h.inTime p hp)⟩
    refine or_iff_not_imp_left.mpr fun hnamed => or_iff_not_imp_left.mpr fun hdir => ?_
    exact or_iff_not_imp_left.mpr (h.reported p hnamed (not_not.mp hdir))
  · rintro ⟨hinside, hreported, hinTime⟩
    refine ⟨hinside, fun p hnamed hdir hnew => ?_, fun p hp => (hinTime p hp).resolve_left⟩
    have hlisted := hreported p (FileTree.exists_iff.mpr ⟨_, hdir⟩)
    exact ((hlisted.resolve_left hnamed).resolve_left (not_not.mpr hdir)).resolve_left hnew

instance (watched : List Watched) (s : Watch) (op : FileTree.Op Bytes) (tree : FileTree Bytes) :
    Decidable (Followed watched s op tree) :=
  decidable_of_iff
    ((∀ top ∈ op.tops, ∀ entry ∈ watched, ¬ top <+: entry.dir) ∧
      (∀ p ∈ tree.entries.keys, keyFor watched p = none ∨ (p, FileKind.dir) ∉ tree ∨
        (p, FileKind.dir) ∈ s.tree ∨ p ∈ op.tops) ∧
      ∀ p ∈ s.todo, keyFor watched p = none ∨
        ((p, FileKind.dir) ∈ tree ↔ (p, FileKind.dir) ∈ s.tree))
    (followed_iff_listed watched s op tree).symm

/-- The step is no change, or one that fails, or one that can be followed. -/
def CanFollow (watched : List Watched) (s : Watch) : WatchStep → Prop
  | .change op _ _ => ∀ tree ∈ op.apply s.tree, Followed watched s op tree
  | _ => True

instance (watched : List Watched) (s : Watch) (next : WatchStep) :
    Decidable (CanFollow watched s next) :=
  match next with
  | .change op _ _ => inferInstanceAs (Decidable (∀ tree ∈ op.apply s.tree, _))
  | .notice _ _ | .handle _ | .error _ | .settle _ => inferInstanceAs (Decidable True)

/-- Every step of the run can be followed. -/
def Follows (watched : List Watched) (debounce : Nat) : List WatchStep → Watch → Prop
  | [], _ => True
  | next :: steps, s =>
    CanFollow watched s next ∧ Follows watched debounce steps (step watched debounce s next).2

instance decidableFollows (watched : List Watched) (debounce : Nat) :
    (steps : List WatchStep) → (s : Watch) → Decidable (Follows watched debounce steps s)
  | [], _ => inferInstanceAs (Decidable True)
  | _ :: steps, _ =>
    have := decidableFollows watched debounce steps
    inferInstanceAs (Decidable (_ ∧ _))

/-- What every state of such a run satisfies. -/
structure Sound (watched : List Watched) (s : Watch) : Prop where
  mirrors : Mirrors watched s.tree s.seen.directories s.todo
  tidy : s.seen.pending.Tidy pendingCapacity

theorem todo_change {op : FileTree.Op Bytes} {kind : EventKind} (h : kind.isChange = true) :
    ({ s with tree := tree, queue := s.queue ++ [⟨kind, op.tops, false⟩] } : Watch).todo =
      s.todo ++ op.tops := by
  simp [todo, Event.changedPaths, h]

theorem Followed.mirrors {op : FileTree.Op Bytes} (h : Followed watched s op tree)
    (happly : op.apply s.tree = some tree) (hs : s.Sound watched) :
    Mirrors watched tree s.seen.directories (s.todo ++ op.tops) := by
  refine ⟨fun p hp hdir => ?_, fun p hp hmem => ?_⟩
  · by_cases hold : (p, .dir) ∈ s.tree
    · exact (hs.mirrors.known p hp hold).imp_right (List.mem_append_left _)
    · exact .inr (List.mem_append_right _ (h.reported p hp hdir hold))
  · rcases hs.mirrors.stale p hp hmem with hold | ⟨q, hq, hle, hnamed, hmem', hgone⟩
    · refine or_iff_not_imp_left.mpr fun hgone => ?_
      -- it went with a directory above it, which was known, as no report of it was waiting
      obtain ⟨top, htop, hle, htop', habove⟩ := FileTree.Op.lost happly hold hgone
      have hdir : (top, .dir) ∈ s.tree := habove.elim (fun heq => heq ▸ hold) id
      have hnamed : Named watched top := by
        by_cases heq : top = p
        · exact heq ▸ hp
        · obtain ⟨named, hnamed⟩ := Option.ne_none_iff_exists'.mp hp
          obtain ⟨key', hkey', -⟩ := keyFor_above hnamed hle heq (h.inside top htop)
          exact .of_eq hkey'
      refine ⟨top, List.mem_append_right _ htop, hle, hnamed, ?_, htop'⟩
      refine (hs.mirrors.known top hnamed hdir).resolve_right fun hwaiting => ?_
      exact htop' ((h.inTime top hwaiting hnamed).mpr hdir)
    · refine .inr ⟨q, List.mem_append_left _ hq, hle, hnamed, hmem', fun hdir => hgone ?_⟩
      exact (h.inTime q hq hnamed).mp hdir

theorem changedPaths_quiet {event : Event}
    (h : event.needRescan = true ∨ event.kind.isChange = false) : event.changedPaths = [] := by
  rcases h with h | h <;> simp [Event.changedPaths, h]

/-- One step. -/
theorem Sound.step (hs : s.Sound watched) {next : WatchStep}
    (h : CanFollow watched s next) : (step watched debounce s next).2.Sound watched := by
  cases next with
  | change op kind reports =>
    cases happly : op.apply s.tree with
    | none =>
      rw [step_change_failed happly]
      exact hs
    | some tree =>
      rw [step_change happly]
      refine ⟨?_, hs.tidy⟩
      rw [todo_change reports]
      exact (h tree happly).mirrors happly hs
  | notice event quiet =>
    refine ⟨?_, hs.tidy⟩
    have htodo : (Watch.step watched debounce s (.notice event quiet)).2.todo = s.todo := by
      simp [todo, Watch.step, changedPaths_quiet quiet]
    rw [htodo]
    exact hs.mirrors
  | handle now =>
    cases hqueue : s.queue with
    | nil =>
      rw [step_handle_idle hqueue]
      exact hs
    | cons event queue =>
      rw [step_handle hqueue]
      refine ⟨Mirrors.handleEvent ?_, (Seen.keeps_handleEvent hs.tidy).1⟩
      have htodo := hs.mirrors
      rw [todo, hqueue] at htodo
      exact htodo
  | error now => exact ⟨hs.mirrors, (Seen.keeps_rescan hs.tidy).1⟩
  | settle now =>
    have htidy := (hs.tidy.step (.takeSettled now debounce)).1
    exact ⟨hs.mirrors, (htidy.step .takeOverflowed).1⟩

theorem Sound.run {steps : List WatchStep} (hs : s.Sound watched)
    (h : Follows watched debounce steps s) : (run watched debounce steps s).2.Sound watched := by
  induction steps generalizing s with
  | nil => exact hs
  | cons next steps ih => exact ih (hs.step h.1) h.2

theorem sound_start (watched : List Watched) (tree : FileTree Bytes) :
    (start watched tree).Sound watched := by
  refine ⟨⟨fun p hp hdir => .inl ?_, fun p hp hmem => .inl ?_⟩, Pending.tidy_new _⟩
  · obtain ⟨⟨kb, key⟩, hkey⟩ := Option.ne_none_iff_exists'.mp hp
    obtain ⟨entry, rel, -, hentry, rfl, -⟩ := keyFor_eq_some hkey
    refine List.mem_flatMap.mpr ⟨entry, hentry, List.mem_filter.mpr ⟨?_, ?_⟩⟩
    · exact FileTree.exists_iff.mpr ⟨_, hdir⟩
    · exact decide_eq_true ⟨List.prefix_append _ _, hdir⟩
  · obtain ⟨entry, -, hmem⟩ := List.mem_flatMap.mp hmem
    exact (of_decide_eq_true (List.mem_filter.mp hmem).2).2

/-! ## Keys that are gone -/

variable {k : FsPath} {kb : KbSlug} {key : ObjectPath} {n : Nat}

/-- One of the first `n` events will say that the key is gone. -/
def OwedWithin (watched : List Watched) (s : Watch) (n : Nat) (k : FsPath) : Prop :=
  n ≤ s.queue.length ∧
    Owed watched s.tree s.seen.directories ((s.queue.take n).flatMap Event.changedPaths) k

/-- The number of events that are handled. -/
def handled (steps : List WatchStep) : Nat :=
  steps.countP fun next => match next with
    | .handle _ => true
    | _ => false

/-- A key that goes is owed by the event that reports it. -/
theorem Followed.owed {op : FileTree.Op Bytes} (h : Followed watched s op tree)
    (happly : op.apply s.tree = some tree) (hs : s.Sound watched)
    (hk : keyFor watched k = some (kb, key.val)) (hfile : (k, .file) ∈ s.tree)
    (hgone : (k, .file) ∉ tree) : Owed watched tree s.seen.directories (s.todo ++ op.tops) k := by
  obtain ⟨top, htop, hle, htop', habove⟩ := FileTree.Op.lost happly hfile hgone
  by_cases heq : top = k
  · subst heq
    obtain ⟨before, after, htops⟩ := List.append_of_mem htop
    refine .inr ⟨htop', s.todo ++ before, after, by rw [htops, List.append_assoc], fun hmem => ?_⟩
    -- it is a file, so if it is taken for a directory, the end of that is still to be looked at
    rcases hs.mirrors.stale top (.of_eq hk) hmem with hdir | ⟨q, hq, hle', -, -, hgone'⟩
    · cases FileTree.kind_unique hfile hdir
    · rcases FileTree.eq_or_dir_above hfile hle' with rfl | hdir
      · exact List.mem_append_left _ hq
      · exact absurd hdir hgone'
  · have hdir : (top, .dir) ∈ s.tree := habove.resolve_left heq
    obtain ⟨key', hkey', -⟩ := keyFor_above hk hle heq (h.inside top htop)
    refine .inl ⟨top, List.mem_append_right _ htop, hle, heq, .of_eq hkey', ?_⟩
    refine (hs.mirrors.known top (.of_eq hkey') hdir).resolve_right fun hwaiting => ?_
    exact htop' ((h.inTime top hwaiting (.of_eq hkey')).mpr hdir)

/-- One step: a key that is owed is covered by a signal emitted now, or by what is pending, or is
still owed, by one event less if one was handled. -/
theorem owed_step (hflat : ∀ p, Named watched p → Outside watched p) (hs : s.Sound watched)
    (hk : keyFor watched k = some (kb, key.val)) {next : WatchStep}
    (hnext : CanFollow watched s next)
    (h : s.seen.pending.Covered (.changed kb key) ∨ OwedWithin watched s n k) :
    (∃ y ∈ (step watched debounce s next).1, y.Covers (.changed kb key)) ∨
      (step watched debounce s next).2.seen.pending.Covered (.changed kb key) ∨
      OwedWithin watched (step watched debounce s next).2 (n - handled [next]) k := by
  cases next with
  | change op kind reports =>
    right
    cases happly : op.apply s.tree with
    | none =>
      rw [step_change_failed happly]
      exact h
    | some tree =>
      rw [step_change happly]
      refine h.imp_right ?_
      rintro ⟨hn, howed⟩
      refine ⟨Nat.le_trans hn (by simp), ?_⟩
      change Owed watched tree s.seen.directories
        (((s.queue ++ [_]).take n).flatMap Event.changedPaths) k
      rw [List.take_append_of_le_length hn]
      refine howed.change (.of_eq hk) fun p hp => (hnext tree happly).inTime p ?_
      obtain ⟨event, hevent, hp⟩ := List.mem_flatMap.mp hp
      exact List.mem_flatMap.mpr ⟨event, List.mem_of_mem_take hevent, hp⟩
  | notice event quiet =>
    refine .inr (h.imp_right ?_)
    rintro ⟨hn, howed⟩
    refine ⟨Nat.le_trans hn (by simp [step]), ?_⟩
    change Owed watched s.tree s.seen.directories
      (((s.queue ++ [event]).take n).flatMap Event.changedPaths) k
    rw [List.take_append_of_le_length hn]
    exact howed
  | handle now =>
    right
    cases hqueue : s.queue with
    | nil =>
      rw [step_handle_idle hqueue]
      refine h.imp_right ?_
      rintro ⟨hn, howed⟩
      rw [hqueue, List.take_nil] at howed
      exact absurd howed not_owed_nil
    | cons event queue =>
      rw [step_handle hqueue]
      rcases h with hcovered | ⟨hn, howed⟩
      · exact .inl ((Seen.keeps_handleEvent hs.tidy).2 _ hcovered)
      rw [hqueue] at hn howed
      cases n with
      | zero => exact absurd howed not_owed_nil
      | succ n =>
        rw [List.take_succ_cons, List.flatMap_cons] at howed
        refine (howed.handleEvent hflat hs.tidy hk).imp_right fun howed => ⟨?_, howed⟩
        exact Nat.le_of_succ_le_succ hn
  | error now =>
    refine .inr (h.imp (fun hcovered => ?_) id)
    exact (Seen.keeps_rescan hs.tidy).2 _ hcovered
  | settle now =>
    rcases h with hcovered | howed
    · have hsettled := (hs.tidy.step (.takeSettled now debounce)).2 _ hcovered
      exact hsettled.symm.imp_right .inl
    · exact .inr (.inr howed)

/-- A run: once as many events are handled as were queued, a key that was owed is covered. -/
theorem owed_run (hflat : ∀ p, Named watched p → Outside watched p)
    (hk : keyFor watched k = some (kb, key.val)) {steps : List WatchStep} (hs : s.Sound watched)
    (hsteps : Follows watched debounce steps s)
    (h : s.seen.pending.Covered (.changed kb key) ∨ OwedWithin watched s n k)
    (hn : n ≤ handled steps) :
    (run watched debounce steps s).2.seen.pending.Covered (.changed kb key) ∨
      ∃ y ∈ (run watched debounce steps s).1, y.Covers (.changed kb key) := by
  induction steps generalizing s n with
  | nil =>
    obtain rfl := Nat.le_zero.mp hn
    exact .inl (h.resolve_right fun howed => not_owed_nil howed.2)
  | cons next steps ih =>
    have hcount : handled (next :: steps) = handled [next] + handled steps := by
      rw [← List.singleton_append]
      exact List.countP_append
    rcases owed_step hflat hs hk hsteps.1 h with ⟨y, hy, hcovers⟩ | h
    · exact .inr ⟨y, List.mem_append_left _ hy, hcovers⟩
    · refine (ih (hs.step hsteps.1) hsteps.2 h (by omega)).imp_right ?_
      rintro ⟨y, hy, hcovers⟩
      exact ⟨y, List.mem_append_right _ hy, hcovers⟩

theorem mem_run_settle {y : FsSignal} {now : Nat} : y ∈ (run watched debounce [.settle now] s).1 ↔
    ∃ since, (y, since) ∈ s.seen.pending.entries ∧ now - since ≥ debounce := by
  rw [← Pending.mem_takeSettled_signals]
  change y ∈ (s.seen.pending.takeSettled now debounce).1 ++ [] ↔ _
  rw [List.append_nil]

/-- Only a change that succeeds takes anything from the tree. -/
theorem change_of_lost {next : WatchStep} {e : FsPath × FileKind} (hold : e ∈ s.tree)
    (hlost : e ∉ (step watched debounce s next).2.tree) :
    ∃ op kind reports tree, next = .change op kind reports ∧ op.apply s.tree = some tree := by
  cases next with
  | change op kind reports =>
    cases happly : op.apply s.tree with
    | none =>
      rw [step_change_failed happly] at hlost
      exact absurd hold hlost
    | some tree => exact ⟨op, kind, reports, tree, rfl, happly⟩
  | handle now =>
    cases hqueue : s.queue with
    | nil =>
      rw [step_handle_idle hqueue] at hlost
      exact absurd hold hlost
    | cons event queue =>
      rw [step_handle hqueue] at hlost
      exact absurd hold hlost
  | notice event quiet => exact absurd hold hlost
  | error now => exact absurd hold hlost
  | settle now => exact absurd hold hlost

theorem run_append (steps steps' : List WatchStep) (s : Watch) :
    run watched debounce (steps ++ steps') s =
      ((run watched debounce steps s).1 ++
          (run watched debounce steps' (run watched debounce steps s).2).1,
        (run watched debounce steps' (run watched debounce steps s).2).2) := by
  induction steps generalizing s with
  | nil => rfl
  | cons next steps ih => simp only [List.cons_append, run, ih, List.append_assoc]

theorem Follows.of_append {steps steps' : List WatchStep}
    (h : Follows watched debounce (steps ++ steps') s) : Follows watched debounce steps s ∧
      Follows watched debounce steps' (run watched debounce steps s).2 := by
  induction steps generalizing s with
  | nil => exact ⟨trivial, h⟩
  | cons next steps ih => exact ⟨⟨h.1, (ih h.2).1⟩, (ih h.2).2⟩

theorem outside_of_named {tenant : TenantSlug} {kbs : List KbSlug} {p : FsPath}
    (h : Named (targets tenant kbs) p) : Outside (targets tenant kbs) p := by
  obtain ⟨⟨kb, key⟩, hkey⟩ := Option.ne_none_iff_exists'.mp h
  obtain ⟨entry, rel, hfind, hentry, rfl, -⟩ := keyFor_eq_some hkey
  have hne := List.find?_some hfind
  rw [decide_eq_true_eq] at hne
  have hlen : ∀ other ∈ targets tenant kbs, other.dir.length = 1 := by
    intro other hother
    obtain ⟨kb', -, rfl⟩ := List.mem_map.mp hother
    rfl
  intro other hother hle
  have hrel : 0 < rel.length := List.length_pos_iff.mpr fun heq => hne.2 (by simp [heq])
  have hle := hle.length_le
  rw [List.length_append, hlen entry hentry, hlen other hother] at hle
  omega

end Watch

namespace Watch

/-- The watcher keeps up with the step `next` of a run: an object key that goes is, once the events
queued by then are handled, covered by a signal emitted after it went, by the first settling late
enough at the latest; and at the end, a directory that no queued event names is remembered. -/
def KeepsUp (watched : List Watched) (debounce : Nat) (tree : FileTree Bytes)
    (before : List WatchStep) (next : WatchStep) (after : List WatchStep) : Prop :=
  let s := (run watched debounce before (start watched tree)).2
  let s' := (step watched debounce s next).2
  let final := (run watched debounce after s').2
  (∀ kb (key : ObjectPath) path, keyFor watched path = some (kb, key.val) →
    (path, .file) ∈ s.tree → (path, .file) ∉ s'.tree → s'.queue.length ≤ handled after →
    ∃ instant, ∀ now ≥ instant, ∃ y ∈ (run watched debounce (after ++ [.settle now]) s').1,
      y.Covers (.changed kb key)) ∧
  ∀ path, keyFor watched path ≠ none → (path, .dir) ∈ final.tree →
    (∀ event ∈ final.queue, path ∉ event.changedPaths) → path ∈ final.seen.directories

end Watch

open Watch in
/-- In a run whose every change can be followed, the watcher keeps up with every step. -/
theorem vanished_keys_are_signalled (tenant : TenantSlug) (kbs : List KbSlug) (debounce : Nat)
    (tree : FileTree Bytes) (before : List WatchStep) (next : WatchStep) (after : List WatchStep)
    (h : Follows (targets tenant kbs) debounce (before ++ next :: after)
      (start (targets tenant kbs) tree)) :
    KeepsUp (targets tenant kbs) debounce tree before next after := by
  set watched := targets tenant kbs with hwatched
  unfold KeepsUp
  intro s s' final
  obtain ⟨hbefore, hnext, hafter⟩ := h.of_append
  have hs : s.Sound watched := (sound_start watched tree).run hbefore
  have hs' : s'.Sound watched := hs.step hnext
  have hfinal : final.Sound watched := hs'.run hafter
  refine ⟨fun kb key path hkey hfile hgone hhandled => ?_, fun path hnamed hdir hnone => ?_⟩
  · have howed : OwedWithin watched s' s'.queue.length path := by
      refine ⟨Nat.le_refl _, ?_⟩
      rw [List.take_length]
      change Owed watched s'.tree s'.seen.directories s'.todo path
      obtain ⟨op, kind, reports, tree', hstep, happly⟩ := change_of_lost hfile hgone
      have heq : s' = { s with tree := tree', queue := s.queue ++ [⟨kind, op.tops, false⟩] } := by
        simp only [s', hstep, step_change happly]
      rw [heq] at hgone ⊢
      rw [todo_change reports]
      rw [hstep] at hnext
      exact (hnext tree' happly).owed happly hs hkey hfile hgone
    rcases owed_run (fun p => outside_of_named) hkey hs' hafter (.inr howed) hhandled with
      ⟨y, since, hmem, hcovers⟩ | ⟨y, hy, hcovers⟩
    · refine ⟨since + debounce, fun now hnow => ⟨y, ?_, hcovers⟩⟩
      rw [run_append]
      refine List.mem_append_right _ (mem_run_settle.mpr ⟨since, hmem, ?_⟩)
      exact Nat.le_sub_of_add_le' hnow
    · refine ⟨0, fun now _ => ⟨y, ?_, hcovers⟩⟩
      rw [run_append]
      exact List.mem_append_left _ hy
  · refine (hfinal.mirrors.known path hnamed hdir).resolve_right fun htodo => ?_
    obtain ⟨event, hevent, hpath⟩ := List.mem_flatMap.mp htodo
    exact hnone event hevent hpath

namespace Watch

/-- The object `a/f.md` is written. -/
def populated : List WatchStep :=
  [.change (.create (inNotes ["a"]) .dir) .create rfl, .handle 0,
   .change (.create (inNotes ["a", "f.md"]) .file) .create rfl, .handle 0, .settle 1000]

end Watch

open Watch in
theorem vanished_keys_are_signalled_moveOut :
    KeepsUp (targets .default [.notes]) 500 emptyNotes populated
      (.change (.moveOut (inNotes ["a"])) .rename rfl) [.handle 2000] :=
  vanished_keys_are_signalled .default [.notes] 500 emptyNotes populated _ [.handle 2000]
    (by decide)

namespace Watch

/-- The object `a/b/f.md` is written, and the directory `a` renamed to `c`. -/
def populatedRename : List WatchStep :=
  [.change (.create (inNotes ["a"]) .dir) .create rfl, .handle 0,
   .change (.create (inNotes ["a", "b"]) .dir) .create rfl, .handle 0,
   .change (.create (inNotes ["a", "b", "f.md"]) .file) .create rfl, .handle 0,
   .change (.rename (inNotes ["a"]) (inNotes ["c"])) .rename rfl, .handle 0, .settle 1000]

end Watch

open Watch in
/-- The directory `c/b` came with the rename, unreported, so it is not remembered. When it is moved
away, the report is taken for one of an object `c/b`, and nothing says that `c/b/f.md` is gone. -/
theorem inner_directory_is_not_remembered : ¬ ∀ (tenant : TenantSlug) (kbs : List KbSlug)
    (debounce : Nat) (tree : FileTree Bytes) (before : List WatchStep) (next : WatchStep)
    (after : List WatchStep), KeepsUp (targets tenant kbs) debounce tree before next after := by
  intro h
  have h := (h .default [.notes] 500 emptyNotes populatedRename
    (.change (.moveOut (inNotes ["c", "b"])) .rename rfl) [.handle 2000]).1 .notes
    ⟨"c/b/f.md".toList, by decide⟩ (inNotes ["c", "b", "f.md"]) (by decide)
    (by decide) (by decide) (by decide)
  obtain ⟨instant, h⟩ := h
  obtain ⟨y, hy, hcovers⟩ := h instant (Nat.le_refl _)
  rw [run_append] at hy
  rcases List.mem_append.mp hy with hy | hy
  · exact absurd hy List.not_mem_nil
  · obtain ⟨since, hmem, -⟩ := mem_run_settle.mp hy
    have hpending : ∀ e ∈ (run (targets .default [.notes]) 500 [.handle 2000]
        (step (targets .default [.notes]) 500
          (run (targets .default [.notes]) 500 populatedRename
            (start (targets .default [.notes]) emptyNotes)).2
          (.change (.moveOut (inNotes ["c", "b"])) .rename rfl)).2).2.seen.pending.entries,
        e = (.changed .notes ⟨"c/b".toList, by decide⟩, 2000) := by decide
    cases hpending _ hmem
    exact absurd hcovers.2 (by decide)

end StorageFs
