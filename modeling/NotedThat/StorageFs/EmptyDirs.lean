-- SUMMARY: However writes and deletes mix, pruning takes no object, and what is left of directories is what the objects lie in.
import NotedThat.StorageFs.Directories

/-!
# Empty directories

A directory without content has a task that answers for it: a write that made it and goes inside
next, or a delete that emptied it and removes it next. The write loses sight of it only when it is
no longer there, or no longer empty. So when all tasks are done, the directories are just those that
objects lie in, as if the keys were all there is. A write that drops its temp file is the exception:
nothing prunes behind it.
-/

namespace FileTree

variable {N : Type} [DecidableEq N] {t t' : FileTree N} {p d : List N} {kind : FileKind}

/-- What is empty after something was made is that, or was empty before; and not what it was made in. -/
theorem Empty.of_make (hmake : t.make p kind = .ok t') (h : t'.Empty d) :
    d ≠ p.dropLast ∧ (d = p ∧ kind = .dir ∨ t.Empty d) := by
  have hp := parent_of_make hmake
  constructor
  · rintro rfl
    have hself := h.2 p kind ((mem_make hmake).mpr (.inr ⟨rfl, rfl⟩)) (List.dropLast_prefix p)
    have hlength := congrArg List.length hself
    have hpos := List.length_pos_iff.mpr hp.2.2
    rw [List.length_dropLast] at hlength
    omega
  · rcases (mem_make hmake).mp h.1 with hdir | ⟨rfl, hkind⟩
    · exact .inr ⟨hdir, fun y kind' hmem => h.2 y kind' ((mem_make hmake).mpr (.inl hmem))⟩
    · exact .inl ⟨rfl, hkind.symm⟩

/-- What is empty after something was taken away was empty before, or is what it was in. -/
theorem Empty.of_removed (hremoved : ∀ y kind, (y, kind) ∈ t' ↔ (y, kind) ∈ t ∧ y ≠ p) (hp : t.Exists p)
    (h : t'.Empty d) : d ≠ p ∧ (d = p.dropLast ∨ t.Empty d) := by
  obtain ⟨hdir, hne⟩ := (hremoved d .dir).mp h.1
  refine ⟨hne, or_iff_not_imp_left.mpr fun hparent => ⟨hdir, fun y kind' hmem hle => ?_⟩⟩
  by_cases hy : y = p
  · -- the directory that it was in lies below too
    subst hy
    exfalso
    have hle' : d <+: y.dropLast := by
      obtain ⟨rest, rfl⟩ := hle
      have hrest : rest ≠ [] := fun hnil => hne (by rw [hnil, List.append_nil])
      rw [List.dropLast_append_of_ne_nil hrest]
      exact List.prefix_append _ _
    have hy : y ≠ [] := by
      rintro rfl
      exact hne (List.prefix_nil.mp hle)
    have hshort : y.dropLast ≠ y := fun heq => by
      have hlength := congrArg List.length heq
      have hpos := List.length_pos_iff.mpr hy
      rw [List.length_dropLast] at hlength
      omega
    have hup := (hremoved _ _).mpr ⟨dir_above (List.dropLast_prefix y) hshort hmem, hshort⟩
    exact hparent (h.2 _ _ hup hle').symm
  · exact h.2 y kind' ((hremoved y kind').mpr ⟨hmem, hy⟩) hle

end FileTree

namespace Directories

variable {N T : Type} [DecidableEq T] {isTemp : N → Bool}

/-- The task sees to it that the directory does not stay empty. -/
def Task.Watches (task : Task N) (d : List N) : Prop :=
  (∃ remaining, task.phase = .inside d remaining) ∨ task.phase = .pruning d

/-- What a task has in the tree under a name that no key has. -/
def Task.Temp (task : Task N) (f : List N) : Prop :=
  ∃ temp, (task.phase = .staged temp ∨ task.phase = .dropping temp) ∧ f = task.dir ++ [temp]

/-- The directories that a write makes are on the way to its own. -/
def Task.OnWay (task : Task N) : Prop :=
  match task.phase with
  | .making x _ => x <+: task.dir
  | .looking x _ _ => x <+: task.dir
  | .inside m _ => m <+: task.dir
  | _ => True

/-- What holds at any time: each empty directory is watched, and each file is of a key or a write. -/
structure Inv (isTemp : N → Bool) (s : State T N) : Prop where
  root : ([], .dir) ∈ s.tree
  watched : ∀ d, d ≠ [] → s.tree.Empty d → ∃ t, (s.task t).Watches d
  files : ∀ f, (f, .file) ∈ s.tree → IsKey isTemp f ∨ ∃ t, (s.task t).Temp f
  keys : ∀ t, (s.task t).phase ≠ .idle → IsKey isTemp (s.task t).path
  way : ∀ t, (s.task t).OnWay

@[simp] theorem set_tree (s : State T N) (t : T) (phase : Phase N) : (s.set t phase).tree = s.tree := rfl

@[simp] theorem changed_tree (s : State T N) (t : T) (tree : FileTree N) (phase : Phase N) :
    (s.changed t tree phase).tree = tree := rfl

theorem set_task (s : State T N) (t u : T) (phase : Phase N) :
    (s.set t phase).task u = if u = t then { s.task t with phase := phase } else s.task u := by
  unfold State.set
  by_cases hu : u = t
  · subst hu
    simp
  · simp [hu]

@[simp] theorem changed_task (s : State T N) (t u : T) (tree : FileTree N) (phase : Phase N) :
    (s.changed t tree phase).task u = (s.set t phase).task u := rfl

@[simp] theorem set_path (s : State T N) (t u : T) (phase : Phase N) :
    ((s.set t phase).task u).path = (s.task u).path := by
  rw [set_task]
  split
  · next hu => rw [hu]
  · rfl

/-- A task that goes on in a tree of which no directory that it watched is empty any more, and no other
one is that was not. -/
theorem Inv.changed {s : State T N} {t : T} {tree : FileTree N} {phase : Phase N} (h : Inv isTemp s)
    (hbusy : (s.task t).phase ≠ .idle) (hway : ({ s.task t with phase := phase } : Task N).OnWay)
    (hroot : ([], .dir) ∈ tree)
    (hwatched : ∀ d, d ≠ [] → tree.Empty d →
      (∃ remaining, phase = .inside d remaining) ∨ phase = .pruning d ∨
        s.tree.Empty d ∧ ¬ (s.task t).Watches d)
    (hfiles : ∀ f, (f, .file) ∈ tree → IsKey isTemp f ∨ ({ s.task t with phase := phase } : Task N).Temp f ∨
      (f, .file) ∈ s.tree ∧ ¬ (s.task t).Temp f) : Inv isTemp (s.changed t tree phase) where
  root := hroot
  watched d hd hempty := by
    rcases hwatched d hd hempty with ⟨remaining, rfl⟩ | rfl | ⟨hempty, hother⟩
    · exact ⟨t, .inl ⟨remaining, by simp [set_task]⟩⟩
    · exact ⟨t, .inr (by simp [set_task])⟩
    · obtain ⟨u, hu⟩ := h.watched d hd hempty
      have hne : u ≠ t := fun heq => hother (heq ▸ hu)
      exact ⟨u, by rw [changed_task, set_task, if_neg hne]; exact hu⟩
  files f hmem := by
    rcases hfiles f hmem with hkey | htemp | ⟨hmem, hother⟩
    · exact .inl hkey
    · exact .inr ⟨t, by rw [changed_task, set_task, if_pos rfl]; exact htemp⟩
    · refine (h.files f hmem).imp_right ?_
      rintro ⟨u, hu⟩
      have hne : u ≠ t := fun heq => hother (heq ▸ hu)
      exact ⟨u, by rw [changed_task, set_task, if_neg hne]; exact hu⟩
  keys u hu := by
    rw [changed_task, set_path]
    rw [changed_task, set_task] at hu
    split at hu
    · next heq => exact heq ▸ h.keys t hbusy
    · exact h.keys u hu
  way u := by
    rw [changed_task, set_task]
    split
    · exact hway
    · exact h.way u

/-- A step that leaves the tree as it is. -/
theorem Inv.set {s : State T N} {t : T} {phase : Phase N} (h : Inv isTemp s)
    (hbusy : (s.task t).phase ≠ .idle) (hway : ({ s.task t with phase := phase } : Task N).OnWay)
    (hwatched : ∀ d, d ≠ [] → s.tree.Empty d → (s.task t).Watches d →
      (∃ remaining, phase = .inside d remaining) ∨ phase = .pruning d)
    (hfiles : ∀ f, (s.task t).Temp f → ({ s.task t with phase := phase } : Task N).Temp f) :
    Inv isTemp (s.set t phase) := by
  have hwatches : ∀ d, d ≠ [] → s.tree.Empty d → (∃ remaining, phase = .inside d remaining) ∨
      phase = .pruning d ∨ s.tree.Empty d ∧ ¬ (s.task t).Watches d := by
    intro d hd hempty
    by_cases hmine : (s.task t).Watches d
    · exact (hwatched d hd hempty hmine).imp_right .inl
    · exact .inr (.inr ⟨hempty, hmine⟩)
  refine h.changed hbusy hway h.root hwatches fun f hmem => ?_
  by_cases hmine : (s.task t).Temp f
  · exact .inr (.inl (hfiles f hmine))
  · exact .inr (.inr ⟨hmem, hmine⟩)

/-- A task that starts. -/
theorem Inv.start {s : State T N} {t : T} {task : Task N} (h : Inv isTemp s)
    (hidle : (s.task t).phase = .idle) (hkey : IsKey isTemp task.path) (hway : task.OnWay) :
    Inv isTemp { s with task := Function.update s.task t task } where
  root := h.root
  watched d hd hempty := by
    obtain ⟨u, hu⟩ := h.watched d hd hempty
    have hne : u ≠ t := by
      rintro rfl
      simp [Task.Watches, hidle] at hu
    exact ⟨u, by simpa [hne] using hu⟩
  files f hmem := by
    refine (h.files f hmem).imp_right ?_
    rintro ⟨u, hu⟩
    have hne : u ≠ t := by
      rintro rfl
      obtain ⟨temp, hphase, -⟩ := hu
      simp [hidle] at hphase
    exact ⟨u, by simpa [hne] using hu⟩
  keys u hu := by
    by_cases hne : u = t
    · subst hne
      simpa using hkey
    · have hu' : (s.task u).phase ≠ .idle := by simpa [hne] using hu
      simpa [hne] using h.keys u hu'
  way u := by
    by_cases hne : u = t
    · subst hne
      simpa using hway
    · simpa [hne] using h.way u

theorem nextDir_of_prefix {dir m : List N} (hle : m <+: dir) (hne : m ≠ dir) :
    nextDir dir m <+: dir ∧ (nextDir dir m).dropLast = m ∧ nextDir dir m ≠ [] := by
  obtain ⟨rest, rfl⟩ := hle
  have hrest : rest ≠ [] := fun hnil => hne (by rw [hnil, List.append_nil])
  obtain ⟨name, rest, rfl⟩ := List.exists_cons_of_ne_nil hrest
  have hnext : nextDir (m ++ name :: rest) m = m ++ [name] := by
    rw [nextDir, List.take_append, List.take_of_length_le (Nat.le_succ _)]
    simp
  rw [hnext]
  exact ⟨⟨rest, by simp⟩, List.dropLast_concat, by simp⟩

/-- Staging that starts again or fails has no directory to answer for. -/
theorem Inv.retry {s s' : State T N} {t : T} {error : Errno} {remaining : Nat} {event : Event T N}
    (h : Inv isTemp s) (hbusy : (s.task t).phase ≠ .idle)
    (hwatched : ∀ d, s.tree.Empty d → ¬ (s.task t).Watches d) (htemp : ∀ f, ¬ (s.task t).Temp f)
    (hretry : Retry s t error remaining event s') : Inv isTemp s' := by
  cases hretry with
  | again =>
    exact h.set hbusy (List.prefix_refl (s.task t).dir)
      (fun d _ hempty hmine => absurd hmine (hwatched d hempty)) fun f hmine => absurd hmine (htemp f)
  | fails =>
    exact h.set hbusy trivial (fun d _ hempty hmine => absurd hmine (hwatched d hempty))
      fun f hmine => absurd hmine (htemp f)

variable [DecidableEq N]

/-- What a write watches is not empty when it cannot go inside: it is gone, or something is in it. -/
theorem not_empty_of_make {tree : FileTree N} {x : List N} {kind : FileKind} {error : Errno} (hx : x ≠ [])
    (h : tree.make x kind = .error error) : ¬ tree.Empty x.dropLast := by
  intro hempty
  by_cases herror : error = .alreadyExists
  · obtain ⟨kind', hmem⟩ := FileTree.exists_iff.mp (FileTree.exists_of_make (herror ▸ h))
    have hself := congrArg List.length (hempty.2 x kind' hmem (List.dropLast_prefix x))
    have hpos := List.length_pos_iff.mpr hx
    rw [List.length_dropLast] at hself
    omega
  · exact FileTree.no_parent_of_make h hx herror hempty.1

/-- A directory is made: it is watched, and the one it is in is not empty. -/
theorem Inv.made {s : State T N} {t : T} {x : List N} {remaining : Nat} {tree : FileTree N} (h : Inv isTemp s)
    (hbusy : (s.task t).phase ≠ .idle) (hway : x <+: (s.task t).dir)
    (hwatch : ∀ d, (s.task t).Watches d → d = x.dropLast) (htemp : ∀ f, ¬ (s.task t).Temp f)
    (hmake : s.tree.make x .dir = .ok tree) : Inv isTemp (s.changed t tree (.inside x remaining)) := by
  refine h.changed hbusy hway ((FileTree.mem_make hmake).mpr (.inl h.root)) (fun d _ hempty => ?_)
    fun f hmem => ?_
  · obtain ⟨hne, ⟨rfl, -⟩ | hempty⟩ := hempty.of_make hmake
    · exact .inl ⟨remaining, rfl⟩
    · exact .inr (.inr ⟨hempty, fun hmine => hne (hwatch d hmine)⟩)
  · rcases (FileTree.mem_make hmake).mp hmem with hmem | ⟨-, hkind⟩
    · exact .inr (.inr ⟨hmem, htemp f⟩)
    · cases hkind

/-- The steps after which the invariant may fail: an I/O error where a directory was just made, and the
end of a write that could not commit. -/
def Event.Clean : Event T N → Prop
  | .fault _ => False
  | .discarded _ => False
  | _ => True

theorem Inv.step {s s' : State T N} {event : Event T N} (h : Inv isTemp s) (hstep : Step isTemp s event s')
    (hclean : event.Clean) : Inv isTemp s' := by
  cases hstep with
  | write path hidle hkey => exact h.start hidle hkey (List.prefix_refl path.dropLast)
  | @made t x remaining tree hphase hmake =>
    have hway := h.way t
    rw [Task.OnWay, hphase] at hway
    exact h.made (by simp [hphase]) hway (by simp [Task.Watches, hphase]) (by simp [Task.Temp, hphase]) hmake
  | @parentMissing t x remaining hphase _ =>
    have hway := h.way t
    rw [Task.OnWay, hphase] at hway
    exact h.set (by simp [hphase]) ((List.dropLast_prefix x).trans hway) (by simp [Task.Watches, hphase])
      (by simp [Task.Temp, hphase])
  | @notMade t x remaining error hphase _ _ =>
    have hway := h.way t
    rw [Task.OnWay, hphase] at hway
    exact h.set (by simp [hphase]) hway (by simp [Task.Watches, hphase]) (by simp [Task.Temp, hphase])
  | @isDir t x remaining error hphase _ =>
    have hway := h.way t
    rw [Task.OnWay, hphase] at hway
    exact h.set (by simp [hphase]) hway (by simp [Task.Watches, hphase]) (by simp [Task.Temp, hphase])
  | isNoDir hphase _ hretry =>
    exact h.retry (by simp [hphase]) (by simp [Task.Watches, hphase]) (by simp [Task.Temp, hphase]) hretry
  | @madeInside t m remaining tree hphase hne hmake =>
    have hway := h.way t
    rw [Task.OnWay, hphase] at hway
    obtain ⟨hnext, hparent, -⟩ := nextDir_of_prefix hway hne
    refine h.made (by simp [hphase]) hnext (fun d hmine => ?_) (by simp [Task.Temp, hphase]) hmake
    rw [hparent]
    simpa [Task.Watches, hphase, eq_comm] using hmine
  | @notMadeInside t m remaining error hphase hne hmake =>
    have hway := h.way t
    rw [Task.OnWay, hphase] at hway
    obtain ⟨hnext, hparent, hx⟩ := nextDir_of_prefix hway hne
    refine h.set (by simp [hphase]) hnext (fun d _ hempty hmine => ?_) (by simp [Task.Temp, hphase])
    obtain rfl : m = d := by simpa [Task.Watches, hphase] using hmine
    exact absurd (hparent.symm ▸ hempty) (not_empty_of_make hx hmake)
  | @stage t remaining temp tree hphase htemp hmake =>
    refine h.changed (by simp [hphase]) trivial ((FileTree.mem_make hmake).mpr (.inl h.root))
      (fun d _ hempty => ?_) fun f hmem => ?_
    · obtain ⟨hne, ⟨-, hkind⟩ | hempty⟩ := hempty.of_make hmake
      · cases hkind
      · rw [List.dropLast_concat] at hne
        refine .inr (.inr ⟨hempty, fun hmine => hne ?_⟩)
        simpa [Task.Watches, hphase, eq_comm] using hmine
    · rcases (FileTree.mem_make hmake).mp hmem with hmem | ⟨rfl, -⟩
      · exact .inr (.inr ⟨hmem, by simp [Task.Temp, hphase]⟩)
      · exact .inr (.inl ⟨temp, .inl rfl, rfl⟩)
  | @notStaged _ t remaining temp error _ hphase _ hmake _ hretry =>
    refine h.retry (by simp [hphase]) (fun d hempty hmine => ?_) (by simp [Task.Temp, hphase]) hretry
    obtain rfl : (s.task t).dir = d := by simpa [Task.Watches, hphase] using hmine
    have hparent := not_empty_of_make (by simp) hmake
    rw [List.dropLast_concat] at hparent
    exact hparent hempty
  | @commit t temp tree hphase hrename =>
    have hkey := h.keys t (by simp [hphase])
    have hmem : ∀ y kind, (y, kind) ∈ tree ↔ (y, kind) ∈ s.tree ∧ y ≠ (s.task t).dir ++ [temp] ∧
        y ≠ (s.task t).path ∨ y = (s.task t).path ∧ kind = .file := fun y kind =>
      FileTree.mem_renameFile hrename
    have hroot : ([] : List N) ≠ (s.task t).path := hkey.1.symm
    refine h.changed (by simp [hphase]) trivial ((hmem _ _).mpr (.inl ⟨h.root, by simp, hroot⟩))
      (fun d hd hempty => ?_) fun f hfile => ?_
    · refine .inr (.inr ⟨⟨?_, fun y kind hy hle => ?_⟩, by simp [Task.Watches, hphase]⟩)
      · rcases (hmem _ _).mp hempty.1 with ⟨hdir, -⟩ | ⟨-, hkind⟩
        · exact hdir
        · cases hkind
      · by_contra hyd
        -- whatever is below, the key's file is
        have hbelow : d <+: (s.task t).path := by
          by_cases htemp : y = (s.task t).dir ++ [temp]
          · rcases List.prefix_concat_iff.mp (htemp ▸ hle) with heq | hdir
            · exact absurd (htemp.trans heq.symm) hyd
            · exact hdir.trans (List.dropLast_prefix _)
          · by_cases hpath : y = (s.task t).path
            · exact hpath ▸ hle
            · exact absurd (hempty.2 y kind ((hmem _ _).mpr (.inl ⟨hy, htemp, hpath⟩)) hle) hyd
        have hself := hempty.2 _ .file ((hmem _ _).mpr (.inr ⟨rfl, rfl⟩)) hbelow
        rcases (hmem _ _).mp hempty.1 with ⟨-, -, hpath⟩ | ⟨-, hkind⟩
        · exact hpath hself.symm
        · cases hkind
    · rcases (hmem _ _).mp hfile with ⟨hfile, htemp, -⟩ | ⟨rfl, -⟩
      · refine .inr (.inr ⟨hfile, ?_⟩)
        rintro ⟨temp', hphase', rfl⟩
        rw [hphase] at hphase'
        rcases hphase' with hstaged | hdropping
        · exact htemp (by rw [Phase.staged.inj hstaged])
        · cases hdropping
      · exact .inl hkey
  | @notCommitted t temp hphase =>
    refine h.set (by simp [hphase]) trivial (by simp [Task.Watches, hphase]) ?_
    rintro f ⟨temp', hphase', rfl⟩
    rw [hphase] at hphase'
    rcases hphase' with hstaged | hdropping
    · exact ⟨temp', .inr (by rw [Phase.staged.inj hstaged]), rfl⟩
    · cases hdropping
  | drop => exact hclean.elim
  | delete path hidle hkey => exact h.start hidle hkey trivial
  | @unlink t tree hphase hunlink =>
    have hkey := h.keys t (by simp [hphase])
    have hmem : ∀ y kind, (y, kind) ∈ tree ↔ (y, kind) ∈ s.tree ∧ y ≠ (s.task t).path := fun y kind =>
      FileTree.mem_unlink hunlink
    have hexists := FileTree.exists_iff.mpr ⟨_, FileTree.file_of_unlink hunlink⟩
    refine h.changed (by simp [hphase]) trivial ((hmem _ _).mpr ⟨h.root, hkey.1.symm⟩)
      (fun d _ hempty => ?_) fun f hfile => ?_
    · obtain ⟨-, rfl | hempty⟩ := hempty.of_removed hmem hexists
      · exact .inr (.inl rfl)
      · exact .inr (.inr ⟨hempty, by simp [Task.Watches, hphase]⟩)
    · exact .inr (.inr ⟨((hmem _ _).mp hfile).1, by simp [Task.Temp, hphase]⟩)
  | notUnlinked hphase _ =>
    exact h.set (by simp [hphase]) trivial (by simp [Task.Watches, hphase]) (by simp [Task.Temp, hphase])
  | @prune t current tree hphase hcurrent hrmdir =>
    obtain ⟨hwas, hmem⟩ := FileTree.rmdir_eq_ok hrmdir
    refine h.changed (by simp [hphase]) trivial ((hmem _ _).mpr ⟨h.root, hcurrent.symm⟩)
      (fun d _ hempty => ?_) fun f hfile => ?_
    · obtain ⟨hne, rfl | hempty⟩ := hempty.of_removed hmem (FileTree.exists_iff.mpr ⟨_, hwas.1⟩)
      · exact .inr (.inl rfl)
      · refine .inr (.inr ⟨hempty, fun hmine => hne ?_⟩)
        simpa [Task.Watches, hphase, eq_comm] using hmine
    · exact .inr (.inr ⟨((hmem _ _).mp hfile).1, by simp [Task.Temp, hphase]⟩)
  | @notPruned t current error hphase hrmdir =>
    refine h.set (by simp [hphase]) trivial (fun d _ hempty hmine => ?_) (by simp [Task.Temp, hphase])
    obtain rfl : current = d := by simpa [Task.Watches, hphase] using hmine
    exact absurd hempty (FileTree.not_empty_of_rmdir hrmdir)
  | @atBucket t hphase =>
    refine h.set (by simp [hphase]) trivial (fun d hd _ hmine => ?_) (by simp [Task.Temp, hphase])
    obtain rfl : [] = d := by simpa [Task.Watches, hphase] using hmine
    exact absurd rfl hd
  | fault => exact hclean.elim

/-! ## Runs -/

theorem Inv.run {P : State T N → Prop} {start s : State T N} {events : List (Event T N)}
    (h : Inv isTemp start) (hrun : Run isTemp P start events s) (hclean : ∀ e ∈ events, e.Clean) :
    Inv isTemp s := by
  induction hrun with
  | start => exact h
  | step _ hstep _ ih =>
    exact (ih fun e hmem => hclean e (List.mem_append_left _ hmem)).step hstep
      (hclean _ (List.mem_append_right _ (List.mem_singleton_self _)))

/-- The temp file of a write has a name that no key has. -/
def TempNamed (isTemp : N → Bool) (s : State T N) : Prop :=
  ∀ t temp, (s.task t).phase = .staged temp ∨ (s.task t).phase = .dropping temp → isTemp temp = true

omit [DecidableEq N] in
/-- A step of a task that has no temp file behind it, or the one it had. -/
theorem TempNamed.set {s : State T N} {t : T} {phase : Phase N} (h : TempNamed isTemp s)
    (hphase : ∀ temp, phase = .staged temp ∨ phase = .dropping temp → isTemp temp = true) :
    TempNamed isTemp (s.set t phase) := by
  intro u temp hu
  rw [set_task] at hu
  split at hu
  · exact hphase temp hu
  · exact h u temp hu

omit [DecidableEq N] in
theorem TempNamed.start {s : State T N} {t : T} {task : Task N} (h : TempNamed isTemp s)
    (hphase : ∀ temp, task.phase ≠ .staged temp ∧ task.phase ≠ .dropping temp) :
    TempNamed isTemp { s with task := Function.update s.task t task } := by
  intro u temp hu
  by_cases hne : u = t
  · subst hne
    simp [(hphase temp).1, (hphase temp).2] at hu
  · exact h u temp (by simpa [hne] using hu)

theorem TempNamed.step {s s' : State T N} {event : Event T N} (h : TempNamed isTemp s)
    (hstep : Step isTemp s event s') : TempNamed isTemp s' := by
  have hretry : ∀ {t error remaining event s'}, Retry s t error remaining event s' → TempNamed isTemp s' := by
    intro t error remaining event s' hretry
    cases hretry with
    | again => exact h.set (by simp)
    | fails => exact h.set (by simp)
  cases hstep with
  | write path => exact h.start (by simp)
  | delete path => exact h.start (by simp)
  | isNoDir _ _ hr => exact hretry hr
  | notStaged _ _ _ _ hr => exact hretry hr
  | stage _ htemp _ => exact h.set (by rintro _ (heq | heq) <;> cases heq; exact htemp)
  | notCommitted hphase => exact h.set (by rintro _ (heq | heq) <;> cases heq; exact h _ _ (.inl hphase))
  | made | parentMissing | notMade | isDir | madeInside | notMadeInside | commit | drop | unlink |
    notUnlinked | prune | notPruned | atBucket | fault => exact h.set (by simp)

/-- An object stays where it is, unless it is deleted itself. -/
theorem file_stays {s s' : State T N} {event : Event T N} {f : List N} (hnamed : TempNamed isTemp s)
    (hkey : IsKey isTemp f) (hfile : (f, .file) ∈ s.tree) (hstep : Step isTemp s event s')
    (hevent : event ≠ .unlinked f) : (f, .file) ∈ s'.tree := by
  have hretry : ∀ {t error remaining event s'}, Retry s t error remaining event s' → (f, .file) ∈ s'.tree := by
    intro t error remaining event s' hretry
    cases hretry <;> exact hfile
  -- no key is the name of a temp file
  have htemp : ∀ {t temp}, (s.task t).phase = .staged temp ∨ (s.task t).phase = .dropping temp →
      f ≠ (s.task t).dir ++ [temp] := by
    rintro t temp hphase rfl
    have hname := hkey.2 temp (List.mem_append_right _ (List.mem_singleton_self _))
    rw [hnamed t temp hphase] at hname
    cases hname
  cases hstep with
  | made _ hmake => exact (FileTree.mem_make hmake).mpr (.inl hfile)
  | madeInside _ _ hmake => exact (FileTree.mem_make hmake).mpr (.inl hfile)
  | stage _ _ hmake => exact (FileTree.mem_make hmake).mpr (.inl hfile)
  | isNoDir _ _ hr => exact hretry hr
  | notStaged _ _ _ _ hr => exact hretry hr
  | @commit t temp tree hphase hrename =>
    refine (FileTree.mem_renameFile hrename).mpr ?_
    by_cases hpath : f = (s.task t).path
    · exact .inr ⟨hpath, rfl⟩
    · exact .inl ⟨hfile, htemp (.inl hphase), hpath⟩
  | drop hphase hunlink => exact (FileTree.mem_unlink hunlink).mpr ⟨hfile, htemp (.inr hphase)⟩
  | unlink _ hunlink =>
    refine (FileTree.mem_unlink hunlink).mpr ⟨hfile, ?_⟩
    rintro rfl
    exact hevent rfl
  | prune _ _ hrmdir =>
    obtain ⟨hempty, hmem⟩ := FileTree.rmdir_eq_ok hrmdir
    refine (hmem _ _).mpr ⟨hfile, ?_⟩
    rintro rfl
    cases FileTree.kind_unique hfile hempty.1
  | write | delete | parentMissing | notMade | isDir | notMadeInside | notCommitted | notUnlinked |
    notPruned | atBucket | fault => exact hfile

/-- Nothing is under way, and the tree is what the keys of its objects make it. -/
structure Tidy (isTemp : N → Bool) (s : State T N) : Prop where
  idle : ∀ t, (s.task t).phase = .idle
  files : ∀ f, (f, .file) ∈ s.tree → IsKey isTemp f
  dirs : ∀ d, (d, .dir) ∈ s.tree ↔ d = [] ∨ ∃ f, d <+: f ∧ d ≠ f ∧ (f, .file) ∈ s.tree

omit [DecidableEq N] [DecidableEq T] in
theorem Tidy.inv {s : State T N} (h : Tidy isTemp s) : Inv isTemp s where
  root := (h.dirs []).mpr (.inl rfl)
  watched d hd hempty := by
    obtain ⟨f, hle, hne, hfile⟩ := ((h.dirs d).mp hempty.1).resolve_left hd
    exact absurd (hempty.2 f .file hfile hle).symm hne
  files f hfile := .inl (h.files f hfile)
  keys t hbusy := absurd (h.idle t) hbusy
  way t := by simp [Task.OnWay, h.idle t]

omit [DecidableEq T] in
theorem Inv.tidy {s : State T N} (h : Inv isTemp s) (hidle : ∀ t, (s.task t).phase = .idle) :
    Tidy isTemp s where
  idle := hidle
  files f hfile := by
    refine (h.files f hfile).resolve_right ?_
    rintro ⟨t, temp, hphase, -⟩
    simp [hidle t] at hphase
  dirs d := by
    refine FileTree.dir_iff_above_file h.root fun d hd hempty => ?_
    obtain ⟨t, hwatch⟩ := h.watched d hd hempty
    simp [Task.Watches, hidle t] at hwatch

/-- Writes and deletes of whatever keys, mixed in whatever way: an object goes only when it is deleted,
and when all is done, unless a write hit an I/O error or dropped its temp file, the directories are
those that objects lie in, and every file is an object. -/
theorem directories_hold_objects (isTemp : N → Bool) (start s : State T N) (events : List (Event T N))
    (hstart : Tidy isTemp start) (hrun : Run isTemp (fun _ => True) start events s) :
    (∀ f, IsKey isTemp f → (f, .file) ∈ start.tree → (∀ e ∈ events, e ≠ .unlinked f) →
      (f, .file) ∈ s.tree) ∧
    ((∀ e ∈ events, e.Clean) → (∀ t, (s.task t).phase = .idle) → Tidy isTemp s) := by
  refine ⟨fun f hkey hfile hevents => ?_, fun hclean hidle => (hstart.inv.run hrun hclean).tidy hidle⟩
  have hstays : TempNamed isTemp s ∧ ((∀ e ∈ events, e ≠ .unlinked f) → (f, .file) ∈ s.tree) := by
    induction hrun with
    | start => exact ⟨fun t temp hphase => by simp [hstart.idle t] at hphase, fun _ => hfile⟩
    | step _ hstep _ ih =>
      obtain ⟨hnamed, hstay⟩ := ih fun e hmem => hevents e (List.mem_append_left _ hmem)
      refine ⟨hnamed.step hstep, fun hall => ?_⟩
      exact file_stays hnamed hkey (hstay fun e hmem => hall e (List.mem_append_left _ hmem)) hstep
        (hall _ (List.mem_append_right _ (List.mem_singleton_self _)))
  exact hstays.2 hevents

/-- Names are numbers, and zero is a temp file's. -/
def isZero (n : Nat) : Bool := n = 0

/-- A bucket with one object. -/
def oneObject : State Bool Nat where
  tree := (FileTree.single .dir).graft [2] (FileTree.single .file) (by decide)
  task := fun _ => ⟨[2], .idle⟩

theorem mem_oneObject {x : List Nat} {kind : FileKind} :
    (x, kind) ∈ oneObject.tree ↔ x = [] ∧ kind = .dir ∨ x = [2] ∧ kind = .file := by
  change (x, kind) ∈ [([], FileKind.dir), ([2], FileKind.file)] ↔ _
  simp

theorem oneObject_tidy : Tidy isZero oneObject where
  idle _ := rfl
  files f hfile := by
    obtain ⟨-, hkind⟩ | ⟨rfl, -⟩ := mem_oneObject.mp hfile
    · cases hkind
    · exact ⟨by decide, by decide⟩
  dirs d := by
    refine FileTree.dir_iff_above_file (mem_oneObject.mpr (.inl ⟨rfl, rfl⟩)) fun d hd hempty => ?_
    obtain ⟨rfl, -⟩ | ⟨-, hkind⟩ := mem_oneObject.mp hempty.1
    · exact hd rfl
    · cases hkind

theorem make_ok {t : FileTree N} {p : List N} {kind : FileKind} (h : ¬ t.Exists p ∧ t.ParentIsDir p) :
    t.make p kind = .ok (t.graft p (FileTree.single kind) h.2) := dif_pos h

theorem renameFile_ok {t : FileTree N} {p q : List N} (h : (p, .file) ∈ t ∧ FileTree.Op.Renamable t p q) :
    t.renameFile p q = .ok ((t.prune p).graft q (t.subtree p)
      (FileTree.parentIsDir_prune h.2.2.2.1 h.2.2.1)) := dif_pos h

/-- Another object is written. -/
theorem directories_hold_objects_one : ∃ events s, Run isZero (fun _ => True) oneObject events s ∧
    ([2], .file) ∈ s.tree ∧ ([1], .file) ∈ s.tree ∧ Tidy isZero s := by
  obtain ⟨events, s, hrun, hidle, hclean, hwritten⟩ : ∃ events s, Run isZero (fun _ => True) oneObject events s ∧
      (∀ t, (s.task t).phase = .idle) ∧ (∀ e ∈ events, e.Clean ∧ e ≠ .unlinked [2]) ∧ ([1], .file) ∈ s.tree :=
    ⟨_, _, .step (.step (.step (.step (.step (.start trivial)
      (.write (t := true) [1] rfl ⟨by decide, by decide⟩) trivial)
      (.notMade (t := true) rfl (show _ = Except.error Errno.alreadyExists from rfl) (by decide)) trivial)
      (.isDir (t := true) rfl (by decide)) trivial)
      (.stage (t := true) rfl (show isZero 0 = true from rfl) (make_ok (by decide))) trivial)
      (.commit (t := true) rfl (renameFile_ok (by decide))) trivial,
      by decide, by simp [Event.Clean], by decide⟩
  obtain ⟨hstays, htidy⟩ := directories_hold_objects isZero oneObject s events oneObject_tidy hrun
  refine ⟨events, s, hrun, hstays [2] ⟨by decide, by decide⟩ (mem_oneObject.mpr (.inr ⟨rfl, rfl⟩)) ?_,
    hwritten, htidy (fun e hmem => (hclean e hmem).1) hidle⟩
  exact fun e hmem => (hclean e hmem).2

/-- A bucket with one object, two directories deep. -/
def deepObject : State Bool Nat where
  tree := (((FileTree.single .dir).graft [1] (FileTree.single .dir) (by decide)).graft [1, 2]
    (FileTree.single .dir) (by decide)).graft [1, 2, 3] (FileTree.single .file) (by decide)
  task := fun _ => ⟨[1], .idle⟩

-- where a temp file is dropped, a directory may stay: the write of `[1, 2]` collides with the directory
-- there, and its temp file is in `[1]` when the delete of `[1, 2, 3]` would prune that
example : ∃ events s, Run isZero (fun _ => True) deepObject events s ∧ (∀ t, (s.task t).phase = .idle) ∧
    ([1], .dir) ∈ s.tree ∧ s.tree.NoneBelow [1] :=
  ⟨_, _, .step (.step (.step (.step (.step (.step (.step (.step (.step (.step (.start trivial)
    (.write (t := true) [1, 2] rfl ⟨by decide, by decide⟩) trivial)
    (.notMade (t := true) rfl (show _ = Except.error Errno.alreadyExists from rfl) (by decide)) trivial)
    (.isDir (t := true) rfl (by decide)) trivial)
    (.stage (t := true) rfl (show isZero 0 = true from rfl) (make_ok (by decide))) trivial)
    (.notCommitted (t := true) rfl) trivial)
    (.delete (t := false) [1, 2, 3] rfl ⟨by decide, by decide⟩) trivial)
    (.unlink (t := false) rfl (if_pos (by decide))) trivial)
    (.prune (t := false) rfl (by decide) ((if_pos (by decide)).trans (if_pos (by decide)))) trivial)
    (.notPruned (t := false) rfl (show _ = Except.error Errno.directoryNotEmpty from rfl)) trivial)
    (.drop (t := true) rfl (if_pos (by decide))) trivial, by decide, by decide, by decide⟩

end Directories
