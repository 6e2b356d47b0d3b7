-- SUMMARY: A write fails to stage only if more directories on its way were removed meanwhile than it has retries.
import NotedThat.StorageFs.EmptyDirs

/-!
# Staging retries

Each attempt to stage that fails has seen a directory that it relied on removed: one that it had
made, or that `mkdir` had found. So the attempts that failed are no more than the directories on the
way that were pruned since the write began, as long as no file stands in the way.
-/

namespace Directories

variable {N T : Type} [DecidableEq N] [DecidableEq T] {isTemp : N → Bool}

/-- A directory on the way to `dir` was pruned, or that itself. -/
def Event.removes (dir : List N) : Event T N → Bool
  | .removed x => x <+: dir
  | _ => false

/-- No file stands in the way of a directory. -/
def Clear (dir : List N) (s : State T N) : Prop := ∀ q, q <+: dir → (q, .file) ∉ s.tree

/-- Where staging is with `remaining` retries left after `n` removals: it has not failed more often than
that, and if what it relies on is gone, once less. -/
def Spent (dir : List N) (n : Nat) (tree : FileTree N) : Phase N → Prop
  | .making x remaining => x <+: dir ∧ 8 ≤ n + remaining
  | .looking x error remaining => x <+: dir ∧ isDirectoryRace error = true ∧ 8 ≤ n + remaining ∧
      ((x, .dir) ∉ tree → 9 ≤ n + remaining)
  | .inside m remaining => m <+: dir ∧ 8 ≤ n + remaining ∧ ((m, .dir) ∉ tree → 9 ≤ n + remaining)
  | _ => False

/-- Other tasks take away directories one by one, and each time it is counted. -/
theorem Spent.mono {dir : List N} {n n' : Nat} {tree tree' : FileTree N} {phase : Phase N}
    (h : Spent dir n tree phase) (hle : n ≤ n')
    (hdirs : ∀ m, m <+: dir → (m, .dir) ∈ tree → (m, .dir) ∉ tree' → n < n') : Spent dir n' tree' phase := by
  cases phase with
  | making x remaining => exact ⟨h.1, by have := h.2; omega⟩
  | looking x error remaining =>
    obtain ⟨hway, hrace, hspent, hgone⟩ := h
    refine ⟨hway, hrace, by omega, fun hnone => ?_⟩
    by_cases hwas : (x, .dir) ∈ tree
    · have := hdirs x hway hwas hnone
      omega
    · have := hgone hwas
      omega
  | inside m remaining =>
    obtain ⟨hway, hspent, hgone⟩ := h
    refine ⟨hway, by omega, fun hnone => ?_⟩
    by_cases hwas : (m, .dir) ∈ tree
    · have := hdirs m hway hwas hnone
      omega
    · have := hgone hwas
      omega
  | idle | staged | dropping | unlinking | pruning => exact h.elim

/-- A directory goes only when it is pruned. -/
theorem dir_stays {s s' : State T N} {event : Event T N} {m : List N} (hdir : (m, .dir) ∈ s.tree)
    (hstep : Step isTemp s event s') : (m, .dir) ∈ s'.tree ∨ event = .removed m := by
  have hretry : ∀ {t error remaining event s'}, Retry s t error remaining event s' → (m, .dir) ∈ s'.tree := by
    intro t error remaining event s' hretry
    cases hretry <;> exact hdir
  cases hstep with
  | made _ hmake => exact .inl ((FileTree.mem_make hmake).mpr (.inl hdir))
  | madeInside _ _ hmake => exact .inl ((FileTree.mem_make hmake).mpr (.inl hdir))
  | stage _ _ hmake => exact .inl ((FileTree.mem_make hmake).mpr (.inl hdir))
  | isNoDir _ _ hr => exact .inl (hretry hr)
  | notStaged _ _ _ _ hr => exact .inl (hretry hr)
  | commit _ hrename =>
    obtain ⟨htemp, hnodir⟩ := FileTree.file_of_renameFile hrename
    refine .inl ((FileTree.mem_renameFile hrename).mpr (.inl ⟨hdir, ?_, ?_⟩))
    · rintro rfl
      cases FileTree.kind_unique hdir htemp
    · rintro rfl
      exact hnodir hdir
  | drop _ hunlink =>
    refine .inl ((FileTree.mem_unlink hunlink).mpr ⟨hdir, ?_⟩)
    rintro rfl
    cases FileTree.kind_unique hdir (FileTree.file_of_unlink hunlink)
  | unlink _ hunlink =>
    refine .inl ((FileTree.mem_unlink hunlink).mpr ⟨hdir, ?_⟩)
    rintro rfl
    cases FileTree.kind_unique hdir (FileTree.file_of_unlink hunlink)
  | @prune _ current _ _ _ hrmdir =>
    by_cases hm : m = current
    · exact .inr (by rw [hm])
    · exact .inl (((FileTree.rmdir_eq_ok hrmdir).2 _ _).mpr ⟨hdir, hm⟩)
  | write | delete | parentMissing | notMade | isDir | notMadeInside | notCommitted | notUnlinked |
    notPruned | atBucket | fault => exact .inl hdir

omit [DecidableEq T] in
/-- With no file in the way, a directory cannot be made because it is there, or its parent is not. -/
theorem make_on_way {s : State T N} {dir x : List N} {kind : FileKind} {error : Errno} (hclear : Clear dir s)
    (hway : x <+: dir ∨ x.dropLast <+: dir ∧ x ≠ []) (hmake : s.tree.make x kind = .error error) :
    isDirectoryRace error = true := by
  unfold FileTree.make at hmake
  split at hmake
  · cases hmake
  · split at hmake
    · rw [← Except.error.inj hmake]
      rfl
    · rw [← Except.error.inj hmake, FileTree.lookupError, if_neg]
      · rfl
      · intro hany
        obtain ⟨q, hq, hfile⟩ := List.any_eq_true.mp hany
        obtain ⟨hne, hfile⟩ := of_decide_eq_true hfile
        have hqx := (List.mem_inits q x).mp hq
        refine hclear q ?_ hfile
        rcases hway with hway | ⟨hway, hx⟩
        · exact hqx.trans hway
        · rw [← List.dropLast_append_getLast hx] at hqx
          rcases List.prefix_concat_iff.mp hqx with heq | hle
          · exact absurd (heq.trans (List.dropLast_append_getLast hx)) hne
          · exact hle.trans hway

omit [DecidableEq T] in
/-- What is on the way is a directory, if it is there. -/
theorem dir_of_exists {s : State T N} {dir x : List N} (hclear : Clear dir s) (hway : x <+: dir)
    (hmake : s.tree.make x .dir = .error .alreadyExists) : (x, .dir) ∈ s.tree := by
  obtain ⟨kind, hmem⟩ := FileTree.exists_iff.mp (FileTree.exists_of_make hmake)
  cases kind with
  | file => exact absurd hmem (hclear x hway)
  | dir => exact hmem

omit [DecidableEq N] in
/-- The step is this task's. -/
theorem eq_of_set {s : State T N} {t u : T} {phase : Phase N} (h : (s.set u phase).task t ≠ s.task t) :
    u = t := by
  by_contra hne
  exact h (by rw [set_task, if_neg (Ne.symm hne)])

omit [DecidableEq N] in
theorem eq_of_start {s : State T N} {t u : T} {task : Task N}
    (h : Function.update s.task u task t ≠ s.task t) : u = t := by
  by_contra hne
  exact h (by rw [Function.update_of_ne (Ne.symm hne)])

omit [DecidableEq N] in
theorem set_self (s : State T N) (t : T) (phase : Phase N) :
    (s.set t phase).task t = { s.task t with phase := phase } := by
  rw [set_task, if_pos rfl]

/-- A step of staging, or of another task, keeps the account. -/
theorem Spent.step {s s' : State T N} {event : Event T N} {t : T} {path : List N} {n : Nat}
    (hpath : (s.task t).path = path) (h : Spent path.dropLast n s.tree (s.task t).phase)
    (hclear : Clear path.dropLast s) (hstep : Step isTemp s event s')
    (hevent : event ≠ .staged t ∧ event ≠ .failed t ∧ event ≠ .fault t) :
    (s'.task t).path = path ∧
      Spent path.dropLast (n + if event.removes path.dropLast then 1 else 0) s'.tree (s'.task t).phase := by
  have hdir : (s.task t).dir = path.dropLast := congrArg List.dropLast hpath
  by_cases hsame : s'.task t = s.task t
  · rw [hsame]
    refine ⟨hpath, h.mono (Nat.le_add_right _ _) fun m hway hmem hnone => ?_⟩
    obtain rfl := (dir_stays hmem hstep).resolve_left hnone
    have hcounts : (Event.removed m : Event T N).removes path.dropLast = true := decide_eq_true hway
    rw [if_pos hcounts]
    exact Nat.lt_succ_self n
  · -- a step of the task itself removes nothing
    have hretry : ∀ {error remaining event s'}, Retry s t error remaining event s' →
        isDirectoryRace error = true → 9 ≤ n + remaining → event ≠ .failed t → (s'.task t).path = path ∧
          Spent path.dropLast (n + if event.removes path.dropLast then 1 else 0) s'.tree (s'.task t).phase := by
      intro error remaining event s' hretry hrace hspent hevent
      cases hretry with
      | again _ hpos =>
        rw [set_self]
        exact ⟨hpath, hdir ▸ List.prefix_rfl, show 8 ≤ n + 0 + (remaining - 1) by omega⟩
      | fails => exact absurd rfl hevent
    cases hstep with
    | write path hidle => obtain rfl := eq_of_start hsame; simp [Spent, hidle] at h
    | delete path hidle => obtain rfl := eq_of_start hsame; simp [Spent, hidle] at h
    | @made u x remaining tree hphase hmake =>
      obtain rfl := eq_of_set hsame
      rw [hphase] at h
      rw [changed_task, set_self]
      exact ⟨hpath, h.1, h.2, fun hnone => absurd ((FileTree.mem_make hmake).mpr (.inr ⟨rfl, rfl⟩)) hnone⟩
    | @parentMissing u x remaining hphase _ =>
      obtain rfl := eq_of_set hsame
      rw [hphase] at h
      rw [set_self]
      exact ⟨hpath, (List.dropLast_prefix x).trans h.1, h.2⟩
    | @notMade u x remaining error hphase hmake herror =>
      obtain rfl := eq_of_set hsame
      rw [hphase] at h
      have hrace := make_on_way hclear (.inl h.1) hmake
      obtain rfl : error = .alreadyExists := by simpa [isDirectoryRace, herror] using hrace
      rw [set_self]
      exact ⟨hpath, h.1, hrace, h.2, fun hnone => absurd (dir_of_exists hclear h.1 hmake) hnone⟩
    | @isDir u x remaining error hphase hmem =>
      obtain rfl := eq_of_set hsame
      rw [hphase] at h
      rw [set_self]
      exact ⟨hpath, h.1, h.2.2.1, fun hnone => absurd hmem hnone⟩
    | @isNoDir _ u x remaining error _ hphase hnone hr =>
      obtain rfl : u = t := by cases hr <;> exact eq_of_set hsame
      rw [hphase] at h
      exact hretry hr h.2.1 (h.2.2.2 hnone) hevent.2.1
    | @madeInside u m remaining tree hphase hne hmake =>
      obtain rfl := eq_of_set hsame
      rw [hphase] at h
      rw [changed_task, set_self]
      refine ⟨hpath, ?_, h.2.1, fun hnone => absurd ((FileTree.mem_make hmake).mpr (.inr ⟨rfl, rfl⟩)) hnone⟩
      rw [hdir]
      exact List.take_prefix _ _
    | @notMadeInside u m remaining error hphase hne hmake =>
      obtain rfl := eq_of_set hsame
      rw [hphase] at h
      rw [hdir] at hne hmake ⊢
      obtain ⟨hnext, hparent, hx⟩ := nextDir_of_prefix h.1 hne
      rw [set_self]
      refine ⟨hpath, hnext, make_on_way hclear (.inl hnext) hmake, h.2.1, fun hnone => ?_⟩
      by_cases herror : error = .alreadyExists
      · exact absurd (dir_of_exists hclear hnext (herror ▸ hmake)) hnone
      · exact h.2.2 (hparent ▸ FileTree.no_parent_of_make hmake hx herror)
    | stage =>
      obtain rfl := eq_of_set hsame
      exact absurd rfl hevent.1
    | @notStaged _ u remaining temp error _ hphase _ hmake herror hr =>
      obtain rfl : u = t := by cases hr <;> exact eq_of_set hsame
      rw [hphase, hdir] at h
      rw [hdir] at hmake
      have hgone := FileTree.no_parent_of_make hmake (by simp) herror
      rw [List.dropLast_concat] at hgone
      refine hretry hr (make_on_way hclear (.inr ?_) hmake) (h.2.2 hgone) hevent.2.1
      rw [List.dropLast_concat]
      exact ⟨List.prefix_rfl, by simp⟩
    | commit hphase => obtain rfl := eq_of_set hsame; simp [Spent, hphase] at h
    | notCommitted hphase => obtain rfl := eq_of_set hsame; simp [Spent, hphase] at h
    | drop hphase => obtain rfl := eq_of_set hsame; simp [Spent, hphase] at h
    | unlink hphase => obtain rfl := eq_of_set hsame; simp [Spent, hphase] at h
    | notUnlinked hphase => obtain rfl := eq_of_set hsame; simp [Spent, hphase] at h
    | prune hphase => obtain rfl := eq_of_set hsame; simp [Spent, hphase] at h
    | notPruned hphase => obtain rfl := eq_of_set hsame; simp [Spent, hphase] at h
    | atBucket hphase => obtain rfl := eq_of_set hsame; simp [Spent, hphase] at h
    | fault =>
      obtain rfl := eq_of_set hsame
      exact absurd rfl hevent.2.2

/-- A write whose way is clear of files gives up staging only if at least nine directories on its way,
its own among them, were pruned since it began. -/
theorem staging_fails_after_removals (isTemp : N → Bool) (start s s' : State T N) (events : List (Event T N))
    (t : T) (path : List N) (hstart : start.task t = ⟨path, .making path.dropLast stageRetries⟩)
    (hrun : Run isTemp (Clear path.dropLast) start events s)
    (hwhile : ∀ e ∈ events, e ≠ .staged t ∧ e ≠ .failed t ∧ e ≠ .fault t)
    (hfails : Step isTemp s (.failed t) s') :
    9 ≤ events.countP (·.removes path.dropLast) := by
  have hspent : Clear path.dropLast s ∧ (s.task t).path = path ∧
      Spent path.dropLast (events.countP (·.removes path.dropLast)) s.tree (s.task t).phase := by
    clear hfails
    induction hrun with
    | start hclear => exact ⟨hclear, by rw [hstart], by rw [hstart]; exact ⟨List.prefix_rfl, Nat.le_add_left _ _⟩⟩
    | @step events event s s' _ hstep hclear ih =>
      obtain ⟨hbefore, hpath, hspent⟩ := ih fun e hmem => hwhile e (List.mem_append_left _ hmem)
      rw [List.countP_append, List.countP_singleton]
      exact ⟨hclear, hspent.step hpath hbefore hstep
        (hwhile _ (List.mem_append_right _ (List.mem_singleton_self _)))⟩
  obtain ⟨hclear, hpath, hspent⟩ := hspent
  have hdir : (s.task t).dir = path.dropLast := congrArg List.dropLast hpath
  -- with a race, only the last retry fails
  have hlast : ∀ {error remaining}, Retry s t error remaining (.failed t) s' → isDirectoryRace error = true →
      remaining = 0 := by
    intro error remaining hretry hrace
    generalize hevent : (Event.failed t : Event T N) = event at hretry
    cases hretry with
    | again => cases hevent
    | fails hcase => exact hcase.resolve_left (by simp [hrace])
  generalize hevent : (Event.failed t : Event T N) = event at hfails
  cases hfails with
  | @isNoDir _ u x remaining error _ hphase hnone hr =>
    subst hevent
    obtain rfl : u = t := by cases hr; rfl
    rw [hphase] at hspent
    have hzero := hlast hr hspent.2.1
    have henough := hspent.2.2.2 hnone
    omega
  | @notStaged _ u remaining temp error _ hphase _ hmake herror hr =>
    subst hevent
    obtain rfl : u = t := by cases hr; rfl
    rw [hphase, hdir] at hspent
    rw [hdir] at hmake
    have hgone := FileTree.no_parent_of_make hmake (by simp) herror
    rw [List.dropLast_concat] at hgone
    have hrace := make_on_way hclear (.inr (by rw [List.dropLast_concat]; exact ⟨List.prefix_rfl, by simp⟩)) hmake
    have hzero := hlast hr hrace
    have henough := hspent.2.2 hgone
    omega
  | _ => cases hevent

/-! ## Nine rounds -/

theorem Run.trans {P : State T N → Prop} {start s s' : State T N} {events events' : List (Event T N)}
    (h : Run isTemp P start events s) (h' : Run isTemp P s events' s') :
    Run isTemp P start (events ++ events') s' := by
  induction h' with
  | start => rwa [List.append_nil]
  | step _ hstep hp ih =>
    rw [← List.append_assoc]
    exact .step ih hstep hp

/-- A bucket without objects. -/
def bucket : FileTree Nat := FileTree.single .dir

/-- It has one directory. -/
def withDir : FileTree Nat := bucket.graft [1] (FileTree.single .dir) (by decide)

theorem clear_bucket {s : State Nat Nat} (h : s.tree = bucket) : Clear [1] s := by
  rintro q - hmem
  rw [h] at hmem
  cases (FileTree.mem_single.mp hmem).2

theorem clear_withDir {s : State Nat Nat} (h : s.tree = withDir) : Clear [1] s := by
  intro q hle hmem
  have hnone : ∀ q ∈ ([1] : List Nat).inits, (q, FileKind.file) ∉ withDir := by decide
  rw [h] at hmem
  exact hnone q ((List.mem_inits q [1]).mpr hle) hmem

/-- The first task makes the directory that it stages in, and another one prunes it. -/
theorem round_prunes {s : State Nat Nat} {u remaining : Nat} (htree : s.tree = bucket)
    (hwrites : s.task 0 = ⟨[1, 2], .making [1] remaining⟩) (hprunes : (s.task (u + 1)).phase = .pruning [1]) :
    ∃ s', Run isZero (Clear [1]) s [.step, .removed [1]] s' ∧ s'.tree = bucket ∧
      s'.task 0 = ⟨[1, 2], .inside [1] remaining⟩ ∧ ∀ v, v ≠ 0 → v ≠ u + 1 → s'.task v = s.task v := by
  have hmake : s.tree.make [1] .dir = .ok withDir := by
    rw [htree]
    exact make_ok (by decide)
  have hrmdir : withDir.rmdir [1] = .ok bucket := (if_pos (by decide)).trans (if_pos (by decide))
  have hmade : Step isZero s .step (s.changed 0 withDir (.inside [1] remaining)) :=
    .made (by rw [hwrites]) hmake
  refine ⟨_, .step (.step (.start (clear_bucket htree)) hmade (clear_withDir rfl))
    (.prune (t := u + 1) ?_ (by decide) hrmdir) (clear_bucket rfl), rfl, ?_, fun v hv hu => ?_⟩
  · rw [changed_task, set_task, if_neg (Nat.succ_ne_zero u), hprunes]
  · rw [changed_task, set_task, if_neg (Nat.succ_ne_zero u).symm, changed_task, set_self, hwrites]
  · rw [changed_task, set_task, if_neg hu, changed_task, set_task, if_neg hv]

/-- No temp file can be made in what was pruned. -/
theorem not_staged {s : State Nat Nat} (htree : s.tree = bucket) :
    s.tree.make ([1, 2].dropLast ++ [0]) .file = .error .notFound := by
  rw [htree]
  rfl

/-- Some rounds; in each the first task starts again. -/
theorem rounds {s : State Nat Nat} (k : Nat) (hk : k ≤ 8) (htree : s.tree = bucket)
    (hwrites : s.task 0 = ⟨[1, 2], .making [1] 8⟩) (hprunes : ∀ u, (s.task (u + 1)).phase = .pruning [1]) :
    ∃ events s', Run isZero (Clear [1]) s events s' ∧
      (∀ e ∈ events, e ≠ .staged 0 ∧ e ≠ .failed 0 ∧ e ≠ .fault 0) ∧ s'.tree = bucket ∧
      s'.task 0 = ⟨[1, 2], .making [1] (8 - k)⟩ ∧ ∀ u, k ≤ u → (s'.task (u + 1)).phase = .pruning [1] := by
  induction k with
  | zero =>
    exact ⟨[], s, .start (clear_bucket htree), fun _ hmem => absurd hmem List.not_mem_nil, htree, hwrites,
      fun u _ => hprunes u⟩
  | succ k ih =>
    obtain ⟨events, s₁, hrun, hevents, htree₁, hwrites₁, hprunes₁⟩ := ih (by omega)
    obtain ⟨s₂, hround, htree₂, hinside, hothers⟩ := round_prunes htree₁ hwrites₁ (hprunes₁ k (Nat.le_refl k))
    have hdir : (s₂.task 0).dir = [1, 2].dropLast := by rw [hinside]; rfl
    have hretry : Retry s₂ 0 .notFound (8 - k) .step (s₂.set 0 (.making (s₂.task 0).dir (8 - k - 1))) :=
      .again rfl (by omega)
    have hagain : Step isZero s₂ .step (s₂.set 0 (.making (s₂.task 0).dir (8 - k - 1))) :=
      .notStaged (by rw [hinside]; rfl) rfl (by rw [hdir]; exact not_staged htree₂) (by decide) hretry
    have hclear : Clear [1] (s₂.set 0 (.making (s₂.task 0).dir (8 - k - 1))) :=
      clear_bucket htree₂
    refine ⟨events ++ [.step, .removed [1]] ++ [.step], _, .step (hrun.trans hround) hagain hclear, ?_,
      htree₂, ?_, fun u hu => ?_⟩
    · intro e hmem
      simp only [List.append_assoc, List.mem_append, List.cons_append, List.nil_append, List.mem_cons,
        List.not_mem_nil, or_false] at hmem
      rcases hmem with hmem | rfl | rfl | rfl
      · exact hevents e hmem
      all_goals simp
    · rw [set_self, hdir, hinside, show 8 - (k + 1) = 8 - k - 1 by omega]
      rfl
    · rw [set_task, if_neg (Nat.succ_ne_zero u), hothers _ (Nat.succ_ne_zero u) (by omega)]
      exact hprunes₁ u (by omega)

/-- One task stages `[1, 2]`; the others are about to prune the directory. -/
def ninePruners : State Nat Nat where
  tree := bucket
  task u := if u = 0 then ⟨[1, 2], .making [1] 8⟩ else ⟨[1, 3], .pruning [1]⟩

theorem staging_fails_after_removals_nine : ∃ events s s',
    Run isZero (Clear [1]) ninePruners events s ∧ Step isZero s (.failed 0) s' ∧
      9 ≤ events.countP (·.removes [1]) := by
  obtain ⟨events, s₁, hrun, hevents, htree₁, hwrites₁, hprunes₁⟩ :=
    rounds (s := ninePruners) 8 (Nat.le_refl 8) rfl rfl fun u => rfl
  obtain ⟨s₂, hround, htree₂, hinside, -⟩ := round_prunes htree₁ hwrites₁ (hprunes₁ 8 (Nat.le_refl 8))
  have hdir : (s₂.task 0).dir = [1, 2].dropLast := by rw [hinside]; rfl
  have hretry : Retry s₂ 0 .notFound 0 (.failed 0) (s₂.set 0 .idle) := .fails (.inr rfl)
  have hfails : Step isZero s₂ (.failed 0) (s₂.set 0 .idle) :=
    .notStaged (by rw [hinside]; rfl) rfl (by rw [hdir]; exact not_staged htree₂) (by decide) hretry
  refine ⟨events ++ [.step, .removed [1]], s₂, _, hrun.trans hround, hfails,
    staging_fails_after_removals isZero ninePruners s₂ _ _ 0 [1, 2] rfl (hrun.trans hround) ?_ hfails⟩
  intro e hmem
  rcases List.mem_append.mp hmem with hmem | hmem
  · exact hevents e hmem
  · simp only [List.mem_cons, List.not_mem_nil, or_false] at hmem
    rcases hmem with rfl | rfl <;> simp

end Directories
