-- SUMMARY: Writes and deletes of the filesystem store, one system call at a time: staging, committing, pruning.
import NotedThat.Lib.FileCalls

/-!
# Writes and deletes, call by call

A write makes the directories of its key, stages a file in the last of them under a name no key has,
and renames it into place. A delete unlinks the file and removes the directories it leaves empty, up
to but not including the bucket's, which is the root here. Tasks hold the locks of different keys, so
their calls mix. A write whose staging meets a directory that comes or goes tries again, so many
times. The tree is that of the objects, or that of their records.
-/

namespace Directories

variable {N T : Type}

/-- How often a write makes a directory again that a delete removed. -/
def stageRetries : Nat := 8

/-- Where a task is: the call that comes next. -/
inductive Phase (N : Type) where
  | idle
  /-- `create_dir_all` on its way up: `mkdir` of a directory whose parents may be missing. -/
  | making (x : List N) (remaining : Nat)
  /-- `mkdir` failed: is there a directory anyway? -/
  | looking (x : List N) (error : Errno) (remaining : Nat)
  /-- The directory is made; the next one in it is, or the temp file. -/
  | inside (m : List N) (remaining : Nat)
  | staged (temp : N)
  /-- The commit failed, and the temp file is dropped. -/
  | dropping (temp : N)
  | unlinking
  | pruning (current : List N)
deriving DecidableEq

/-- A task, with the key it writes or deletes. -/
structure Task (N : Type) where
  path : List N
  phase : Phase N

/-- The directory of the key. -/
def Task.dir (task : Task N) : List N := task.path.dropLast

structure State (T N : Type) where
  tree : FileTree N
  task : T → Task N

/-- What a step was, for those who count. -/
inductive Event (T N : Type) where
  | step
  /-- A file was deleted. -/
  | unlinked (path : List N)
  /-- A directory was pruned. -/
  | removed (dir : List N)
  /-- A write has its temp file. -/
  | staged (t : T)
  /-- A write found no directory to stage in, after all its retries. -/
  | failed (t : T)
  /-- An I/O error that is no race. -/
  | fault (t : T)
  /-- The temp file of a write that failed was dropped. -/
  | discarded (t : T)

/-- Whether a staging failure is a concurrent directory change rather than a real fault. -/
def isDirectoryRace (error : Errno) : Bool := error = .notFound ∨ error = .alreadyExists

section

variable [DecidableEq T]

def State.set (s : State T N) (t : T) (phase : Phase N) : State T N :=
  { s with task := Function.update s.task t { s.task t with phase := phase } }

/-- A call of the task changed the tree. -/
def State.changed (s : State T N) (t : T) (tree : FileTree N) (phase : Phase N) : State T N :=
  { s.set t phase with tree := tree }

variable [DecidableEq N] (isTemp : N → Bool)

/-- A name of a key is no name of a temp file. -/
def IsKey (path : List N) : Prop := path ≠ [] ∧ ∀ name ∈ path, isTemp name = false

/-- The next directory on the way to `dir`. -/
def nextDir (dir m : List N) : List N := dir.take (m.length + 1)

/-- What staging does about an error: it starts again, or fails. -/
inductive Retry (s : State T N) (t : T) (error : Errno) (remaining : Nat) :
    Event T N → State T N → Prop where
  | again : isDirectoryRace error = true → 0 < remaining →
      Retry s t error remaining .step (s.set t (.making (s.task t).dir (remaining - 1)))
  | fails : isDirectoryRace error = false ∨ remaining = 0 →
      Retry s t error remaining (.failed t) (s.set t .idle)

/-- One system call of one task, or the start of a task. -/
inductive Step : State T N → Event T N → State T N → Prop where
  | write {s : State T N} {t : T} (path : List N) : (s.task t).phase = .idle → IsKey isTemp path →
      Step s .step { s with
        task := Function.update s.task t ⟨path, .making path.dropLast stageRetries⟩ }
  | made {s : State T N} {t : T} {x : List N} {remaining : Nat} {tree : FileTree N} :
      (s.task t).phase = .making x remaining → s.tree.make x .dir = .ok tree →
      Step s .step (s.changed t tree (.inside x remaining))
  | parentMissing {s : State T N} {t : T} {x : List N} {remaining : Nat} :
      (s.task t).phase = .making x remaining → s.tree.make x .dir = .error .notFound →
      Step s .step (s.set t (.making x.dropLast remaining))
  | notMade {s : State T N} {t : T} {x : List N} {remaining : Nat} {error : Errno} :
      (s.task t).phase = .making x remaining → s.tree.make x .dir = .error error → error ≠ .notFound →
      Step s .step (s.set t (.looking x error remaining))
  | isDir {s : State T N} {t : T} {x : List N} {remaining : Nat} {error : Errno} :
      (s.task t).phase = .looking x error remaining → (x, .dir) ∈ s.tree →
      Step s .step (s.set t (.inside x remaining))
  | isNoDir {s s' : State T N} {t : T} {x : List N} {remaining : Nat} {error : Errno} {event : Event T N} :
      (s.task t).phase = .looking x error remaining → (x, .dir) ∉ s.tree →
      Retry s t error remaining event s' → Step s event s'
  | madeInside {s : State T N} {t : T} {m : List N} {remaining : Nat} {tree : FileTree N} :
      (s.task t).phase = .inside m remaining → m ≠ (s.task t).dir →
      s.tree.make (nextDir (s.task t).dir m) .dir = .ok tree →
      Step s .step (s.changed t tree (.inside (nextDir (s.task t).dir m) remaining))
  | notMadeInside {s : State T N} {t : T} {m : List N} {remaining : Nat} {error : Errno} :
      (s.task t).phase = .inside m remaining → m ≠ (s.task t).dir →
      s.tree.make (nextDir (s.task t).dir m) .dir = .error error →
      Step s .step (s.set t (.looking (nextDir (s.task t).dir m) error remaining))
  | stage {s : State T N} {t : T} {remaining : Nat} {temp : N} {tree : FileTree N} :
      (s.task t).phase = .inside (s.task t).dir remaining → isTemp temp = true →
      s.tree.make ((s.task t).dir ++ [temp]) .file = .ok tree →
      Step s (.staged t) (s.changed t tree (.staged temp))
  -- a name that is taken is no error: another is tried
  | notStaged {s s' : State T N} {t : T} {remaining : Nat} {temp : N} {error : Errno} {event : Event T N} :
      (s.task t).phase = .inside (s.task t).dir remaining → isTemp temp = true →
      s.tree.make ((s.task t).dir ++ [temp]) .file = .error error → error ≠ .alreadyExists →
      Retry s t error remaining event s' → Step s event s'
  | commit {s : State T N} {t : T} {temp : N} {tree : FileTree N} :
      (s.task t).phase = .staged temp →
      s.tree.renameFile ((s.task t).dir ++ [temp]) (s.task t).path = .ok tree →
      Step s .step (s.changed t tree .idle)
  -- the file cannot be written, or not be renamed
  | notCommitted {s : State T N} {t : T} {temp : N} : (s.task t).phase = .staged temp →
      Step s .step (s.set t (.dropping temp))
  | drop {s : State T N} {t : T} {temp : N} {tree : FileTree N} :
      (s.task t).phase = .dropping temp →
      s.tree.unlink ((s.task t).dir ++ [temp]) = .ok tree →
      Step s (.discarded t) (s.changed t tree .idle)
  | delete {s : State T N} {t : T} (path : List N) : (s.task t).phase = .idle → IsKey isTemp path →
      Step s .step { s with task := Function.update s.task t ⟨path, .unlinking⟩ }
  | unlink {s : State T N} {t : T} {tree : FileTree N} :
      (s.task t).phase = .unlinking → s.tree.unlink (s.task t).path = .ok tree →
      Step s (.unlinked (s.task t).path) (s.changed t tree (.pruning (s.task t).dir))
  | notUnlinked {s : State T N} {t : T} {error : Errno} :
      (s.task t).phase = .unlinking → s.tree.unlink (s.task t).path = .error error →
      Step s .step (s.set t .idle)
  | prune {s : State T N} {t : T} {current : List N} {tree : FileTree N} :
      (s.task t).phase = .pruning current → current ≠ [] → s.tree.rmdir current = .ok tree →
      Step s (.removed current) (s.changed t tree (.pruning current.dropLast))
  | notPruned {s : State T N} {t : T} {current : List N} {error : Errno} :
      (s.task t).phase = .pruning current → s.tree.rmdir current = .error error →
      Step s .step (s.set t .idle)
  | atBucket {s : State T N} {t : T} : (s.task t).phase = .pruning [] → Step s .step (s.set t .idle)
  | fault {s : State T N} {t : T} :
      (∃ x remaining, (s.task t).phase = .making x remaining ∨ (s.task t).phase = .inside x remaining) →
      Step s (.fault t) (s.set t .idle)

/-- A run, with what happened in it, in which every state is one of `P`. -/
inductive Run (P : State T N → Prop) (start : State T N) : List (Event T N) → State T N → Prop where
  | start : P start → Run P start [] start
  | step {events : List (Event T N)} {event : Event T N} {s s' : State T N} : Run P start events s →
      Step isTemp s event s' → P s' → Run P start (events ++ [event]) s'

end

end Directories
