-- SUMMARY: Staging a body: what is kept of a stream is its bytes, in memory or in a private file, and when it is refused.
import NotedThat.Lib.Text
import NotedThat.Lib.U64

/-!
# Staging

A body is received in chunks before anything is done with it. It is kept in memory until it is too large, and in
a private file from then on. Where it is kept makes no difference to what is kept, nor to what is refused.
-/

namespace Staging

inductive StageError where
  | tooLarge (size limit : Nat)
  | lengthMismatch (expected actual : Nat)
  | read (source : String)
  | write (source : String)
  | config (message : String)
deriving DecidableEq

/-- Whether it is the private file that failed. -/
def StageError.isDisk : StageError → Bool
  | .write _ | .config _ => true
  | .tooLarge .. | .lengthMismatch .. | .read _ => false

/-- Why there is no private file: the task that creates it failed, or creating it did. -/
inductive CreateError where
  | task (error : String)
  | io (source : String)

def CreateError.toStageError : CreateError → StageError
  | .task error => .config ("staging file task failed: " ++ error)
  | .io source => .write source

/-- What goes wrong with the private file of a body: in creating it, in each of the writes, in the end. -/
structure Disk where
  create : Option CreateError
  write : Nat → Option String
  flush : Option String
  syncAll : Option String

/-- A private file that is being written, and how often it was. -/
structure StagedFile where
  content : Bytes
  writes : Nat

inductive StagedBodyStorage where
  | memory (bytes : Bytes)
  | file (content : Bytes)

/-- An owned request body with a verified length. -/
structure StagedBody where
  storage : StagedBodyStorage
  len : Nat

namespace StagedBody

def memoryThreshold : Nat := 16 * 1024 * 1024

/-- What a reader that is opened on the body reads. -/
def content (body : StagedBody) : Bytes :=
  match body.storage with
  | .memory bytes => bytes
  | .file content => content

/-- At most `maximum` leading bytes. Of a file as many are read as the length says, and it must have them. -/
def leading (body : StagedBody) (maximum : Nat) : Except String Bytes :=
  match body.storage with
  | .memory bytes => .ok (bytes.take (min bytes.length maximum))
  | .file content =>
    let wanted := min maximum body.len
    if content.length < wanted then .error "early eof" else .ok (content.take wanted)

end StagedBody

section Stage

variable (disk : Disk) (threshold : Nat)

def createPrivateFile : Except StageError StagedFile :=
  match disk.create with
  | some error => .error error.toStageError
  | none => .ok ⟨[], 0⟩

def writeAll (file : StagedFile) (bytes : Bytes) : Except StageError StagedFile :=
  match disk.write file.writes with
  | some source => .error (.write source)
  | none => .ok ⟨file.content ++ bytes, file.writes + 1⟩

/-- What was received of a body so far. -/
structure Received where
  memory : Bytes
  file : Option StagedFile
  len : Nat

/-- Move what is in memory to a file, if the chunk does not fit any more. -/
def spill (received : Received) (chunk : Bytes) : Except StageError Received := do
  if received.file.isNone ∧ U64.saturatingAdd received.memory.length chunk.length > threshold then
    let file ← createPrivateFile disk
    let file ← writeAll disk file received.memory
    return { received with memory := [], file := some file }
  else return received

/-- Receive one chunk. -/
def receiveChunk (limit : UInt64) (received : Received) (item : Except String Bytes) :
    Except StageError Received := do
  let chunk ← item.mapError .read
  let len ← match U64.add received.len chunk.length with
    | none => .error (.tooLarge U64.greatest limit.toNat)
    | some len => .ok len
  if len > limit.toNat then .error (.tooLarge len limit.toNat)
  else
    let received ← spill disk threshold received chunk
    match received.file with
    | some file =>
      let file ← writeAll disk file chunk
      return { received with file := some file, len := len }
    | none => return { received with memory := received.memory ++ chunk, len := len }

/-- The body whose chunks were all received. -/
def finishBody (received : Received) : Except StageError StagedBody :=
  match received.file with
  | none => .ok ⟨.memory received.memory, received.len⟩
  | some file =>
    match disk.flush with
    | some source => .error (.write source)
    | none =>
      match disk.syncAll with
      | some source => .error (.write source)
      | none => .ok ⟨.file file.content, received.len⟩

/-- A body that is forced to be a file is one from the start. -/
def firstFile (forceFile : Bool) : Except StageError (Option StagedFile) :=
  if forceFile then (createPrivateFile disk).map some else .ok none

def stageStreamInner (forceFile : Bool) (stream : List (Except String Bytes)) (expectedLen : Option UInt64)
    (limit : UInt64) : Except StageError StagedBody := do
  match expectedLen.filter (· > limit) with
  | some size => .error (.tooLarge size.toNat limit.toNat)
  | none =>
    let file ← firstFile disk forceFile
    let received ← stream.foldlM (receiveChunk disk threshold limit) ⟨[], file, 0⟩
    match expectedLen.filter (·.toNat ≠ received.len) with
    | some expected => .error (.lengthMismatch expected.toNat received.len)
    | none => finishBody disk received

end Stage

/-! ## What is received -/

/-- The chunks that come before an error. -/
def delivered : List (Except String Bytes) → List Bytes
  | .ok chunk :: stream => chunk :: delivered stream
  | _ => []

/-- The error a stream ends in. -/
def breaksWith : List (Except String Bytes) → Option String
  | [] => none
  | .error e :: _ => some e
  | .ok _ :: stream => breaksWith stream

/-- The bytes of a stream that keeps to the limit. -/
def receive (limit : UInt64) : Bytes → List (Except String Bytes) → Except StageError Bytes
  | bytes, [] => .ok bytes
  | _, .error e :: _ => .error (.read e)
  | bytes, .ok chunk :: stream =>
    match U64.add bytes.length chunk.length with
    | none => .error (.tooLarge U64.greatest limit.toNat)
    | some len => if len > limit.toNat then .error (.tooLarge len limit.toNat) else receive limit (bytes ++ chunk) stream

/-- What staging a body comes to, wherever it is kept. -/
def outcome (stream : List (Except String Bytes)) (expectedLen : Option UInt64) (limit : UInt64) :
    Except StageError Bytes :=
  match expectedLen.filter (· > limit) with
  | some size => .error (.tooLarge size.toNat limit.toNat)
  | none =>
    match receive limit [] stream with
    | .error e => .error e
    | .ok bytes =>
      match expectedLen.filter (·.toNat ≠ bytes.length) with
      | some expected => .error (.lengthMismatch expected.toNat bytes.length)
      | none => .ok bytes

/-- A stream is received whole, or breaks off, or is too large. -/
theorem receive_cases {limit : UInt64} {bytes : Bytes} (h : bytes.length ≤ limit.toNat)
    (stream : List (Except String Bytes)) :
    (bytes.length + (delivered stream).flatten.length ≤ limit.toNat ∧
      (breaksWith stream = none ∧ receive limit bytes stream = .ok (bytes ++ (delivered stream).flatten) ∨
        ∃ e, breaksWith stream = some e ∧ receive limit bytes stream = .error (.read e))) ∨
      limit.toNat < bytes.length + (delivered stream).flatten.length ∧
        ∃ size, receive limit bytes stream = .error (.tooLarge size limit.toNat) := by
  induction stream generalizing bytes with
  | nil => exact .inl ⟨by simpa [delivered] using h, .inl ⟨rfl, by simp [receive, delivered]⟩⟩
  | cons item stream ih =>
    cases item with
    | error e => exact .inl ⟨by simpa [delivered] using h, .inr ⟨e, rfl, rfl⟩⟩
    | ok chunk =>
      have hlimit := limit.toNat_lt
      simp only [receive, delivered, breaksWith, List.flatten_cons, List.length_append]
      cases hadd : U64.add bytes.length chunk.length with
      | none =>
        have hlarge := U64.add_eq_none.mp hadd
        exact .inr ⟨by omega, _, rfl⟩
      | some len =>
        obtain ⟨-, rfl⟩ := U64.add_eq_some.mp hadd
        dsimp only
        by_cases hexceeds : bytes.length + chunk.length > limit.toNat
        · rw [if_pos hexceeds]
          exact .inr ⟨by omega, _, rfl⟩
        · rw [if_neg hexceeds]
          have hnext := @ih (bytes ++ chunk) (by rw [List.length_append]; omega)
          rw [List.length_append, List.append_assoc, Nat.add_assoc] at hnext
          exact hnext

/-! ## Where it is kept -/

def Disk.Works (disk : Disk) : Prop :=
  disk.create = none ∧ (∀ n, disk.write n = none) ∧ disk.flush = none ∧ disk.syncAll = none

/-- The private file has failed. -/
def Broken {α : Type} (disk : Disk) (result : Except StageError α) : Prop :=
  ¬ disk.Works ∧ ∃ e, result = .error e ∧ e.isDisk = true

def Received.content (received : Received) : Bytes :=
  match received.file with
  | some file => file.content
  | none => received.memory

/-- The bytes that were received, and how many they are. -/
structure Received.Holds (received : Received) (bytes : Bytes) : Prop where
  content : received.content = bytes
  len : received.len = bytes.length

section Stage

variable {disk : Disk} {threshold : Nat} {limit : UInt64} {received : Received} {bytes : Bytes}

theorem Broken.bind {α β : Type} {result : Except StageError α} (h : Broken disk result)
    (next : α → Except StageError β) : Broken disk (result >>= next) := by
  obtain ⟨hbroken, e, rfl, he⟩ := h
  exact ⟨hbroken, e, rfl, he⟩

theorem createPrivateFile_cases :
    Broken disk (createPrivateFile disk) ∨ createPrivateFile disk = .ok ⟨[], 0⟩ := by
  unfold createPrivateFile
  cases hcreate : disk.create with
  | none => exact .inr rfl
  | some error =>
    refine .inl ⟨fun h => ?_, error.toStageError, rfl, by cases error <;> rfl⟩
    rw [h.1] at hcreate
    cases hcreate

theorem writeAll_cases (file : StagedFile) (bytes : Bytes) :
    Broken disk (writeAll disk file bytes) ∨
      writeAll disk file bytes = .ok ⟨file.content ++ bytes, file.writes + 1⟩ := by
  unfold writeAll
  cases hwrite : disk.write file.writes with
  | none => exact .inr rfl
  | some source =>
    refine .inl ⟨fun h => ?_, .write source, rfl, rfl⟩
    rw [h.2.1] at hwrite
    cases hwrite

/-- Moving it to a file loses nothing of what was received. -/
theorem Received.Holds.spill (h : received.Holds bytes) (chunk : Bytes) :
    Broken disk (spill disk threshold received chunk) ∨
      ∃ received', spill disk threshold received chunk = .ok received' ∧ received'.Holds bytes := by
  unfold Staging.spill
  split
  · next hspill =>
    rcases @createPrivateFile_cases disk with hbroken | hcreate
    · exact .inl (hbroken.bind _)
    · rw [hcreate]
      rcases @writeAll_cases disk ⟨[], 0⟩ received.memory with hbroken | hwrite
      · exact .inl (hbroken.bind _)
      · have hmemory : received.content = received.memory := by
          rw [Received.content, Option.isNone_iff_eq_none.mp hspill.1]
        refine .inr ⟨⟨[], some ⟨received.memory, 1⟩, received.len⟩, ?_, ?_, h.len⟩
        · simp [bind, Except.bind, hwrite, pure, Except.pure]
        · rw [← h.content, hmemory]
          rfl
  · exact .inr ⟨received, rfl, h⟩

theorem Received.Holds.receiveChunk (h : received.Holds bytes) (chunk : Bytes)
    (hadd : U64.add bytes.length chunk.length = some (bytes.length + chunk.length))
    (hlimit : bytes.length + chunk.length ≤ limit.toNat) :
    Broken disk (receiveChunk disk threshold limit received (.ok chunk)) ∨
      ∃ received', receiveChunk disk threshold limit received (.ok chunk) = .ok received' ∧
        received'.Holds (bytes ++ chunk) := by
  unfold Staging.receiveChunk
  have hlen : (bytes.length + chunk.length) = (bytes ++ chunk).length := List.length_append.symm
  simp only [Except.mapError, h.len, hadd, bind, Except.bind]
  rw [if_neg (Nat.not_lt.mpr hlimit)]
  rcases @Received.Holds.spill disk threshold _ _ h chunk with hbroken | ⟨spilled, hspill, hspilled⟩
  · exact .inl (hbroken.bind _)
  · rw [hspill]
    dsimp only
    have hcontent := hspilled.content
    unfold Received.content at hcontent
    cases hfile : spilled.file with
    | none =>
      rw [hfile] at hcontent
      exact .inr ⟨_, rfl, congrArg (· ++ chunk) hcontent, hlen⟩
    | some file =>
      rw [hfile] at hcontent
      rcases @writeAll_cases disk file chunk with hbroken | hwrite
      · exact .inl (hbroken.bind _)
      · dsimp only
        rw [hwrite]
        exact .inr ⟨_, rfl, congrArg (· ++ chunk) hcontent, hlen⟩

/-- Chunk by chunk the bytes received are those that the stream comes to. -/
theorem Received.Holds.foldlM (h : received.Holds bytes) (stream : List (Except String Bytes)) :
    Broken disk (stream.foldlM (Staging.receiveChunk disk threshold limit) received) ∨
      match receive limit bytes stream with
      | .ok all => ∃ received', stream.foldlM (Staging.receiveChunk disk threshold limit) received = .ok received' ∧
          received'.Holds all
      | .error e => stream.foldlM (Staging.receiveChunk disk threshold limit) received = .error e := by
  induction stream generalizing received bytes with
  | nil => exact .inr ⟨received, rfl, h⟩
  | cons item stream ih =>
    rw [List.foldlM_cons]
    cases item with
    | error e => exact .inr rfl
    | ok chunk =>
      rw [receive]
      cases hadd : U64.add bytes.length chunk.length with
      | none =>
        refine .inr ?_
        simp [Staging.receiveChunk, Except.mapError, h.len, hadd, bind, Except.bind]
      | some len =>
        obtain ⟨-, rfl⟩ := U64.add_eq_some.mp hadd
        by_cases hexceeds : bytes.length + chunk.length > limit.toNat
        · refine .inr ?_
          simp [Staging.receiveChunk, Except.mapError, h.len, hadd, bind, Except.bind, hexceeds]
        · simp only [if_neg hexceeds]
          rcases @Received.Holds.receiveChunk disk threshold limit _ _ h chunk hadd (Nat.not_lt.mp hexceeds) with
            hbroken | ⟨received', hchunk, hholds⟩
          · exact .inl (hbroken.bind _)
          · rw [hchunk]
            exact ih hholds

theorem Received.Holds.finishBody (h : received.Holds bytes) :
    Broken disk (finishBody disk received) ∨
      ∃ body, finishBody disk received = .ok body ∧ body.content = bytes ∧ body.len = bytes.length := by
  unfold Staging.finishBody
  have hcontent := h.content
  unfold Received.content at hcontent
  cases hfile : received.file with
  | none =>
    rw [hfile] at hcontent
    exact .inr ⟨_, rfl, hcontent, h.len⟩
  | some file =>
    rw [hfile] at hcontent
    dsimp only
    cases hflush : disk.flush with
    | some source => exact .inl ⟨fun hworks => by simp [hworks.2.2.1] at hflush, .write source, rfl, rfl⟩
    | none =>
      dsimp only
      cases hsync : disk.syncAll with
      | some source => exact .inl ⟨fun hworks => by simp [hworks.2.2.2] at hsync, .write source, rfl, rfl⟩
      | none => exact .inr ⟨_, rfl, hcontent, h.len⟩

theorem firstFile_cases {forceFile : Bool} : Broken disk (firstFile disk forceFile) ∨
    ∃ file, firstFile disk forceFile = .ok file ∧ (⟨[], file, 0⟩ : Received).Holds [] := by
  cases forceFile with
  | false => exact .inr ⟨none, rfl, rfl, rfl⟩
  | true =>
    rw [firstFile, if_pos rfl]
    rcases @createPrivateFile_cases disk with ⟨hbroken, e, he, hdisk⟩ | hcreate
    · exact .inl ⟨hbroken, e, by rw [he]; rfl, hdisk⟩
    · exact .inr ⟨some ⟨[], 0⟩, by rw [hcreate]; rfl, rfl, rfl⟩

/-- Staging comes to the same wherever the body is kept, unless the private file fails. -/
theorem stageStreamInner_outcome (disk : Disk) (threshold : Nat) (forceFile : Bool)
    (stream : List (Except String Bytes)) (expectedLen : Option UInt64) (limit : UInt64) :
    Broken disk (stageStreamInner disk threshold forceFile stream expectedLen limit) ∨
      match outcome stream expectedLen limit with
      | .ok bytes => ∃ body, stageStreamInner disk threshold forceFile stream expectedLen limit = .ok body ∧
          body.content = bytes ∧ body.len = bytes.length
      | .error e => stageStreamInner disk threshold forceFile stream expectedLen limit = .error e := by
  unfold stageStreamInner outcome
  cases hsize : expectedLen.filter (· > limit) with
  | some size => exact .inr rfl
  | none =>
    rcases @firstFile_cases disk forceFile with hbroken | ⟨file, hfile, hholds⟩
    · exact .inl (hbroken.bind _)
    · dsimp only
      rw [hfile]
      rcases @Received.Holds.foldlM disk threshold limit _ _ hholds stream with hbroken | hreceive
      · exact .inl (hbroken.bind _)
      · cases hall : receive limit [] stream with
        | error e =>
          rw [hall] at hreceive
          refine .inr ?_
          simp only [bind, Except.bind, hreceive]
        | ok bytes =>
          rw [hall] at hreceive
          obtain ⟨received, hreceived, hbytes⟩ := hreceive
          simp only [bind, Except.bind, hreceived, hbytes.len]
          cases hexpected : expectedLen.filter (·.toNat ≠ bytes.length) with
          | some expected => exact .inr rfl
          | none => exact hbytes.finishBody

end Stage

/-! ## What staging comes to -/

/-- The declared length or what is received exceeds the limit. -/
def Exceeds (stream : List (Except String Bytes)) (expectedLen : Option UInt64) (limit : UInt64) : Prop :=
  (∃ declared, expectedLen = some declared ∧ limit < declared) ∨
    limit.toNat < (delivered stream).flatten.length

/-- Another length was declared. -/
def Differs (stream : List (Except String Bytes)) (expectedLen : Option UInt64) : Prop :=
  ∃ declared, expectedLen = some declared ∧ declared.toNat ≠ (delivered stream).flatten.length

theorem filter_eq_none {α : Type} {p : α → Prop} [DecidablePred p] {o : Option α} :
    o.filter (fun a => decide (p a)) = none ↔ ¬ ∃ a, o = some a ∧ p a := by
  cases o <;> simp

section Outcome

variable {stream : List (Except String Bytes)} {expectedLen : Option UInt64} {limit : UInt64}

/-- A body is too large, or breaks off, or ends with another length, or is staged. -/
theorem outcome_cases :
    (Exceeds stream expectedLen limit ∧
      ∃ size, outcome stream expectedLen limit = .error (.tooLarge size limit.toNat)) ∨
    ¬ Exceeds stream expectedLen limit ∧
      ((∃ e, breaksWith stream = some e ∧ outcome stream expectedLen limit = .error (.read e)) ∨
        breaksWith stream = none ∧
          ((Differs stream expectedLen ∧ ∃ declared, expectedLen = some declared ∧
              outcome stream expectedLen limit =
                .error (.lengthMismatch declared.toNat (delivered stream).flatten.length)) ∨
            ¬ Differs stream expectedLen ∧
              outcome stream expectedLen limit = .ok (delivered stream).flatten)) := by
  unfold outcome
  cases hsize : expectedLen.filter (· > limit) with
  | some size =>
    obtain ⟨hdeclared, hlarge⟩ := Option.filter_eq_some_iff.mp hsize
    exact .inl ⟨.inl ⟨size, hdeclared, of_decide_eq_true hlarge⟩, _, rfl⟩
  | none =>
    have hdeclared := filter_eq_none.mp hsize
    have hreceive := @receive_cases limit [] (Nat.zero_le _) stream
    rw [List.length_nil, Nat.zero_add, List.nil_append] at hreceive
    rcases hreceive with ⟨hkeeps, hreceive⟩ | ⟨hlarge, size, hreceive⟩
    · have hnot : ¬ Exceeds stream expectedLen limit := by
        rintro (hlarge | hlarge)
        · exact hdeclared hlarge
        · omega
      rcases hreceive with ⟨hwhole, hreceive⟩ | ⟨e, hbreaks, hreceive⟩
      · rw [hreceive]
        dsimp only
        cases hexpected : expectedLen.filter (·.toNat ≠ (delivered stream).flatten.length) with
        | some declared =>
          obtain ⟨hsome, hdiffers⟩ := Option.filter_eq_some_iff.mp hexpected
          exact .inr ⟨hnot, .inr ⟨hwhole, .inl ⟨⟨declared, hsome, of_decide_eq_true hdiffers⟩, declared, hsome, rfl⟩⟩⟩
        | none => exact .inr ⟨hnot, .inr ⟨hwhole, .inr ⟨filter_eq_none.mp hexpected, rfl⟩⟩⟩
      · rw [hreceive]
        exact .inr ⟨hnot, .inl ⟨e, hbreaks, rfl⟩⟩
    · rw [hreceive]
      exact .inl ⟨.inr hlarge, size, rfl⟩

theorem outcome_tooLarge_iff :
    (∃ size, outcome stream expectedLen limit = .error (.tooLarge size limit.toNat)) ↔
      Exceeds stream expectedLen limit := by
  rcases @outcome_cases stream expectedLen limit with
    ⟨hlarge, h⟩ | ⟨hkeeps, ⟨e, -, h⟩ | ⟨-, ⟨-, declared, -, h⟩ | ⟨-, h⟩⟩⟩
  · exact iff_of_true h hlarge
  · exact iff_of_false (by simp [h]) hkeeps
  · exact iff_of_false (by simp [h]) hkeeps
  · exact iff_of_false (by simp [h]) hkeeps

theorem outcome_lengthMismatch_iff :
    (∃ expected actual, outcome stream expectedLen limit = .error (.lengthMismatch expected actual)) ↔
      ¬ Exceeds stream expectedLen limit ∧ breaksWith stream = none ∧ Differs stream expectedLen := by
  rcases @outcome_cases stream expectedLen limit with
    ⟨hlarge, size, h⟩ | ⟨hkeeps, ⟨e, hbreaks, h⟩ | ⟨hwhole, ⟨hdiffers, declared, -, h⟩ | ⟨hequal, h⟩⟩⟩
  · exact iff_of_false (by simp [h]) fun hall => hall.1 hlarge
  · exact iff_of_false (by simp [h]) fun hall => by simp [hbreaks] at hall
  · exact iff_of_true ⟨_, _, h⟩ ⟨hkeeps, hwhole, hdiffers⟩
  · exact iff_of_false (by simp [h]) fun hall => hequal hall.2.2

theorem outcome_eq_ok {bytes : Bytes} :
    outcome stream expectedLen limit = .ok bytes ↔
      (¬ Exceeds stream expectedLen limit ∧ breaksWith stream = none ∧ ¬ Differs stream expectedLen) ∧
        bytes = (delivered stream).flatten := by
  rcases @outcome_cases stream expectedLen limit with
    ⟨hlarge, size, h⟩ | ⟨hkeeps, ⟨e, hbreaks, h⟩ | ⟨hwhole, ⟨hdiffers, declared, -, h⟩ | ⟨hequal, h⟩⟩⟩
  · exact iff_of_false (by simp [h]) fun hall => hall.1.1 hlarge
  · exact iff_of_false (by simp [h]) fun hall => by simp [hbreaks] at hall
  · exact iff_of_false (by simp [h]) fun hall => hall.1.2.2 hdiffers
  · rw [h, Except.ok.injEq, eq_comm]
    exact (and_iff_right ⟨hkeeps, hwhole, hequal⟩).symm

end Outcome

theorem map_eq_error {α β e : Type} {f : α → β} {result : Except e α} {error : e} :
    result.map f = .error error ↔ result = .error error := by
  cases result <;> simp [Except.map]

theorem stageStreamInner_view (disk : Disk) (threshold : Nat) (forceFile : Bool)
    (stream : List (Except String Bytes)) (expectedLen : Option UInt64) (limit : UInt64) :
    Broken disk (stageStreamInner disk threshold forceFile stream expectedLen limit) ∨
      (stageStreamInner disk threshold forceFile stream expectedLen limit).map (fun body => (body.content, body.len)) =
        (outcome stream expectedLen limit).map fun bytes => (bytes, bytes.length) := by
  refine (stageStreamInner_outcome disk threshold forceFile stream expectedLen limit).imp_right fun h => ?_
  cases houtcome : outcome stream expectedLen limit with
  | error e =>
    rw [houtcome] at h
    rw [h]
    rfl
  | ok bytes =>
    rw [houtcome] at h
    obtain ⟨body, hbody, hcontent, hlen⟩ := h
    rw [hbody]
    simp only [Except.map, hcontent, hlen]

/-- What is staged is what was received, with its length. -/
theorem outcome_of_staged {disk : Disk} {threshold : Nat} {forceFile : Bool}
    {stream : List (Except String Bytes)} {expectedLen : Option UInt64} {limit : UInt64} {body : StagedBody}
    (h : stageStreamInner disk threshold forceFile stream expectedLen limit = .ok body) :
    outcome stream expectedLen limit = .ok body.content ∧ body.len = body.content.length := by
  rcases stageStreamInner_view disk threshold forceFile stream expectedLen limit with ⟨-, e, he, -⟩ | hview
  · rw [h] at he
    cases he
  · rw [h] at hview
    cases houtcome : outcome stream expectedLen limit with
    | error e =>
      rw [houtcome] at hview
      cases hview
    | ok bytes =>
      rw [houtcome] at hview
      obtain ⟨rfl, hlen⟩ := Prod.mk.inj (Except.ok.inj hview)
      exact ⟨rfl, hlen⟩

/-- Staging either fails with the private file, or answers as follows: the body is too large if and only if the
declared length or what is received exceeds the limit; its length is wrong if and only if it ends with another
one than was declared; and otherwise, unless it breaks off, it is staged. What is staged is the concatenation of
the chunks with its length, whatever the threshold is and whether it is kept in a file or not. -/
theorem stageStreamInner_exact (disk : Disk) (threshold : Nat) (forceFile : Bool)
    (stream : List (Except String Bytes)) (expectedLen : Option UInt64) (limit : UInt64) :
    let result := stageStreamInner disk threshold forceFile stream expectedLen limit
    Broken disk result ∨
      ((∃ size, result = .error (.tooLarge size limit.toNat)) ↔ Exceeds stream expectedLen limit) ∧
      ((∃ expected actual, result = .error (.lengthMismatch expected actual)) ↔
        ¬ Exceeds stream expectedLen limit ∧ breaksWith stream = none ∧ Differs stream expectedLen) ∧
      ((∃ body, result = .ok body) ↔
        ¬ Exceeds stream expectedLen limit ∧ breaksWith stream = none ∧ ¬ Differs stream expectedLen) ∧
      (∀ body, result = .ok body →
        body.content = (delivered stream).flatten ∧ body.len = (delivered stream).flatten.length) ∧
      ∀ (disk' : Disk) (threshold' : Nat) (forceFile' : Bool),
        let result' := stageStreamInner disk' threshold' forceFile' stream expectedLen limit
        Broken disk' result' ∨
          result'.map (fun body => (body.content, body.len)) = result.map fun body => (body.content, body.len) := by
  intro result
  rcases stageStreamInner_view disk threshold forceFile stream expectedLen limit with hbroken | hview
  · exact .inl hbroken
  right
  have herror : ∀ e, result = .error e ↔ outcome stream expectedLen limit = .error e := by
    intro e
    rw [← map_eq_error (f := fun body : StagedBody => (body.content, body.len)), hview, map_eq_error]
  have hok : ∀ body, result = .ok body →
      outcome stream expectedLen limit = .ok body.content ∧ body.len = body.content.length :=
    fun _ hbody => outcome_of_staged hbody
  have hsome : (∃ body, result = .ok body) ↔ ∃ bytes, outcome stream expectedLen limit = .ok bytes := by
    constructor
    · rintro ⟨body, hbody⟩
      exact ⟨_, (hok body hbody).1⟩
    · rintro ⟨bytes, houtcome⟩
      cases hresult : result with
      | error e =>
        rw [(herror e).mp hresult] at houtcome
        cases houtcome
      | ok body => exact ⟨body, rfl⟩
  refine ⟨?_, ?_, ?_, ?_, ?_⟩
  · simp only [herror]
    exact outcome_tooLarge_iff
  · simp only [herror]
    exact outcome_lengthMismatch_iff
  · rw [hsome]
    constructor
    · rintro ⟨bytes, houtcome⟩
      exact (outcome_eq_ok.mp houtcome).1
    · intro hall
      exact ⟨_, outcome_eq_ok.mpr ⟨hall, rfl⟩⟩
  · intro body hbody
    obtain ⟨houtcome, hlen⟩ := hok body hbody
    have hcontent := (outcome_eq_ok.mp houtcome).2
    exact ⟨hcontent, hcontent ▸ hlen⟩
  · intro disk' threshold' forceFile' result'
    refine (stageStreamInner_view disk' threshold' forceFile' stream expectedLen limit).imp_right fun h => ?_
    exact h.trans hview.symm

/-- The first bytes of a staged body are read back, as its length is that of what is kept. -/
theorem leading_eq {disk : Disk} {threshold : Nat} {forceFile : Bool} {stream : List (Except String Bytes)}
    {expectedLen : Option UInt64} {limit : UInt64} {body : StagedBody}
    (h : stageStreamInner disk threshold forceFile stream expectedLen limit = .ok body) (maximum : Nat) :
    body.leading maximum = .ok (body.content.take maximum) := by
  have hlen : body.len = body.content.length := (outcome_of_staged h).2
  have htake : ∀ bytes : Bytes, bytes.take (min bytes.length maximum) = bytes.take maximum := by
    intro bytes
    rw [Nat.min_comm]
    exact List.take_eq_take_min.symm
  unfold StagedBody.content at hlen ⊢
  unfold StagedBody.leading
  cases hstorage : body.storage with
  | memory bytes => exact congrArg Except.ok (htake bytes)
  | file content =>
    rw [hstorage] at hlen
    dsimp only at hlen ⊢
    rw [hlen, if_neg (Nat.not_lt.mpr (Nat.min_le_right _ _)), Nat.min_comm, htake]

end Staging
