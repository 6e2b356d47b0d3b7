-- SUMMARY: The client of an embeddings endpoint: its attempts, its checks of an answer, and which vector it gives to which text.
import NotedThat.Lib.Slots
import NotedThat.Lib.Text

/-!
# The embedder

The endpoint answers with vectors that name the texts they are for. An answer is taken if it has as many
vectors as there are texts, all of the configured dimension, and if no text is named twice or unknown.
Then no text is left without a vector. Answers that may get better are asked for again, a bounded number
of times.
-/

namespace Indexer

variable {F : Type}

structure OpenAiCompatibleConfig where
  /-- Expected embedding dimensionality. -/
  dim : Nat
  /-- Maximum number of total attempts for retriable failures. -/
  maxRetries : Nat
  maxRetries_lt : maxRetries < 2 ^ 32

structure EmbeddingItem (F : Type) where
  index : Nat
  embedding : List F
deriving DecidableEq

inductive EmbedderError where
  | transport (text : Text)
  | http (status : Nat) (body : Text)
  | malformed (text : Text)
  | countMismatch (sent returned : Nat)
  | dimensionMismatch (expected actual : Nat)
  | indexOutOfRange (index sent : Nat)
  | duplicateIndex (index : Nat)
  | retriesExhausted (attempts : Nat)
deriving DecidableEq

/-- What comes of a request. The body is read as items if the status is a success, and as text if not. -/
inductive Reply (F : Type) where
  | response (status : Nat) (items : Except Text (List (EmbeddingItem F))) (body : Text)
  /-- No response, and the class of the failure. -/
  | failed (transportClass : Text)

-- ---------------------------------------------------------------------------
-- An answer
-- ---------------------------------------------------------------------------

/-- The loop over the items, with the slots filled so far. -/
def placeAll (sent dim : Nat) :
    List (EmbeddingItem F) → List (Option (List F)) → Except EmbedderError (List (Option (List F)))
  | [], slots => .ok slots
  | item :: data, slots =>
    if sent ≤ item.index then .error (.indexOutOfRange item.index sent)
    else if item.embedding.length ≠ dim then .error (.dimensionMismatch dim item.embedding.length)
    else match slots[item.index]? with -- in bounds, by the first check
      | some none => placeAll sent dim data (slots.set item.index (some item.embedding))
      | _ => .error (.duplicateIndex item.index)

def alignEmbeddings (data : List (EmbeddingItem F)) (sent dim : Nat) : Except EmbedderError (List (List F)) :=
  (placeAll sent dim data (List.replicate sent none)).bind fun slots =>
    match collect slots with
    | some vectors => .ok vectors
    | none => .error (.malformed "embedding batch left an input without a vector".toList)

/-- What is made of the items of a success. -/
def takeItems (data : List (EmbeddingItem F)) (sent dim : Nat) : Except EmbedderError (List (List F)) :=
  if data.length ≠ sent then .error (.countMismatch sent data.length) else alignEmbeddings data sent dim

/-- The vectors of a text each: the items' own, and an item for each of them. -/
structure Aligned (data : List (EmbeddingItem F)) (sent dim : Nat) (vectors : List (List F)) : Prop where
  indices : (data.map EmbeddingItem.index).Perm (List.range sent)
  dims : ∀ item ∈ data, item.embedding.length = dim
  get : ∀ i v, vectors[i]? = some v ↔ ⟨i, v⟩ ∈ data

-- ---------------------------------------------------------------------------
-- The attempts
-- ---------------------------------------------------------------------------

def isSuccess (status : Nat) : Bool := 200 ≤ status && status < 300

def retriable (status : Nat) : Bool := status == 429 || (500 ≤ status && status < 600)

/-- The attempts still to come, against what comes of them. `none` is an attempt that is not over. -/
def attempt (config : OpenAiCompatibleConfig) (texts : List Text) (attempts : Nat) :
    List (Reply F) → Option (Except EmbedderError (List (List F)))
  | [] => none
  | reply :: replies =>
    let attempts := min (attempts + 1) (2 ^ 32 - 1)
    match reply with
    | .response status items body =>
      if isSuccess status then
        match items with
        | .error text => some (.error (.malformed text))
        | .ok data => some (takeItems data texts.length config.dim)
      else if retriable status ∧ attempts < config.maxRetries then attempt config texts attempts replies
      else if retriable status then some (.error (.retriesExhausted attempts))
      else some (.error (.http status body))
    | .failed transportClass =>
      if attempts < config.maxRetries then attempt config texts attempts replies
      else some (.error (.transport transportClass))

def embed (config : OpenAiCompatibleConfig) (texts : List Text) (replies : List (Reply F)) :
    Option (Except EmbedderError (List (List F))) :=
  if texts.isEmpty then some (.ok []) else attempt config texts 0 replies

-- ---------------------------------------------------------------------------
-- The loop over the items
-- ---------------------------------------------------------------------------

/-- An item as a numbered value. -/
def EmbeddingItem.entry (item : EmbeddingItem F) : Nat × List F := (item.index, item.embedding)

variable {sent dim : Nat} {data : List (EmbeddingItem F)} {done : List (Nat × List F)}
  {slots slots' : List (Option (List F))}

/-- The loop goes on with the items it was given, each in its place. -/
theorem placeAll_filled (h : Filled sent done slots) (hrun : placeAll sent dim data slots = .ok slots') :
    Filled sent (done ++ data.map EmbeddingItem.entry) slots' ∧ ∀ item ∈ data, item.embedding.length = dim := by
  induction data generalizing done slots with
  | nil =>
    obtain rfl := Except.ok.inj hrun
    exact ⟨by simpa using h, nofun⟩
  | cons item data ih =>
    rw [placeAll] at hrun
    split at hrun
    · cases hrun
    · split at hrun
      · cases hrun
      · next hdim =>
        split at hrun
        · next hslot =>
          obtain ⟨hfilled, hdims⟩ := ih (h.set hslot item.embedding) hrun
          rw [List.append_assoc] at hfilled
          exact ⟨hfilled, List.forall_mem_cons.mpr ⟨not_not.mp hdim, hdims⟩⟩
        · cases hrun

/-- If the items have the dimension and take a place each, the loop comes to its end. -/
theorem placeAll_of_nodup (h : Filled sent done slots)
    (hnodup : ((done ++ data.map EmbeddingItem.entry).map Prod.fst).Nodup)
    (hlt : ∀ item ∈ data, item.index < sent) (hdims : ∀ item ∈ data, item.embedding.length = dim) :
    ∃ slots', placeAll sent dim data slots = .ok slots' := by
  induction data generalizing done slots with
  | nil => exact ⟨slots, rfl⟩
  | cons item data ih =>
    obtain ⟨hlt', hlt⟩ := List.forall_mem_cons.mp hlt
    obtain ⟨hdim, hdims⟩ := List.forall_mem_cons.mp hdims
    have hfresh : item.index ∉ done.map Prod.fst := by
      intro hmem
      rw [List.map_append, List.map_cons] at hnodup
      exact (List.nodup_append.mp hnodup).2.2 _ hmem _ List.mem_cons_self rfl
    have hslot := h.free hlt' hfresh
    rw [List.map_cons, List.append_cons] at hnodup
    obtain ⟨slots', hrun⟩ := ih (h.set hslot item.embedding) hnodup hlt hdims
    refine ⟨slots', ?_⟩
    rw [placeAll, if_neg (Nat.not_le.mpr hlt'), if_neg (not_not.mpr hdim), hslot]
    exact hrun

theorem placeAll_ne_malformed (text : Text) : placeAll sent dim data slots ≠ .error (.malformed text) := by
  induction data generalizing slots with
  | nil => exact nofun
  | cons item data ih =>
    rw [placeAll]
    split
    · exact nofun
    · split
      · exact nofun
      · split
        · exact ih
        · exact nofun

-- ---------------------------------------------------------------------------
-- An answer's vectors
-- ---------------------------------------------------------------------------

theorem mem_entries {i : Nat} {v : List F} : (i, v) ∈ data.map EmbeddingItem.entry ↔ ⟨i, v⟩ ∈ data := by
  refine List.mem_map.trans ⟨?_, fun hmem => ⟨_, hmem, rfl⟩⟩
  rintro ⟨⟨_, _⟩, hmem, heq⟩
  obtain ⟨rfl, rfl⟩ := Prod.mk.inj heq
  exact hmem

theorem map_fst_entries : (data.map EmbeddingItem.entry).map Prod.fst = data.map EmbeddingItem.index := by
  rw [List.map_map]
  rfl

/-- Each vector is determined by the items. -/
theorem Aligned.unique {vectors vectors' : List (List F)} (h : Aligned data sent dim vectors)
    (h' : Aligned data sent dim vectors') : vectors = vectors' := by
  refine List.ext_getElem? fun i => Option.ext fun v => ?_
  rw [h.get, h'.get]

/-- A loop that ends without an error has filled every slot. -/
theorem alignEmbeddings_of_placeAll (hlength : data.length = sent)
    (hrun : placeAll sent dim data (List.replicate sent none) = .ok slots) :
    ∃ vectors, alignEmbeddings data sent dim = .ok vectors ∧ Aligned data sent dim vectors := by
  obtain ⟨hfilled, hdims⟩ := placeAll_filled (Filled.empty sent) hrun
  rw [List.nil_append] at hfilled
  have hcount : (data.map EmbeddingItem.entry).length = sent := by rw [List.length_map, hlength]
  obtain ⟨vectors, hcollect⟩ := collect_ne_none (hfilled.full hcount)
  obtain rfl := collect_eq_some.mp hcollect
  refine ⟨vectors, ?_, ?_, hdims, fun i v => ?_⟩
  · rw [alignEmbeddings, hrun]
    dsimp only [Except.bind]
    rw [hcollect]
  · rw [← map_fst_entries]
    exact hfilled.perm hcount
  · rw [← mem_entries, ← hfilled.get, List.getElem?_map]
    cases vectors[i]? <;> simp

/-- The case of a text without a vector does not come up. -/
theorem alignEmbeddings_ne_malformed (hlength : data.length = sent) (text : Text) :
    alignEmbeddings data sent dim ≠ .error (.malformed text) := by
  cases hrun : placeAll sent dim data (List.replicate sent none) with
  | error e =>
    rw [alignEmbeddings, hrun]
    rintro heq
    exact placeAll_ne_malformed text (hrun.trans (congrArg Except.error (Except.error.inj heq)))
  | ok slots =>
    obtain ⟨vectors, heq, -⟩ := alignEmbeddings_of_placeAll hlength hrun
    rw [heq]
    exact nofun

/-- An answer that names each text once and has the dimension is taken. -/
theorem exists_takeItems (hindices : (data.map EmbeddingItem.index).Perm (List.range sent))
    (hdims : ∀ item ∈ data, item.embedding.length = dim) :
    ∃ vectors, takeItems data sent dim = .ok vectors ∧ Aligned data sent dim vectors := by
  have hlength : data.length = sent := by
    have hperm := hindices.length_eq
    rwa [List.length_map, List.length_range] at hperm
  have hnodup : (data.map EmbeddingItem.index).Nodup := hindices.nodup_iff.mpr List.nodup_range
  have hlt : ∀ item ∈ data, item.index < sent := fun item hitem =>
    List.mem_range.mp (hindices.mem_iff.mp (List.mem_map_of_mem hitem))
  rw [← map_fst_entries] at hnodup
  obtain ⟨slots, hrun⟩ := placeAll_of_nodup (Filled.empty sent) hnodup hlt hdims
  rw [takeItems, if_neg (not_not.mpr hlength)]
  exact alignEmbeddings_of_placeAll hlength hrun

theorem takeItems_eq_ok {vectors : List (List F)} :
    takeItems data sent dim = .ok vectors ↔ Aligned data sent dim vectors := by
  constructor
  · intro h
    rw [takeItems] at h
    split at h
    · cases h
    · next hlength =>
      have hlength := not_not.mp hlength
      cases hrun : placeAll sent dim data (List.replicate sent none) with
      | error e =>
        rw [alignEmbeddings, hrun] at h
        cases h
      | ok slots =>
        obtain ⟨vectors', heq, haligned⟩ := alignEmbeddings_of_placeAll hlength hrun
        rw [heq] at h
        rwa [← Except.ok.inj h]
  · intro h
    obtain ⟨vectors', heq, haligned⟩ := exists_takeItems h.indices h.dims
    rw [heq, haligned.unique h]

-- ---------------------------------------------------------------------------
-- A run of attempts
-- ---------------------------------------------------------------------------

/-- An attempt that another one may follow. -/
def Reply.again : Reply F → Bool
  | .response status _ _ => !isSuccess status && retriable status
  | .failed _ => true

/-- The items of the first success, if the attempts before it are few enough to come to it. -/
def Answer (config : OpenAiCompatibleConfig) (replies : List (Reply F)) (data : List (EmbeddingItem F)) : Prop :=
  ∃ retried status body rest, replies = retried ++ .response status (.ok data) body :: rest ∧
    isSuccess status = true ∧ (∀ reply ∈ retried, reply.again = true) ∧
    (retried ≠ [] → retried.length < config.maxRetries)

variable {config : OpenAiCompatibleConfig} {texts : List Text} {attempts : Nat} {reply : Reply F}
  {replies : List (Reply F)}

/-- The count of attempts stops short of the limit only where it stops counting. -/
theorem saturated_lt (config : OpenAiCompatibleConfig) (attempts : Nat) :
    min (attempts + 1) (2 ^ 32 - 1) < config.maxRetries ↔ attempts + 1 < config.maxRetries := by
  have hlt := config.maxRetries_lt
  omega

theorem attempt_again (hagain : reply.again = true) (hlt : attempts + 1 < config.maxRetries) :
    attempt config texts attempts (reply :: replies) = attempt config texts (attempts + 1) replies := by
  have hbound := config.maxRetries_lt
  have hmin : min (attempts + 1) (2 ^ 32 - 1) = attempts + 1 := by omega
  cases reply with
  | response status items body =>
    rw [attempt.eq_def]
    dsimp only
    rw [hmin]
    obtain ⟨hsuccess, hretriable⟩ := Bool.and_eq_true_iff.mp hagain
    rw [Bool.not_eq_true'] at hsuccess
    simp only [hsuccess, Bool.false_eq_true, if_false, hretriable, hlt, and_self, if_true]
  | failed transportClass =>
    rw [attempt, hmin]
    exact if_pos hlt

theorem attempt_success {status : Nat} {body : Text} (h : isSuccess status = true) :
    attempt config texts attempts (.response status (.ok data) body :: replies) =
      some (takeItems data texts.length config.dim) := by
  rw [attempt]
  exact if_pos h

/-- Vectors come from a success, or from the attempts that follow. -/
theorem attempt_eq_ok {vectors : List (List F)}
    (h : attempt config texts attempts (reply :: replies) = some (.ok vectors)) :
    (∃ status data body, reply = .response status (.ok data) body ∧ isSuccess status = true) ∨
      reply.again = true ∧ attempts + 1 < config.maxRetries := by
  cases reply with
  | response status items body =>
    rw [attempt.eq_def] at h
    dsimp only at h
    split at h
    · next hsuccess =>
      cases items with
      | error text => cases h
      | ok data => exact .inl ⟨status, data, body, rfl, hsuccess⟩
    · next hsuccess =>
      split at h
      · next hretry =>
        refine .inr ⟨?_, (saturated_lt config attempts).mp hretry.2⟩
        rw [Reply.again, Bool.eq_false_iff.mpr hsuccess, hretry.1]
        rfl
      · split at h <;> cases h
  | failed transportClass =>
    rw [attempt] at h
    split at h
    · next hlt => exact .inr ⟨rfl, (saturated_lt config attempts).mp hlt⟩
    · cases h

/-- A run that comes to a success is the outcome of its items. -/
theorem attempt_append {retried : List (Reply F)} {status : Nat} {body : Text} (hsuccess : isSuccess status = true)
    (hagain : ∀ reply ∈ retried, reply.again = true)
    (hlt : retried ≠ [] → attempts + retried.length < config.maxRetries) :
    attempt config texts attempts (retried ++ .response status (.ok data) body :: replies) =
      some (takeItems data texts.length config.dim) := by
  induction retried generalizing attempts with
  | nil => exact attempt_success hsuccess
  | cons reply retried ih =>
    obtain ⟨hreply, hretried⟩ := List.forall_mem_cons.mp hagain
    have hlt := hlt (List.cons_ne_nil _ _)
    rw [List.length_cons] at hlt
    rw [List.cons_append, attempt_again hreply (by omega)]
    exact ih hretried fun _ => by omega

/-- A run with vectors has come to a success. -/
theorem exists_answer {vectors : List (List F)} (h : attempt config texts attempts replies = some (.ok vectors)) :
    ∃ data retried status body rest, replies = retried ++ .response status (.ok data) body :: rest ∧
      isSuccess status = true ∧ (∀ reply ∈ retried, reply.again = true) ∧
      (retried ≠ [] → attempts + retried.length < config.maxRetries) := by
  induction replies generalizing attempts with
  | nil => cases h
  | cons reply replies ih =>
    rcases attempt_eq_ok h with ⟨status, data, body, rfl, hsuccess⟩ | ⟨hagain, hlt⟩
    · exact ⟨data, [], status, body, replies, rfl, hsuccess, nofun, fun hne => absurd rfl hne⟩
    · rw [attempt_again hagain hlt] at h
      obtain ⟨data, retried, status, body, rest, rfl, hsuccess, hretried, hbound⟩ := ih h
      refine ⟨data, reply :: retried, status, body, rest, rfl, hsuccess,
        List.forall_mem_cons.mpr ⟨hagain, hretried⟩, fun _ => ?_⟩
      rw [List.length_cons]
      by_cases hnil : retried = []
      · rw [hnil, List.length_nil]
        exact hlt
      · have := hbound hnil
        omega

theorem embed_answer (htexts : texts ≠ []) (h : Answer config replies data) :
    embed config texts replies = some (takeItems data texts.length config.dim) := by
  obtain ⟨retried, status, body, rest, rfl, hsuccess, hagain, hlt⟩ := h
  rw [embed, if_neg (by simpa using htexts)]
  exact attempt_append hsuccess hagain fun hne => by simpa using hlt hne

/-- The embedder has a vector for each text if the first success names every text once and all its vectors
have the dimension. They are given out by the texts they name, and no text is left without one. -/
theorem embed_exact (config : OpenAiCompatibleConfig) (replies : List (Reply F)) :
    embed config [] replies = some (.ok []) ∧
    ∀ texts ≠ [],
      (∀ data, Answer config replies data →
        ((∃ vectors, embed config texts replies = some (.ok vectors)) ↔
          (data.map EmbeddingItem.index).Perm (List.range texts.length) ∧
            ∀ item ∈ data, item.embedding.length = config.dim)) ∧
      (∀ vectors, embed config texts replies = some (.ok vectors) ↔
        ∃ data, Answer config replies data ∧ Aligned data texts.length config.dim vectors) ∧
      ∀ data : List (EmbeddingItem F), data.length = texts.length → ∀ text,
        alignEmbeddings data texts.length config.dim ≠ .error (.malformed text) := by
  refine ⟨rfl, fun texts htexts => ⟨fun data hanswer => ?_, fun vectors => ⟨fun h => ?_, ?_⟩,
    fun data hlength text => alignEmbeddings_ne_malformed hlength text⟩⟩
  · rw [embed_answer htexts hanswer]
    constructor
    · rintro ⟨vectors, h⟩
      have haligned := takeItems_eq_ok.mp (Option.some.inj h)
      exact ⟨haligned.indices, haligned.dims⟩
    · rintro ⟨hindices, hdims⟩
      obtain ⟨vectors, heq, -⟩ := exists_takeItems hindices hdims
      exact ⟨vectors, congrArg some heq⟩
  · have hrun := h
    rw [embed, if_neg (by simpa using htexts)] at hrun
    obtain ⟨data, retried, status, body, rest, heq, hsuccess, hagain, hlt⟩ := exists_answer hrun
    have hanswer : Answer config replies data :=
      ⟨retried, status, body, rest, heq, hsuccess, hagain, fun hne => by simpa using hlt hne⟩
    rw [embed_answer htexts hanswer] at h
    exact ⟨data, hanswer, takeItems_eq_ok.mp (Option.some.inj h)⟩
  · rintro ⟨data, hanswer, haligned⟩
    rw [embed_answer htexts hanswer, takeItems_eq_ok.mpr haligned]

/-- Two texts whose vectors come the other way round, at the second attempt. -/
theorem embed_exact_reordered :
    embed (F := Nat) ⟨1, 3, by decide⟩ ["a".toList, "b".toList]
      [.response 429 (.error []) "slow down".toList,
        .response 200 (.ok [⟨1, [20]⟩, ⟨0, [10]⟩]) []] = some (.ok [[10], [20]]) := by
  refine (((embed_exact _ _).2 _ (by simp)).2.1 _).mpr ⟨[⟨1, [20]⟩, ⟨0, [10]⟩], ?_, by decide, by decide, ?_⟩
  · exact ⟨[.response 429 (.error []) "slow down".toList], 200, [], [], rfl, rfl, by simp [Reply.again, isSuccess,
      retriable], by decide⟩
  · rintro (_ | _ | i) v <;> simp [eq_comm]

end Indexer
