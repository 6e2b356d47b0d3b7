-- SUMMARY: Entity tags that identify bytes and never return, and what a pinned operation learns from them.
import NotedThat.Core.Laws

/-!
# Versions that do not return

A conditional operation compares entity tags only. What it learns about bytes rests on the
backend: a version is stored under the tag that is current, with the same bytes, or under a tag
its key never had.
-/

namespace Store

/-- The backend's promise for an effect: an entity tag identifies bytes, and no key returns to an
earlier tag. -/
def NoReturn (s : Store) : StorageOp.Effect → Prop
  | .unchanged => True
  | .stored k v =>
    (∃ v', s.get k = some v' ∧ v'.etag = v.etag ∧ v'.bytes = v.bytes) ∨
      ∀ v', (k, v') ∈ s.history → v'.etag ≠ v.etag
  | .erased _ => True

/-- `s'` is reached from `s` by effects that keep the promise: what is current in `s'` was
current in `s` already, under this tag and with these bytes, or its tag is new. -/
structure Later (s s' : Store) : Prop where
  history : ∀ e ∈ s.history, e ∈ s'.history
  current : ∀ k v', s'.get k = some v' →
    (∃ v, s.get k = some v ∧ v.etag = v'.etag ∧ v.bytes = v'.bytes) ∨
      ∀ v, (k, v) ∈ s.history → v.etag ≠ v'.etag

theorem Later.refl (s : Store) : Later s s where
  history := fun _ he => he
  current := fun _ v' hv => .inl ⟨v', hv, rfl, rfl⟩

theorem Later.trans {s s' s'' : Store} (h : Later s s') (h' : Later s' s'') : Later s s'' where
  history := fun e he => h'.history e (h.history e he)
  current := by
    intro k v'' hv''
    rcases h'.current k v'' hv'' with ⟨v', hv', hetag', hbytes'⟩ | hnew
    · rcases h.current k v' hv' with ⟨v, hv, hetag, hbytes⟩ | hnew
      · exact .inl ⟨v, hv, hetag.trans hetag', hbytes.trans hbytes'⟩
      · exact .inr fun v hv => hetag' ▸ hnew v hv
    · exact .inr fun v hv => hnew v (h.history _ hv)

theorem NoReturn.later {s : Store} {effect : StorageOp.Effect} (h : s.NoReturn effect)
    (server : Bool) : Later s (s.apply effect server) where
  history := fun _ he => s.history_subset_apply effect server he
  current := by
    intro k v' hv'
    rw [get_apply] at hv'
    cases effect with
    | unchanged => exact (Later.refl s).current k v' hv'
    | stored k' v =>
      simp only at hv'
      split at hv'
      · next hk =>
        cases hv'
        subst hk
        exact h
      · exact (Later.refl s).current k v' hv'
    | erased k' =>
      simp only at hv'
      split at hv'
      · cases hv'
      · exact (Later.refl s).current k v' hv'

/-- A tag seen first, and again last: whatever was read in between are the bytes it stands
for. -/
theorem Later.bytes_eq {s s' s'' : Store} {k : Key} {v v' v'' : Version} (h : Later s s')
    (h' : Later s' s'') (hv : s.get k = some v) (hv' : s'.get k = some v')
    (hv'' : s''.get k = some v'') (hetag : v''.etag = v.etag) : v'.bytes = v''.bytes := by
  rcases h'.current k v'' hv'' with ⟨u, hu, -, hbytes⟩ | hnew
  · rw [hv'] at hu
    cases hu
    exact hbytes
  · exact absurd hetag.symm (hnew v (h.history _ (s.recorded k v hv)))

/-- The preorder as a rely on worlds. -/
def laterRely : Rely World where
  rel := fun w w' => Later w.store w'.store
  refl := fun w => Later.refl w.store
  trans := Later.trans

/-! ## Versions identified by their entity tags -/

/-- Versions of a key that share an entity tag agree on `f`. -/
def IdentifiedBy {β : Type} (f : Version → β) (s : Store) : Prop :=
  ∀ k v v', (k, v) ∈ s.history → (k, v') ∈ s.history → v.etag = v'.etag → f v = f v'

/-- The backend's promise that keeps it so: what is stored under a tag its key had agrees on `f`
with what had the tag. -/
def IdentifiesBy {β : Type} (f : Version → β) (s : Store) : StorageOp.Effect → Prop
  | .unchanged => True
  | .stored k v => ∀ v', (k, v') ∈ s.history → v'.etag = v.etag → f v' = f v
  | .erased _ => True

section IdentifiedBy

variable {β : Type} {f : Version → β} {s : Store}

/-- The promise for a stored version, as a check of the recorded history. -/
theorem IdentifiesBy.of_history {k : Key} {v : Version}
    (h : ∀ e ∈ s.history, e.1 = k → e.2.etag = v.etag → f e.2 = f v) :
    s.IdentifiesBy f (.stored k v) := fun _ hmem hetag => h _ hmem rfl hetag

theorem IdentifiedBy.apply {effect : StorageOp.Effect} (h : s.IdentifiesBy f effect)
    (server : Bool) (hs : s.IdentifiedBy f) : (s.apply effect server).IdentifiedBy f := by
  cases effect with
  | unchanged => exact hs
  | erased k => exact hs
  | stored k v =>
    intro k' u u' hu hu' hetag
    rcases List.mem_append.mp hu with hu | hu
    · rcases List.mem_append.mp hu' with hu' | hu'
      · exact hs k' u u' hu hu' hetag
      · cases List.mem_singleton.mp hu'
        exact h u hu hetag
    · cases List.mem_singleton.mp hu
      rcases List.mem_append.mp hu' with hu' | hu'
      · exact (h u' hu' hetag.symm).symm
      · cases List.mem_singleton.mp hu'
        rfl

end IdentifiedBy

/-- No two versions a key ever had share an entity tag. -/
abbrev Identified (s : Store) : Prop := s.IdentifiedBy id

/-- Only the same version is stored under a tag its key had. -/
abbrev Identifies (s : Store) : StorageOp.Effect → Prop := s.IdentifiesBy id

/-- Nothing is forgotten, and versions stay identified by `f`. -/
def identifiedByRely {β : Type} (f : Version → β) : Rely World where
  rel := fun w w' => (∀ e ∈ w.store.history, e ∈ w'.store.history) ∧
    (w.store.IdentifiedBy f → w'.store.IdentifiedBy f)
  refl := fun _ => ⟨fun _ he => he, id⟩
  trans := fun h h' => ⟨fun e he => h'.1 e (h.1 e he), h'.2 ∘ h.2⟩

theorem IdentifiesBy.rely {β : Type} {f : Version → β} {w w' : World} {effect : StorageOp.Effect}
    (h : w.store.IdentifiesBy f effect) {server : Bool} (heq : w'.store = w.store.apply effect server) :
    (identifiedByRely f).rel w w' := by
  refine ⟨fun e he => ?_, fun hw => ?_⟩
  · rw [heq]
    exact w.store.history_subset_apply effect server he
  · rw [heq]
    exact IdentifiedBy.apply h server hw

/-- Nothing is forgotten, and versions stay identified. -/
def identifiedRely : Rely World where
  rel := fun w w' => (∀ e ∈ w.store.history, e ∈ w'.store.history) ∧
    (w.store.Identified → w'.store.Identified)
  refl := fun _ => ⟨fun _ he => he, id⟩
  trans := fun h h' => ⟨fun e he => h'.1 e (h.1 e he), h'.2 ∘ h.2⟩

end Store

namespace Semantics

variable {S : Semantics} {w w' : World}

/-- Every version the backend may store keeps the promise. -/
def NoReturn (S : Semantics) : Prop := ∀ s effect, S.admissible s effect → Store.NoReturn s effect

theorem NoReturn.step (hS : S.NoReturn) {o : Op} {r : o.Res} (h : S.Step w o r w') :
    Store.Later w.store w'.store := by
  rcases h.store_effect with heq | ⟨effect, hadm, heq⟩
  · rw [heq]
    exact Store.Later.refl w.store
  · rw [heq]
    exact (hS _ _ hadm).later true

theorem NoReturn.env (hS : S.NoReturn) {server : Bool} (h : S.Env server w w') :
    Store.Later w.store w'.store := by
  rcases h with heq | ⟨effect, hadm, heq⟩
  · rw [heq]
    exact Store.Later.refl w.store
  · rw [heq]
    exact (hS _ _ hadm).later server

/-- Every version the backend may store keeps the bytes identified by their tag. -/
def IdentifiesBytes (S : Semantics) : Prop :=
  ∀ s effect, S.admissible s effect → Store.IdentifiesBy Version.bytes s effect

/-- Every version the backend may store keeps versions identified. -/
def IdentifiesVersions (S : Semantics) : Prop :=
  ∀ s effect, S.admissible s effect → Store.Identifies s effect

theorem IdentifiesVersions.step (hS : S.IdentifiesVersions) {o : Op} {r : o.Res}
    (h : S.Step w o r w') : Store.identifiedRely.rel w w' := by
  rcases h.store_effect with heq | ⟨effect, hadm, heq⟩
  · simp only [Store.identifiedRely, heq]
    exact Store.identifiedRely.refl w
  · exact (hS _ _ hadm).rely heq

theorem IdentifiesVersions.env (hS : S.IdentifiesVersions) {server : Bool}
    (h : S.Env server w w') : Store.identifiedRely.rel w w' := by
  rcases h with heq | ⟨effect, hadm, heq⟩
  · simp only [Store.identifiedRely, heq]
    exact Store.identifiedRely.refl w
  · exact (hS _ _ hadm).rely heq

theorem IdentifiesBytes.step (hS : S.IdentifiesBytes) {o : Op} {r : o.Res} (h : S.Step w o r w') :
    (Store.identifiedByRely Version.bytes).rel w w' := by
  rcases h.store_effect with heq | ⟨effect, hadm, heq⟩
  · simp only [Store.identifiedByRely, heq]
    exact (Store.identifiedByRely Version.bytes).refl w
  · exact (hS _ _ hadm).rely heq

theorem IdentifiesBytes.env (hS : S.IdentifiesBytes) {server : Bool} (h : S.Env server w w') :
    (Store.identifiedByRely Version.bytes).rel w w' := by
  rcases h with heq | ⟨effect, hadm, heq⟩
  · simp only [Store.identifiedByRely, heq]
    exact (Store.identifiedByRely Version.bytes).refl w
  · exact (hS _ _ hadm).rely heq

end Semantics
