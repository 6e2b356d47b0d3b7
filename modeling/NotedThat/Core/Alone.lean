-- SUMMARY: The world as a sequential machine: what each storage operation answers a request that runs alone.
import NotedThat.Core.Listing
import NotedThat.Core.World

/-!
# Running alone

A request that nobody interferes with meets the world as a machine that answers every operation
and never fails. The stamp of the one version such a request stores is an argument.
-/

namespace Program

variable {α σ : Type} {step : (o : Op) → σ → o.Res × σ} {o : StorageOp} {w : σ}
variable {k : Except StorageError o.Out → Program α}

theorem run_storage : (storage o >>= k).run step w =
    (k (step (.storage o) w).1).run step (step (.storage o) w).2 := rfl

theorem trace_storage : (storage o >>= k).trace step w =
    ⟨w, .storage o, (step (.storage o) w).1, (step (.storage o) w).2⟩ ::
      (k (step (.storage o) w).1).trace step (step (.storage o) w).2 := rfl

end Program

namespace World

variable (parseHttpDate : Text → Except String Nat) (stamp : Stamp)

/-- The machine a request runs on when it runs alone. -/
def alone (o : Op) (w : World) : o.Res × World := w.perform parseHttpDate stamp o

variable {parseHttpDate stamp} {w : World} {kb : KbSlug} {path : ObjectPath}

theorem alone_head_some {v : Version} (hv : w.get (kb, path) = some v) :
    alone parseHttpDate stamp (.storage (.head kb path {})) w =
      (.ok (v.objectMeta path v.size), w) := by
  simp [alone, perform, StorageOp.eval, hv]

theorem alone_head_none (hv : w.get (kb, path) = none) :
    alone parseHttpDate stamp (.storage (.head kb path {})) w = (.error (.notFound path.val), w) := by
  simp [alone, perform, StorageOp.eval, hv]

/-- A read without a range serves the whole version. -/
theorem alone_get {v : Version} (hv : w.get (kb, path) = some v) :
    alone parseHttpDate stamp (.storage (.get kb path none {})) w =
      (.ok ⟨v.bytes, v.objectMeta path v.size, none⟩, w) := by
  simp only [alone, perform, StorageOp.eval_get hv]
  rfl

theorem alone_list {pre : Option Text} {limit : Nat} {cursor : Option Text} :
    alone parseHttpDate stamp (.storage (.list kb pre limit cursor)) w =
      (.ok (StorageOp.listPage w.store.objects kb pre limit cursor), w) := rfl

/-- The operations that tell which objects there are, and not their bytes. -/
def Looks : Op → Prop
  | .storage (.head ..) => True
  | .storage (.list ..) => True
  | _ => False

theorem alone_looks {o : Op} (h : Looks o) : (alone parseHttpDate stamp o w).2 = w := by
  cases o with
  | storage o =>
    cases o with
    | head kb path c => simp [alone, perform]
    | list kb pre limit cursor => rfl
    | _ => exact h.elim
  | _ => exact h.elim

end World
