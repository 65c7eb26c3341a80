import Minerx.Api
import Mathlib.Data.List.Nodup

/-!
# The condition ledger as an ordered map

The ledgers that `condition.Set` builds from the empty list, directly or through `SetTrue`,
`SetFalse` and `SetUnknown`, hold every type at most once (`Built.nodup`). On such a ledger one
more `Set` acts as an ordered map (`SetLaws`): the types stay distinct, `Get` of the new type
agrees with the new condition, the entries of every other type stay as they were and in their
order, and the entry of the new type is appended when it was absent, otherwise replaced in place
exactly when its status, reason or message differs.

Because an entry that agrees is kept with its old transition time, `Set` is idempotent up to the
time on every ledger: a pass that asserts again a condition that has not changed writes back the
ledger it read.
-/

namespace Minerx

namespace Condition

/-- The ledgers that a sequence of `Set` calls builds from the empty list. -/
inductive Built : List Condition → Prop
  | nil : Built []
  | set {conditions : List Condition} (condition : Condition) :
      Built conditions → Built (setCondition conditions condition)

/-- What one `setCondition` of `condition` on the ledger `before` leaves in `after`. -/
structure SetLaws (before after : List Condition) (condition : Condition) : Prop where
  nodup : (after.map (·.type)).Nodup
  get : ∃ c, after.find? (·.type = condition.type) = some c ∧ Agrees c condition
  others : after.filter (·.type ≠ condition.type) = before.filter (·.type ≠ condition.type)
  length : after.length = before.length + 1 ↔ condition.type ∉ before.map (·.type)
  inPlace : ∀ i (hi : i < before.length), before[i].type = condition.type →
    after = before.set i (if Agrees before[i] condition then before[i] else condition)

/-- One `setCondition` keeps the types of a ledger distinct. -/
theorem nodup_setCondition {conditions : List Condition} (h : (conditions.map (·.type)).Nodup)
    (condition : Condition) : ((setCondition conditions condition).map (·.type)).Nodup := by
  rw [map_type_setCondition]
  split_ifs with hmem
  · exact h
  · exact List.nodup_append.mpr ⟨h, List.nodup_singleton _, List.disjoint_singleton.mpr hmem⟩

theorem Built.nodup {conditions : List Condition} (h : Built conditions) :
    (conditions.map (·.type)).Nodup := by
  induction h with
  | nil => exact List.nodup_nil
  | set condition _ ih => exact nodup_setCondition ih condition

theorem length_setCondition (conditions : List Condition) (condition : Condition) :
    (setCondition conditions condition).length =
      if condition.type ∈ conditions.map (·.type) then conditions.length
      else conditions.length + 1 := by
  rw [← List.length_map (setCondition conditions condition) (·.type), map_type_setCondition]
  split_ifs <;> simp

/-- `setCondition` on a ledger of distinct types is an ordered-map update. -/
theorem setLaws_setCondition {conditions : List Condition} (h : (conditions.map (·.type)).Nodup)
    (condition : Condition) : SetLaws conditions (setCondition conditions condition) condition where
  nodup := nodup_setCondition h condition
  get := (find?_setCondition_self conditions condition).imp fun _ hc => ⟨hc.1, hc.2.2⟩
  others := filter_setCondition conditions condition
  length := by rw [length_setCondition]; split_ifs with hmem <;> simp [hmem]
  inPlace _ hi ht := setCondition_eq_set h condition hi ht

/-- On an object whose ledger was built by `Set` calls, one more `Set` is an ordered-map update. -/
theorem set_on_built_ledger [Setter α] {obj : α} (h : Built (Getter.getConditions obj))
    (condition : Condition) :
    SetLaws (Getter.getConditions obj) (Getter.getConditions (set obj condition)) condition := by
  rw [getConditions_set]
  exact setLaws_setCondition h.nodup condition

/-- A Miner whose ledger holds `MinersReady`, then `PodHealthy`, set by the controllers' calls. -/
def ledgerMiner : Miner :=
  setFalse (setTrue ({ meta := { name := "m", ns := "default" }, spec := {}, status := {} } : Miner)
    readyCondition 1) minerPodHealthyCondition podNotFoundReason "Pod not found" 2

theorem set_on_built_ledger_ledgerMiner :
    Built (Getter.getConditions ledgerMiner) ∧
      SetLaws (Getter.getConditions ledgerMiner)
        (Getter.getConditions (set ledgerMiner (trueCondition readyCondition 3)))
        (trueCondition readyCondition 3) :=
  have h : Built (Getter.getConditions ledgerMiner) := .set _ (.set _ .nil)
  ⟨h, set_on_built_ledger h (trueCondition readyCondition 3)⟩

/-- `Set` is idempotent up to the transition time, on every ledger: setting a condition that
agrees in type, status, reason and message with the one just set leaves the ledger as the first
set left it, transition times included. -/
theorem set_set_of_agrees [Setter α] (obj : α) {c c' : Condition} (htype : c'.type = c.type)
    (hagree : Agrees c' c) :
    Getter.getConditions (set (set obj c) c') = Getter.getConditions (set obj c) := by
  rw [getConditions_set, getConditions_set]
  exact setCondition_setCondition_of_agrees _ htype hagree

theorem set_set_of_agrees_ledgerMiner :
    (trueCondition readyCondition 5).type = (trueCondition readyCondition 4).type ∧
      Agrees (trueCondition readyCondition 5) (trueCondition readyCondition 4) ∧
      Getter.getConditions (set (set ledgerMiner (trueCondition readyCondition 4))
          (trueCondition readyCondition 5)) =
        Getter.getConditions (set ledgerMiner (trueCondition readyCondition 4)) :=
  ⟨rfl, ⟨rfl, rfl, rfl⟩, set_set_of_agrees ledgerMiner rfl ⟨rfl, rfl, rfl⟩⟩

end Condition

end Minerx
