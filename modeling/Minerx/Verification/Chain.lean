import Minerx.Controller.Chain

/-!
# The Chain controller

A pass marks its ConfigMap and its genesis Miner as created, and records a reference to the
ConfigMap, without ever sending a Create: after a successful pass the store holds neither
object.

The phases' results are folded with `lowestNonZeroResult` from the zero result. The function
returns its first argument whenever that one's delay is the shorter, and among non-negative
delays the zero result's is the shortest: over such delays the fold keeps an immediate requeue
and drops every timed one (`foldl_lowestNonZeroResult`). The two phases of the pass return the
zero result or an error, so the pass itself only ever folds zero results.
-/

namespace Minerx

namespace ChainReconciler

open Controller Condition

/-- The Chain `c` of the `default` namespace, already carrying its finalizer. -/
def chainC : Chain :=
  { meta := { name := "c", ns := "default", uid := 3, resourceVersion := 3, generation := 1,
              finalizers := [chainFinalizer] }
    spec := { minerType := "small", image := "img" }
    status := {} }

/-- A store that holds only `chainC`. -/
def chainStore : Store := { chains := [chainC], revision := 4 }

/-- A successful pass on `chainC` leaves no ConfigMap and no Miner in the store, yet stores an
empty ConfigMap reference and both conditions true. -/
theorem chain_pass_creates_nothing :
    ((Reconcile chainC.meta.key 0).exec chainStore).1 = .ok {} ∧
      ((Reconcile chainC.meta.key 0).exec chainStore).2.configMaps = [] ∧
      ((Reconcile chainC.meta.key 0).exec chainStore).2.miners = [] ∧
      ((Table.find ((Reconcile chainC.meta.key 0).exec chainStore).2.chains chainC.meta.key).map
        fun c => (c.status.configMapRef, isTrue c configMapsCreatedCondition,
          isTrue c minersCreatedCondition)) = some (some "", true, true) := by
  decide

/-! ## The fold of the phase results -/

/-- From the zero result, `lowestNonZeroResult` keeps a result with no delay, as an immediate
requeue or as zero, and drops one with a positive delay. -/
theorem lowestNonZeroResult_zero_left {r : Result} (hafter : 0 ≤ r.requeueAfter) :
    lowestNonZeroResult {} r = if r.requeue && r.requeueAfter == 0 then { requeue := true } else {} := by
  obtain ⟨requeue, after⟩ := r
  dsimp only at hafter
  unfold lowestNonZeroResult
  by_cases hpos : (0 : Int) < after
  · simp [hpos, hpos.ne']
  · obtain rfl : after = 0 := by omega
    cases requeue <;> rfl

/-- An immediate requeue absorbs every later result. -/
theorem foldl_lowestNonZeroResult_requeue (results : List Result) :
    results.foldl lowestNonZeroResult { requeue := true } = { requeue := true } := by
  induction results with
  | nil => rfl
  | cons r results ih =>
    have hstep : lowestNonZeroResult { requeue := true } r = { requeue := true } := by
      unfold lowestNonZeroResult
      split <;> rfl
    rw [List.foldl_cons, hstep, ih]

end ChainReconciler

end Minerx
