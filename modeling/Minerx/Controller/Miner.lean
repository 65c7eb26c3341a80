import Minerx.Prog

/-!
# The Miner controller

`MinerReconciler` (`miner_controller.go`). A pass reads the Miner. On the delete path it marks
`PodHealthy` false and writes the status, deletes the Pod named after the Miner with a bounded
poll, and drops its finalizer. Otherwise it adds its finalizer, creates the Pod when there is
none, derives the phase from the Pod, and writes the status.

A Go function that takes a `*Miner` and changes it returns the changed object beside its result
here. Conditions set on that object reach the store only through a later status write.
-/

namespace Minerx

namespace Controller

def minerFinalizer : String := "miner.onex.io/finalizer"
/-- `defaultPodTimeout`, 10 s. -/
def defaultPodTimeout : Nat := 10000
/-- The interval of the Pod deletion poll, 2 s. -/
def podDeletionInterval : Nat := 2000

end Controller

namespace MinerReconciler

open Controller Condition
open Prog (perform pollUntilContextTimeout)

/-- `createPodSpec`: the image follows the miner type, with `busybox` for any other type; the
Miner's labels override the defaults; an empty restart policy becomes `Always`. -/
def createPodSpec (miner : Miner) : Pod :=
  let image :=
    if miner.spec.minerType = "small" then "nginx:alpine"
    else if miner.spec.minerType = "medium" then "nginx"
    else if miner.spec.minerType = "large" then "redis:alpine"
    else "busybox"
  let labels : Labels := miner.meta.labels ++
    [("app", "miner"), ("miner.onex.io/name", miner.meta.name),
     ("chain.onex.io/name", miner.spec.chainName)]
  let pod : Pod :=
    { meta := { name := miner.meta.name, ns := miner.meta.ns, labels,
                annotations := [("miner.onex.io/name", miner.meta.name)],
                ownerReferences := [{ kind := "Miner", name := miner.meta.name, uid := miner.meta.uid,
                                      controller := true, blockOwnerDeletion := true }] }
      spec := { containers := [{ name := "miner", image, command := ["sh", "-c", "sleep 3600"] }],
                restartPolicy := miner.spec.restartPolicy }
      status := {} }
  if pod.spec.restartPolicy = "" then { pod with spec := { pod.spec with restartPolicy := "Always" } }
  else pod

@[simp] theorem key_createPodSpec (miner : Miner) : (createPodSpec miner).meta.key = miner.meta.key := by
  dsimp only [createPodSpec]
  split_ifs <;> rfl

/-- `isPodReady`: the Pod has a `Ready` condition that is true. -/
def isPodReady (pod : Pod) : Bool :=
  pod.status.conditions.any fun c => c.type = "Ready" && c.status = .conditionTrue

/-- The switch of `syncPodStatus` on the phase of a Pod that exists. -/
def podPhaseStatus (miner : Miner) (pod : Pod) (now : Nat) : Miner :=
  match pod.status.phase with
  | some .running =>
    if isPodReady pod then
      let miner := { miner with status := { miner.status with phase := some .running } }
      let miner := setTrue (setTrue miner minerPodHealthyCondition now) bootstrapReadyCondition now
      { miner with status := { miner.status with addresses := pod.status.podIPs } }
    else
      setFalse { miner with status := { miner.status with phase := some .provisioning } }
        minerPodHealthyCondition provisioningReason "Pod is not ready yet" now
  | some .pending =>
    setFalse { miner with status := { miner.status with phase := some .provisioning } }
      minerPodHealthyCondition provisioningReason "Pod is pending" now
  | some .failed =>
    let miner := setFalse { miner with status := { miner.status with phase := some .failed } }
      minerPodHealthyCondition failedReason "Pod failed" now
    let reason := if pod.status.message = "" then "Pod failed" else pod.status.message
    { miner with status := { miner.status with failureReason := some reason } }
  | _ => miner

/-- `syncPodStatus`: Pending with `PodNotFound` when the Get finds no Pod, else the switch above. -/
def syncPodStatus (miner : Miner) (now : Nat) : Prog (Miner × Except Error Unit) := do
  match ← perform (.getPod miner.meta.key) with
  | .error .notFound =>
    let miner := { miner with status := { miner.status with phase := some .pending } }
    pure (setFalse miner minerPodHealthyCondition podNotFoundReason "Pod not found" now, .ok ())
  | .error e => pure (miner, .error e)
  | .ok pod => pure (podPhaseStatus miner pod now, .ok ())

/-- `reconcilePod`: create the Pod when there is none. A failed create is recorded in
`InfrastructureReady` on the in-memory Miner only. -/
def reconcilePod (miner : Miner) (now : Nat) : Prog (Miner × Except Error Unit) := do
  match ← perform (.getPod miner.meta.key) with
  | .ok _ => pure (miner, .ok ())
  | .error e =>
    if e ≠ .notFound then pure (miner, .error e)
    else do
      match ← perform (.createPod (createPodSpec miner)) with
      | .error e =>
        pure (setFalse miner infrastructureReadyCondition failedReason
          ("Failed to create pod: " ++ reprStr e) now, .error e)
      | .ok desiredPod =>
        let miner := { miner with status := { miner.status with
          podRef := some ⟨desiredPod.meta.ns, desiredPod.meta.name, desiredPod.meta.uid⟩ } }
        pure (setTrue miner infrastructureReadyCondition now, .ok ())

/-- The condition of the Pod deletion poll: done when the `Delete` succeeds or finds nothing. -/
def deletePodAttempt (pod : Pod) : Prog (Except Error Bool) := do
  match ← perform (.deletePod pod.meta.key) with
  | .error .notFound => pure (.ok true)
  | .error _ => pure (.ok false)
  | .ok () => pure (.ok true)

/-- The finalizer block at the end of `reconcileDelete`. -/
def removeMinerFinalizer (miner : Miner) : Prog (Miner × Except Error Result) :=
  if miner.meta.containsFinalizer minerFinalizer then do
    let miner := { miner with meta := miner.meta.removeFinalizer minerFinalizer }
    match ← perform (.updateMiner miner) with
    | .error e => pure (miner, .error e)
    | .ok miner => pure (miner, .ok {})
  else pure (miner, .ok {})

/-- `reconcileDelete`. The phase is left as it is. A timed-out poll is recorded in
`PodHealthy` on the in-memory Miner only. -/
def reconcileDelete (miner : Miner) (now : Nat) : Prog (Miner × Except Error Result) := do
  let miner := setFalse miner minerPodHealthyCondition deletingReason "Deleting pod" now
  match ← perform (.updateMinerStatus miner) with
  | .error e => pure (miner, .error e)
  | .ok miner =>
    match ← perform (.getPod miner.meta.key) with
    | .error .notFound => removeMinerFinalizer miner
    | .error e => pure (miner, .error e)
    | .ok pod =>
      let timeout := miner.spec.podDeletionTimeout.getD defaultPodTimeout
      match ← pollUntilContextTimeout podDeletionInterval timeout (deletePodAttempt pod) with
      | .error e =>
        pure (setFalse miner minerPodHealthyCondition minerDeletionFailedReason
          "Failed to delete pod" now, .error e)
      | .ok () => removeMinerFinalizer miner

/-- The finalizer block at the top of `reconcile`. -/
def ensureFinalizer (miner : Miner) : Prog (Except Error Miner) :=
  if miner.meta.containsFinalizer minerFinalizer then pure (.ok miner)
  else perform (.updateMiner { miner with meta := miner.meta.addFinalizer minerFinalizer })

/-- `reconcile`, after the finalizer block. -/
def reconcileStatus (miner : Miner) (now : Nat) : Prog (Miner × Except Error Result) := do
  match ← reconcilePod miner now with
  | (miner, .error e) => pure (miner, .error e)
  | (miner, .ok ()) =>
    let miner := if miner.status.phase = none
      then { miner with status := { miner.status with phase := some .provisioning } } else miner
    match ← syncPodStatus miner now with
    | (miner, .error e) => pure (miner, .error e)
    | (miner, .ok ()) =>
      let miner := { miner with status := { miner.status with lastUpdated := some now } }
      match ← perform (.updateMinerStatus miner) with
      | .error e => pure (miner, .error e)
      | .ok miner => pure (miner, .ok { requeueAfter := 10000 })

def reconcile (miner : Miner) (now : Nat) : Prog (Miner × Except Error Result) := do
  match ← ensureFinalizer miner with
  | .error e => pure (miner, .error e)
  | .ok miner => reconcileStatus miner now

/-- `Reconcile`: a pass for the Miner named by the request. -/
def Reconcile (req : ObjectKey) (now : Nat) : Prog (Except Error Result) := do
  match ← perform (.getMiner req) with
  | .error .notFound => pure (.ok {})
  | .error e => pure (.error e)
  | .ok miner =>
    if miner.meta.deletionTimestamp.isSome then Prod.snd <$> reconcileDelete miner now
    else Prod.snd <$> reconcile miner now

end MinerReconciler

end Minerx
