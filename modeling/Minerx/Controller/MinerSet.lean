import Minerx.Prog

/-!
# The MinerSet controller

`internal/controller/minerset_controller.go`. A pass reads the MinerSet and, unless it is being
deleted, makes sure its finalizer is present, lists the Miners of its namespace that match its
selector, drops those controlled by another owner and adopts the orphans, creates or deletes
Miners to meet the replica count, and writes the status it counts from the filtered list.

A Go function that takes a `*MinerSet` and changes it returns the changed object beside its
result here, as the pointer carries it back to the caller. The conditions and the chain label
set on the MinerSet stay in memory until the status write, which keeps only the status.
-/

namespace Minerx

namespace Controller

def minerSetFinalizer : String := "minerset.onex.io/finalizer"
def minerSetNameLabel : String := "minerset.onex.io/name"
def chainNameLabel : String := "chain.onex.io/name"
/-- `stateConfirmationTimeout`, 10 s. -/
def stateConfirmationTimeout : Nat := 10000
/-- `stateConfirmationInterval`, 100 ms. -/
def stateConfirmationInterval : Nat := 100
/-- The kind of `msKind`. -/
def msKind : String := "MinerSet"

end Controller

namespace MinerSetReconciler

open Controller Condition
open Prog (perform pollUntilContextTimeout)

/-- `shouldExcludeMiner`: the Miner has a controller, and it is not `ms`. -/
def shouldExcludeMiner (ms : MinerSet) (miner : Miner) : Bool :=
  miner.meta.getControllerOf.isSome && !miner.meta.isControlledBy ms.meta

/-- `adoptOrphan`: a merge patch whose owner references end with a controller reference to `ms`. -/
def adoptOrphan (ms : MinerSet) (miner : Miner) : Prog (Except Error Miner) :=
  perform (.patchMiner miner.meta.key (miner.meta.ownerReferences ++ [newControllerRef ms.meta msKind]))

/-- The loop of `reconcile` that builds `filteredMiners`: Miners controlled by another owner are
skipped, orphans are adopted (and skipped when the adoption fails), the rest are kept. -/
def filterMiners (ms : MinerSet) : List Miner → Prog (List Miner)
  | [] => pure []
  | miner :: miners =>
    if shouldExcludeMiner ms miner then filterMiners ms miners
    else if miner.meta.getControllerOf.isNone then do
      match ← adoptOrphan ms miner with
      | .error _ => filterMiners ms miners
      | .ok adopted => return adopted :: (← filterMiners ms miners)
    else return miner :: (← filterMiners ms miners)

/-- `computeDesiredMiner`: a Miner from the template, labelled with the MinerSet and chain names,
carrying the MinerSet finalizer and one controller reference to `ms`. -/
def computeDesiredMiner (ms : MinerSet) (existingMiner : Option Miner) : Miner :=
  let minerLabels := (ms.spec.template.labels.set minerSetNameLabel ms.meta.name).set
    chainNameLabel ms.spec.template.spec.chainName
  let miner : Miner :=
    { meta := { generateName := ms.meta.name ++ "-", ns := ms.meta.ns, labels := minerLabels,
                annotations := ms.spec.template.annotations, finalizers := [minerSetFinalizer] }
      spec := ms.spec.template.spec
      status := {} }
  match existingMiner with
  | some existing =>
    { miner with meta := { miner.meta with name := existing.meta.name, uid := existing.meta.uid,
                                           ownerReferences := [newControllerRef ms.meta msKind] } }
  | none => { miner with meta := { miner.meta with ownerReferences := [newControllerRef ms.meta msKind] } }

/-- `getMinersToDelete`: all Miners when `count` reaches the length, else the slice of `count`
from the front, or from the back for `Oldest`; `none` where a slice would panic. -/
def getMinersToDelete (ms : MinerSet) (miners : List Miner) (count : Int) : Option (List Miner) :=
  if count ≥ miners.length then some miners
  else if ms.spec.deletePolicy = deletePolicyNewest then goSlice miners 0 count
  else if ms.spec.deletePolicy = deletePolicyOldest then
    goSlice miners (miners.length - count) miners.length
  else goSlice miners 0 count

/-- `deleteMiners`: Miners already marked are skipped; a Miner already gone is no error. -/
def deleteMiners : List Miner → Prog (Except Error Unit)
  | [] => pure (.ok ())
  | miner :: miners =>
    if miner.meta.deletionTimestamp.isSome then deleteMiners miners
    else do
      match ← perform (.deleteMiner miner.meta.key) with
      | .error e => if e = .notFound then deleteMiners miners else pure (.error e)
      | .ok () => deleteMiners miners

/-- `waitForMinerCreation`: poll until a `Get` of the created Miner finds it. -/
def waitForMinerCreation (miner : Miner) : Prog (Except Error Unit) :=
  pollUntilContextTimeout stateConfirmationInterval stateConfirmationTimeout do
    match ← perform (.getMiner miner.meta.key) with
    | .error .notFound => pure (.ok false)
    | .error e => pure (.error e)
    | .ok _ => pure (.ok true)

/-- `createMiners`: `count` times, create a Miner from the template and wait until it is seen. -/
def createMiners (ms : MinerSet) : Nat → Prog (Except Error Unit)
  | 0 => pure (.ok ())
  | count + 1 => do
    match ← perform (.createMiner (computeDesiredMiner ms none)) with
    | .error e => pure (.error e)
    | .ok miner =>
      match ← waitForMinerCreation miner with
      | .error e => pure (.error e)
      | .ok () => createMiners ms count

/-- `syncReplicas`: compare the filtered Miners with the desired count, then create the deficit
or delete the surplus, and record it in the conditions. -/
def syncReplicas (ms : MinerSet) (miners : List Miner) (now : Nat) :
    Prog (MinerSet × Except Error Result) :=
  match ms.spec.replicas with
  | none => pure (ms, .error (.invalid "Replicas field in MinerSet spec is nil"))
  | some replicas =>
    let diff : Int := miners.length - replicas
    if diff < 0 then do
      match ← createMiners ms (-diff).toNat with
      | .error e => pure (ms, .error e)
      | .ok () =>
        let ms := setFalse (setTrue ms minersCreatedCondition now) resizedCondition creatingReason
          "Creating miners" now
        pure (ms, .ok { requeueAfter := 15000 })
    else if 0 < diff then
      match getMinersToDelete ms miners diff with
      | none => pure (ms, .error (.invalid "runtime error: slice bounds out of range"))
      | some minersToDelete => do
        match ← deleteMiners minersToDelete with
        | .error e => pure (ms, .error e)
        | .ok () =>
          let ms := setFalse (setTrue ms minersCreatedCondition now) resizedCondition deletingReason
            "Deleting miners" now
          pure (ms, .ok { requeueAfter := 15000 })
    else
      pure (setTrue (setTrue ms minersCreatedCondition now) resizedCondition now,
        .ok { requeueAfter := 15000 })

/-- The counters of `updateStatus`. -/
structure ReplicaCounts where
  fullyLabeled : Nat := 0
  ready : Nat := 0
  available : Nat := 0
deriving DecidableEq, Repr

/-- The loop of `updateStatus`: a Miner is fully labeled when the template labels select it,
ready when Running, and available when also observed at its own generation. -/
def countReplicas (templateLabel : Labels) : List Miner → ReplicaCounts → ReplicaCounts
  | [], acc => acc
  | miner :: miners, acc =>
    let acc := if Labels.selectorMatches templateLabel miner.meta.labels
      then { acc with fullyLabeled := acc.fullyLabeled + 1 } else acc
    let acc := if miner.status.phase = some .running then
        { acc with ready := acc.ready + 1,
                   available := if miner.status.observedGeneration = miner.meta.generation
                     then acc.available + 1 else acc.available }
      else acc
    countReplicas templateLabel miners acc

/-- `updateStatus`: the counts, `MinersReady`, and a status write. -/
def updateStatus (ms : MinerSet) (miners : List Miner) (now : Nat) :
    Prog (MinerSet × Except Error Unit) := do
  let counts := countReplicas ms.spec.template.labels miners {}
  let ms : MinerSet :=
    { ms with status := { ms.status with
        replicas := int32 miners.length, fullyLabeledReplicas := int32 counts.fullyLabeled,
        readyReplicas := int32 counts.ready, availableReplicas := int32 counts.available } }
  let ms := if ms.status.readyReplicas = ms.status.replicas then setTrue ms minersReadyCondition now
    else setFalse ms minersReadyCondition unavailableReason "Not all miners are ready" now
  match ← perform (.updateMinerSetStatus ms) with
  | .error e => pure (ms, .error e)
  | .ok ms => pure (ms, .ok ())

/-- `reconcileDelete`: drop the finalizer; the Miners go by garbage collection. -/
def reconcileDelete (ms : MinerSet) : Prog (Except Error Result) :=
  if ms.meta.containsFinalizer minerSetFinalizer then do
    match ← perform (.updateMinerSet { ms with meta := ms.meta.removeFinalizer minerSetFinalizer }) with
    | .error e => pure (.error e)
    | .ok _ => pure (.ok {})
  else pure (.ok {})

/-- The finalizer block of `reconcile`: an `Update` adds the finalizer when it is missing. -/
def ensureFinalizer (ms : MinerSet) : Prog (Except Error MinerSet) :=
  if ms.meta.containsFinalizer minerSetFinalizer then pure (.ok ms)
  else perform (.updateMinerSet { ms with meta := ms.meta.addFinalizer minerSetFinalizer })

/-- `reconcile`, after the finalizer block. -/
def reconcileMiners (ms : MinerSet) (now : Nat) : Prog (Except Error Result) :=
  let ms : MinerSet :=
    { ms with meta := { ms.meta with
        labels := ms.meta.labels.set chainNameLabel ms.spec.template.spec.chainName } }
  match labelSelectorAsMap ms.spec.selector with
  | .error message => pure (.error (.invalid message))
  | .ok selectorMap => do
    match ← perform (.listMiners ms.meta.ns selectorMap) with
    | .error e => pure (.error e)
    | .ok allMiners =>
      let filteredMiners ← filterMiners ms allMiners
      match ← syncReplicas ms filteredMiners now with
      | (_, .error e) => pure (.error e)
      | (ms, .ok result) =>
        match ← updateStatus ms filteredMiners now with
        | (_, .error e) => pure (.error e)
        | (_, .ok ()) => pure (.ok result)

def reconcile (ms : MinerSet) (now : Nat) : Prog (Except Error Result) := do
  match ← ensureFinalizer ms with
  | .error e => pure (.error e)
  | .ok ms => reconcileMiners ms now

/-- `Reconcile`: a pass for the MinerSet named by the request. -/
def Reconcile (req : ObjectKey) (now : Nat) : Prog (Except Error Result) := do
  match ← perform (.getMinerSet req) with
  | .error .notFound => pure (.ok {})
  | .error e => pure (.error e)
  | .ok ms => if ms.meta.deletionTimestamp.isSome then reconcileDelete ms else reconcile ms now

end MinerSetReconciler

end Minerx
