import Minerx.Prog

/-!
# The Chain controller

`ChainReconciler` (the second `chain_controller.go` of the sources; the first is an older copy of
the same type and is not modelled). A pass adds the finalizer and runs two phases, one for the
ConfigMap and one for the genesis Miner, folding their results with `lowestNonZeroResult`; then
it stamps `observedGeneration` and writes the status.

Each phase first lists the objects labelled with the Chain's name. When there is none it builds
the object with `createConfigMap` or `createMinerForChain`, records a reference to it and sets its
condition; neither builder calls the store.
-/

namespace Minerx

namespace Controller

def chainFinalizer : String := "chain.onex.io/finalizer"
def chainKind : String := "Chain"

end Controller

namespace ChainReconciler

open Controller Condition
open Prog (perform)

/-- `lowestNonZeroResult`. -/
def lowestNonZeroResult (a b : Result) : Result :=
  if a.requeueAfter < b.requeueAfter then a
  else if a.requeue then a
  else b

/-- `createConfigMap`: the ConfigMap object of the Chain. -/
def createConfigMap (chain : Chain) : Except Error ConfigMap :=
  .ok { meta := { generateName := chain.meta.name ++ "-", ns := chain.meta.ns,
                  labels := [("chain.onex.io/name", chain.meta.name)],
                  ownerReferences := [newControllerRef chain.meta chainKind] }
        spec := [("chainName", chain.meta.name), ("image", chain.spec.image)]
        status := () }

/-- `createMinerForChain`: the genesis Miner object of the Chain. -/
def createMinerForChain (chain : Chain) : Except Error Miner :=
  .ok { meta := { name := chain.meta.name, ns := chain.meta.ns,
                  labels := [("chain.onex.io/name", chain.meta.name)],
                  ownerReferences := [newControllerRef chain.meta chainKind] }
        spec := { chainName := chain.meta.name, minerType := chain.spec.minerType,
                  restartPolicy := "Always" }
        status := {} }

/-- `IsConfigMapReconciled`: some ConfigMap carries the Chain's label. -/
def isConfigMapReconciled (chain : Chain) : Prog (Except Error Bool) := do
  match ← perform (.listConfigMaps chain.meta.ns [("chain.onex.io/name", chain.meta.name)]) with
  | .error e => pure (.error e)
  | .ok items => pure (.ok (items.length ≠ 0))

/-- `IsMinerReconciled`: some Miner carries the Chain's label. -/
def isMinerReconciled (chain : Chain) : Prog (Except Error Bool) := do
  match ← perform (.listMiners chain.meta.ns [("chain.onex.io/name", chain.meta.name)]) with
  | .error e => pure (.error e)
  | .ok items => pure (.ok (items.length ≠ 0))

/-- `reconcileConfigMap`. -/
def reconcileConfigMap (chain : Chain) (now : Nat) : Prog (Chain × Except Error Result) := do
  match ← isConfigMapReconciled chain with
  | .error e => pure (chain, .error e)
  | .ok true => pure (chain, .ok {})
  | .ok false =>
    match createConfigMap chain with
    | .error e =>
      pure (setFalse chain configMapsCreatedCondition failedReason
        ("Failed to create ConfigMap: " ++ reprStr e) now, .error e)
    | .ok cm =>
      let chain := { chain with status := { chain.status with configMapRef := some cm.meta.name } }
      pure (setTrue chain configMapsCreatedCondition now, .ok {})

/-- `reconcileMiner`. -/
def reconcileMiner (chain : Chain) (now : Nat) : Prog (Chain × Except Error Result) := do
  match ← isMinerReconciled chain with
  | .error e => pure (chain, .error e)
  | .ok true => pure (chain, .ok {})
  | .ok false =>
    match createMinerForChain chain with
    | .error e =>
      pure (setFalse chain minersCreatedCondition failedReason
        ("Failed to create Miner: " ++ reprStr e) now, .error e)
    | .ok miner =>
      let chain := if chain.status.minerRef = none
        then { chain with status := { chain.status with minerRef := some miner.meta.name } } else chain
      pure (setTrue chain minersCreatedCondition now, .ok {})

/-- A phase of `reconcile`. -/
abbrev Phase := Chain → Nat → Prog (Chain × Except Error Result)

/-- The phases of `reconcile`, in order. -/
def phases : List Phase := [reconcileConfigMap, reconcileMiner]

/-- The loop of `reconcile` over the phases: the first error ends it, and the results are
folded with `lowestNonZeroResult`. -/
def runPhases : List Phase → Chain → Result → Nat → Prog (Chain × Except Error Result)
  | [], chain, result, _ => pure (chain, .ok result)
  | phase :: rest, chain, result, now => do
    match ← phase chain now with
    | (chain, .error e) => pure (chain, .error e)
    | (chain, .ok phaseResult) => runPhases rest chain (lowestNonZeroResult result phaseResult) now

/-- `reconcileDelete`: drop the finalizer; the owned objects go by garbage collection. -/
def reconcileDelete (chain : Chain) : Prog (Except Error Result) :=
  if chain.meta.containsFinalizer chainFinalizer then do
    match ← perform (.updateChain { chain with meta := chain.meta.removeFinalizer chainFinalizer }) with
    | .error e => pure (.error e)
    | .ok _ => pure (.ok {})
  else pure (.ok {})

/-- The finalizer block of `reconcile`. -/
def ensureFinalizer (chain : Chain) : Prog (Except Error Chain) :=
  if chain.meta.containsFinalizer chainFinalizer then pure (.ok chain)
  else perform (.updateChain { chain with meta := chain.meta.addFinalizer chainFinalizer })

def reconcile (chain : Chain) (now : Nat) : Prog (Except Error Result) := do
  match ← ensureFinalizer chain with
  | .error e => pure (.error e)
  | .ok chain =>
    match ← runPhases phases chain {} now with
    | (_, .error e) => pure (.error e)
    | (chain, .ok result) =>
      let chain := { chain with status := { chain.status with observedGeneration := chain.meta.generation } }
      match ← perform (.updateChainStatus chain) with
      | .error e => pure (.error e)
      | .ok _ => pure (.ok result)

/-- `Reconcile`: a pass for the Chain named by the request. -/
def Reconcile (req : ObjectKey) (now : Nat) : Prog (Except Error Result) := do
  match ← perform (.getChain req) with
  | .error .notFound => pure (.ok {})
  | .error e => pure (.error e)
  | .ok chain => if chain.meta.deletionTimestamp.isSome then reconcileDelete chain else reconcile chain now

end ChainReconciler

end Minerx
