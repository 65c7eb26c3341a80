import Minerx.Controller.Miner
import Minerx.Controller.MinerSet

/-!
# What the status says

`updateStatus` writes, for the filtered Miners, their number and three counts: the Miners the
template labels select, the running ones, and the running ones whose `observedGeneration` is
their generation. The counting loop adds exactly the Miners of the list that pass each test
(`countReplicas_eq`), so the written status is ordered and `MinersReady` is true exactly when
every Miner runs (`updateStatus_writes`).

A list of Miners that all run at their observed generation is therefore all available. But
neither the Miner nor the MinerSet controller ever writes `observedGeneration`, so it stays zero
while the generation is at least one, and no Miner is ever available.
-/

namespace Minerx

open Controller Condition Prog

namespace MinerSetReconciler

/-- The loop of `updateStatus` adds to each counter the Miners of the list that satisfy its test. -/
theorem countReplicas_eq (templateLabel : Labels) (miners : List Miner) (acc : ReplicaCounts) :
    countReplicas templateLabel miners acc =
      { fullyLabeled := acc.fullyLabeled +
          (miners.filter fun m => Labels.selectorMatches templateLabel m.meta.labels).length
        ready := acc.ready + (miners.filter fun m => m.status.phase = some .running).length
        available := acc.available + (miners.filter fun m => m.status.phase = some .running ∧
          m.status.observedGeneration = m.meta.generation).length } := by
  induction miners generalizing acc with
  | nil => simp [countReplicas]
  | cons m miners ih =>
    rw [countReplicas, ih]
    by_cases hl : Labels.selectorMatches templateLabel m.meta.labels <;>
      by_cases hr : m.status.phase = some .running <;>
      by_cases ho : m.status.observedGeneration = m.meta.generation <;>
      simp [hl, hr, ho, List.filter_cons] <;> omega

/-- When every filtered Miner runs at its observed generation, all of them are available. -/
theorem countReplicas_available_eq_ready (templateLabel : Labels) (miners : List Miner)
    (h : ∀ m ∈ miners, m.status.phase = some .running ∧
      m.status.observedGeneration = m.meta.generation) :
    (countReplicas templateLabel miners {}).available = (countReplicas templateLabel miners {}).ready := by
  rw [countReplicas_eq]
  simp only [Nat.zero_add]
  rw [List.filter_eq_self.mpr fun m hm => by simpa using h m hm,
    List.filter_eq_self.mpr fun m hm => by simpa using (h m hm).1]

/-- The counts of `updateStatus` are ordered: available ones are ready, and no count exceeds the
list. -/
theorem countReplicas_le (templateLabel : Labels) (miners : List Miner) :
    (countReplicas templateLabel miners {}).available ≤ (countReplicas templateLabel miners {}).ready ∧
      (countReplicas templateLabel miners {}).ready ≤ miners.length ∧
      (countReplicas templateLabel miners {}).fullyLabeled ≤ miners.length := by
  simp only [countReplicas_eq, Nat.zero_add]
  refine ⟨?_, List.length_filter_le _ _, List.length_filter_le _ _⟩
  have h : (miners.filter fun m => m.status.phase = some .running ∧
      m.status.observedGeneration = m.meta.generation) =
      (miners.filter fun m => m.status.phase = some .running).filter
        fun m => m.status.observedGeneration = m.meta.generation := by
    rw [List.filter_filter]
    exact List.filter_congr fun m _ => by simp [Bool.and_comm]
  rw [h]
  exact List.length_filter_le _ _

/-- The status that a write of `updateStatus` for the filtered list `miners` carries: the length
and the three counts of the list, in their order, and `MinersReady` true exactly when every Miner
is ready, else false with reason `Unavailable`. -/
structure StatusOf (ms : MinerSet) (miners : List Miner) (written : MinerSet) : Prop where
  replicas : written.status.replicas = miners.length
  fullyLabeled : written.status.fullyLabeledReplicas =
    (miners.filter fun m => Labels.selectorMatches ms.spec.template.labels m.meta.labels).length
  ready : written.status.readyReplicas = (miners.filter fun m => m.status.phase = some .running).length
  available : written.status.availableReplicas = (miners.filter fun m =>
    m.status.phase = some .running ∧ m.status.observedGeneration = m.meta.generation).length
  available_nonneg : 0 ≤ written.status.availableReplicas
  available_le_ready : written.status.availableReplicas ≤ written.status.readyReplicas
  ready_le_replicas : written.status.readyReplicas ≤ written.status.replicas
  fullyLabeled_le_replicas : written.status.fullyLabeledReplicas ≤ written.status.replicas
  minersReady : ∃ c, get written minersReadyCondition = some c ∧
    if written.status.readyReplicas = written.status.replicas then c.status = .conditionTrue
    else c.status = .conditionFalse ∧ c.reason = unavailableReason

/-- For every filtered list shorter than `2 ^ 31`, the first call of `updateStatus` writes the
status of the list. -/
theorem updateStatus_writes (ms : MinerSet) (miners : List Miner) (now : Nat)
    (hlen : miners.length < 2 ^ 31) :
    ∃ written k, updateStatus ms miners now = .call (.updateMinerSetStatus written) k ∧
      StatusOf ms miners written := by
  obtain ⟨hav, hrd, hfl⟩ := countReplicas_le ms.spec.template.labels miners
  have hc := countReplicas_eq ms.spec.template.labels miners {}
  unfold updateStatus
  generalize countReplicas ms.spec.template.labels miners {} = counts at hav hrd hfl hc ⊢
  obtain ⟨hF, hR, hA⟩ : counts.fullyLabeled = _ ∧ counts.ready = _ ∧ counts.available = _ := by
    subst hc; exact ⟨Nat.zero_add _, Nat.zero_add _, Nat.zero_add _⟩
  refine ⟨_, _, rfl, ?_⟩
  dsimp only
  rw [int32_of_lt hlen, int32_of_lt (hrd.trans_lt hlen), int32_of_lt (hfl.trans_lt hlen),
    int32_of_lt ((hav.trans hrd).trans_lt hlen)]
  by_cases hready : (counts.ready : Int) = miners.length
  · rw [if_pos hready]
    exact ⟨rfl, congrArg _ hF, congrArg _ hR, congrArg _ hA, Int.ofNat_zero_le _,
      Int.ofNat_le.mpr hav, Int.ofNat_le.mpr hrd, Int.ofNat_le.mpr hfl,
      (get_set_self _ _).imp fun _ h => ⟨h.1, by simpa [setTrue, hready] using h.2.1⟩⟩
  · rw [if_neg hready]
    exact ⟨rfl, congrArg _ hF, congrArg _ hR, congrArg _ hA, Int.ofNat_zero_le _,
      Int.ofNat_le.mpr hav, Int.ofNat_le.mpr hrd, Int.ofNat_le.mpr hfl,
      (get_set_self _ _).imp fun _ h => ⟨h.1, by simpa [setFalse, hready] using ⟨h.2.1, h.2.2.1⟩⟩⟩

/-- A MinerSet of one replica selecting `app=miner`. -/
def setA : MinerSet :=
  { meta := { name := "ms", ns := "default", uid := 1, resourceVersion := 1, generation := 1,
              finalizers := [minerSetFinalizer] }
    spec := { replicas := some 1, selector := { matchLabels := [("app", "miner")] },
              template := { labels := [("app", "miner")] } }
    status := {} }

/-- A running Miner of `setA`, at generation one. -/
def minerA : Miner :=
  { meta := { name := "ms-1", ns := "default", uid := 2, resourceVersion := 2, generation := 1,
              labels := [("app", "miner")], ownerReferences := [newControllerRef setA.meta msKind],
              finalizers := [minerSetFinalizer, minerFinalizer] }
    spec := {}
    status := { phase := some .running } }

/-- The ready Pod of `minerA`. -/
def podA : Pod :=
  { meta := { name := "ms-1", ns := "default", uid := 3, resourceVersion := 3 }
    spec := {}
    status := { phase := some .running, conditions := [{ type := "Ready", status := .conditionTrue }] } }

theorem updateStatus_writes_setA :
    [minerA].length < 2 ^ 31 ∧
      ∃ written k, updateStatus setA [minerA] 0 = .call (.updateMinerSetStatus written) k ∧
        StatusOf setA [minerA] written :=
  ⟨by decide, updateStatus_writes setA [minerA] 0 (by decide)⟩

/-- The store after a pass of the Miner controller on `minerA`, then one of the MinerSet
controller on `setA`. -/
def availabilityRun : Store :=
  let s := ((MinerReconciler.Reconcile minerA.meta.key 0).exec
    { minerSets := [setA], miners := [minerA], pods := [podA], revision := 4 }).2
  ((Reconcile setA.meta.key 0).exec s).2

/-- After both passes neither object has its generation observed, and the running, ready Miner
is counted ready but not available. -/
theorem observedGeneration_never_written :
    ((Table.find availabilityRun.miners minerA.meta.key).map
      fun m => (m.status.phase, m.status.observedGeneration, m.meta.generation)) =
        some (some .running, 0, 1) ∧
    ((Table.find availabilityRun.minerSets setA.meta.key).map
      fun ms => (ms.status.observedGeneration, ms.status.readyReplicas, ms.status.availableReplicas)) =
        some (0, 1, 0) := by
  decide

end MinerSetReconciler

end Minerx
