import Minerx.Controller.MinerSet
import Mathlib.Data.List.Nodup

/-!
# Scaling a MinerSet

What `syncReplicas` writes when every store call succeeds, whatever the filtered list, the
replica count (negative ones included) and the delete policy. The specification side is three
pure functions: `deletionBlock` is the run of the list a scale-down aims at, and `scaleCreates`
and `scaleDeletes` are the writes. `syncReplicas_ok_writes` shows that the reconciler writes
exactly these, and `DesiredMiner` says what each created Miner carries.

A scale-down counts the Miners that already carry a deletion marker in the surplus, but skips
them only inside the block it picked. Marked Miners outside the block therefore make a pass leave
fewer than the desired count unmarked; `syncReplicas_scale_down_unmarked` says exactly which
members stay.
-/

namespace Minerx

namespace MinerSetReconciler

open Controller Prog

/-! ## The store calls of the helpers -/

theorem okTrace_waitForMinerCreation {miner : Miner} {calls : List Call} {r : Except Error Unit}
    (h : OkTrace (waitForMinerCreation miner) calls r) :
    calls = [.getMiner miner.meta.key] ∧ r = .ok () := by
  have hn : pollAttempts stateConfirmationInterval stateConfirmationTimeout = 99 + 1 := rfl
  rw [waitForMinerCreation, pollUntilContextTimeout_pos _ (by decide), hn, poll] at h
  simp only [bind_assoc, perform_bind, call_bind, okTrace_call_iff] at h
  obtain ⟨v, rest, rfl, h⟩ := h
  simpa using h

theorem okTrace_deleteMiners {miners : List Miner} {calls : List Call} {r : Except Error Unit}
    (h : OkTrace (deleteMiners miners) calls r) :
    calls = (miners.filter (·.meta.deletionTimestamp.isNone)).map (.deleteMiner ·.meta.key) ∧
      r = .ok () := by
  induction miners generalizing calls with
  | nil => simpa [deleteMiners] using h
  | cons m miners ih =>
    cases hd : m.meta.deletionTimestamp with
    | some t =>
      simp only [deleteMiners, hd, Option.isSome_some, if_true] at h
      simpa [hd] using ih h
    | none =>
      simp only [deleteMiners, hd, Option.isSome_none, Bool.false_eq_true, if_false, perform_bind,
        okTrace_call_iff] at h
      obtain ⟨v, rest, rfl, h⟩ := h
      obtain ⟨rfl, rfl⟩ := ih h
      simp [hd]

theorem okTrace_createMiners {ms : MinerSet} {n : Nat} {calls : List Call} {r : Except Error Unit}
    (h : OkTrace (createMiners ms n) calls r) :
    calls.filter Call.isWrite = List.replicate n (.createMiner (computeDesiredMiner ms none)) ∧
      r = .ok () := by
  induction n generalizing calls with
  | zero =>
    simp only [createMiners, okTrace_pure_iff] at h
    simp [h]
  | succ n ih =>
    simp only [createMiners, perform_bind, okTrace_call_iff, okTrace_bind] at h
    obtain ⟨v, rest, rfl, calls₁, w, calls₂, rfl, hw, h⟩ := h
    obtain ⟨rfl, rfl⟩ := okTrace_waitForMinerCreation hw
    obtain ⟨hc, rfl⟩ := ih h
    simp [Call.isWrite, hc, List.replicate_succ]

/-! ## Which Miners a scale-down aims at -/

/-- The `n` Miners a scale-down picks: the last `n` under `Oldest`, else the first `n`. -/
def deletionBlock (policy : String) (miners : List Miner) (n : Nat) : List Miner :=
  if policy = deletePolicyOldest then miners.drop (miners.length - n) else miners.take n

/-- The Miners a scale-down leaves out of its block. -/
def keptMiners (policy : String) (miners : List Miner) (n : Nat) : List Miner :=
  if policy = deletePolicyOldest then miners.take (miners.length - n) else miners.drop n

/-- For a positive count no slice of `getMinersToDelete` panics, and it returns the block. -/
theorem getMinersToDelete_eq (ms : MinerSet) (miners : List Miner) {count : Int} (hc : 0 < count) :
    getMinersToDelete ms miners count =
      some (deletionBlock ms.spec.deletePolicy miners (min count.toNat miners.length)) := by
  unfold getMinersToDelete deletionBlock
  by_cases hl : count ≥ miners.length
  · have hm : min count.toNat miners.length = miners.length := by omega
    simp [hl, hm]
  · have hm : min count.toNat miners.length = count.toNat := by omega
    have hfront : goSlice miners 0 count = some (miners.take count.toNat) := by
      rw [goSlice_of_le (Int.le_refl 0) (by omega) (by omega)]
      simp
    have hback : goSlice miners (miners.length - count) miners.length =
        some (miners.drop (miners.length - count.toNat)) := by
      rw [goSlice_of_le (by omega) (by omega) (Int.le_refl _)]
      have hd : ((miners.length : Int) - count).toNat = miners.length - count.toNat := by omega
      have ht : ((miners.length : Int) - (miners.length - count)).toNat = count.toNat := by omega
      rw [hd, ht, List.take_of_length_le (by simp; omega)]
    have hnew : deletePolicyNewest ≠ deletePolicyOldest := by decide
    simp only [hl, if_false, hm]
    by_cases hp : ms.spec.deletePolicy = deletePolicyOldest
    · simp [hp, hback, Ne.symm hnew]
    · simp [hp, hfront]

/-- The block and the kept Miners split the list, in list order. -/
theorem deletionBlock_append_keptMiners (policy : String) (miners : List Miner) (n : Nat) :
    (policy = deletePolicyOldest → keptMiners policy miners n ++ deletionBlock policy miners n = miners) ∧
    (policy ≠ deletePolicyOldest → deletionBlock policy miners n ++ keptMiners policy miners n = miners) :=
  ⟨fun h => by simp [keptMiners, deletionBlock, h], fun h => by simp [keptMiners, deletionBlock, h]⟩

theorem deletionBlock_sublist (policy : String) (miners : List Miner) (n : Nat) :
    (deletionBlock policy miners n).Sublist miners := by
  unfold deletionBlock
  split
  · exact List.drop_sublist _ _
  · exact List.take_sublist _ _

theorem length_keptMiners (policy : String) (miners : List Miner) (n : Nat) :
    (keptMiners policy miners n).length = miners.length - n := by
  unfold keptMiners
  split <;> simp

/-! ## The writes of a pass -/

/-- The Creates of a pass: one desired Miner for each missing replica. -/
def scaleCreates (ms : MinerSet) (miners : List Miner) (R : Int) : List Call :=
  List.replicate (R - miners.length).toNat (.createMiner (computeDesiredMiner ms none))

/-- The Deletes of a pass: the unmarked members of the block of the surplus, capped at the list. -/
def scaleDeletes (ms : MinerSet) (miners : List Miner) (R : Int) : List Call :=
  ((deletionBlock ms.spec.deletePolicy miners (min (miners.length - R).toNat miners.length)).filter
    (·.meta.deletionTimestamp.isNone)).map (.deleteMiner ·.meta.key)

theorem syncReplicas_writes {ms : MinerSet} {miners : List Miner} {R : Int} {now : Nat}
    (hR : ms.spec.replicas = some R) {calls : List Call} {r : MinerSet × Except Error Result}
    (h : OkTrace (syncReplicas ms miners now) calls r) :
    calls.filter Call.isWrite = scaleCreates ms miners R ++ scaleDeletes ms miners R ∧
      r.2 = .ok { requeueAfter := 15000 } := by
  simp only [syncReplicas, hR] at h
  split_ifs at h with hneg hpos
  · obtain ⟨calls₁, u, calls₂, rfl, h₁, h₂⟩ := okTrace_bind.mp h
    obtain ⟨hw, rfl⟩ := okTrace_createMiners h₁
    obtain ⟨rfl, rfl⟩ := okTrace_pure_iff.mp h₂
    have h0 : (miners.length - R).toNat = 0 := by omega
    have hn : (-((miners.length : Int) - R)).toNat = (R - miners.length).toNat := by omega
    simp [scaleCreates, scaleDeletes, hw, h0, hn, deletionBlock]
  · rw [getMinersToDelete_eq ms miners hpos] at h
    obtain ⟨calls₁, u, calls₂, rfl, h₁, h₂⟩ := okTrace_bind.mp h
    obtain ⟨rfl, rfl⟩ := okTrace_deleteMiners h₁
    obtain ⟨rfl, rfl⟩ := okTrace_pure_iff.mp h₂
    have h0 : (R - miners.length).toNat = 0 := by omega
    simp [scaleCreates, scaleDeletes, h0, Call.isWrite, List.filter_map, Function.comp_def]
  · obtain ⟨rfl, rfl⟩ := okTrace_pure_iff.mp h
    have h0 : (R - miners.length).toNat = 0 := by omega
    have h1 : (miners.length - R).toNat = 0 := by omega
    simp [scaleCreates, scaleDeletes, h0, h1, deletionBlock]

/-- A Miner as the MinerSet specification asks a scale-up to create it. -/
structure DesiredMiner (ms : MinerSet) (miner : Miner) : Prop where
  generateName : miner.meta.generateName = ms.meta.name ++ "-"
  ns : miner.meta.ns = ms.meta.ns
  ownerReferences : miner.meta.ownerReferences = [newControllerRef ms.meta msKind]
  finalizers : miner.meta.finalizers = [minerSetFinalizer]
  spec : miner.spec = ms.spec.template.spec
  labels : ∀ k, miner.meta.labels.get k =
    if k = chainNameLabel then some ms.spec.template.spec.chainName
    else if k = minerSetNameLabel then some ms.meta.name
    else ms.spec.template.labels.get k

theorem computeDesiredMiner_desired (ms : MinerSet) : DesiredMiner ms (computeDesiredMiner ms none) where
  generateName := rfl
  ns := rfl
  ownerReferences := rfl
  finalizers := rfl
  spec := rfl
  labels k := by simp [computeDesiredMiner]

theorem scaleDeletes_nodup {ms : MinerSet} {miners : List Miner} (R : Int)
    (hkeys : (miners.map (·.meta.key)).Nodup) : (scaleDeletes ms miners R).Nodup := by
  have hcalls : (miners.map fun m => Call.deleteMiner m.meta.key).Nodup := by
    simpa [List.map_map, Function.comp_def] using List.Nodup.map (fun _ _ h => Call.deleteMiner.inj h) hkeys
  unfold scaleDeletes
  exact (((List.filter_sublist _).trans (deletionBlock_sublist _ _ _)).map _).nodup hcalls

theorem syncReplicas_ok_writes {ms : MinerSet} {miners : List Miner} {R : Int} {now : Nat}
    (hR : ms.spec.replicas = some R) {calls : List Call} {r : MinerSet × Except Error Result}
    (h : OkTrace (syncReplicas ms miners now) calls r) :
    calls.filter Call.isWrite = scaleCreates ms miners R ++ scaleDeletes ms miners R ∧
      (scaleCreates ms miners R).length = (R - miners.length).toNat ∧
      (∀ c ∈ scaleCreates ms miners R, ∃ m, c = .createMiner m ∧ DesiredMiner ms m) ∧
      ((miners.map (·.meta.key)).Nodup → (scaleDeletes ms miners R).Nodup) ∧
      r.2 = .ok { requeueAfter := 15000 } := by
  obtain ⟨hw, hr⟩ := syncReplicas_writes hR h
  refine ⟨hw, by simp [scaleCreates], fun c hc => ?_, scaleDeletes_nodup R, hr⟩
  exact ⟨_, List.eq_of_mem_replicate hc, computeDesiredMiner_desired ms⟩

/-! ## What a scale-down leaves -/

/-- The members of `miners` that a run of `calls` leaves without a deletion marker: unmarked
before, and sent no Delete. -/
def leftUnmarked (miners : List Miner) (calls : List Call) : List Miner :=
  miners.filter fun m => m.meta.deletionTimestamp.isNone ∧ Call.deleteMiner m.meta.key ∉ calls

section Lists

variable {α : Type} [DecidableEq α]

theorem filter_and_not_mem_self (l : List α) (p : α → Bool) :
    l.filter (fun a => p a ∧ a ∉ l) = [] :=
  List.filter_eq_nil_iff.mpr fun a ha => by simp [ha]

theorem filter_and_not_mem_of_disjoint {l l' : List α} (hd : ∀ a ∈ l, a ∉ l') (p : α → Bool) :
    l.filter (fun a => p a ∧ a ∉ l') = l.filter p :=
  List.filter_congr fun a ha => by simp [hd a ha]

/-- In a duplicate-free list `l₁ ++ l₂`, the members outside one part are those of the other. -/
theorem filter_append_not_mem {l₁ l₂ : List α} (h : (l₁ ++ l₂).Nodup) (p : α → Bool) :
    (l₁ ++ l₂).filter (fun a => p a ∧ a ∉ l₁) = l₂.filter p ∧
      (l₁ ++ l₂).filter (fun a => p a ∧ a ∉ l₂) = l₁.filter p := by
  have hd := List.disjoint_of_nodup_append h
  rw [List.filter_append, List.filter_append, filter_and_not_mem_self, filter_and_not_mem_self,
    filter_and_not_mem_of_disjoint fun a ha h₁ => hd h₁ ha,
    filter_and_not_mem_of_disjoint fun a ha h₂ => hd ha h₂]
  exact ⟨List.nil_append _, List.append_nil _⟩

end Lists

/-- In a scale-down, a member of the list is sent a Delete exactly when it is unmarked and in
the block. -/
theorem syncReplicas_delete_mem_iff {ms : MinerSet} {miners : List Miner} {R : Int} {now : Nat}
    (hR : ms.spec.replicas = some R) (hlt : R < miners.length)
    (hkeys : (miners.map (·.meta.key)).Nodup) {calls : List Call} {r : MinerSet × Except Error Result}
    (h : OkTrace (syncReplicas ms miners now) calls r) {m : Miner} (hm : m ∈ miners) :
    Call.deleteMiner m.meta.key ∈ calls ↔
      m ∈ deletionBlock ms.spec.deletePolicy miners (min (miners.length - R).toNat miners.length) ∧
        m.meta.deletionTimestamp.isNone := by
  have hc : scaleCreates ms miners R = [] := by simp [scaleCreates]; omega
  have hmem : Call.deleteMiner m.meta.key ∈ calls ↔
      Call.deleteMiner m.meta.key ∈ calls.filter Call.isWrite := by
    simp [Call.isWrite]
  rw [hmem, (syncReplicas_writes hR h).1, hc, List.nil_append, scaleDeletes]
  simp only [List.mem_map, List.mem_filter, Call.deleteMiner.injEq]
  constructor
  · rintro ⟨m', ⟨hb, hu⟩, hk⟩
    obtain rfl := List.inj_on_of_nodup_map hkeys ((deletionBlock_sublist _ _ _).subset hb) hm hk
    exact ⟨hb, hu⟩
  · rintro ⟨hb, hu⟩
    exact ⟨m, ⟨hb, hu⟩, rfl⟩

theorem syncReplicas_scale_down_unmarked {ms : MinerSet} {miners : List Miner} {R : Int} {now : Nat}
    (hR : ms.spec.replicas = some R) (hR0 : 0 ≤ R) (hlt : R < miners.length)
    (hkeys : (miners.map (·.meta.key)).Nodup) {calls : List Call} {r : MinerSet × Except Error Result}
    (h : OkTrace (syncReplicas ms miners now) calls r) :
    leftUnmarked miners calls =
        (keptMiners ms.spec.deletePolicy miners (miners.length - R).toNat).filter
          (·.meta.deletionTimestamp.isNone) ∧
      (keptMiners ms.spec.deletePolicy miners (miners.length - R).toNat).length = R.toNat ∧
      (R.toNat ≤ (leftUnmarked miners calls).length ↔
        ∀ m ∈ keptMiners ms.spec.deletePolicy miners (miners.length - R).toNat,
          m.meta.deletionTimestamp.isNone) := by
  have hn : min (miners.length - R).toNat miners.length = (miners.length - R).toNat := by omega
  have hleft : leftUnmarked miners calls = miners.filter fun m => m.meta.deletionTimestamp.isNone ∧
      m ∉ deletionBlock ms.spec.deletePolicy miners (miners.length - R).toNat := by
    refine List.filter_congr fun m hm => ?_
    have hiff := syncReplicas_delete_mem_iff hR hlt hkeys h hm
    rw [hn] at hiff
    by_cases hu : m.meta.deletionTimestamp.isNone <;> simp [hiff, hu]
  have hsplit := deletionBlock_append_keptMiners ms.spec.deletePolicy miners (miners.length - R).toNat
  have hnodup : miners.Nodup := hkeys.of_map _
  have hlen : (keptMiners ms.spec.deletePolicy miners (miners.length - R).toNat).length = R.toNat := by
    rw [length_keptMiners]
    omega
  have hkept : leftUnmarked miners calls =
      (keptMiners ms.spec.deletePolicy miners (miners.length - R).toNat).filter
        (·.meta.deletionTimestamp.isNone) := by
    rw [hleft]
    generalize deletionBlock ms.spec.deletePolicy miners (miners.length - R).toNat = block at hsplit ⊢
    generalize keptMiners ms.spec.deletePolicy miners (miners.length - R).toNat = kept at hsplit ⊢
    by_cases hp : ms.spec.deletePolicy = deletePolicyOldest
    · rw [← hsplit.1 hp] at hnodup ⊢
      exact (filter_append_not_mem hnodup _).2
    · rw [← hsplit.2 hp] at hnodup ⊢
      exact (filter_append_not_mem hnodup _).1
  refine ⟨hkept, hlen, ?_⟩
  rw [hkept, ← List.filter_length_eq_length]
  have := List.length_filter_le (fun m : Miner => m.meta.deletionTimestamp.isNone)
    (keptMiners ms.spec.deletePolicy miners (miners.length - R).toNat)
  omega

/-- A Miner of the `default` namespace, carrying a deletion marker when `marked`. -/
def sampleMiner (name : String) (marked : Bool) : Miner :=
  { meta := { name, ns := "default", deletionTimestamp := if marked then some 0 else none }
    spec := {}
    status := {} }

/-- `[a, b, c, d, e]`, of which only `e` is being deleted. -/
def fiveMiners : List Miner :=
  [sampleMiner "a" false, sampleMiner "b" false, sampleMiner "c" false, sampleMiner "d" false,
   sampleMiner "e" true]

/-- A MinerSet of two replicas under the `Newest` policy. -/
def twoReplicaSet : MinerSet :=
  { meta := { name := "ms", ns := "default" }
    spec := { replicas := some 2, deletePolicy := deletePolicyNewest }
    status := {} }

theorem syncReplicas_ok_writes_fiveToTwo :
    ∃ calls r, OkTrace (syncReplicas twoReplicaSet fiveMiners 0) calls r ∧
      calls.filter Call.isWrite =
        scaleCreates twoReplicaSet fiveMiners 2 ++ scaleDeletes twoReplicaSet fiveMiners 2 :=
  let h : OkTrace (syncReplicas twoReplicaSet fiveMiners 0) _ _ :=
    okTrace_of_okExec { miners := fiveMiners } rfl
  ⟨_, _, h, (syncReplicas_ok_writes rfl h).1⟩

/-- With `e` already being deleted, scaling `[a, b, c, d, e]` down to two under `Newest`
deletes `a`, `b` and `c`, and leaves only `d` unmarked. -/
theorem syncReplicas_scale_down_leaves_one :
    ∃ calls r, OkTrace (syncReplicas twoReplicaSet fiveMiners 0) calls r ∧
      (leftUnmarked fiveMiners calls).length < 2 :=
  ⟨_, _, okTrace_of_okExec { miners := fiveMiners } rfl, by decide⟩

theorem syncReplicas_scale_down_unmarked_fiveToTwo :
    ∃ calls r, OkTrace (syncReplicas twoReplicaSet fiveMiners 0) calls r ∧
      leftUnmarked fiveMiners calls =
        (keptMiners twoReplicaSet.spec.deletePolicy fiveMiners (fiveMiners.length - 2 : Int).toNat).filter
          (·.meta.deletionTimestamp.isNone) :=
  let h : OkTrace (syncReplicas twoReplicaSet fiveMiners 0) _ _ :=
    okTrace_of_okExec { miners := fiveMiners } rfl
  ⟨_, _, h, (syncReplicas_scale_down_unmarked rfl (by decide) (by decide) (by decide) h).1⟩

end MinerSetReconciler

end Minerx
