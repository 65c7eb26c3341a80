import Minerx.Verification.Finalizer
import Minerx.Controller.MinerSet

/-!
# Uninterrupted passes of the Miner controller

What passes of `MinerReconciler` do when no other writer acts between their calls and the store
answers every call (`exec`). Such a run does not move the informer either: every Pod Get of the
pass is answered by the view of the Pods the run starts from (`Store.podCache`), and what the
pass does turns on whether that view has seen the Pod.

On a Miner being deleted, with a positive Pod deletion timeout, the pass releases the Miner
finalizer, so the Miner leaves the store unless another finalizer holds it
(`deletion_pass_releases`). It marks the Pod for deletion only where the view holds the Pod: a
view that has not seen it leaves the stored Pod running. With a zero timeout the poll's context
is done before its Delete reaches the store, and the pass gives up
(`reconcileDelete_exec_expired`).

On any other Miner the pass adds the finalizer, and then (`pass_reflects_pod`): where the view
holds the Pod, it writes a status whose phase and `PodHealthy` condition are the ones that Pod
calls for; where neither the view nor the store holds one, it creates the Pod and, its next Get
still answered by the view, writes Pending with `PodNotFound`; where only the store holds one,
its Create is refused. Once the informer has caught up and a pass has run, twice over, the Miner
is `Settled`: every later pass, whether or not the informer moves between them, changes nothing
but the stamp of its status write (`later_passes_only_stamp`).

Each block of the pass has one lemma saying what it returns and what it leaves in the store; the
pass is then the composition of those lemmas. Beside them stand runs on `minerM`, a Miner made
by a MinerSet, on the paths where the pass loses what the spec asks it to keep.
-/

namespace Minerx

namespace MinerReconciler

open Controller Condition Prog Relation

/-! ## The delete path -/

/-- The finalizers a Miner keeps once the Miner finalizer is removed. -/
def otherFinalizers (miner : Miner) : List String :=
  miner.meta.finalizers.filter (· ≠ minerFinalizer)

/-- The finalizer block of the delete path, run on the stored, marked Miner: the Update succeeds
and removes the Miner finalizer, and the store drops the Miner when no finalizer is left. -/
theorem removeMinerFinalizer_exec (s : Store) {x : Miner}
    (hfind : Table.find s.miners x.meta.key = some x) (hfin : x.meta.containsFinalizer minerFinalizer)
    (hmarked : x.meta.deletionTimestamp.isSome) :
    ((removeMinerFinalizer x).exec s).1.2 = .ok {} ∧ ((removeMinerFinalizer x).exec s).2.pods = s.pods ∧
      (Table.find ((removeMinerFinalizer x).exec s).2.miners x.meta.key).map (·.meta.finalizers) =
        if otherFinalizers x = [] then none else some (otherFinalizers x) := by
  obtain ⟨y, hu, hf⟩ := Table.update_removeFinalizer s.revision hfind hmarked minerFinalizer
  simp only [removeMinerFinalizer, hfin, if_true, perform_bind, exec_call, Store.perform, hu,
    Store.write, exec_pure]
  exact ⟨trivial, trivial, hf⟩

/-- A Pod Delete is accepted or finds nothing: it is graceful, so a Pod it finds is marked. -/
theorem deletePod_reply (s : Store) (key : ObjectKey) :
    (s.perform (.deletePod key)).1 = .ok () ∨ (s.perform (.deletePod key)).1 = .error .notFound := by
  simp only [Store.perform]
  rcases h : Table.delete s.pods s.revision key true with e | ⟨⟨⟩, t⟩
  · obtain rfl := (Table.delete_eq_error h).2
    exact .inr rfl
  · exact .inl rfl

/-- Run on the done context, the Delete attempt fails before the store and reports the Pod still
there. -/
theorem expire_deletePodAttempt (pod : Pod) : (deletePodAttempt pod).expire = Pure.pure (.ok false) :=
  rfl

/-- The deletion poll with an attempt left, on a live context: its first Delete is accepted or
finds nothing, so the poll ends at once in the store that Delete left. -/
theorem poll_deletePodAttempt_exec (s : Store) (pod : Pod) (n : Nat) :
    (poll (deletePodAttempt pod) (n + 1)).exec s = (.ok (), (s.perform (.deletePod pod.meta.key)).2) := by
  rcases deletePod_reply s pod.meta.key with h | h <;>
    simp only [poll, exec_bind, deletePodAttempt, perform_bind, exec_call, h, exec_pure]

/-- A status write of a Miner with the stored Miner's metadata succeeds: the store holds the
stored Miner with the written status, at the next version. -/
theorem perform_updateMinerStatus {s : Store} {m o : Miner}
    (hfind : Table.find s.miners m.meta.key = some m) (hmeta : o.meta = m.meta) :
    ∃ x : Miner, s.perform (.updateMinerStatus o) =
        (.ok x, { s with miners := Table.replace s.miners x, revision := s.revision + 1 }) ∧
      Table.find (Table.replace s.miners x) m.meta.key = some x ∧
      x = { m with meta := { m.meta with resourceVersion := s.revision }, status := o.status } :=
  ⟨{ m with meta := { m.meta with resourceVersion := s.revision }, status := o.status },
    by simp only [Store.perform, Table.updateStatus_of_meta_eq s.revision hfind hmeta, Store.write],
    Table.find_replace_self hfind rfl, rfl⟩

/-- The delete path on the stored, marked Miner, with a positive Pod deletion timeout: the status
write and the finalizer Update succeed and only the Miner finalizer is removed. Where the view
held the Pod it is marked or absent afterwards; where the view did not, the Pods are as they
were. -/
theorem reconcileDelete_exec {s : Store} {m : Miner} (hfind : Table.find s.miners m.meta.key = some m)
    (hfin : m.meta.containsFinalizer minerFinalizer) (hmarked : m.meta.deletionTimestamp.isSome)
    (htimeout : 0 < m.spec.podDeletionTimeout.getD defaultPodTimeout) (now : Nat) :
    ((reconcileDelete m now).exec s).1.2 = .ok {} ∧
      (Table.find ((reconcileDelete m now).exec s).2.miners m.meta.key).map (·.meta.finalizers) =
        (if otherFinalizers m = [] then none else some (otherFinalizers m)) ∧
      ((Table.find s.podCache m.meta.key).isSome →
        podGone m.meta.key ((reconcileDelete m now).exec s).2) ∧
      (Table.find s.podCache m.meta.key = none → ((reconcileDelete m now).exec s).2.pods = s.pods) := by
  obtain ⟨x, hw, hfind₁, hx⟩ := perform_updateMinerStatus hfind
    (show (setFalse m minerPodHealthyCondition deletingReason "Deleting pod" now).meta = m.meta from rfl)
  have hkey : x.meta.key = m.meta.key := by rw [hx]; rfl
  have hother : otherFinalizers x = otherFinalizers m := by rw [hx]; rfl
  have htimeout₁ : 0 < x.spec.podDeletionTimeout.getD defaultPodTimeout := by rw [hx]; exact htimeout
  have hremove : ∀ t : Store, t.miners = Table.replace s.miners x →
      ((removeMinerFinalizer x).exec t).1.2 = .ok {} ∧ ((removeMinerFinalizer x).exec t).2.pods = t.pods ∧
      (Table.find ((removeMinerFinalizer x).exec t).2.miners m.meta.key).map (·.meta.finalizers) =
        if otherFinalizers m = [] then none else some (otherFinalizers m) := fun t ht => by
    rw [← hkey, ← hother]
    exact removeMinerFinalizer_exec t (ht ▸ hkey ▸ hfind₁) (by rw [hx]; exact hfin)
      (by rw [hx]; exact hmarked)
  unfold reconcileDelete
  simp only [perform_bind, exec_call, hw, Store.perform_getPod, hkey]
  rcases hp : Table.find s.podCache m.meta.key with _ | pod
  · obtain ⟨h₁, h₂, h₃⟩ :=
      hremove { s with miners := Table.replace s.miners x, revision := s.revision + 1 } rfl
    simp only [Table.get_of_find_none hp]
    exact ⟨h₁, h₃, nofun, fun _ => h₂⟩
  · have hkp : pod.meta.key = m.meta.key := (Table.find_eq_some hp).2
    simp only [Table.get_of_find hp, exec_bind, pollUntilContextTimeout_pos _ htimeout₁, pollAttempts,
      Nat.add_comm 1, poll_deletePodAttempt_exec]
    let s₁ : Store := { s with miners := Table.replace s.miners x, revision := s.revision + 1 }
    obtain ⟨h₁, h₂, h₃⟩ := hremove (s₁.perform (.deletePod pod.meta.key)).2
      (Store.write_miners fun _ _ => rfl)
    have hgone : podGone m.meta.key (s₁.perform (.deletePod pod.meta.key)).2 :=
      hkp ▸ podGone_deletePod (deletePod_reply s₁ pod.meta.key)
    exact ⟨h₁, h₃, fun _ p hp' => hgone p (h₂ ▸ hp'), nofun⟩

/-- One uninterrupted pass on a Miner being deleted that carries the Miner finalizer, with a
positive Pod deletion timeout, succeeds and removes exactly the Miner finalizer: the Miner leaves
the store when no other finalizer is left, and stays with the others otherwise. The Pod is
marked for deletion or absent afterwards where the informer's view held it; where the view had
not seen it, the pass leaves every Pod as it was, the Miner's included. -/
theorem deletion_pass_releases {s : Store} {key : ObjectKey} {m : Miner}
    (hfind : Table.find s.miners key = some m) (hmarked : m.meta.deletionTimestamp.isSome)
    (hfin : m.meta.containsFinalizer minerFinalizer)
    (htimeout : 0 < m.spec.podDeletionTimeout.getD defaultPodTimeout) (now : Nat) :
    ((Reconcile key now).exec s).1 = .ok {} ∧
      (Table.find ((Reconcile key now).exec s).2.miners key).map (·.meta.finalizers) =
        (if otherFinalizers m = [] then none else some (otherFinalizers m)) ∧
      ((Table.find s.podCache key).isSome → podGone key ((Reconcile key now).exec s).2) ∧
      (Table.find s.podCache key = none → ((Reconcile key now).exec s).2.pods = s.pods) := by
  have hkey := (Table.find_eq_some hfind).2
  have h := reconcileDelete_exec (hkey ▸ hfind) hfin hmarked htimeout now
  rw [hkey] at h
  simp only [Reconcile, perform_bind, exec_call, Store.perform, Table.get_of_find hfind, hmarked,
    if_true, exec_map]
  exact h

/-- A Miner `w` no pass has seen yet: it has no finalizer and no Pod. -/
def freshMiner : Miner :=
  { meta := { name := "w", ns := "default", uid := 1, resourceVersion := 1, generation := 1 }
    spec := { minerType := "small" }
    status := {} }

/-- A store that holds only `freshMiner`. -/
def freshStore : Store := { miners := [freshMiner], revision := 2 }

/-- `freshMiner` after a deletion was requested, carrying the Miner finalizer. -/
def markedMiner : Miner :=
  { freshMiner with meta := { freshMiner.meta with finalizers := [minerFinalizer],
                                                   deletionTimestamp := some 2 } }

/-- The running Pod of `markedMiner`. -/
def markedPod : Pod :=
  { meta := { name := "w", ns := "default", uid := 3, resourceVersion := 3 }
    spec := {}
    status := { phase := some .running } }

/-- A store with `markedMiner` and its Pod, which the informer has not seen yet. -/
def laggingStore : Store := { miners := [markedMiner], pods := [markedPod], podCache := [], revision := 4 }

/-- On `laggingStore` the pass erases `markedMiner` and leaves its Pod stored, running and
unmarked. -/
theorem deletion_pass_releases_laggingStore :
    Table.find ((Reconcile markedMiner.meta.key 0).exec laggingStore).2.miners markedMiner.meta.key =
        none ∧
      ((Reconcile markedMiner.meta.key 0).exec laggingStore).2.pods = [markedPod] :=
  have h := @deletion_pass_releases laggingStore markedMiner.meta.key markedMiner (by decide)
    (by decide) (by decide) (by decide) 0
  ⟨Option.map_eq_none'.mp (h.2.1.trans (if_pos (by decide))), h.2.2.2 (by decide)⟩

/-- With a zero Pod deletion timeout and the Pod in the view, the poll's context is done before
its Delete reaches the store: the delete path ends with the deadline error after its status
write, and keeps the Pods and every finalizer as they were. -/
theorem reconcileDelete_exec_expired {s : Store} {m : Miner}
    (hfind : Table.find s.miners m.meta.key = some m)
    (htimeout : m.spec.podDeletionTimeout.getD defaultPodTimeout = 0)
    (hview : (Table.find s.podCache m.meta.key).isSome) (now : Nat) :
    ((reconcileDelete m now).exec s).1.2 = .error .deadlineExceeded ∧
      ((reconcileDelete m now).exec s).2.pods = s.pods ∧
      (Table.find ((reconcileDelete m now).exec s).2.miners m.meta.key).map (·.meta.finalizers) =
        some m.meta.finalizers := by
  obtain ⟨x, hw, hfind₁, hx⟩ := perform_updateMinerStatus hfind
    (show (setFalse m minerPodHealthyCondition deletingReason "Deleting pod" now).meta = m.meta from rfl)
  have hkey : x.meta.key = m.meta.key := by rw [hx]; rfl
  have htimeout₁ : x.spec.podDeletionTimeout.getD defaultPodTimeout = 0 := by rw [hx]; exact htimeout
  obtain ⟨pod, hp⟩ := Option.isSome_iff_exists.mp hview
  unfold reconcileDelete
  simp only [perform_bind, exec_call, hw, Store.perform_getPod, hkey, Table.get_of_find hp,
    htimeout₁, pollUntilContextTimeout_zero, expire_deletePodAttempt, pure_bind, exec_pure]
  refine ⟨trivial, trivial, ?_⟩
  rw [hfind₁, hx]
  rfl

/-! ### A Miner made by a MinerSet

A Miner a MinerSet created carries `minerSetFinalizer` beside `minerFinalizer`, and only the
latter is ever removed, so the Miner stays marked in the store. `reconcileDelete` marks
`PodHealthy` false but never the phase. The conditions that record a failed Pod creation or a
timed-out Pod deletion are set on the in-memory Miner only, and the pass returns before any
status write. -/

/-- The Miner named `m` of the `default` namespace, made by a MinerSet and adopted by this
controller: it carries both finalizers, runs, and its Pod is healthy. -/
def minerM (podDeletionTimeout : Option Nat) (deletionTimestamp : Option Nat) : Miner :=
  { meta := { name := "m", ns := "default", uid := 5, resourceVersion := 5, generation := 1,
              finalizers := [minerSetFinalizer, minerFinalizer], deletionTimestamp }
    spec := { podDeletionTimeout }
    status := { phase := some .running,
                conditions := [{ type := minerPodHealthyCondition, status := .conditionTrue,
                                 lastTransitionTime := 0 }] } }

/-- The Pod of `minerM`. -/
def podM : Pod :=
  { meta := { name := "m", ns := "default", uid := 6, resourceVersion := 6 }
    spec := {}
    status := { phase := some .running } }

/-- A store with `minerM` and, when `withPod`, its Pod, which the informer has seen. -/
def storeM (podDeletionTimeout : Option Nat) (deletionTimestamp : Option Nat) (withPod : Bool) :
    Store :=
  { miners := [minerM podDeletionTimeout deletionTimestamp]
    pods := if withPod then [podM] else []
    revision := 7 }

/-- The key of `minerM`. -/
def keyM : ObjectKey := ⟨"default", "m"⟩

/-- The stored Miner under `keyM`. -/
def storedM (s : Store) : Option Miner := Table.find s.miners keyM

/-- A successful deletion pass on the marked `minerM`, which has no Pod, removes
`minerFinalizer` and keeps `minerSetFinalizer`: the Miner stays in the store, marked. -/
theorem reconcileDelete_keeps_minerSetFinalizer :
    ((Reconcile keyM 0).exec (storeM none (some 4) false)).1 = .ok {} ∧
      ((storedM ((Reconcile keyM 0).exec (storeM none (some 4) false)).2).map
        (·.meta.finalizers)) = some [minerSetFinalizer] := by
  decide

/-- The same pass stores the Running phase beside a `PodHealthy` condition that is false. -/
theorem reconcileDelete_keeps_running_phase :
    ((storedM ((Reconcile keyM 0).exec (storeM none (some 4) false)).2).map
        fun m => (m.status.phase, isTrue m minerPodHealthyCondition)) = some (some .running, false) := by
  decide

/-- The replies to the Pod lookups of a logged run, in order. -/
def podLookups : List ((c : Call) × c.Reply) → List (Except Error Pod)
  | [] => []
  | ⟨.getPod _, r⟩ :: log => r :: podLookups log
  | _ :: log => podLookups log

/-- A deletion pass on the marked `minerM` whose Pod is there. The store accepts the Delete and
keeps the Pod, terminating; the pass then removes `minerFinalizer`, though its only lookup of the
Pod found it. -/
theorem finalizer_removed_while_pod_present :
    podLookups (execLog (Reconcile keyM 0) (storeM none (some 4) true)) = [.ok podM] ∧
      ((Reconcile keyM 0).exec (storeM none (some 4) true)).1 = .ok {} ∧
      (storedM ((Reconcile keyM 0).exec (storeM none (some 4) true)).2).map (·.meta.finalizers) =
        some [minerSetFinalizer] ∧
      (Table.find ((Reconcile keyM 0).exec (storeM none (some 4) true)).2.pods keyM).map
        (·.meta.deletionTimestamp.isSome) = some true := by
  decide

/-- The passes of `MinerReconciler` on `minerM`, one call at a time, where any call may fail. -/
abbrev PassesOnM : Store × Option (Prog (Except Error Result)) →
    Store × Option (Prog (Except Error Result)) → Prop :=
  ReflTransGen (Step (fun _ _ => True) (fun _ => True) fun p => ∃ now, p = Reconcile keyM now)

/-- With `podDeletionTimeout` zero, the poll's context is done before its one attempt, whose
Delete fails without reaching the store: the pass ends with the deadline error. -/
theorem zero_timeout_gives_up :
    ∃ st, PassesOnM (storeM (some 0) (some 4) true, none) st ∧
      st.2.bind result? = some (.error .deadlineExceeded) := by
  have h : replay (fun _ => True) (storeM (some 0) (some 4) true, none)
      [.start (Reconcile keyM 0), .call, .call, .call] = some _ := rfl
  exact ⟨_, replay_reachable (fun p hp => ⟨0, by simpa using hp⟩) h, by decide⟩

/-! ## The reconcile path -/

/-- The phase and `PodHealthy` status that a Pod calls for: Running and true when it runs and is
ready, Provisioning and false when it runs unready or is pending, Failed and false when it
failed. Any other phase of the Pod calls for nothing. -/
def podVerdict (pod : Pod) : Option (MinerPhase × ConditionStatus) :=
  match pod.status.phase with
  | some .running =>
    some (if isPodReady pod then (.running, .conditionTrue) else (.provisioning, .conditionFalse))
  | some .pending => some (.provisioning, .conditionFalse)
  | some .failed => some (.failed, .conditionFalse)
  | _ => none

theorem status_get_setTrue [Setter α] (obj : α) (conditionType : String) (now : Nat) :
    (get (setTrue obj conditionType now) conditionType).map (·.status) = some .conditionTrue :=
  have ⟨_, hc, ha⟩ := get_set_self obj (trueCondition conditionType now)
  (congrArg (Option.map (·.status)) hc).trans (congrArg some ha.1)

theorem status_get_setFalse [Setter α] (obj : α) (conditionType reason message : String) (now : Nat) :
    (get (setFalse obj conditionType reason message now) conditionType).map (·.status) =
      some .conditionFalse :=
  have ⟨_, hc, ha⟩ := get_set_self obj (falseCondition conditionType reason message now)
  (congrArg (Option.map (·.status)) hc).trans (congrArg some ha.1)

theorem get_podHealthy_setTrue_bootstrapReady (miner : Miner) (now : Nat) :
    get (setTrue miner bootstrapReadyCondition now) minerPodHealthyCondition =
      get miner minerPodHealthyCondition :=
  get_set_of_ne miner (trueCondition bootstrapReadyCondition now)
    (show minerPodHealthyCondition ≠ bootstrapReadyCondition by decide)

/-- The switch of `syncPodStatus` sets the phase and `PodHealthy` status the Pod calls for, and
leaves the Miner as it is where the Pod calls for nothing. -/
theorem podPhaseStatus_verdict (miner : Miner) (pod : Pod) (now : Nat) :
    match podVerdict pod with
    | some (phase, status) => (podPhaseStatus miner pod now).status.phase = some phase ∧
        (get (podPhaseStatus miner pod now) minerPodHealthyCondition).map (·.status) = some status
    | none => podPhaseStatus miner pod now = miner := by
  unfold podVerdict podPhaseStatus
  rcases h : pod.status.phase with _ | ⟨_ | _ | _ | _ | _⟩ <;> simp only [h]
  · exact ⟨rfl, status_get_setFalse _ _ _ _ _⟩
  · by_cases hr : isPodReady pod <;> simp only [hr, if_true, if_false]
    · exact ⟨rfl, (congrArg (Option.map (·.status)) (get_podHealthy_setTrue_bootstrapReady _ now)).trans
        (status_get_setTrue _ _ _)⟩
    · exact ⟨rfl, status_get_setFalse _ _ _ _ _⟩
  · exact ⟨rfl, status_get_setFalse { miner with status := { miner.status with phase := some .failed } }
      minerPodHealthyCondition failedReason "Pod failed" now⟩

/-- A Miner's conditions are read from its status alone. -/
theorem get_of_status_eq {m m' : Miner} (h : m.status = m'.status) (conditionType : String) :
    get m conditionType = get m' conditionType := by
  show m.status.conditions.find? _ = m'.status.conditions.find? _
  rw [h]

theorem meta_podPhaseStatus (miner : Miner) (pod : Pod) (now : Nat) :
    (podPhaseStatus miner pod now).meta = miner.meta := by
  unfold podPhaseStatus
  split <;> (try split) <;> rfl

/-- The ledger's entry of the type carries the status, reason and message, whatever its time. -/
def Holds (conditions : List Condition) (type : String) (status : ConditionStatus)
    (reason message : String) : Prop :=
  ∃ d, conditions.find? (·.type = type) = some d ∧ d.status = status ∧ d.reason = reason ∧
    d.message = message

theorem holds_setCondition (conditions : List Condition) (c : Condition) :
    Holds (setCondition conditions c) c.type c.status c.reason c.message :=
  have ⟨d, hd, _, ha⟩ := find?_setCondition_self conditions c
  ⟨d, hd, ha⟩

theorem Holds.setCondition_of_ne {conditions : List Condition} {type : String}
    {status : ConditionStatus} {reason message : String}
    (h : Holds conditions type status reason message) {c : Condition} (hne : type ≠ c.type) :
    Holds (setCondition conditions c) type status reason message :=
  have ⟨d, hd, ha⟩ := h
  ⟨d, (find?_setCondition_of_ne conditions c hne).trans hd, ha⟩

/-- Setting a condition that already holds on a Miner changes nothing. -/
theorem set_eq_self_of_holds {m : Miner} (c : Condition)
    (h : Holds m.status.conditions c.type c.status c.reason c.message) : set m c = m := by
  obtain ⟨d, hd, ha⟩ := h
  show { m with status := { m.status with conditions := setCondition m.status.conditions c } } = m
  rw [setCondition_of_find?_agrees hd ha]

/-- The Miner shows what its Pod calls for, as the switch of `syncPodStatus` writes it: the
phase, the conditions, the addresses and the failure reason. -/
def Shows (pod : Pod) (m : Miner) : Prop :=
  match pod.status.phase with
  | some .running =>
    if isPodReady pod then
      m.status.phase = some .running ∧
        Holds m.status.conditions minerPodHealthyCondition .conditionTrue "" "" ∧
        Holds m.status.conditions bootstrapReadyCondition .conditionTrue "" "" ∧
        m.status.addresses = pod.status.podIPs
    else m.status.phase = some .provisioning ∧ Holds m.status.conditions minerPodHealthyCondition
      .conditionFalse provisioningReason "Pod is not ready yet"
  | some .pending => m.status.phase = some .provisioning ∧ Holds m.status.conditions
      minerPodHealthyCondition .conditionFalse provisioningReason "Pod is pending"
  | some .failed => m.status.phase = some .failed ∧
      Holds m.status.conditions minerPodHealthyCondition .conditionFalse failedReason "Pod failed" ∧
      m.status.failureReason = some (if pod.status.message = "" then "Pod failed" else pod.status.message)
  | _ => True

/-- The switch leaves a Miner that shows its Pod. -/
theorem shows_podPhaseStatus (m : Miner) (pod : Pod) (now : Nat) : Shows pod (podPhaseStatus m pod now) := by
  unfold Shows podPhaseStatus
  rcases h : pod.status.phase with _ | ⟨_ | _ | _ | _ | _⟩ <;> simp only [h]
  · exact ⟨rfl, holds_setCondition _ _⟩
  · by_cases hr : isPodReady pod <;> simp only [hr, if_true, if_false]
    · exact ⟨rfl, (holds_setCondition _ (trueCondition minerPodHealthyCondition now)).setCondition_of_ne
        (show minerPodHealthyCondition ≠ bootstrapReadyCondition by decide), holds_setCondition _ _,
        trivial⟩
    · exact ⟨rfl, holds_setCondition _ _⟩
  · exact ⟨rfl, holds_setCondition _ _, trivial⟩

/-- On a Miner that shows its Pod, the switch changes nothing, at any time. -/
theorem podPhaseStatus_of_shows {m : Miner} {pod : Pod} (h : Shows pod m) (now : Nat) :
    podPhaseStatus m pod now = m := by
  unfold Shows at h
  unfold podPhaseStatus setTrue setFalse
  rcases hp : pod.status.phase with _ | ⟨_ | _ | _ | _ | _⟩ <;> simp only [hp] at h ⊢
  · rw [← h.1, set_eq_self_of_holds (falseCondition minerPodHealthyCondition provisioningReason
      "Pod is pending" now) h.2]
  · by_cases hr : isPodReady pod <;> simp only [hr, Bool.false_eq_true, if_true, if_false] at h ⊢
    · rw [← h.1, set_eq_self_of_holds (trueCondition minerPodHealthyCondition now) h.2.1,
        set_eq_self_of_holds (trueCondition bootstrapReadyCondition now) h.2.2.1, ← h.2.2.2]
    · rw [← h.1, set_eq_self_of_holds (falseCondition minerPodHealthyCondition provisioningReason
        "Pod is not ready yet" now) h.2]
  · rw [← h.1, set_eq_self_of_holds (falseCondition minerPodHealthyCondition failedReason
      "Pod failed" now) h.2.1, ← h.2.2]

/-- Whether a Miner shows its Pod does not depend on when its status was last stamped. -/
theorem Shows.stamp {pod : Pod} {m m' : Miner} (h : Shows pod m)
    (hst : m'.status = { m.status with lastUpdated := m'.status.lastUpdated }) : Shows pod m' := by
  unfold Shows at h ⊢
  rw [hst]
  exact h

/-- The phase default of `reconcile`: an unset phase becomes Provisioning, and the metadata and
`PodHealthy` are kept. -/
theorem phaseDefault_spec (m : Miner) :
    ∃ m₃, (if m.status.phase = none then { m with status := { m.status with phase := some .provisioning } }
        else m) = m₃ ∧ m₃.meta = m.meta ∧ m₃.status.phase = some (m.status.phase.getD .provisioning) ∧
      get m₃ minerPodHealthyCondition = get m minerPodHealthyCondition := by
  split
  · rename_i h
    exact ⟨_, rfl, rfl, by rw [h]; rfl, rfl⟩
  · obtain ⟨p, hp⟩ := Option.ne_none_iff_exists'.mp ‹_›
    exact ⟨m, rfl, rfl, by rw [hp]; rfl, rfl⟩

/-- The finalizer block on the stored Miner: it returns the Miner as stored afterwards, with the
finalizer, its key and its status, and leaves the Pods and the informer's view alone. -/
theorem ensureFinalizer_exec (s : Store) {m : Miner} (hfind : Table.find s.miners m.meta.key = some m) :
    ∃ m' s', (ensureFinalizer m).exec s = (.ok m', s') ∧ Table.find s'.miners m.meta.key = some m' ∧
      m'.meta.key = m.meta.key ∧ m'.status = m.status ∧ m'.meta.containsFinalizer minerFinalizer ∧
      m'.meta.deletionTimestamp = m.meta.deletionTimestamp ∧ s'.pods = s.pods ∧
      s'.podCache = s.podCache := by
  unfold ensureFinalizer
  split
  · exact ⟨m, s, rfl, hfind, rfl, rfl, ‹_›, rfl, rfl, rfl⟩
  · obtain ⟨y, hu, hf, hk, -, -, hdel, hfin, -, hst⟩ := Table.update_addFinalizer s.revision hfind minerFinalizer
    simp only [perform, exec_call, Store.perform, hu, Store.write]
    exact ⟨y, _, rfl, hf, hk, hst, hfin, hdel, rfl, rfl⟩

/-- The Pod block where the view holds the Pod: nothing to do. -/
theorem reconcilePod_exec_view (s : Store) (m : Miner) {pod : Pod}
    (hview : Table.find s.podCache m.meta.key = some pod) (now : Nat) :
    (reconcilePod m now).exec s = ((m, .ok ()), s) := by
  simp only [reconcilePod, perform_bind, exec_call, Store.perform_getPod, Table.get_of_find hview,
    exec_pure]

/-- The Pod block where neither the view nor the store holds a Pod: the Create stores one under
the Miner's key, and the Miner's metadata, phase and `PodHealthy` condition are left alone. -/
theorem reconcilePod_exec_create (s : Store) (m : Miner) (hname : m.meta.name ≠ "")
    (hview : Table.find s.podCache m.meta.key = none) (hpod : Table.find s.pods m.meta.key = none)
    (now : Nat) :
    ∃ m' pod, (reconcilePod m now).exec s =
        ((m', .ok ()), { s with pods := s.pods ++ [pod], revision := s.revision + 1 }) ∧
      Table.find (s.pods ++ [pod]) m.meta.key = some pod ∧ m'.meta = m.meta ∧
      m'.status.phase = m.status.phase ∧
      get m' minerPodHealthyCondition = get m minerPodHealthyCondition := by
  obtain ⟨x, hc, hx, -, -⟩ := @Table.create_of_find_none _ _ s.pods s.revision _
    ((congrArg ObjectKey.name (key_createPodSpec m)).trans_ne hname) ((key_createPodSpec m).symm ▸ hpod)
  simp only [reconcilePod, perform_bind, exec_call, Store.perform_getPod, Table.get_of_find_none hview,
    ne_eq, not_true_eq_false, if_false, Store.perform, hc, Store.write, exec_pure]
  refine ⟨_, x, rfl, ?_, rfl, rfl,
    get_set_of_ne _ _ (show minerPodHealthyCondition ≠ infrastructureReadyCondition by decide)⟩
  rw [Table.find_append_singleton, hpod, hx, key_createPodSpec, if_pos rfl]
  rfl

/-- The Pod status block where the view holds the Pod: the switch on its phase, and no write. -/
theorem syncPodStatus_exec (s : Store) {m : Miner} {pod : Pod}
    (hview : Table.find s.podCache m.meta.key = some pod) (now : Nat) :
    (syncPodStatus m now).exec s = ((podPhaseStatus m pod now, .ok ()), s) := by
  simp only [syncPodStatus, perform_bind, exec_call, Store.perform_getPod, Table.get_of_find hview,
    exec_pure]

/-- The Pod status block where the view has no Pod: Pending with `PodNotFound`, and no write. -/
theorem syncPodStatus_exec_none (s : Store) {m : Miner} (hview : Table.find s.podCache m.meta.key = none)
    (now : Nat) :
    (syncPodStatus m now).exec s = ((setFalse { m with status := { m.status with phase := some .pending } }
      minerPodHealthyCondition podNotFoundReason "Pod not found" now, .ok ()), s) := by
  simp only [syncPodStatus, perform_bind, exec_call, Store.perform_getPod, Table.get_of_find_none hview,
    exec_pure]

/-- A Miner `after` shows what its Pod calls for, or, where the Pod calls for nothing, the phase
of `before` (an unset phase as Provisioning) and its `PodHealthy` condition. -/
def Reflects (pod : Pod) (before after : Miner) : Prop :=
  match podVerdict pod with
  | some (phase, status) => after.status.phase = some phase ∧
      (get after minerPodHealthyCondition).map (·.status) = some status
  | none => after.status.phase = some (before.status.phase.getD .provisioning) ∧
      get after minerPodHealthyCondition = get before minerPodHealthyCondition

theorem Reflects.congr {pod : Pod} {b b' a a' : Miner} (hb : b.status = b'.status)
    (ha : a.status = a'.status) (h : Reflects pod b a) : Reflects pod b' a' := by
  unfold Reflects at h ⊢
  rw [← ha, ← hb, ← get_of_status_eq ha, ← get_of_status_eq hb]
  exact h

/-- The Pod and status blocks on the stored Miner, where the view holds the Pod: no Create, and
the status write succeeds and stores a Miner that reflects and shows the Pod. -/
theorem reconcileStatus_exec_view (s : Store) {m : Miner} (hfind : Table.find s.miners m.meta.key = some m)
    {pod : Pod} (hview : Table.find s.podCache m.meta.key = some pod) (now : Nat) :
    ∃ m', (reconcileStatus m now).exec s = ((m', .ok { requeueAfter := 10000 }),
        { s with miners := Table.replace s.miners m', revision := s.revision + 1 }) ∧
      Table.find (Table.replace s.miners m') m.meta.key = some m' ∧
      m'.meta = { m.meta with resourceVersion := s.revision } ∧ Reflects pod m m' ∧ Shows pod m' := by
  obtain ⟨m₃, hm₃, hmeta₃, hphase₃, hget₃⟩ := phaseDefault_spec m
  unfold reconcileStatus
  simp only [exec_bind, reconcilePod_exec_view s m hview now, hm₃]
  rw [@syncPodStatus_exec s m₃ pod (by rw [hmeta₃]; exact hview) now]
  have hv := podPhaseStatus_verdict m₃ pod now
  have hs := shows_podPhaseStatus m₃ pod now
  have hmeta₄ : (podPhaseStatus m₃ pod now).meta = m.meta := (meta_podPhaseStatus _ _ _).trans hmeta₃
  generalize podPhaseStatus m₃ pod now = m₄ at hv hs hmeta₄ ⊢
  obtain ⟨x, hw, hfind', rfl⟩ := perform_updateMinerStatus hfind
    (show ({ m₄ with status := { m₄.status with lastUpdated := some now } } : Miner).meta = m.meta from hmeta₄)
  simp only [perform_bind, exec_call, hw, exec_pure]
  refine ⟨_, rfl, hfind', rfl, ?_, hs.stamp rfl⟩
  unfold Reflects
  split at hv
  · exact hv
  · subst hv
    exact ⟨hphase₃, hget₃⟩

/-- The Pod and status blocks on the stored Miner, where neither the view nor the store holds a
Pod: the Create stores one, the status block reads the view, which has not seen it, and the
status write stores Pending with `PodNotFound`. -/
theorem reconcileStatus_exec_create (s : Store) {m : Miner}
    (hfind : Table.find s.miners m.meta.key = some m) (hname : m.meta.name ≠ "")
    (hview : Table.find s.podCache m.meta.key = none) (hpod : Table.find s.pods m.meta.key = none)
    (now : Nat) :
    ∃ m' pod, ((reconcileStatus m now).exec s).1.2 = .ok { requeueAfter := 10000 } ∧
      Table.find ((reconcileStatus m now).exec s).2.miners m.meta.key = some m' ∧
      Table.find ((reconcileStatus m now).exec s).2.pods m.meta.key = some pod ∧
      m'.meta = { m.meta with resourceVersion := s.revision + 1 } ∧ m'.status.phase = some .pending ∧
      Holds m'.status.conditions minerPodHealthyCondition .conditionFalse podNotFoundReason
        "Pod not found" := by
  obtain ⟨m₂, pod, hrun, hpod', hmeta₂, -, -⟩ := reconcilePod_exec_create s m hname hview hpod now
  obtain ⟨m₃, hm₃, hmeta₃, -, -⟩ := phaseDefault_spec m₂
  unfold reconcileStatus
  simp only [exec_bind, hrun, hm₃]
  let s₂ : Store := { s with pods := s.pods ++ [pod], revision := s.revision + 1 }
  rw [@syncPodStatus_exec_none s₂ m₃ (by rw [hmeta₃, hmeta₂]; exact hview) now]
  generalize hm₄ : setFalse { m₃ with status := { m₃.status with phase := some .pending } }
    minerPodHealthyCondition podNotFoundReason "Pod not found" now = m₄
  have hmeta₄ : m₄.meta = m.meta := by rw [← hm₄, ← hmeta₂, ← hmeta₃]; rfl
  have hphase₄ : m₄.status.phase = some .pending := by rw [← hm₄]; rfl
  have hholds : Holds m₄.status.conditions minerPodHealthyCondition .conditionFalse podNotFoundReason
      "Pod not found" := by
    rw [← hm₄]
    exact holds_setCondition _ _
  obtain ⟨x, hw, hfind', rfl⟩ := @perform_updateMinerStatus s₂ m _ hfind
    (show ({ m₄ with status := { m₄.status with lastUpdated := some now } } : Miner).meta = m.meta from hmeta₄)
  simp only [perform_bind, exec_call, hw, exec_pure]
  exact ⟨_, pod, trivial, hfind', hpod', rfl, hphase₄, hholds⟩

/-- The Pod and status blocks on a Miner whose Pod the store holds but the view has not seen:
the Create is refused, and the blocks fail with nothing written. -/
theorem reconcileStatus_exec_exists (s : Store) {m : Miner} (hname : m.meta.name ≠ "")
    (hview : Table.find s.podCache m.meta.key = none) {pod : Pod}
    (hpod : Table.find s.pods m.meta.key = some pod) (now : Nat) :
    ((reconcileStatus m now).exec s).1.2 = .error .alreadyExists ∧ ((reconcileStatus m now).exec s).2 = s := by
  have hc : Table.create s.pods s.revision (createPodSpec m) = .error .alreadyExists :=
    Table.create_of_find_some ((congrArg ObjectKey.name (key_createPodSpec m)).trans_ne hname)
      ((key_createPodSpec m).symm ▸ hpod)
  simp only [reconcileStatus, reconcilePod, exec_bind, perform_bind, exec_call, Store.perform_getPod,
    Table.get_of_find_none hview, ne_eq, not_true_eq_false, if_false, Store.perform, hc, Store.write,
    exec_pure]
  exact ⟨trivial, trivial⟩

/-- A failed Pod Create, and a Pod Delete that fails until the poll's deadline: each pass ends in
its error with no status write, so the stored Miner has no `InfrastructureReady` condition in
the first run, and keeps `PodHealthy` at `Deleting` in the second. -/
theorem failed_pass_drops_condition :
    (∃ st, PassesOnM (storeM none none false, none) st ∧
      st.2.bind result? = some (.error .transient) ∧
      (storedM st.1).map (has · infrastructureReadyCondition) = some false) ∧
    (∃ st, PassesOnM (storeM none (some 4) true, none) st ∧
      st.2.bind result? = some (.error .deadlineExceeded) ∧
      ((storedM st.1).bind (get · minerPodHealthyCondition)).map (·.reason) = some deletingReason) := by
  have h₁ : replay (fun _ => True) (storeM none none false, none)
      [.start (Reconcile keyM 0), .call, .call, .fail] = some _ := rfl
  have h₂ : replay (fun _ => True) (storeM none (some 4) true, none)
      [.start (Reconcile keyM 0), .call, .call, .call, .fail, .fail, .fail, .fail, .fail] = some _ := rfl
  exact ⟨⟨_, replay_reachable (fun p hp => ⟨0, by simpa using hp⟩) h₁, by decide, by decide⟩,
    ⟨_, replay_reachable (fun p hp => ⟨0, by simpa using hp⟩) h₂, by decide, by decide⟩⟩

/-- A pass on a stored Miner that is not being deleted runs the finalizer block, then the Pod and
status blocks on the Miner that block stored, with the Pods and the view as they were. -/
theorem Reconcile_exec_live {s : Store} {key : ObjectKey} {m : Miner}
    (hfind : Table.find s.miners key = some m) (hlive : m.meta.deletionTimestamp = none) (now : Nat) :
    ∃ m₁ s₁, Table.find s₁.miners m₁.meta.key = some m₁ ∧ m₁.meta.key = key ∧ m₁.status = m.status ∧
      m₁.meta.containsFinalizer minerFinalizer ∧ m₁.meta.deletionTimestamp = none ∧
      s₁.pods = s.pods ∧ s₁.podCache = s.podCache ∧
      (Reconcile key now).exec s =
        (((reconcileStatus m₁ now).exec s₁).1.2, ((reconcileStatus m₁ now).exec s₁).2) := by
  have hkey := (Table.find_eq_some hfind).2
  obtain ⟨m₁, s₁, he, hf₁, hk₁, hst₁, hfin₁, hlive₁, hpods, hview⟩ := ensureFinalizer_exec s (hkey ▸ hfind)
  refine ⟨m₁, s₁, by rw [hk₁]; exact hf₁, hk₁.trans hkey, hst₁, hfin₁, hlive₁.trans hlive, hpods, hview, ?_⟩
  simp only [Reconcile, perform_bind, exec_call, Store.perform, Table.get_of_find hfind, hlive,
    Option.isSome_none, Bool.false_eq_true, if_false, exec_map, reconcile, exec_bind, he]

/-- One uninterrupted pass on a Miner that is not being deleted adds the finalizer, and then
turns on the informer's view of the Pod. Where the view holds the Pod, the pass creates nothing,
succeeds, and stores a Miner whose phase and `PodHealthy` status are the ones that Pod calls for.
Where neither the view nor the store holds a Pod, the pass creates one and succeeds, but its
status block reads the view, which has not seen the Pod: the Miner is stored Pending with
`PodHealthy` false for `PodNotFound`. Where the store holds a Pod the view has not seen, the
Create is refused and the pass fails. -/
theorem pass_reflects_pod {s : Store} {key : ObjectKey} {m : Miner}
    (hfind : Table.find s.miners key = some m) (hlive : m.meta.deletionTimestamp = none)
    (hname : key.name ≠ "") (now : Nat) :
    (∀ pod, Table.find s.podCache key = some pod →
      ((Reconcile key now).exec s).1 = .ok { requeueAfter := 10000 } ∧
        ((Reconcile key now).exec s).2.pods = s.pods ∧
        ∃ m', Table.find ((Reconcile key now).exec s).2.miners key = some m' ∧
          m'.meta.containsFinalizer minerFinalizer ∧ Reflects pod m m') ∧
    (Table.find s.podCache key = none → Table.find s.pods key = none →
      ((Reconcile key now).exec s).1 = .ok { requeueAfter := 10000 } ∧
        ∃ m' pod, Table.find ((Reconcile key now).exec s).2.miners key = some m' ∧
          Table.find ((Reconcile key now).exec s).2.pods key = some pod ∧
          m'.meta.containsFinalizer minerFinalizer ∧ m'.status.phase = some .pending ∧
          Holds m'.status.conditions minerPodHealthyCondition .conditionFalse podNotFoundReason
            "Pod not found") ∧
    (Table.find s.podCache key = none → (∃ pod, Table.find s.pods key = some pod) →
      ((Reconcile key now).exec s).1 = .error .alreadyExists) := by
  obtain ⟨m₁, s₁, hf₁, hk₁, hst₁, hfin₁, -, hpods, hview, hrun⟩ := Reconcile_exec_live hfind hlive now
  have hname₁ : m₁.meta.name ≠ "" := (congrArg ObjectKey.name hk₁).trans_ne hname
  rw [hrun, ← hk₁, ← hpods, ← hview]
  refine ⟨fun pod hp => ?_, fun hp hp' => ?_, fun hp ⟨pod, hp'⟩ => ?_⟩
  · obtain ⟨m', he, hm', hmeta', hrefl, -⟩ := reconcileStatus_exec_view s₁ hf₁ hp now
    rw [he]
    exact ⟨rfl, rfl, m', hm', by rw [hmeta']; exact hfin₁, hrefl.congr hst₁ rfl⟩
  · obtain ⟨m', pod, hr, hm', hp'', hmeta', hphase', hholds⟩ :=
      reconcileStatus_exec_create s₁ hf₁ hname₁ hp hp' now
    exact ⟨hr, m', pod, hm', hp'', by rw [hmeta']; exact hfin₁, hphase', hholds⟩
  · exact (reconcileStatus_exec_exists s₁ hname₁ hp hp' now).1

/-- `freshMiner`'s first pass, on a store whose view and tables hold no Pod, creates the Pod and
stores the Miner Pending. -/
theorem pass_reflects_pod_freshStore :
    ((Reconcile freshMiner.meta.key 0).exec freshStore).1 = .ok { requeueAfter := 10000 } ∧
      ∃ m' pod, Table.find ((Reconcile freshMiner.meta.key 0).exec freshStore).2.miners
          freshMiner.meta.key = some m' ∧
        Table.find ((Reconcile freshMiner.meta.key 0).exec freshStore).2.pods freshMiner.meta.key =
          some pod ∧
        m'.meta.containsFinalizer minerFinalizer ∧ m'.status.phase = some .pending ∧
        Holds m'.status.conditions minerPodHealthyCondition .conditionFalse podNotFoundReason
          "Pod not found" :=
  (@pass_reflects_pod freshStore freshMiner.meta.key freshMiner (by decide) rfl (by decide) 0).2.1
    rfl rfl

/-! ## Later passes

A pass asks to run again after ten seconds. Once the informer has seen the Pod and one pass has
run on a Miner that is not being deleted, every later pass finds the finalizer, the Pod and a
status that already shows the Pod: it sends no Create and no Update, and its status write changes
nothing but the stamp. -/

/-- The stored Miner `m` after a status write at `now` that changed nothing else. -/
def stamped (m : Miner) (rev now : Nat) : Miner :=
  { m with meta := { m.meta with resourceVersion := rev },
           status := { m.status with lastUpdated := some now } }

/-- A Miner that a pass leaves as it is, apart from the stamp: stored, not being deleted,
carrying the finalizer, with a phase, and showing the Pod that the store and the view both hold
under its key. -/
structure Settled (s : Store) (m : Miner) (pod : Pod) : Prop where
  findMiner : Table.find s.miners m.meta.key = some m
  live : m.meta.deletionTimestamp = none
  finalizer : m.meta.containsFinalizer minerFinalizer
  phase : m.status.phase ≠ none
  findPod : Table.find s.pods m.meta.key = some pod
  findView : Table.find s.podCache m.meta.key = some pod
  shows : Shows pod m

/-- What happens to the Miner `key` when no other writer acts: a pass at a time, or the informer
catching up with the store. -/
inductive Event where
  | pass (now : Nat)
  | sync

/-- The events one after another: the work queue running the requeued key, and the informer. -/
def runEvents (key : ObjectKey) : List Event → Store → Store
  | [], s => s
  | .pass now :: es, s => runEvents key es ((Reconcile key now).exec s).2
  | .sync :: es, s => runEvents key es s.syncPods

/-- The store after a status write that only stamped the stored Miner `m`. -/
def stampStore (s : Store) (m : Miner) (now : Nat) : Store :=
  { s with miners := Table.replace s.miners (stamped m s.revision now), revision := s.revision + 1 }

/-- A pass at `now` on the Miner `key` succeeds and only stamps the stored Miner. -/
def OnlyStamps (key : ObjectKey) (now : Nat) (s : Store) : Prop :=
  ∃ m, Table.find s.miners key = some m ∧
    (Reconcile key now).exec s = (.ok { requeueAfter := 10000 }, stampStore s m now)

section Settled

variable {s : Store} {m : Miner} {pod : Pod}

theorem Settled.reconcileStatus_exec (h : Settled s m pod) (now : Nat) :
    (reconcileStatus m now).exec s =
      ((stamped m s.revision now, .ok { requeueAfter := 10000 }), stampStore s m now) := by
  obtain ⟨x, hw, -, rfl⟩ := perform_updateMinerStatus h.findMiner
    (show ({ m with status := { m.status with lastUpdated := some now } } : Miner).meta = m.meta from rfl)
  simp only [reconcileStatus, exec_bind, reconcilePod_exec_view s m h.findView, h.phase, if_false,
    syncPodStatus_exec s h.findView, podPhaseStatus_of_shows h.shows, perform_bind, exec_call, hw,
    exec_pure]
  rfl

/-- A pass on a settled Miner only stamps it. -/
theorem Settled.exec (h : Settled s m pod) (now : Nat) :
    (Reconcile m.meta.key now).exec s = (.ok { requeueAfter := 10000 }, stampStore s m now) := by
  have he : (ensureFinalizer m).exec s = (.ok m, s) := by
    simp only [ensureFinalizer, h.finalizer, if_true, exec_pure]
  simp only [Reconcile, perform_bind, exec_call, Store.perform, Table.get_of_find h.findMiner, h.live,
    Option.isSome_none, Bool.false_eq_true, if_false, exec_map, reconcile, exec_bind, he,
    h.reconcileStatus_exec now]

/-- The stamp keeps the Miner settled. -/
theorem Settled.stamp (h : Settled s m pod) (now : Nat) :
    Settled (stampStore s m now) (stamped m s.revision now) pod where
  findMiner := Table.find_replace_self h.findMiner rfl
  live := h.live
  finalizer := h.finalizer
  phase := h.phase
  findPod := h.findPod
  findView := h.findView
  shows := h.shows.stamp rfl

/-- The informer catching up keeps the Miner settled: it already saw the stored Pod. -/
theorem Settled.sync (h : Settled s m pod) : Settled s.syncPods m pod :=
  { h with findView := h.findPod }

/-- Passes and syncs one after another keep the Miner settled. -/
theorem Settled.runEvents (h : Settled s m pod) (es : List Event) :
    ∃ m', m'.meta.key = m.meta.key ∧ Settled (runEvents m.meta.key es s) m' pod := by
  induction es generalizing s m with
  | nil => exact ⟨m, rfl, h⟩
  | cons e es ih =>
    cases e with
    | pass now =>
      obtain ⟨m', hk, h'⟩ := ih (h.stamp now)
      exact ⟨m', hk, by simpa only [MinerReconciler.runEvents, h.exec now] using h'⟩
    | sync => exact ih h.sync

end Settled

/-- A pass on a stored Miner that is not being deleted, from a store whose view is caught up,
succeeds in storing the Miner, still not being deleted, beside a Pod under its key. -/
theorem pass_stores_pod {s : Store} {key : ObjectKey} {m : Miner}
    (hfind : Table.find s.miners key = some m) (hlive : m.meta.deletionTimestamp = none)
    (hname : key.name ≠ "") (hsync : s.podCache = s.pods) (now : Nat) :
    ∃ m' pod, Table.find ((Reconcile key now).exec s).2.miners key = some m' ∧
      m'.meta.deletionTimestamp = none ∧ Table.find ((Reconcile key now).exec s).2.pods key = some pod := by
  obtain ⟨m₁, s₁, hf₁, hk₁, -, -, hlive₁, hpods, hview, hrun⟩ := Reconcile_exec_live hfind hlive now
  rw [hrun, ← hk₁]
  rcases hp : Table.find s₁.pods m₁.meta.key with _ | pod
  · obtain ⟨m', pod, -, hm', hp', hmeta', -⟩ := reconcileStatus_exec_create s₁ hf₁
      ((congrArg ObjectKey.name hk₁).trans_ne hname) (by rw [hview, hsync, ← hpods]; exact hp) hp now
    exact ⟨m', pod, hm', by rw [hmeta']; exact hlive₁, hp'⟩
  · obtain ⟨m', he, hm', hmeta', -⟩ := reconcileStatus_exec_view s₁ hf₁
      (by rw [hview, hsync, ← hpods]; exact hp) now
    rw [he]
    exact ⟨m', pod, hm', by rw [hmeta']; exact hlive₁, hp⟩

/-- A pass on a stored Miner that is not being deleted, where the store and the view hold the
same Pod, leaves it settled. -/
theorem settled_of_pass {s : Store} {key : ObjectKey} {m : Miner} {pod : Pod}
    (hfind : Table.find s.miners key = some m) (hlive : m.meta.deletionTimestamp = none)
    (hpod : Table.find s.pods key = some pod) (hview : Table.find s.podCache key = some pod) (now : Nat) :
    ∃ m', m'.meta.key = key ∧ Settled ((Reconcile key now).exec s).2 m' pod := by
  obtain ⟨m₁, s₁, hf₁, hk₁, -, hfin₁, hlive₁, hpods, hview₁, hrun⟩ := Reconcile_exec_live hfind hlive now
  obtain ⟨m', he, hm', hmeta', hrefl, hshows⟩ :=
    reconcileStatus_exec_view s₁ hf₁ (by rw [hk₁, hview₁]; exact hview) now
  have hk' : m'.meta.key = key := by rw [hmeta']; exact hk₁
  have hphase : m'.status.phase ≠ none := by
    unfold Reflects at hrefl
    split at hrefl <;> simp [hrefl.1]
  refine ⟨m', hk', ?_⟩
  rw [hrun, he]
  exact
    { findMiner := by rw [hk', ← hk₁]; exact hm'
      live := by rw [hmeta']; exact hlive₁
      finalizer := by rw [hmeta']; exact hfin₁
      phase := hphase
      findPod := by rw [hk']; exact hpods ▸ hpod
      findView := by rw [hk']; exact hview₁ ▸ hview
      shows := hshows }

/-- Once the informer has caught up and a pass has run on a stored Miner that is not being
deleted, twice over, every later pass on it, after any passes and syncs of the informer in
between and with no other writer, succeeds and changes nothing but the stamp of its status
write: it creates no Pod, updates no finalizer, and leaves the phase, the conditions with their
transition times, the addresses and the failure reason as they are. -/
theorem later_passes_only_stamp {s : Store} {key : ObjectKey} {m : Miner}
    (hfind : Table.find s.miners key = some m) (hlive : m.meta.deletionTimestamp = none)
    (hname : key.name ≠ "") (now₁ now₂ : Nat) (es : List Event) (now' : Nat) :
    OnlyStamps key now' (runEvents key es (runEvents key [.sync, .pass now₁, .sync, .pass now₂] s)) := by
  obtain ⟨m₁, pod, hf₁, hl₁, hp₁⟩ := @pass_stores_pod s.syncPods key m hfind hlive hname rfl now₁
  obtain ⟨m', hk, hset⟩ := @settled_of_pass ((Reconcile key now₁).exec s.syncPods).2.syncPods key m₁ pod
    hf₁ hl₁ hp₁ hp₁ now₂
  obtain ⟨m'', hk', hset'⟩ := hset.runEvents es
  rw [hk] at hk' hset'
  exact ⟨m'', hk' ▸ hset'.findMiner, hk' ▸ hset'.exec now'⟩

/-- `freshMiner`: after the informer's catching up, a pass, another catching up and a pass, the
pass ten seconds later only stamps it. -/
theorem later_passes_only_stamp_freshStore :
    OnlyStamps freshMiner.meta.key 20000 (runEvents freshMiner.meta.key []
      (runEvents freshMiner.meta.key [.sync, .pass 0, .sync, .pass 10000] freshStore)) :=
  @later_passes_only_stamp freshStore freshMiner.meta.key freshMiner (by decide) rfl (by decide) 0
    10000 [] 20000

end MinerReconciler

end Minerx
