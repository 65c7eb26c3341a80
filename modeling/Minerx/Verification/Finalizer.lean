import Minerx.Interleaving
import Minerx.Controller.Miner

/-!
# The Miner finalizer protocol

The Miner finalizer ties a Miner to its Pod: the store keeps a Miner that carries it, marked,
until the controller drops it, which only the delete path does. Two halves of the protocol are
proved here of one pass on the Miner `key`, beside any other writers, with the informer's view
of the Pods as far behind as it may be, and with any call failing (`Guarded`):

* the pass creates only the Pod `key`, and only while the stored Miner `key` carries the
  finalizer, when the others never take that finalizer away (`Reconcile_createsUnderFinalizer`);
* the pass drops the finalizer of no Miner but `key` (`Reconcile_dropsOwn`).

The first is not a fact about one call: it is set up by an earlier call of the pass (the read
that found the finalizer or the Update that added it) and kept by every later call and
environment step. What the others must not do is exactly what one call can break: only an
Update without the finalizer takes it from a Miner (`holdsFinalizer_perform`). `Manager`
composes the passes of all the controllers' workers from these.

The third half one would want, that the finalizer is dropped only once the Pod is gone, does not
hold: the delete path trusts one Pod Get, which the informer answers, and a view that has not yet
seen the Pod lets the pass drop the finalizer with the Pod stored and running
(`MinerPass.deletion_pass_releases`).
-/

namespace Minerx

namespace MinerReconciler

open Controller Condition Prog Relation

/-- The Miner stored under `key` carries the finalizer `f`. -/
def holdsFinalizer (f : String) (key : ObjectKey) (s : Store) : Prop :=
  ∃ m, Table.find s.miners key = some m ∧ m.meta.containsFinalizer f

/-- The Miner stored under `key` carries the Miner finalizer. -/
abbrev finalized (key : ObjectKey) (s : Store) : Prop := holdsFinalizer minerFinalizer key s

/-- The Pod stored under `key`, if there is one, is marked for deletion. -/
def podGone (key : ObjectKey) (s : Store) : Prop :=
  ∀ pod, Table.find s.pods key = some pod → pod.meta.deletionTimestamp.isSome

/-- The passes of the Miner controller on the Miner `key`. -/
def passesOn (key : ObjectKey) (p : Prog (Except Error Result)) : Prop :=
  ∃ now, p = Reconcile key now

/-- A Pod Create is for the Pod `key`, and the Miner `key` carries its finalizer. -/
def CreatesUnderFinalizer (key : ObjectKey) (c : Call) (s : Store) : Prop :=
  ∀ pod, c = .createPod pod → pod.meta.key = key ∧ finalized key s

/-- An Update without the Miner finalizer is for the Miner `key`. -/
def DropsOwn (key : ObjectKey) (c : Call) : Prop :=
  ∀ miner, c = .updateMiner miner → miner.meta.containsFinalizer minerFinalizer = false →
    miner.meta.key = key

/-! ## What one call does -/

section Calls

variable {f : String} {key : ObjectKey} {s : Store}

/-- A status write keeps every Miner's metadata, the finalizer of `key` included. -/
theorem holdsFinalizer_updateMinerStatus (x : Miner) (hs : holdsFinalizer f key s) :
    holdsFinalizer f key (s.perform (.updateMinerStatus x)).2 := by
  obtain ⟨m, hm, hfin⟩ := hs
  simp only [Store.perform]
  rcases Store.write_snd s (Table.updateStatus s.miners s.revision x) _ with h | ⟨a, t, hw, h⟩ <;>
    rw [h]
  · exact ⟨m, hm, hfin⟩
  · obtain ⟨stored, hstored, -, rfl, rfl⟩ := Table.updateStatus_eq_ok_iff.mp hw
    by_cases hk : x.meta.key = key
    · obtain rfl : stored = m := Option.some.inj ((hk ▸ hstored).symm.trans hm)
      exact ⟨_, Table.find_replace_self hm (Table.find_eq_some hm).2, hfin⟩
    · refine ⟨m, (Table.find_replace_of_ne ?_).trans hm, hfin⟩
      exact fun h' => hk ((Table.find_eq_some hstored).2.symm.trans h')

/-- An Update that stores an object carrying the finalizer leaves it under the object's key. -/
theorem holdsFinalizer_updateMiner {x y : Miner} (hx : x.meta.containsFinalizer f)
    (h : (s.perform (.updateMiner x)).1 = .ok y) :
    y.meta.key = x.meta.key ∧ holdsFinalizer f x.meta.key (s.perform (.updateMiner x)).2 := by
  obtain ⟨t, hw, h⟩ := Store.write_eq_ok h
  obtain ⟨stored, hstored, -, rfl, rfl⟩ := Table.update_eq_ok_iff.mp hw
  refine ⟨rfl, ?_⟩
  have hfin : ¬(stored.meta.deletionTimestamp.isSome ∧ x.meta.finalizers = []) := fun h' => by
    simp [ObjectMeta.containsFinalizer, h'.2] at hx
  simp only [Store.perform]
  rw [h, Table.commit, if_neg hfin]
  exact ⟨_, Table.find_replace_self hstored rfl, hx⟩

/-- A status write answers with the object stored under the request's key. -/
theorem key_of_updateMinerStatus {x y : Miner} (h : (s.perform (.updateMinerStatus x)).1 = .ok y) :
    y.meta.key = x.meta.key := by
  obtain ⟨t, hw, -⟩ := Store.write_eq_ok h
  obtain ⟨stored, hstored, -, rfl, -⟩ := Table.updateStatus_eq_ok_iff.mp hw
  exact (Table.find_eq_some hstored).2

/-- A Pod Delete that the store accepts or answers with `NotFound` leaves the Pod gone: the
delete is graceful, so the Pod stays, marked. -/
theorem podGone_deletePod (h : (s.perform (.deletePod key)).1 = .ok () ∨
    (s.perform (.deletePod key)).1 = .error .notFound) : podGone key (s.perform (.deletePod key)).2 := by
  rcases h with h | h
  · obtain ⟨t, hw, h⟩ := Store.write_eq_ok h
    obtain ⟨stored, hstored, ⟨hmarked, rfl⟩ | rfl⟩ := Table.delete_graceful_eq_ok hw <;>
      simp only [Store.perform]  <;> rw [h] <;> intro pod hpod
    · exact Option.some.inj (hstored.symm.trans hpod) ▸ hmarked
    · obtain rfl := Option.some.inj
        (hpod.symm.trans (Table.find_replace_self hstored (Table.find_eq_some hstored).2))
      rfl
  · obtain ⟨hw, h⟩ := Store.write_eq_error h
    simp only [Store.perform]
    rw [h]
    exact fun _ hp => nomatch (Table.delete_eq_error hw).1.symm.trans hp

/-- The finalizer stays on the Miner `key` where the finalizers found under it are kept. -/
theorem holdsFinalizer_of_find {t : Store} (h : ∀ m, Table.find s.miners key = some m →
      m.meta.containsFinalizer f →
      ∃ m', Table.find t.miners key = some m' ∧ m'.meta.finalizers = m.meta.finalizers)
    (hs : holdsFinalizer f key s) : holdsFinalizer f key t := by
  obtain ⟨m, hm, hfin⟩ := hs
  obtain ⟨m', hm', hf⟩ := h m hm hfin
  exact ⟨m', hm', by rwa [ObjectMeta.containsFinalizer, hf]⟩

/-- Only a Miner Update without the finalizer `f`, under `key` and with the stored version, can
take `f` from the Miner `key`: every other call keeps it, whatever the store answers. -/
theorem holdsFinalizer_perform {c : Call} (hc : ∀ x y, c = .updateMiner x →
      Table.find s.miners x.meta.key = some y → x.meta.resourceVersion = y.meta.resourceVersion →
      x.meta.containsFinalizer f = false → x.meta.key ≠ key)
    (hs : holdsFinalizer f key s) : holdsFinalizer f key (s.perform c).2 := by
  have hminers : ∀ t : Store, t.miners = s.miners → holdsFinalizer f key t := fun t h => by
    unfold holdsFinalizer
    rw [h]
    exact hs
  cases c
  case createMiner m =>
    simp only [Store.perform]
    rcases Store.write_snd s (Table.create s.miners s.revision m) _ with h | ⟨_, t, hw, h⟩ <;>
      rw [h]
    · exact hs
    · obtain ⟨-, -, -, -, rfl⟩ := Table.create_eq_ok hw
      refine holdsFinalizer_of_find (fun m hm _ => ⟨m, ?_, rfl⟩) hs
      rw [Table.find_append_singleton, hm]
      rfl
  case updateMiner x =>
    by_cases hk : x.meta.key = key
    · rcases hr : (s.perform (.updateMiner x)).1 with e | y
      · have h : (s.perform (.updateMiner x)).2 = s := (Store.write_eq_error hr).2
        rw [h]
        exact hs
      · obtain ⟨_, hw, -⟩ := Store.write_eq_ok hr
        obtain ⟨stored, hstored, hv, -⟩ := Table.update_eq_ok_iff.mp hw
        have hx : x.meta.containsFinalizer f := by
          by_contra h
          exact hc x stored rfl hstored hv (by simpa using h) hk
        exact hk ▸ (holdsFinalizer_updateMiner hx hr).2
    · simp only [Store.perform]
      rcases Store.write_snd s (Table.update s.miners s.revision x) _ with h | ⟨y, t, hw, h⟩ <;>
        rw [h]
      · exact hs
      · obtain ⟨stored, -, -, hy, rfl⟩ := Table.update_eq_ok_iff.mp hw
        have hky : y.meta.key ≠ key := by rw [hy]; exact hk
        exact holdsFinalizer_of_find (fun m hm _ => ⟨m, (Table.find_commit_of_ne hky).trans hm, rfl⟩)
          hs
  case updateMinerStatus x => exact holdsFinalizer_updateMinerStatus x hs
  case patchMiner k refs =>
    simp only [Store.perform]
    rcases Store.write_snd s (Table.patchOwnerReferences s.miners s.revision k refs) _ with
      h | ⟨_, t, hw, h⟩ <;> rw [h]
    · exact hs
    · exact holdsFinalizer_of_find (fun _ hm _ => Table.find_patchOwnerReferences_finalizers hw hm) hs
  case deleteMiner k =>
    simp only [Store.perform]
    rcases Store.write_snd s (Table.delete s.miners s.revision k false) _ with h | ⟨_, t, hw, h⟩ <;>
      rw [h]
    · exact hs
    · refine holdsFinalizer_of_find (fun m hm hfin => Table.find_delete_finalizers hw hm fun h => ?_)
        hs
      simp [ObjectMeta.containsFinalizer, h] at hfin
  all_goals first
    | exact hminers _ rfl
    | exact hminers _ (Store.write_miners fun _ _ => rfl)

end Calls

/-! ## Pods are created under the finalizer -/

/-- The calls of the Pod and status blocks of a pass on the Miner `key`. -/
def StatusCall (key : ObjectKey) : Call → Prop
  | .getPod _ | .updateMinerStatus _ => True
  | .createPod pod => pod.meta.key = key
  | _ => False

theorem allCalls_reconcilePod (miner : Miner) (now : Nat) :
    AllCalls (StatusCall miner.meta.key) (reconcilePod miner now) := by
  unfold reconcilePod
  refine (AllCalls.perform trivial).bind fun r => ?_
  rcases r with e | pod
  · dsimp only
    split
    · exact .pure _
    · refine (AllCalls.perform (key_createPodSpec miner)).bind fun r => ?_
      rcases r with _ | _ <;> exact .pure _
  · exact .pure _

theorem allCalls_syncPodStatus (key : ObjectKey) (miner : Miner) (now : Nat) :
    AllCalls (StatusCall key) (syncPodStatus miner now) := by
  unfold syncPodStatus
  refine (AllCalls.perform trivial).bind fun r => ?_
  rcases r with (_ | _) | _ <;> exact .pure _

theorem allCalls_reconcileStatus (miner : Miner) (now : Nat) :
    AllCalls (StatusCall miner.meta.key) (reconcileStatus miner now) := by
  unfold reconcileStatus
  refine (allCalls_reconcilePod miner now).bind fun r => ?_
  rcases r with ⟨_, _ | _⟩
  · exact .pure _
  · refine (allCalls_syncPodStatus _ _ now).bind fun r => ?_
    rcases r with ⟨_, _ | _⟩
    · exact .pure _
    · exact (AllCalls.perform trivial).bind fun r => by rcases r with _ | _ <;> exact .pure _

/-- The delete path sends no Create. -/
theorem allCalls_reconcileDelete_noCreate (miner : Miner) (now : Nat) :
    AllCalls (fun c => ∀ pod, c ≠ .createPod pod) (reconcileDelete miner now) := by
  have hpoll : ∀ pod timeout, AllCalls (fun c => ∀ pod, c ≠ .createPod pod)
      (pollUntilContextTimeout podDeletionInterval timeout (deletePodAttempt pod)) := fun pod =>
    AllCalls.pollUntilContextTimeout ((AllCalls.perform fun _ h => by cases h).bind fun r => by
      rcases r with (_ | _) | _ <;> exact .pure _) _
  have hremove : ∀ miner, AllCalls (fun c => ∀ pod, c ≠ .createPod pod)
      (removeMinerFinalizer miner) := fun miner => by
    unfold removeMinerFinalizer
    split
    · exact (AllCalls.perform fun _ h => by cases h).bind fun r => by rcases r with _ | _ <;> exact .pure _
    · exact .pure _
  unfold reconcileDelete
  refine (AllCalls.perform fun _ h => by cases h).bind fun r => ?_
  rcases r with _ | miner'
  · exact .pure _
  · refine (AllCalls.perform fun _ h => by cases h).bind fun r => ?_
    rcases r with (_ | _) | pod
    · exact hremove _
    all_goals try exact .pure _
    refine (hpoll pod _).bind fun r => ?_
    rcases r with _ | _
    · exact .pure _
    · exact hremove _

section Create

variable {E : Store → Store → Prop} {F : Call → Prop} {key : ObjectKey}

theorem finalized_statusCall {c : Call} (hc : StatusCall key c) {s : Store} (hs : finalized key s) :
    finalized key (s.perform c).2 := by
  cases c <;> simp only [StatusCall] at hc
  · exact holdsFinalizer_updateMinerStatus _ hs
  · exact hs
  · simp only [Store.perform]
    rcases Store.write_snd s (Table.create s.pods s.revision _) _ with h | ⟨_, _, _, h⟩ <;> rw [h] <;>
      exact hs

/-- From a store where the Miner `key` carries its finalizer, the Pod and status blocks on it
create its Pod only under the finalizer. -/
theorem reconcileStatus_createsUnderFinalizer (hE : Stable E (finalized key)) {miner : Miner}
    (hkey : miner.meta.key = key) (now : Nat) {s : Store} (hs : finalized key s) :
    Guarded E F (CreatesUnderFinalizer key) (fun _ _ => True) (reconcileStatus miner now) s :=
  Guarded.mono (fun _ _ _ => trivial) (AllCalls.guarded hE
    (fun c _ hc hfin pod h => by subst h; exact ⟨hkey ▸ hc, hfin⟩)
    (fun _ _ hc hfin => finalized_statusCall (hkey ▸ hc) hfin) (allCalls_reconcileStatus miner now) hs)

/-- The non-delete path on the Miner read under `key` creates its Pod only under the finalizer:
the finalizer block either finds it or adds it with an Update that succeeded. -/
theorem reconcile_createsUnderFinalizer (hE : Stable E (finalized key)) {miner : Miner} {t : Store}
    (hfind : Table.find t.miners key = some miner) (now : Nat) :
    Guarded E F (CreatesUnderFinalizer key) (fun _ _ => True) (reconcile miner now) t := by
  have hkey := (Table.find_eq_some hfind).2
  unfold reconcile ensureFinalizer
  split
  · simpa only [pure_bind] using reconcileStatus_createsUnderFinalizer hE hkey now ⟨miner, hfind, ‹_›⟩
  · intro u _
    refine ⟨(fun _ h => nomatch h), ?_, fun _ _ _ => trivial⟩
    simp only [bind_pure_left]
    split
    · exact fun _ _ => trivial
    · rename_i miner' hr
      have hx := (ObjectMeta.key_addFinalizer miner.meta minerFinalizer).trans hkey
      obtain ⟨hkey', hfin⟩ :=
        holdsFinalizer_updateMiner (ObjectMeta.containsFinalizer_addFinalizer _ _) hr
      exact reconcileStatus_createsUnderFinalizer hE (hkey'.trans hx) now (hx ▸ hfin)

/-- A whole pass on the Miner `key` creates its Pod only under the finalizer. -/
theorem Reconcile_createsUnderFinalizer (hE : Stable E (finalized key)) (now : Nat) (s : Store) :
    Guarded E F (CreatesUnderFinalizer key) (fun _ _ => True) (Reconcile key now) s := by
  intro t _
  refine ⟨(fun _ h => nomatch h), ?_, fun _ _ _ => trivial⟩
  simp only [bind_pure_left, Store.perform]
  split
  · exact fun _ _ => trivial
  · exact fun _ _ => trivial
  · rename_i miner hget
    split
    · exact Guarded.map (AllCalls.guarded_of_forall (fun c _ hc pod h => absurd h (hc pod))
        (allCalls_reconcileDelete_noCreate miner now) _)
    · exact Guarded.map (reconcile_createsUnderFinalizer hE (Table.find_of_get_eq_ok hget) now)

end Create

/-! ## The finalizer is dropped only from the pass's own Miner -/

section Drop

variable {E : Store → Store → Prop} {F : Call → Prop} {key : ObjectKey}

/-- The non-delete path sends every Miner Update with the finalizer in it. -/
theorem allCalls_reconcile_keepsFinalizer (miner : Miner) (now : Nat) :
    AllCalls (fun c => ∀ x, c = .updateMiner x → x.meta.containsFinalizer minerFinalizer)
      (reconcile miner now) := by
  unfold reconcile ensureFinalizer
  refine AllCalls.bind ?_ fun r => ?_
  · split
    · exact .pure _
    · exact AllCalls.perform fun x h => by cases h; exact ObjectMeta.containsFinalizer_addFinalizer _ _
  · rcases r with _ | miner'
    · exact .pure _
    · exact (allCalls_reconcileStatus miner' now).imp fun c hc x h => by subst h; exact hc.elim

/-- The finalizer block of the delete path updates only the Miner it holds. -/
theorem allCalls_removeMinerFinalizer (miner : Miner) :
    AllCalls (DropsOwn miner.meta.key) (removeMinerFinalizer miner) := by
  unfold removeMinerFinalizer
  split
  · exact (AllCalls.perform fun x h _ => by cases h; rfl).bind fun r => by
      rcases r with _ | _ <;> exact .pure _
  · exact .pure _

/-- The delete path on a Miner `key` drops the finalizer of no other Miner: the Miner it updates
is the one its status write stored under `key`. -/
theorem reconcileDelete_dropsOwn {miner : Miner} (hkey : miner.meta.key = key) (now : Nat) (s : Store) :
    Guarded E F (fun c _ => DropsOwn key c) (fun _ _ => True) (reconcileDelete miner now) s := by
  intro t _
  refine ⟨(fun _ h => nomatch h), ?_, fun _ _ _ => trivial⟩
  simp only [bind_pure_left]
  split
  · exact fun _ _ => trivial
  · rename_i miner' hr
    have hkey' : miner'.meta.key = key := (key_of_updateMinerStatus hr).trans hkey
    have hremove := hkey' ▸ allCalls_removeMinerFinalizer miner'
    refine AllCalls.guarded_of_forall (fun c _ hc => hc) ?_ _
    refine (AllCalls.perform fun _ h => nomatch h).bind fun r => ?_
    rcases r with (_ | _) | pod
    · exact hremove
    all_goals try exact .pure _
    refine (AllCalls.pollUntilContextTimeout ((AllCalls.perform fun _ h => nomatch h).bind fun r => ?_)
      _ _).bind fun r => ?_
    · rcases r with (_ | _) | _ <;> exact .pure _
    · rcases r with _ | _
      · exact .pure _
      · exact hremove

/-- A whole pass on the Miner `key` drops the finalizer of no other Miner. -/
theorem Reconcile_dropsOwn (now : Nat) (s : Store) :
    Guarded E F (fun c _ => DropsOwn key c) (fun _ _ => True) (Reconcile key now) s := by
  intro t _
  refine ⟨(fun _ h => nomatch h), ?_, fun _ _ _ => trivial⟩
  simp only [bind_pure_left, Store.perform]
  split
  · exact fun _ _ => trivial
  · exact fun _ _ => trivial
  · rename_i miner hget
    split
    · exact Guarded.map (reconcileDelete_dropsOwn (Table.get_eq_ok hget).2 now t)
    · exact Guarded.map (AllCalls.guarded_of_forall
        (fun c _ hc x hx hdrop => absurd (hc x hx) (by simp [hdrop]))
        (allCalls_reconcile_keepsFinalizer miner now) t)

end Drop

end MinerReconciler

end Minerx
