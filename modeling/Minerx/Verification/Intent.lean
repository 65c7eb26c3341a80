import Minerx.Verification.Versions

/-!
# What the controllers never change

The labels and spec of a Chain, MinerSet or Miner say what its owner asked for. No call that a
worker of the manager makes changes them on a stored object, in every interleaving of the
workers, beside any other clients of the store (`Manager.workers_keep_intent`). A worker's Update
passes the version check only when it is the stored object with its controller's finalizer added
or removed; a status write and an owner-reference patch keep the stored labels and spec; a Create
adds an object under a new key; and a Delete removes or marks.

So the chain-name label that `MinerSetReconciler.reconcile` sets on its copy of the MinerSet,
which reaches the store only through the status write, is never stored.

The finalizers are the one part of the metadata the workers do change, and of those only the
Miner finalizer. A Miner that a MinerSet created carries `minerSetFinalizer` as well, and no
worker ever removes it: such a Miner stays in the store for good, marked once its deletion is
asked for (`Manager.minerSetFinalizer_kept`).
-/

namespace Minerx

open Controller Prog Relation

namespace Table

variable {S T : Type}

/-- Under every key where both hold an entry, `t'` keeps the labels and spec of the entry of
`t`. -/
def Keeps (t t' : List (Resource S T)) : Prop :=
  ∀ key y y', find t key = some y → find t' key = some y' →
    y'.meta.labels = y.meta.labels ∧ y'.spec = y.spec

/-- An object written over the entry `old`, if there is one, with its labels and spec. -/
def SameIntent (old : Option (Resource S T)) (y : Resource S T) : Prop :=
  ∀ x, old = some x → y.meta.labels = x.meta.labels ∧ y.spec = x.spec

theorem Written.keeps {t t' : List (Resource S T)} (h : Written SameIntent t t') : Keeps t t' := by
  intro key y y' hy hy'
  rcases h key y' hy' with h' | h'
  · obtain rfl : y' = y := Option.some.inj (h'.symm.trans hy)
    exact ⟨rfl, rfl⟩
  · exact h' y hy

variable {t t' : List (Resource S T)} {rev : Nat} {x : Resource S T}

theorem sameIntent_create {o : Resource S T} (h : create t rev o = .ok (x, t')) :
    Written SameIntent t t' :=
  written_create h fun _ h => nomatch h

/-- An Update that the version check accepts only as the stored object with the finalizer `f`
added or removed keeps the stored labels and spec. -/
theorem sameIntent_update [DecidableEq S] {f : String} {o : Resource S T}
    (hcur : ∀ y, find t o.meta.key = some y → Current f o y) (h : update t rev o = .ok (x, t')) :
    Written SameIntent t t' :=
  written_update h fun stored hf hv _ hx => by
    cases hx
    rcases hcur stored hf hv with rfl | rfl
    · exact ⟨ObjectMeta.labels_addFinalizer _ _, rfl⟩
    · exact ⟨rfl, rfl⟩

theorem sameIntent_updateStatus {o : Resource S T} (h : updateStatus t rev o = .ok (x, t')) :
    Written SameIntent t t' :=
  written_updateStatus h fun _ _ _ hx => by cases hx; exact ⟨rfl, rfl⟩

theorem sameIntent_patchOwnerReferences {key : ObjectKey} {refs : List OwnerReference}
    (h : patchOwnerReferences t rev key refs = .ok (x, t')) : Written SameIntent t t' :=
  written_patchOwnerReferences h fun _ _ _ hx => by cases hx; exact ⟨rfl, rfl⟩

theorem sameIntent_delete {key : ObjectKey} {graceful : Bool}
    (h : delete t rev key graceful = .ok ((), t')) : Written SameIntent t t' :=
  written_delete h fun _ _ _ hx => by cases hx; exact ⟨rfl, rfl⟩

end Table

namespace Store

variable {S T : Type} {tbl : Store → List (Resource S T)}
  {P : Option (Resource S T) → Resource S T → Prop}

/-- A write of `tbl` by a table operation that writes as `P` allows. -/
theorem written_write {s : Store} {r : Except Error (α × List (Resource S T))}
    {set : List (Resource S T) → Store → Store} (hset : ∀ t u, tbl (set t u) = t)
    (hr : ∀ a t, r = .ok (a, t) → Table.Written P (tbl s) t) :
    Table.Written P (tbl s) (tbl (s.write r set).2) := by
  rcases Store.write_snd s r set with h | ⟨a, t, hrt, h⟩ <;> rw [h]
  · exact Table.written_self _
  · rw [hset]
    exact hr a t hrt

/-- A write of another table leaves `tbl` as it is. -/
theorem written_write_other {s : Store} {r : Except Error (α × List β)} {set : List β → Store → Store}
    (hset : ∀ t u, tbl (set t u) = tbl u) (hkeep : tbl { s with revision := s.revision + 1 } = tbl s) :
    Table.Written P (tbl s) (tbl (s.write r set).2) := by
  rcases Store.write_snd s r set with h | ⟨_, t, -, h⟩ <;> rw [h]
  · exact Table.written_self _
  · rw [hset, hkeep]
    exact Table.written_self _

variable {c : Call} {s : Store}

theorem keeps_chains (h : UpdatesCurrent c s) : Table.Keeps s.chains (s.perform c).2.chains := by
  refine Table.Written.keeps ?_
  cases c <;> simp only [Store.perform]
  all_goals try first
    | exact Table.written_self _
    | exact written_write_other (fun _ _ => rfl) rfl
  · exact written_write (fun _ _ => rfl) fun _ _ hr =>
      Table.sameIntent_update (fun y hy => h.1 _ y rfl hy) hr
  · exact written_write (fun _ _ => rfl) fun _ _ hr => Table.sameIntent_updateStatus hr

theorem keeps_minerSets (h : UpdatesCurrent c s) :
    Table.Keeps s.minerSets (s.perform c).2.minerSets := by
  refine Table.Written.keeps ?_
  cases c <;> simp only [Store.perform]
  all_goals try first
    | exact Table.written_self _
    | exact written_write_other (fun _ _ => rfl) rfl
  · exact written_write (fun _ _ => rfl) fun _ _ hr =>
      Table.sameIntent_update (fun y hy => h.2.1 _ y rfl hy) hr
  · exact written_write (fun _ _ => rfl) fun _ _ hr => Table.sameIntent_updateStatus hr

theorem keeps_miners (h : UpdatesCurrent c s) : Table.Keeps s.miners (s.perform c).2.miners := by
  refine Table.Written.keeps ?_
  cases c <;> simp only [Store.perform]
  all_goals try first
    | exact Table.written_self _
    | exact written_write_other (fun _ _ => rfl) rfl
  · exact written_write (fun _ _ => rfl) fun _ _ hr => Table.sameIntent_create hr
  · exact written_write (fun _ _ => rfl) fun _ _ hr =>
      Table.sameIntent_update (fun y hy => h.2.2 _ y rfl hy) hr
  · exact written_write (fun _ _ => rfl) fun _ _ hr => Table.sameIntent_updateStatus hr
  · exact written_write (fun _ _ => rfl) fun _ _ hr => Table.sameIntent_patchOwnerReferences hr
  · exact written_write (fun _ _ => rfl) fun _ _ hr => Table.sameIntent_delete hr

end Store

namespace MinerReconciler

/-- A call whose accepted Updates only add or remove the Miner finalizer keeps every other
finalizer on the Miner `key`. -/
theorem holdsFinalizer_of_updatesCurrent {f : String} (hf : f ≠ minerFinalizer) {key : ObjectKey}
    {c : Call} {s : Store} (h : UpdatesCurrent c s) (hs : holdsFinalizer f key s) :
    holdsFinalizer f key (s.perform c).2 := by
  refine holdsFinalizer_perform (fun x y hc hy hv hx hk => ?_) hs
  obtain ⟨m, hm, hfin⟩ := hs
  subst hk
  obtain rfl : y = m := Option.some.inj (hy.symm.trans hm)
  rcases h.2.2 x y hc hy hv with rfl | rfl
  · exact Bool.false_ne_true (hx.symm.trans (ObjectMeta.containsFinalizer_addFinalizer_of hfin _))
  · exact Bool.false_ne_true (hx.symm.trans (ObjectMeta.containsFinalizer_removeFinalizer_of hfin hf))

end MinerReconciler

namespace Manager

open MinerReconciler

/-- In every interleaving of the manager's workers, from a store whose versions are below its
revision, with every worker idle, beside any other clients of the store and with any call
failing, no call a worker makes changes the labels or the spec of a stored Chain, MinerSet or
Miner. -/
theorem workers_keep_intent (ws : Workers) {E : Store → Store → Prop} {F : Call → Prop}
    (hE : ByCalls E) {s : Store} (hs : AllVersioned s)
    {st : Store × List (Option (Prog (Except Error Result)))}
    (hreach : ReflTransGen (Interleaved E F ws.Start) (s, ws.idle) st) (i : Nat)
    {p : Prog (Except Error Result)} (hp : st.2[i]? = some (some p)) {c : Call}
    (hc : nextCall p = some c) :
    Table.Keeps st.1.chains (st.1.perform c).2.chains ∧
      Table.Keeps st.1.minerSets (st.1.perform c).2.minerSets ∧
      Table.Keeps st.1.miners (st.1.perform c).2.miners := by
  have h : UpdatesCurrent c st.1 :=
    Interleaved.guarded_of_inv (hE.stable AllVersioned.perform) AllVersioned.perform
      (fun i p s hp hs => Workers.updatesCurrent_start hE i p s hp hs)
      (fun _ => ws.eq_none_of_mem_idle) hs hreach hp hc
  exact ⟨Store.keeps_chains h, Store.keeps_minerSets h, Store.keeps_miners h⟩

theorem workers_keep_intent_freshWorkers :
    ∃ st p o, ReflTransGen (Interleaved (fun _ _ => False) (fun _ => False) freshWorkers.Start)
        (freshStore, freshWorkers.idle) st ∧ st.2[0]? = some (some p) ∧
      nextCall p = some (.updateMiner o) ∧
      Table.Keeps st.1.chains (st.1.perform (.updateMiner o)).2.chains ∧
      Table.Keeps st.1.minerSets (st.1.perform (.updateMiner o)).2.minerSets ∧
      Table.Keeps st.1.miners (st.1.perform (.updateMiner o)).2.miners :=
  have h : replayAll (fun _ => False) (freshStore, freshWorkers.idle)
      [(0, .start (MinerReconciler.Reconcile freshMiner.meta.key 0)), (0, .call)] = some _ := rfl
  have hreach := replayAll_reachable (fun i p hp => by
    rcases hp with _ | ⟨_, _ | ⟨_, ⟨⟩⟩⟩
    exact ⟨_, rfl, 0, rfl⟩) h
  have hs : AllVersioned freshStore :=
    ⟨versioned_of_forall (by decide), versioned_of_forall (by decide),
      versioned_of_forall (by decide)⟩
  ⟨_, _, _, hreach, rfl, rfl,
    workers_keep_intent freshWorkers (fun _ _ h => h.elim) hs hreach 0 rfl rfl⟩

/-- In every interleaving of the manager's workers, from a store whose versions are below its
revision, with every worker idle, beside other clients of the store that never take
`minerSetFinalizer` from a Miner, and with any call failing, a Miner stored with
`minerSetFinalizer` stays stored with it. -/
theorem minerSetFinalizer_kept (ws : Workers) {E : Store → Store → Prop} {F : Call → Prop}
    (hE : ByCalls E) {key : ObjectKey} (hEf : Stable E (holdsFinalizer minerSetFinalizer key))
    {s : Store} (hs : AllVersioned s) (hk : holdsFinalizer minerSetFinalizer key s)
    {st : Store × List (Option (Prog (Except Error Result)))}
    (hreach : ReflTransGen (Interleaved E F ws.Start) (s, ws.idle) st) :
    holdsFinalizer minerSetFinalizer key st.1 :=
  Interleaved.inv_of_guarantee (hE.stable AllVersioned.perform) AllVersioned.perform
    (fun i p s hp hs => Workers.updatesCurrent_start hE i p s hp hs)
    (fun _ => ws.eq_none_of_mem_idle) hs hEf
    (fun _ _ _ h => holdsFinalizer_of_updatesCurrent (by decide) h) hk hreach

/-- A Miner worker for `minerM` alone. -/
def keyMWorkers : Workers where
  list := [.miner keyM]
  apart := by decide
  named := by decide

/-- The Miner worker's whole deletion pass on the marked `minerM`, which has no Pod, leaves
`minerM` in the store with `minerSetFinalizer`. -/
theorem minerSetFinalizer_kept_keyMWorkers :
    ∃ st, ReflTransGen (Interleaved (fun _ _ => False) (fun _ => False) keyMWorkers.Start)
        (storeM none (some 4) false, keyMWorkers.idle) st ∧ st.2 = [none] ∧
      holdsFinalizer minerSetFinalizer keyM st.1 :=
  have h : replayAll (fun _ => False) (storeM none (some 4) false, keyMWorkers.idle)
      [(0, .start (Reconcile keyM 0)), (0, .call), (0, .call), (0, .call), (0, .call),
        (0, .finish)] = some _ := rfl
  have hreach := replayAll_reachable (fun i p hp => by
    rcases hp with _ | ⟨_, _ | ⟨_, _ | ⟨_, _ | ⟨_, _ | ⟨_, _ | ⟨_, ⟨⟩⟩⟩⟩⟩⟩⟩
    exact ⟨_, rfl, 0, rfl⟩) h
  have hs : AllVersioned (storeM none (some 4) false) :=
    ⟨versioned_of_forall (by decide), versioned_of_forall (by decide),
      versioned_of_forall (by decide)⟩
  ⟨_, hreach, rfl, minerSetFinalizer_kept keyMWorkers (fun _ _ h => h.elim) (fun _ _ h => h.elim)
    hs ⟨minerM none (some 4), by decide, by decide⟩ hreach⟩

end Manager

end Minerx
