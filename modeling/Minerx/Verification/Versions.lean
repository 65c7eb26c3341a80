import Minerx.Verification.Manager

/-!
# The version check: no lost Update

An Update carries the resource version its object was read at, and the store refuses it once the
stored object has moved on (`Table.update`). Every write stamps what it stores with the store's
revision and moves the revision on. So while every stored version is below the revision
(`Versioned`, which every call keeps), an object read at one moment is still the stored one at a
later moment exactly when the stored version is the one read (`Since.eq`): an Update the check
accepts was computed from the current object.

Each Update the controllers send is the object of their latest read of it, or of the write that
returned it, with only their own finalizer added or removed, and nothing but reads and status
writes stands between. So in every interleaving of the manager's workers, beside any other
clients of the store, every Update a worker sends that the check accepts changes the stored
object only by that finalizer (`Manager.updates_current`): no worker overwrites what another
client wrote to a Chain, MinerSet or Miner since the worker read it.
-/

namespace Minerx

open Controller Prog Relation

namespace Table

variable {S T : Type}

/-- Under every key, `t'` holds the entry `t` held there, or an object that `P` allows over that
entry. Every table operation is described this way, each with the objects it writes. -/
def Written (P : Option (Resource S T) → Resource S T → Prop) (t t' : List (Resource S T)) : Prop :=
  ∀ key y, find t' key = some y → find t key = some y ∨ P (find t key) y

section Written

variable {P : Option (Resource S T) → Resource S T → Prop}

theorem written_self (t : List (Resource S T)) : Written P t t :=
  fun _ _ h => .inl h

theorem written_replace (t : List (Resource S T)) {o : Resource S T}
    (ho : P (find t o.meta.key) o) : Written P t (replace t o) := by
  intro key y h
  rw [find_replace] at h
  cases hf : find t key with
  | none => simp [hf] at h
  | some z =>
    simp only [hf, Option.map_some', Option.some.injEq] at h
    split_ifs at h with hz
    · obtain rfl : key = o.meta.key := (find_eq_some hf).2.symm.trans hz
      exact .inr (h ▸ hf ▸ ho)
    · exact .inl (congrArg some h)

theorem written_erase (t : List (Resource S T)) (key' : ObjectKey) : Written P t (erase t key') := by
  intro key y h
  rw [find_erase] at h
  split_ifs at h
  exact .inl h

theorem written_commit (t : List (Resource S T)) {o : Resource S T}
    (ho : P (find t o.meta.key) o) : Written P t (commit t o) := by
  unfold commit
  split
  · exact written_erase _ _
  · exact written_replace _ ho

theorem written_create {t t' : List (Resource S T)} {rev : Nat} {o x : Resource S T}
    (h : create t rev o = .ok (x, t')) (hx : P none x) : Written P t t' := by
  obtain ⟨-, -, -, -, rfl⟩ := create_eq_ok h
  intro key y hy
  rw [find_append_singleton] at hy
  cases hf : find t key with
  | some z => exact .inl (by simpa [hf] using hy)
  | none =>
    simp only [hf, Option.none_or] at hy
    split_ifs at hy
    exact .inr (Option.some.inj hy ▸ hx)

theorem written_update [DecidableEq S] {t t' : List (Resource S T)} {rev : Nat}
    {o x : Resource S T} (h : update t rev o = .ok (x, t'))
    (hx : ∀ stored, find t o.meta.key = some stored →
      o.meta.resourceVersion = stored.meta.resourceVersion → P (some stored)
        { o with
          meta := { o.meta with
            uid := stored.meta.uid, resourceVersion := rev,
            generation := if o.spec = stored.spec then stored.meta.generation
              else stored.meta.generation + 1,
            deletionTimestamp := stored.meta.deletionTimestamp }
          status := stored.status }) :
    Written P t t' := by
  obtain ⟨stored, hf, hv, rfl, rfl⟩ := update_eq_ok_iff.mp h
  exact written_commit _ (hf ▸ hx stored hf hv)

theorem written_updateStatus {t t' : List (Resource S T)} {rev : Nat} {o x : Resource S T}
    (h : updateStatus t rev o = .ok (x, t'))
    (hx : ∀ stored, find t o.meta.key = some stored → P (some stored)
      { stored with meta := { stored.meta with resourceVersion := rev }, status := o.status }) :
    Written P t t' := by
  obtain ⟨stored, hf, -, rfl, rfl⟩ := updateStatus_eq_ok_iff.mp h
  refine written_replace _ (?_ : P (find t stored.meta.key) _)
  rw [(find_eq_some hf).2, hf]
  exact hx stored hf

theorem written_patchOwnerReferences {t t' : List (Resource S T)} {rev : Nat} {key : ObjectKey}
    {refs : List OwnerReference} {x : Resource S T}
    (h : patchOwnerReferences t rev key refs = .ok (x, t'))
    (hx : ∀ stored, find t key = some stored → P (some stored)
      { stored with meta := { stored.meta with ownerReferences := refs, resourceVersion := rev } }) :
    Written P t t' := by
  unfold patchOwnerReferences at h
  split at h
  · cases h
  · rename_i stored hfind
    cases h
    refine written_replace _ (?_ : P (find t stored.meta.key) _)
    rw [(find_eq_some hfind).2, hfind]
    exact hx stored hfind

theorem written_delete {t t' : List (Resource S T)} {rev : Nat} {key : ObjectKey} {graceful : Bool}
    (h : delete t rev key graceful = .ok ((), t'))
    (hx : ∀ stored, find t key = some stored → P (some stored)
      { stored with meta := { stored.meta with deletionTimestamp := some rev, resourceVersion := rev } }) :
    Written P t t' := by
  unfold delete at h
  split at h
  · cases h
  · rename_i stored hfind
    split_ifs at h <;> cases h
    · exact written_erase _ _
    · exact written_self _
    · refine written_replace _ (?_ : P (find t stored.meta.key) _)
      rw [(find_eq_some hfind).2, hfind]
      exact hx stored hfind

end Written

/-- What a write at revision `rev` leaves under every key: the entry found there before, or an
entry stamped with `rev`. -/
abbrev Stamped (t t' : List (Resource S T)) (rev : Nat) : Prop :=
  Written (fun _ y => y.meta.resourceVersion = rev) t t'

theorem stamped_create {t t' : List (Resource S T)} {rev : Nat} {o x : Resource S T}
    (h : create t rev o = .ok (x, t')) : Stamped t t' rev := by
  refine written_create h ?_
  unfold create at h
  split at h <;> dsimp only at h <;> split at h <;> cases h <;> rfl

theorem stamped_update [DecidableEq S] {t t' : List (Resource S T)} {rev : Nat}
    {o x : Resource S T} (h : update t rev o = .ok (x, t')) : Stamped t t' rev :=
  written_update h fun _ _ _ => rfl

theorem stamped_updateStatus {t t' : List (Resource S T)} {rev : Nat} {o x : Resource S T}
    (h : updateStatus t rev o = .ok (x, t')) : Stamped t t' rev :=
  written_updateStatus h fun _ _ => rfl

theorem stamped_patchOwnerReferences {t t' : List (Resource S T)} {rev : Nat} {key : ObjectKey}
    {refs : List OwnerReference} {x : Resource S T}
    (h : patchOwnerReferences t rev key refs = .ok (x, t')) : Stamped t t' rev :=
  written_patchOwnerReferences h fun _ _ => rfl

theorem stamped_delete {t t' : List (Resource S T)} {rev : Nat} {key : ObjectKey} {graceful : Bool}
    (h : delete t rev key graceful = .ok ((), t')) : Stamped t t' rev :=
  written_delete h fun _ _ => rfl

end Table

namespace Store

variable {S T : Type} (tbl : Store → List (Resource S T))

/-- From `s` to `s'` the revision does not go back, and under every key the table `tbl` holds the
entry it held, or one stamped with the revision of `s`, which has then moved on. -/
def StampedStep (s s' : Store) : Prop :=
  s.revision ≤ s'.revision ∧ ∀ key y, Table.find (tbl s') key = some y →
    Table.find (tbl s) key = some y ∨ (y.meta.resourceVersion = s.revision ∧ s.revision < s'.revision)

variable {tbl}

theorem stampedStep_self (s : Store) : StampedStep tbl s s :=
  ⟨le_rfl, fun _ _ h => .inl h⟩

/-- A write of another table leaves `tbl` as it is. -/
theorem stampedStep_write_other {s : Store} {r : Except Error (α × List β)} {set : List β → Store → Store}
    (hset : ∀ t u, tbl (set t u) = tbl u) (hrev : ∀ t u, (set t u).revision = u.revision)
    (hkeep : tbl { s with revision := s.revision + 1 } = tbl s) :
    StampedStep tbl s (s.write r set).2 := by
  rcases Store.write_snd s r set with h | ⟨_, t, -, h⟩ <;> rw [h]
  · exact stampedStep_self s
  · refine ⟨by rw [hrev]; exact Nat.le_succ _, fun key y hy => .inl ?_⟩
    rwa [hset, hkeep] at hy

/-- A write of `tbl` by a table operation that stamps with the revision. -/
theorem stampedStep_write {s : Store} {r : Except Error (α × List (Resource S T))}
    {set : List (Resource S T) → Store → Store}
    (hset : ∀ t u, tbl (set t u) = t) (hrev : ∀ t u, (set t u).revision = u.revision)
    (hr : ∀ a t, r = .ok (a, t) → Table.Stamped (tbl s) t s.revision) :
    StampedStep tbl s (s.write r set).2 := by
  rcases Store.write_snd s r set with h | ⟨a, t, hrt, h⟩ <;> rw [h]
  · exact stampedStep_self s
  · have hlt : s.revision < (set t { s with revision := s.revision + 1 }).revision := by
      rw [hrev]; exact Nat.lt_succ_self _
    refine ⟨hlt.le, fun key y hy => ?_⟩
    rw [hset] at hy
    exact (hr a t hrt key y hy).imp_right fun hv => ⟨hv, hlt⟩

theorem stampedStep_chains (c : Call) (s : Store) : StampedStep Store.chains s (s.perform c).2 := by
  cases c <;> simp only [Store.perform]
  all_goals try first
    | exact stampedStep_self s
    | exact stampedStep_write_other (fun _ _ => rfl) (fun _ _ => rfl) rfl
  · exact stampedStep_write (fun _ _ => rfl) (fun _ _ => rfl) fun _ _ h => Table.stamped_update h
  · exact stampedStep_write (fun _ _ => rfl) (fun _ _ => rfl) fun _ _ h => Table.stamped_updateStatus h

theorem stampedStep_minerSets (c : Call) (s : Store) :
    StampedStep Store.minerSets s (s.perform c).2 := by
  cases c <;> simp only [Store.perform]
  all_goals try first
    | exact stampedStep_self s
    | exact stampedStep_write_other (fun _ _ => rfl) (fun _ _ => rfl) rfl
  · exact stampedStep_write (fun _ _ => rfl) (fun _ _ => rfl) fun _ _ h => Table.stamped_update h
  · exact stampedStep_write (fun _ _ => rfl) (fun _ _ => rfl) fun _ _ h => Table.stamped_updateStatus h

theorem stampedStep_miners (c : Call) (s : Store) : StampedStep Store.miners s (s.perform c).2 := by
  cases c <;> simp only [Store.perform]
  all_goals try first
    | exact stampedStep_self s
    | exact stampedStep_write_other (fun _ _ => rfl) (fun _ _ => rfl) rfl
  · exact stampedStep_write (fun _ _ => rfl) (fun _ _ => rfl) fun _ _ h => Table.stamped_create h
  · exact stampedStep_write (fun _ _ => rfl) (fun _ _ => rfl) fun _ _ h => Table.stamped_update h
  · exact stampedStep_write (fun _ _ => rfl) (fun _ _ => rfl) fun _ _ h => Table.stamped_updateStatus h
  · exact stampedStep_write (fun _ _ => rfl) (fun _ _ => rfl)
      fun _ _ h => Table.stamped_patchOwnerReferences h
  · exact stampedStep_write (fun _ _ => rfl) (fun _ _ => rfl) fun _ _ h => Table.stamped_delete h

end Store

/-! ## Versions below the revision -/

section Versions

variable {S T : Type} (tbl : Store → List (Resource S T))

/-- Every entry of `tbl` carries a resource version below the store's revision. -/
def Versioned (s : Store) : Prop :=
  ∀ key y, Table.find (tbl s) key = some y → y.meta.resourceVersion < s.revision

/-- `x` was read below the revision `N`, and since then the entry of `tbl` under its key is `x`
itself or was written at `N` or later. -/
def Since (x : Resource S T) (N : Nat) (s : Store) : Prop :=
  x.meta.resourceVersion < N ∧ N ≤ s.revision ∧
    ∀ y, Table.find (tbl s) x.meta.key = some y → y = x ∨ N ≤ y.meta.resourceVersion

variable {tbl} {s s' : Store}

theorem versioned_of_forall (h : ∀ y ∈ tbl s, y.meta.resourceVersion < s.revision) :
    Versioned tbl s :=
  fun _ y hy => h y (Table.find_eq_some hy).1

theorem Store.StampedStep.versioned (h : Store.StampedStep tbl s s') (hs : Versioned tbl s) :
    Versioned tbl s' := by
  intro key y hy
  rcases h.2 key y hy with hy' | ⟨hv, hlt⟩
  · exact (hs key y hy').trans_le h.1
  · exact hv ▸ hlt

theorem Store.StampedStep.since (h : Store.StampedStep tbl s s') {x : Resource S T} {N : Nat}
    (hs : Since tbl x N s) : Since tbl x N s' := by
  refine ⟨hs.1, hs.2.1.trans h.1, fun y hy => ?_⟩
  rcases h.2 _ y hy with hy' | ⟨hv, -⟩
  · exact hs.2.2 y hy'
  · exact .inr (hv ▸ hs.2.1)

/-- The version check finds the object read: the entry under `x`'s key that carries `x`'s
version is `x`. -/
theorem Since.eq {x y : Resource S T} {N : Nat} (hs : Since tbl x N s)
    (hy : Table.find (tbl s) x.meta.key = some y)
    (hv : y.meta.resourceVersion = x.meta.resourceVersion) : y = x :=
  (hs.2.2 y hy).resolve_right fun h => absurd (hv ▸ h) (Nat.not_le.mpr hs.1)

/-- An object read from a store whose versions are below its revision is `Since` that
revision. -/
theorem since_of_find (hs : Versioned tbl s) {key : ObjectKey} {x : Resource S T}
    (hx : Table.find (tbl s) key = some x) : Since tbl x s.revision s := by
  refine ⟨hs key x hx, le_rfl, fun y hy => .inl ?_⟩
  rw [(Table.find_eq_some hx).2] at hy
  exact Option.some.inj (hy.symm.trans hx)

end Versions

/-- Every table's versions are below the revision. -/
def AllVersioned (s : Store) : Prop :=
  Versioned Store.chains s ∧ Versioned Store.minerSets s ∧ Versioned Store.miners s

theorem AllVersioned.perform (c : Call) (s : Store) (hs : AllVersioned s) :
    AllVersioned (s.perform c).2 :=
  ⟨(Store.stampedStep_chains c s).versioned hs.1, (Store.stampedStep_minerSets c s).versioned hs.2.1,
    (Store.stampedStep_miners c s).versioned hs.2.2⟩

/-- Every step of `R` is a call some client of the store makes. -/
def ByCalls (R : Store → Store → Prop) : Prop :=
  ∀ s t, R s t → ∃ c, t = (s.perform c).2

theorem ByCalls.stable {R : Store → Store → Prop} (hR : ByCalls R) {P : Store → Prop}
    (hP : ∀ c s, P s → P (s.perform c).2) : Stable R P := fun s t h hs => by
  obtain ⟨c, rfl⟩ := hR s t h
  exact hP c s hs

/-! ## The guarantee -/

/-- The calls that send a whole object back with the version it was read at. -/
def Call.isUpdate : Call → Bool
  | .updateChain _ | .updateMinerSet _ | .updateMiner _ => true
  | _ => false

section Guarantee

variable {S T : Type}

/-- An Update of `o` that the version check accepts over the stored `y` adds or removes only the
finalizer `f`. -/
def Current (f : String) (o y : Resource S T) : Prop :=
  o.meta.resourceVersion = y.meta.resourceVersion →
    o = { y with meta := y.meta.addFinalizer f } ∨ o = { y with meta := y.meta.removeFinalizer f }

variable {tbl : Store → List (Resource S T)} {x y : Resource S T} {N : Nat} {s : Store}
  {f : String}

theorem current_addFinalizer (hs : Since tbl x N s)
    (hy : Table.find (tbl s) ({ x with meta := x.meta.addFinalizer f } : Resource S T).meta.key =
      some y) : Current f { x with meta := x.meta.addFinalizer f } y := by
  intro hv
  rw [ObjectMeta.key_addFinalizer] at hy
  rw [← hs.eq hy (hv.symm.trans (ObjectMeta.resourceVersion_addFinalizer _ _))]
  exact .inl rfl

theorem current_removeFinalizer (hs : Since tbl x N s)
    (hy : Table.find (tbl s) ({ x with meta := x.meta.removeFinalizer f } : Resource S T).meta.key =
      some y) : Current f { x with meta := x.meta.removeFinalizer f } y := by
  intro hv
  rw [← hs.eq hy hv.symm]
  exact .inr rfl

end Guarantee

/-- Every Update the call makes that the version check accepts adds or removes only its
controller's finalizer on the stored object. -/
def UpdatesCurrent (c : Call) (s : Store) : Prop :=
  (∀ o y, c = .updateChain o → Table.find s.chains o.meta.key = some y →
    Current chainFinalizer o y) ∧
  (∀ o y, c = .updateMinerSet o → Table.find s.minerSets o.meta.key = some y →
    Current minerSetFinalizer o y) ∧
  (∀ o y, c = .updateMiner o → Table.find s.miners o.meta.key = some y → Current minerFinalizer o y)

theorem updatesCurrent_of_isUpdate {c : Call} (h : c.isUpdate = false) (s : Store) :
    UpdatesCurrent c s :=
  ⟨fun _ _ hc => (by subst hc; cases h), fun _ _ hc => (by subst hc; cases h),
    fun _ _ hc => (by subst hc; cases h)⟩

/-! ## The passes -/

section Passes

variable {R : Store → Store → Prop} {F : Call → Prop}

theorem ByCalls.since {S T : Type} {tbl : Store → List (Resource S T)}
    (hstep : ∀ c s, Store.StampedStep tbl s (s.perform c).2) (hR : ByCalls R) (x : Resource S T)
    (N : Nat) : Stable R (Since tbl x N) :=
  hR.stable fun c s h => (hstep c s).since h

theorem ByCalls.versioned {S T : Type} {tbl : Store → List (Resource S T)}
    (hstep : ∀ c s, Store.StampedStep tbl s (s.perform c).2) (hR : ByCalls R) :
    Stable R (Versioned tbl) :=
  hR.stable fun c s h => (hstep c s).versioned h

namespace MinerReconciler

/-- The object a status write returns is `Since` the revision the write moved to. -/
theorem since_updateMinerStatus {t : Store} {o x : Miner}
    (h : (t.perform (.updateMinerStatus o)).1 = .ok x) :
    Since Store.miners x (t.revision + 1) (t.perform (.updateMinerStatus o)).2 := by
  obtain ⟨u, hw, hu⟩ := Store.write_eq_ok h
  obtain ⟨stored, hfind, -, hx, rfl⟩ := Table.updateStatus_eq_ok_iff.mp hw
  have hkey : x.meta.key = o.meta.key := by rw [hx]; exact (Table.find_eq_some hfind).2
  have hmin : (t.perform (.updateMinerStatus o)).2.miners = Table.replace t.miners x :=
    congrArg Store.miners hu
  refine ⟨by rw [hx]; exact Nat.lt_succ_self _, (congrArg Store.revision hu).ge, fun y hy => .inl ?_⟩
  rw [hmin] at hy
  exact Option.some.inj (hy.symm.trans (Table.find_replace_self (hkey ▸ hfind) rfl))

theorem isUpdate_of_statusCall {key : ObjectKey} {c : Call} (hc : StatusCall key c) :
    c.isUpdate = false := by
  cases c <;> first | rfl | exact hc.elim

/-- The finalizer block of the delete path, on an object the pass holds since its read. -/
theorem removeMinerFinalizer_updatesCurrent (hR : ByCalls R) {x : Miner} {N : Nat} {s : Store}
    (hs : Since Store.miners x N s) :
    Guarded R F UpdatesCurrent (fun _ _ => True) (removeMinerFinalizer x) s := by
  unfold removeMinerFinalizer
  split
  · refine guarded_call (hR.since Store.stampedStep_miners x N)
      (fun t ht => ⟨fun _ _ h => (nomatch h), fun _ _ h => (nomatch h),
        fun o y h hy => by cases h; exact current_removeFinalizer ht hy⟩)
      (fun _ _ => ⟨?_, ?_⟩) hs
    · simp only [bind_pure_left]
      split <;> exact fun _ _ => trivial
    · exact fun _ _ _ => trivial
  · exact fun _ _ => trivial

/-- The delete path drops the finalizer from the object its status write returned. -/
theorem reconcileDelete_updatesCurrent (hR : ByCalls R) (miner : Miner) (now : Nat) (s : Store) :
    Guarded R F UpdatesCurrent (fun _ _ => True) (reconcileDelete miner now) s := by
  intro t _
  refine ⟨updatesCurrent_of_isUpdate (by rfl) t, ?_, fun _ _ _ => trivial⟩
  simp only [bind_pure_left]
  split
  · exact fun _ _ => trivial
  · rename_i x hr
    refine guarded_call (hR.since Store.stampedStep_miners x (t.revision + 1))
      (fun _ _ => updatesCurrent_of_isUpdate (by rfl) _) (fun u hu => ⟨?_, ?_⟩)
      (since_updateMinerStatus hr)
    swap
    · exact fun _ _ _ => trivial
    simp only [bind_pure_left, Store.perform]
    split
    · exact removeMinerFinalizer_updatesCurrent hR hu
    · exact fun _ _ => trivial
    · rename_i pod _
      have hpoll : ∀ timeout, AllCalls (fun c => c.isUpdate = false)
          (pollUntilContextTimeout podDeletionInterval timeout (deletePodAttempt pod)) := fun _ =>
        AllCalls.pollUntilContextTimeout ((AllCalls.perform (by rfl)).bind fun r => by
          rcases r with (_ | _) | _ <;> exact .pure _) _ _
      refine Guarded.bind (Guarded.mono (fun r v hv => ?_) (AllCalls.guarded
        (hR.since Store.stampedStep_miners x (t.revision + 1))
        (fun c v hc _ => updatesCurrent_of_isUpdate hc v)
        (fun c v _ hv => (Store.stampedStep_miners c v).since hv) (hpoll _) hu))
      rcases r with _ | ⟨⟩
      · exact fun _ _ => trivial
      · exact removeMinerFinalizer_updatesCurrent hR hv

/-- The finalizer block adds the finalizer to the object read, or sends nothing. -/
theorem ensureFinalizer_updatesCurrent {α : Type} (hR : ByCalls R) {x : Miner} {N : Nat} {s : Store}
    (hs : Since Store.miners x N s) {k : Except Error Miner → Prog α}
    (hk : ∀ r t, Guarded R F UpdatesCurrent (fun _ _ => True) (k r) t) :
    Guarded R F UpdatesCurrent (fun _ _ => True) (ensureFinalizer x >>= k) s := by
  unfold ensureFinalizer
  split
  · exact hk _ s
  · exact guarded_call (hR.since Store.stampedStep_miners x N)
      (fun t ht => ⟨fun _ _ h => (nomatch h), fun _ _ h => (nomatch h),
        fun o y h hy => by cases h; exact current_addFinalizer ht hy⟩)
      (fun t _ => ⟨hk _ _, fun _ => hk _ t⟩) hs

/-- The live path adds the finalizer to the object it read, then makes only status calls. -/
theorem reconcile_updatesCurrent (hR : ByCalls R) {x : Miner} {N : Nat} {s : Store}
    (hs : Since Store.miners x N s) (now : Nat) :
    Guarded R F UpdatesCurrent (fun _ _ => True) (reconcile x now) s :=
  ensureFinalizer_updatesCurrent hR hs fun r t => by
    rcases r with _ | m
    · exact fun _ _ => trivial
    · exact AllCalls.guarded_of_forall
        (fun c t hc => updatesCurrent_of_isUpdate (isUpdate_of_statusCall hc) t)
        (allCalls_reconcileStatus m now) t

/-- A Miner pass sends only current Updates. -/
theorem Reconcile_updatesCurrent (hR : ByCalls R) (key : ObjectKey) (now : Nat) {s : Store}
    (hs : Versioned Store.miners s) :
    Guarded R F UpdatesCurrent (fun _ _ => True) (Reconcile key now) s := by
  intro t ht
  refine ⟨updatesCurrent_of_isUpdate (by rfl) t, ?_, fun _ _ _ => trivial⟩
  simp only [bind_pure_left, Store.perform]
  split
  · exact fun _ _ => trivial
  · exact fun _ _ => trivial
  · rename_i miner hget
    have hx := since_of_find ((hR.versioned Store.stampedStep_miners).rtg ht hs)
      (Table.find_of_get_eq_ok hget)
    split
    · exact Guarded.map (reconcileDelete_updatesCurrent hR miner now t)
    · exact Guarded.map (reconcile_updatesCurrent hR hx now)

end MinerReconciler

namespace MinerSetReconciler

theorem isUpdate_of_ofMinerSetScaling {c : Call} (hc : c.ofMinerSetScaling) : c.isUpdate = false := by
  cases c <;> first | rfl | cases hc

/-- The delete path drops the finalizer from the object it read. -/
theorem reconcileDelete_updatesCurrent (hR : ByCalls R) {x : MinerSet} {N : Nat} {s : Store}
    (hs : Since Store.minerSets x N s) :
    Guarded R F UpdatesCurrent (fun _ _ => True) (reconcileDelete x) s := by
  unfold reconcileDelete
  split
  · refine guarded_call (hR.since Store.stampedStep_minerSets x N)
      (fun t ht => ⟨fun _ _ h => (nomatch h),
        fun o y h hy => by cases h; exact current_removeFinalizer ht hy, fun _ _ h => (nomatch h)⟩)
      (fun _ _ => ⟨?_, ?_⟩) hs
    · simp only [bind_pure_left]
      split <;> exact fun _ _ => trivial
    · exact fun _ _ _ => trivial
  · exact fun _ _ => trivial

/-- The finalizer block adds the finalizer to the object read, or sends nothing. -/
theorem ensureFinalizer_updatesCurrent {α : Type} (hR : ByCalls R) {x : MinerSet} {N : Nat} {s : Store}
    (hs : Since Store.minerSets x N s) {k : Except Error MinerSet → Prog α}
    (hk : ∀ r t, Guarded R F UpdatesCurrent (fun _ _ => True) (k r) t) :
    Guarded R F UpdatesCurrent (fun _ _ => True) (ensureFinalizer x >>= k) s := by
  unfold ensureFinalizer
  split
  · exact hk _ s
  · exact guarded_call (hR.since Store.stampedStep_minerSets x N)
      (fun t ht => ⟨fun _ _ h => (nomatch h),
        fun o y h hy => by cases h; exact current_addFinalizer ht hy, fun _ _ h => (nomatch h)⟩)
      (fun t _ => ⟨hk _ _, fun _ => hk _ t⟩) hs

/-- The live path adds the finalizer to the object it read, then only lists, scales and writes
status. -/
theorem reconcile_updatesCurrent (hR : ByCalls R) {x : MinerSet} {N : Nat} {s : Store}
    (hs : Since Store.minerSets x N s) (now : Nat) :
    Guarded R F UpdatesCurrent (fun _ _ => True) (reconcile x now) s :=
  ensureFinalizer_updatesCurrent hR hs fun r t => by
    rcases r with _ | ms
    · exact fun _ _ => trivial
    · exact AllCalls.guarded_of_forall
        (fun c t hc => updatesCurrent_of_isUpdate (isUpdate_of_ofMinerSetScaling hc) t)
        (footprint_reconcileMiners ms now) t

/-- A MinerSet pass sends only current Updates. -/
theorem Reconcile_updatesCurrent (hR : ByCalls R) (key : ObjectKey) (now : Nat) {s : Store}
    (hs : Versioned Store.minerSets s) :
    Guarded R F UpdatesCurrent (fun _ _ => True) (Reconcile key now) s := by
  intro t ht
  refine ⟨updatesCurrent_of_isUpdate (by rfl) t, ?_, fun _ _ _ => trivial⟩
  simp only [bind_pure_left, Store.perform]
  split
  · exact fun _ _ => trivial
  · exact fun _ _ => trivial
  · rename_i ms hget
    have hx := since_of_find ((hR.versioned Store.stampedStep_minerSets).rtg ht hs)
      (Table.find_of_get_eq_ok hget)
    split
    · exact reconcileDelete_updatesCurrent hR hx
    · exact reconcile_updatesCurrent hR hx now

end MinerSetReconciler

namespace ChainReconciler

theorem isUpdate_of_ofChainPhases {c : Call} (hc : c.ofChainPhases) : c.isUpdate = false := by
  cases c <;> first | rfl | cases hc

/-- The delete path drops the finalizer from the object it read. -/
theorem reconcileDelete_updatesCurrent (hR : ByCalls R) {x : Chain} {N : Nat} {s : Store}
    (hs : Since Store.chains x N s) :
    Guarded R F UpdatesCurrent (fun _ _ => True) (reconcileDelete x) s := by
  unfold reconcileDelete
  split
  · refine guarded_call (hR.since Store.stampedStep_chains x N)
      (fun t ht => ⟨fun o y h hy => by cases h; exact current_removeFinalizer ht hy,
        fun _ _ h => (nomatch h), fun _ _ h => (nomatch h)⟩)
      (fun _ _ => ⟨?_, ?_⟩) hs
    · simp only [bind_pure_left]
      split <;> exact fun _ _ => trivial
    · exact fun _ _ _ => trivial
  · exact fun _ _ => trivial

/-- The finalizer block adds the finalizer to the object read, or sends nothing. -/
theorem ensureFinalizer_updatesCurrent {α : Type} (hR : ByCalls R) {x : Chain} {N : Nat} {s : Store}
    (hs : Since Store.chains x N s) {k : Except Error Chain → Prog α}
    (hk : ∀ r t, Guarded R F UpdatesCurrent (fun _ _ => True) (k r) t) :
    Guarded R F UpdatesCurrent (fun _ _ => True) (ensureFinalizer x >>= k) s := by
  unfold ensureFinalizer
  split
  · exact hk _ s
  · exact guarded_call (hR.since Store.stampedStep_chains x N)
      (fun t ht => ⟨fun o y h hy => by cases h; exact current_addFinalizer ht hy,
        fun _ _ h => (nomatch h), fun _ _ h => (nomatch h)⟩)
      (fun t _ => ⟨hk _ _, fun _ => hk _ t⟩) hs

/-- The live path adds the finalizer to the object it read, then only lists and writes
status. -/
theorem reconcile_updatesCurrent (hR : ByCalls R) {x : Chain} {N : Nat} {s : Store}
    (hs : Since Store.chains x N s) (now : Nat) :
    Guarded R F UpdatesCurrent (fun _ _ => True) (reconcile x now) s :=
  ensureFinalizer_updatesCurrent hR hs fun r t => by
    rcases r with _ | chain
    · exact fun _ _ => trivial
    refine AllCalls.guarded_of_forall (fun c t hc => updatesCurrent_of_isUpdate hc t)
      (((footprint_runPhases footprint_phases chain {} now).imp
        fun _ => isUpdate_of_ofChainPhases).bind fun r => ?_) t
    rcases r with ⟨_, _ | _⟩
    · exact .pure _
    · exact (AllCalls.perform (by rfl)).bind fun r => by rcases r with _ | _ <;> exact .pure _

/-- A Chain pass sends only current Updates. -/
theorem Reconcile_updatesCurrent (hR : ByCalls R) (key : ObjectKey) (now : Nat) {s : Store}
    (hs : Versioned Store.chains s) :
    Guarded R F UpdatesCurrent (fun _ _ => True) (Reconcile key now) s := by
  intro t ht
  refine ⟨updatesCurrent_of_isUpdate (by rfl) t, ?_, fun _ _ _ => trivial⟩
  simp only [bind_pure_left, Store.perform]
  split
  · exact fun _ _ => trivial
  · exact fun _ _ => trivial
  · rename_i chain hget
    have hx := since_of_find ((hR.versioned Store.stampedStep_chains).rtg ht hs)
      (Table.find_of_get_eq_ok hget)
    split
    · exact reconcileDelete_updatesCurrent hR hx
    · exact reconcile_updatesCurrent hR hx now

end ChainReconciler

end Passes

/-! ## The manager -/

namespace Manager

open MinerReconciler

theorem ByCalls.rely {E : Store → Store → Prop} (hE : ByCalls E) (G : Nat → Call → Store → Prop)
    (i : Nat) : ByCalls (Rely E G i) := by
  rintro s t (h | ⟨_, c, -, -, rfl⟩)
  · exact hE s t h
  · exact ⟨c, rfl⟩

/-- Every pass of every worker, from a store whose versions are below its revision, sends only
current Updates, when every other step is a call. -/
theorem Workers.updatesCurrent_start {ws : Workers} {E : Store → Store → Prop} {F : Call → Prop}
    (hE : ByCalls E) (i : Nat) (p : Prog (Except Error Result)) (s : Store) (hp : ws.Start i p)
    (hs : AllVersioned s) :
    Guarded (Rely E (fun _ => UpdatesCurrent) i) F UpdatesCurrent (fun _ _ => True) p s := by
  have hR := ByCalls.rely hE (fun _ => UpdatesCurrent) i
  obtain ⟨w, -, hp⟩ := hp
  cases w with
  | chain =>
    obtain ⟨req, now, rfl⟩ := hp
    exact ChainReconciler.Reconcile_updatesCurrent hR req now hs.1
  | minerSet =>
    obtain ⟨req, now, rfl⟩ := hp
    exact MinerSetReconciler.Reconcile_updatesCurrent hR req now hs.2.1
  | miner key =>
    obtain ⟨now, rfl⟩ := hp
    exact MinerReconciler.Reconcile_updatesCurrent hR key now hs.2.2

/-- In every interleaving of the manager's workers, from a store whose versions are below its
revision, with every worker idle, beside any other clients of the store and with any call
failing, every Update a worker sends that the version check accepts is the stored object with
only its controller's finalizer added or removed. -/
theorem updates_current (ws : Workers) {E : Store → Store → Prop} {F : Call → Prop}
    (hE : ByCalls E) {s : Store} (hs : AllVersioned s)
    {st : Store × List (Option (Prog (Except Error Result)))}
    (hreach : ReflTransGen (Interleaved E F ws.Start) (s, ws.idle) st) (i : Nat)
    {p : Prog (Except Error Result)} (hp : st.2[i]? = some (some p)) {c : Call}
    (hc : nextCall p = some c) : UpdatesCurrent c st.1 :=
  Interleaved.guarded_of_inv (hE.stable AllVersioned.perform) AllVersioned.perform
    (fun i p s hp hs => Workers.updatesCurrent_start hE i p s hp hs)
    (fun _ => ws.eq_none_of_mem_idle) hs hreach hp hc

theorem updates_current_freshWorkers :
    ∃ st p o, ReflTransGen (Interleaved (fun _ _ => False) (fun _ => False) freshWorkers.Start)
        (freshStore, freshWorkers.idle) st ∧ st.2[0]? = some (some p) ∧
      nextCall p = some (.updateMiner o) ∧ UpdatesCurrent (.updateMiner o) st.1 :=
  have h : replayAll (fun _ => False) (freshStore, freshWorkers.idle)
      [(0, .start (MinerReconciler.Reconcile freshMiner.meta.key 0)), (0, .call)] = some _ := rfl
  have hreach := replayAll_reachable (fun i p hp => by
    rcases hp with _ | ⟨_, _ | ⟨_, ⟨⟩⟩⟩
    exact ⟨_, rfl, 0, rfl⟩) h
  have hs : AllVersioned freshStore :=
    ⟨versioned_of_forall (by decide), versioned_of_forall (by decide),
      versioned_of_forall (by decide)⟩
  ⟨_, _, _, hreach, rfl, rfl, updates_current freshWorkers (fun _ _ h => h.elim) hs hreach 0 rfl rfl⟩

end Manager

end Minerx
