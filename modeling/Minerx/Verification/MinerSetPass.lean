import Minerx.Verification.ReplicaBound
import Minerx.Verification.Scale

/-!
# One uninterrupted pass of the MinerSet controller

What a pass of `MinerSetReconciler` does when no other writer acts between its calls and the
store answers every call (`exec`). Count the Miners that stand for a replica of `ms`: in its
namespace, matched by its selector, controlled by it, and not being deleted (`replica`). The
pass adopts the orphans it lists, each adoption adding a replica, and then creates the deficit or
deletes the surplus of its filtered list. A pass that succeeds therefore ends with exactly the
desired count, as long as no Miner it keeps was already being deleted (`pass_reaches_replicas`).
Such a Miner is in the filtered list the pass counts from, but stands for no replica: with one,
a scale-up creates one Miner too few. A pass on a MinerSet being deleted only takes its finalizer
off and leaves every Miner to the garbage collector (`deletion_pass_leaves_miners`).

Each helper of the pass has one lemma saying what its run returns and how it moves the count;
the count moves by one table write at a time (`Table.countP_replace`, `Table.countP_erase`).
-/

namespace Minerx

namespace Table

variable {S T : Type}

theorem find_of_mem {t : List (Resource S T)} {x : Resource S T}
    (hnodup : (t.map (·.meta.key)).Nodup) (hx : x ∈ t) : find t x.meta.key = some x := by
  cases h : find t x.meta.key with
  | none => exact absurd rfl (find_eq_none h x hx)
  | some y =>
    obtain ⟨hy, hk⟩ := find_eq_some h
    rw [List.inj_on_of_nodup_map hnodup hy hx hk]

theorem replace_eq_self {t : List (Resource S T)} {o : Resource S T}
    (h : ∀ x ∈ t, x.meta.key ≠ o.meta.key) : replace t o = t := by
  induction t with
  | nil => rfl
  | cons x t ih =>
    simp only [replace, List.map_cons] at ih ⊢
    rw [if_neg (h x (List.mem_cons_self _ _)), ih fun y hy => h y (List.mem_cons_of_mem _ hy)]

theorem map_key_replace (t : List (Resource S T)) (o : Resource S T) :
    (replace t o).map (·.meta.key) = t.map (·.meta.key) := by
  rw [replace, List.map_map]
  refine List.map_congr_left fun x _ => ?_
  by_cases hx : x.meta.key = o.meta.key <;> simp [hx]

theorem nodup_erase {t : List (Resource S T)} (key : ObjectKey)
    (hnodup : (t.map (·.meta.key)).Nodup) : ((erase t key).map (·.meta.key)).Nodup :=
  ((List.filter_sublist t).map _).nodup hnodup

theorem nodup_append_singleton {t : List (Resource S T)} {x : Resource S T}
    (hnodup : (t.map (·.meta.key)).Nodup) (hx : find t x.meta.key = none) :
    ((t ++ [x]).map (·.meta.key)).Nodup := by
  have hne := find_eq_none hx
  simpa [List.nodup_append, hnodup] using fun y hy h => hne y hy h

theorem deletionTimestamp_of_create_eq_ok {t t' : List (Resource S T)} {rev : Nat}
    {o x : Resource S T} (h : create t rev o = .ok (x, t')) : x.meta.deletionTimestamp = none := by
  unfold create at h
  split at h <;> dsimp only at h <;> split at h <;> cases h <;> rfl

variable (p : Resource S T → Bool)

/-- With distinct keys, replacing the entry `y` under `o`'s key trades `y` for `o` in a count. -/
theorem countP_replace {t : List (Resource S T)} {o y : Resource S T}
    (hnodup : (t.map (·.meta.key)).Nodup) (hy : find t o.meta.key = some y) :
    (replace t o).countP p + (if p y then 1 else 0) = t.countP p + (if p o then 1 else 0) := by
  induction t with
  | nil => cases hy
  | cons x t ih =>
    rw [List.map_cons, List.nodup_cons] at hnodup
    by_cases hx : x.meta.key = o.meta.key
    · have hyx : y = x := by simpa [find, hx] using hy.symm
      have hrest : replace t o = t := replace_eq_self fun z hz hk =>
        hnodup.1 (hx ▸ hk ▸ List.mem_map_of_mem _ hz)
      simp only [replace, List.map_cons, if_pos hx] at hrest ⊢
      rw [hrest, List.countP_cons, List.countP_cons, hyx]
      omega
    · have hy' : find t o.meta.key = some y := by simpa [find, hx] using hy
      simp only [replace, List.map_cons, if_neg hx, List.countP_cons] at ih ⊢
      have := ih hnodup.2 hy'
      omega

/-- With distinct keys, erasing the entry `y` of a key takes `y` out of a count. -/
theorem countP_erase {t : List (Resource S T)} {key : ObjectKey} {y : Resource S T}
    (hnodup : (t.map (·.meta.key)).Nodup) (hy : find t key = some y) :
    (erase t key).countP p + (if p y then 1 else 0) = t.countP p := by
  induction t with
  | nil => cases hy
  | cons x t ih =>
    rw [List.map_cons, List.nodup_cons] at hnodup
    by_cases hx : x.meta.key = key
    · have hyx : y = x := by simpa [find, hx] using hy.symm
      have hrest : erase t key = t := List.filter_eq_self.mpr fun z hz => by
        refine decide_eq_true fun hk => hnodup.1 ?_
        rw [hx, ← hk]
        exact List.mem_map_of_mem _ hz
      simp only [erase, List.filter_cons, hx, ne_eq, not_true_eq_false, decide_False] at hrest ⊢
      rw [if_neg Bool.false_ne_true, hrest, List.countP_cons, hyx]
    · have hy' : find t key = some y := by simpa [find, hx] using hy
      simp only [erase, List.filter_cons, hx, ne_eq, not_false_eq_true, decide_True, if_true,
        List.countP_cons] at ih ⊢
      have := ih hnodup.2 hy'
      omega

end Table

namespace MinerSetReconciler

open Controller Prog

section

variable (ms : MinerSet) (sel : Labels)

/-- A Miner that stands for one replica of `ms`: in its namespace, matched by its selector,
controlled by it, and not being deleted. -/
def replica (m : Miner) : Bool :=
  m.meta.ns = ms.meta.ns ∧ Labels.selectorMatches sel m.meta.labels ∧
    m.meta.isControlledBy ms.meta ∧ m.meta.deletionTimestamp.isNone

/-- How many Miners of the store stand for a replica of `ms`. -/
def liveReplicas (s : Store) : Nat := s.miners.countP (replica ms sel)

end

variable {ms ms' : MinerSet} {sel : Labels}

theorem SameSet.shouldExcludeMiner (hsame : SameSet ms ms') (m : Miner) :
    shouldExcludeMiner ms' m = shouldExcludeMiner ms m := by
  simp [MinerSetReconciler.shouldExcludeMiner, hsame.isControlledBy]

/-- A Miner the pass keeps is an orphan or controlled by `ms`, never both. -/
theorem countP_not_excluded (L : List Miner) :
    L.countP (!shouldExcludeMiner ms ·) =
      L.countP (·.meta.isControlledBy ms.meta) + L.countP (·.meta.getControllerOf.isNone) := by
  induction L with
  | nil => rfl
  | cons m L ih =>
    simp only [List.countP_cons, ih]
    cases h : m.meta.getControllerOf with
    | none => simp [shouldExcludeMiner, ObjectMeta.isControlledBy, h]; omega
    | some ref => cases hc : m.meta.isControlledBy ms.meta <;> simp [shouldExcludeMiner, h, hc]; omega

/-- Before the pass, the replicas are the listed Miners `ms` controls, when none of those is
being deleted. -/
theorem liveReplicas_eq_countP_list {s : Store}
    (hmarked : ∀ m ∈ s.miners, m.meta.ns = ms.meta.ns → Labels.selectorMatches sel m.meta.labels →
      shouldExcludeMiner ms m = false → m.meta.deletionTimestamp = none) :
    liveReplicas ms sel s =
      (Table.list s.miners ms.meta.ns sel).countP (·.meta.isControlledBy ms.meta) := by
  rw [liveReplicas, Table.list, List.countP_filter]
  refine List.countP_congr fun m hm => ?_
  by_cases hl : m.meta.ns = ms.meta.ns ∧ Labels.selectorMatches sel m.meta.labels
  · cases hc : m.meta.isControlledBy ms.meta
    · simp [replica, hc]
    · have hex : shouldExcludeMiner ms m = false := by simp [shouldExcludeMiner, hc]
      simp [replica, hc, hl, hmarked m hm hl.1 hl.2 hex]
  · simp only [replica, Bool.and_eq_true, decide_eq_true_eq] at hl ⊢
    tauto

/-! ## The loop that filters and adopts -/

/-- The adoption patch of an orphan makes a replica of it, when it is in the namespace, selected
and not being deleted. -/
theorem replica_adopt (hsame : SameSet ms ms') {m : Miner} (horph : m.meta.getControllerOf = none)
    (hns : m.meta.ns = ms.meta.ns) (hsel : Labels.selectorMatches sel m.meta.labels)
    (hlive : m.meta.deletionTimestamp = none) (rev : Nat) :
    replica ms sel { m with meta := { m.meta with
      ownerReferences := m.meta.ownerReferences ++ [newControllerRef ms'.meta msKind],
      resourceVersion := rev } } := by
  have hnone : m.meta.ownerReferences.find? (·.controller) = none := horph
  simp [replica, hns, hsel, hlive, ObjectMeta.isControlledBy, ObjectMeta.getControllerOf,
    List.find?_append, hnone, newControllerRef, hsame.uid]

/-- A Miner the pass keeps that has a controller is a replica, when it is listed and not being
deleted. -/
theorem replica_of_controlled {m : Miner} (hex : shouldExcludeMiner ms m = false)
    (horph : m.meta.getControllerOf.isNone = false) (hns : m.meta.ns = ms.meta.ns)
    (hsel : Labels.selectorMatches sel m.meta.labels) (hlive : m.meta.deletionTimestamp = none) :
    replica ms sel m := by
  have hsome : m.meta.getControllerOf.isSome := by simpa using horph
  simp only [shouldExcludeMiner, hsome, Bool.true_and, Bool.not_eq_false'] at hex
  simp [replica, hns, hsel, hlive, hex]

/-- The `filterMiners` loop on listed Miners that the store holds as listed: it returns every
Miner not controlled by another owner, orphans adopted, all replicas of `ms` and held by the
store under their keys; it touches no other key, and each adoption adds one replica. -/
theorem filterMiners_exec (hsame : SameSet ms ms') :
    ∀ (L : List Miner) {t : Store} {F : List Miner} {u : Store},
      (t.miners.map (·.meta.key)).Nodup → (L.map (·.meta.key)).Nodup →
      (∀ m ∈ L, Table.find t.miners m.meta.key = some m ∧ m.meta.ns = ms.meta.ns ∧
        Labels.selectorMatches sel m.meta.labels ∧
        (shouldExcludeMiner ms m = false → m.meta.deletionTimestamp = none)) →
      (filterMiners ms' L).exec t = (F, u) →
      F.length = L.countP (!shouldExcludeMiner ms ·) ∧
        (F.map (·.meta.key)).Sublist (L.map (·.meta.key)) ∧
        (∀ x ∈ F, Table.find u.miners x.meta.key = some x ∧ replica ms sel x) ∧
        (u.miners.map (·.meta.key)).Nodup ∧
        (∀ key ∉ L.map (·.meta.key), Table.find u.miners key = Table.find t.miners key) ∧
        liveReplicas ms sel u = liveReplicas ms sel t + L.countP (·.meta.getControllerOf.isNone)
  | [], t, F, u, hnodup, _, _, h => by
    simp only [filterMiners, exec_pure, Prod.mk.injEq] at h
    obtain ⟨rfl, rfl⟩ := h
    simp [hnodup]
  | m :: rest, t, F, u, hnodup, hL, hm, h => by
    rw [List.map_cons, List.nodup_cons] at hL
    obtain ⟨hfind, hns, hsel, hlive⟩ := hm m (List.mem_cons_self _ _)
    have hrest : ∀ x ∈ rest, Table.find t.miners x.meta.key = some x ∧ x.meta.ns = ms.meta.ns ∧
        Labels.selectorMatches sel x.meta.labels ∧
        (shouldExcludeMiner ms x = false → x.meta.deletionTimestamp = none) :=
      fun x hx => hm x (List.mem_cons_of_mem _ hx)
    have hne : ∀ x ∈ rest, x.meta.key ≠ m.meta.key := fun x hx hk =>
      hL.1 (hk ▸ List.mem_map_of_mem _ hx)
    rw [filterMiners, hsame.shouldExcludeMiner] at h
    cases hex : shouldExcludeMiner ms m
    case true =>
      rw [hex, if_pos rfl] at h
      obtain ⟨hlen, hsub, hF, hu, hframe, hcount⟩ := filterMiners_exec hsame rest hnodup hL.2 hrest h
      have horph : m.meta.getControllerOf.isNone = false := by
        simp only [shouldExcludeMiner, Bool.and_eq_true] at hex
        simpa using hex.1
      refine ⟨by simp [hlen, hex], hsub.cons _, hF, hu, fun key hk => ?_, by simp [hcount, horph]⟩
      exact hframe key fun h' => hk (List.mem_cons_of_mem _ h')
    case false =>
      rw [hex, if_neg Bool.false_ne_true] at h
      cases horph : m.meta.getControllerOf.isNone
      case true =>
        rw [horph, if_pos rfl] at h
        have hnone : m.meta.getControllerOf = none := by simpa using horph
        obtain ⟨x, hpatch, hxk, hrx⟩ : ∃ x : Miner, Table.patchOwnerReferences t.miners t.revision
            m.meta.key (m.meta.ownerReferences ++ [newControllerRef ms'.meta msKind]) =
              .ok (x, Table.replace t.miners x) ∧ x.meta.key = m.meta.key ∧ replica ms sel x :=
          ⟨{ m with meta := { m.meta with
              ownerReferences := m.meta.ownerReferences ++ [newControllerRef ms'.meta msKind],
              resourceVersion := t.revision } },
            by rw [Table.patchOwnerReferences, hfind], rfl,
            replica_adopt hsame hnone hns hsel (hlive hex) t.revision⟩
        have hfind₀ : ∀ key ≠ m.meta.key,
            Table.find (Table.replace t.miners x) key = Table.find t.miners key :=
          fun key hk => Table.find_replace_of_ne (hxk ▸ Ne.symm hk)
        rw [adoptOrphan, perform_bind, exec_call] at h
        simp only [Store.perform, hpatch, Store.write] at h
        rw [exec_bind] at h
        generalize hr : (filterMiners ms' rest).exec
          { t with miners := Table.replace t.miners x, revision := t.revision + 1 } = r at h
        obtain ⟨F', u'⟩ := r
        obtain ⟨rfl, rfl⟩ := Prod.mk.inj h
        obtain ⟨hlen, hsub, hF, hu, hframe, hcount⟩ := filterMiners_exec hsame rest
          (by rw [Table.map_key_replace]; exact hnodup) hL.2
          (fun z hz => ⟨(hfind₀ _ (hne z hz)).trans (hrest z hz).1, (hrest z hz).2⟩) hr
        have hrm : replica ms sel m = false := by
          simp [replica, ObjectMeta.isControlledBy, hnone]
        have hup := Table.countP_replace (replica ms sel) hnodup (hxk ▸ hfind)
        rw [hrx, hrm, if_pos rfl, if_neg Bool.false_ne_true] at hup
        refine ⟨by simp [hlen, hex], by simpa [hxk] using hsub.cons₂ m.meta.key, fun y hy => ?_, hu,
          fun key hk => ?_, ?_⟩
        · rcases List.mem_cons.mp hy with rfl | hy
          · refine ⟨?_, hrx⟩
            rw [hxk, hframe _ hL.1]
            exact Table.find_replace_self hfind hxk
          · exact hF y hy
        · rw [hframe key fun h' => hk (List.mem_cons_of_mem _ h'),
            hfind₀ key fun h' => hk (h' ▸ List.mem_cons_self _ _)]
        · simp only [liveReplicas] at hcount ⊢
          simp [hcount, horph]
          omega
      case false =>
        rw [horph, if_neg Bool.false_ne_true, exec_bind] at h
        generalize hr : (filterMiners ms' rest).exec t = r at h
        obtain ⟨F', u'⟩ := r
        obtain ⟨rfl, rfl⟩ := Prod.mk.inj h
        obtain ⟨hlen, hsub, hF, hu, hframe, hcount⟩ := filterMiners_exec hsame rest hnodup hL.2 hrest hr
        refine ⟨by simp [hlen, hex], hsub.cons₂ _, fun y hy => ?_, hu, fun key hk => ?_, ?_⟩
        · rcases List.mem_cons.mp hy with rfl | hy
          · exact ⟨(hframe _ hL.1).trans hfind,
              replica_of_controlled hex horph hns hsel (hlive hex)⟩
          · exact hF y hy
        · exact hframe key fun h' => hk (List.mem_cons_of_mem _ h')
        · simp [hcount, horph]

/-! ## Creating and deleting -/

/-- `waitForMinerCreation` on a Miner the store holds: the first Get finds it. -/
theorem waitForMinerCreation_exec {t : Store} {x y : Miner}
    (h : Table.find t.miners x.meta.key = some y) : (waitForMinerCreation x).exec t = (.ok (), t) := by
  have hn : pollAttempts stateConfirmationInterval stateConfirmationTimeout = 99 + 1 := rfl
  rw [waitForMinerCreation, pollUntilContextTimeout_pos _ (by decide), hn, poll, exec_bind]
  simp only [perform_bind, exec_call, Store.perform, Table.get_of_find h, exec_pure]

/-- A `createMiners` that succeeds adds `n` replicas: each Create stores a Miner from the
template under a fresh key, and the wait finds it at once. -/
theorem createMiners_exec (hsame : SameSet ms ms')
    (htemplate : Labels.selectorMatches sel (computeDesiredMiner ms none).meta.labels) :
    ∀ (n : Nat) {t : Store}, (t.miners.map (·.meta.key)).Nodup →
      ((createMiners ms' n).exec t).1 = .ok () →
      (((createMiners ms' n).exec t).2.miners.map (·.meta.key)).Nodup ∧
        liveReplicas ms sel ((createMiners ms' n).exec t).2 = liveReplicas ms sel t + n
  | 0, _, hnodup, _ => ⟨hnodup, rfl⟩
  | n + 1, t, hnodup, hok => by
    rw [createMiners, perform_bind, exec_call] at hok ⊢
    cases hc : Table.create t.miners t.revision (computeDesiredMiner ms' none) with
    | error e => simp [Store.perform, hc, Store.write] at hok
    | ok r =>
      obtain ⟨x, t₁⟩ := r
      obtain ⟨hnone, hns, hlabels, hrefs, rfl⟩ := Table.create_eq_ok hc
      have hfind : Table.find ({ t with miners := t.miners ++ [x], revision := t.revision + 1 } : Store).miners
          x.meta.key = some x := by
        rw [Table.find_append_singleton, hnone]
        simp
      simp only [Store.perform, hc, Store.write, exec_bind, waitForMinerCreation_exec hfind,
        exec_pure] at hok ⊢
      have hns' : x.meta.ns = ms.meta.ns := hns.trans hsame.ns
      have hrefs' : x.meta.ownerReferences = [newControllerRef ms'.meta msKind] := hrefs
      have hrx : replica ms sel x := by
        simp [replica, hns', hlabels, hsame.desired_labels, htemplate, ObjectMeta.isControlledBy,
          ObjectMeta.getControllerOf, hrefs', newControllerRef, hsame.uid,
          Table.deletionTimestamp_of_create_eq_ok hc]
      obtain ⟨hu, hcount⟩ :=
        createMiners_exec hsame htemplate n (Table.nodup_append_singleton hnodup hnone) hok
      refine ⟨hu, ?_⟩
      rw [hcount]
      simp [liveReplicas, List.countP_append, hrx]
      omega

/-- Deleting a replica the store holds takes it out of the count: it is erased when it has no
finalizer and marked otherwise, and no other key changes. -/
theorem delete_replica {t : List Miner} (rev : Nat) {x : Miner}
    (hnodup : (t.map (·.meta.key)).Nodup) (hx : Table.find t x.meta.key = some x)
    (hr : replica ms sel x) :
    ∃ t', Table.delete t rev x.meta.key false = .ok ((), t') ∧ (t'.map (·.meta.key)).Nodup ∧
      t'.countP (replica ms sel) + 1 = t.countP (replica ms sel) ∧
      ∀ key ≠ x.meta.key, Table.find t' key = Table.find t key := by
  have hlive : x.meta.deletionTimestamp = none := by
    simp only [replica, Bool.and_eq_true, decide_eq_true_eq, Option.isNone_iff_eq_none] at hr
    exact hr.2.2.2
  unfold Table.delete
  rw [hx]
  by_cases hfin : x.meta.finalizers = []
  · have hc := Table.countP_erase (replica ms sel) hnodup hx
    rw [hr, if_pos rfl] at hc
    refine ⟨_, by simp [hfin], Table.nodup_erase _ hnodup, hc, fun key hk => ?_⟩
    rw [Table.find_erase, if_neg hk]
  · let marked : Miner :=
      { x with meta := { x.meta with deletionTimestamp := some rev, resourceVersion := rev } }
    have hc := @Table.countP_replace _ _ (replica ms sel) _ marked _ hnodup hx
    have hrm : replica ms sel marked = false := by simp [replica, marked]
    rw [hr, hrm, if_pos rfl, if_neg Bool.false_ne_true] at hc
    refine ⟨Table.replace t marked, by simp [hfin, hlive], by rw [Table.map_key_replace]; exact hnodup,
      hc, fun key hk => Table.find_replace_of_ne fun h => hk h.symm⟩

/-- `deleteMiners` on replicas the store holds under distinct keys: every Delete succeeds and
takes one replica out of the count. -/
theorem deleteMiners_exec : ∀ (B : List Miner) (t : Store), (t.miners.map (·.meta.key)).Nodup →
    (B.map (·.meta.key)).Nodup →
    (∀ x ∈ B, Table.find t.miners x.meta.key = some x ∧ replica ms sel x) →
    ((deleteMiners B).exec t).1 = .ok () ∧
      liveReplicas ms sel ((deleteMiners B).exec t).2 + B.length = liveReplicas ms sel t
  | [], _, _, _, _ => ⟨rfl, rfl⟩
  | x :: B, t, hnodup, hB, hx => by
    rw [List.map_cons, List.nodup_cons] at hB
    obtain ⟨hfind, hr⟩ := hx x (List.mem_cons_self _ _)
    obtain ⟨t', hd, hnodup', hcount, hframe⟩ := delete_replica t.revision hnodup hfind hr
    have hlive : x.meta.deletionTimestamp.isSome = false := by
      simp only [replica, Bool.and_eq_true, decide_eq_true_eq] at hr
      simpa using hr.2.2.2
    rw [deleteMiners, hlive, if_neg Bool.false_ne_true, perform_bind, exec_call]
    simp only [Store.perform, hd, Store.write]
    obtain ⟨hok, hc⟩ := deleteMiners_exec B { t with miners := t', revision := t.revision + 1 } hnodup'
      hB.2 fun y hy => ⟨(hframe _ fun hk => hB.1 (hk ▸ List.mem_map_of_mem _ hy)).trans
        (hx y (List.mem_cons_of_mem _ hy)).1, (hx y (List.mem_cons_of_mem _ hy)).2⟩
    refine ⟨hok, ?_⟩
    simp only [liveReplicas, List.length_cons] at hc hcount ⊢
    omega

theorem length_deletionBlock (policy : String) (miners : List Miner) {n : Nat}
    (hn : n ≤ miners.length) : (deletionBlock policy miners n).length = n := by
  unfold deletionBlock
  split <;> simp <;> omega

/-! ## The pass -/

/-- `syncReplicas` from a store whose replicas are exactly the filtered Miners: when it
succeeds, the store holds exactly the desired number of replicas, zero for a negative count. -/
theorem syncReplicas_exec (hsame : SameSet ms ms')
    (htemplate : Labels.selectorMatches sel (computeDesiredMiner ms none).meta.labels)
    {R : Int} (hR : ms.spec.replicas = some R) {F : List Miner} {t : Store}
    (hnodup : (t.miners.map (·.meta.key)).Nodup) (hF : (F.map (·.meta.key)).Nodup)
    (hFs : ∀ x ∈ F, Table.find t.miners x.meta.key = some x ∧ replica ms sel x)
    (hcount : liveReplicas ms sel t = F.length) {now : Nat} {result : Result}
    (hok : ((syncReplicas ms' F now).exec t).1.2 = .ok result) :
    liveReplicas ms sel ((syncReplicas ms' F now).exec t).2 = R.toNat := by
  have hR' : ms'.spec.replicas = some R := by rw [hsame.spec]; exact hR
  simp only [syncReplicas, hR'] at hok ⊢
  split_ifs at hok ⊢ with hneg hpos
  · rw [exec_bind] at hok ⊢
    generalize hc : (createMiners ms' (-((F.length : Int) - R)).toNat).exec t = cr at hok ⊢
    obtain ⟨_ | _, u⟩ := cr
    · simp at hok
    · obtain ⟨-, hu⟩ := createMiners_exec hsame htemplate _ hnodup (by rw [hc])
      rw [hc] at hu
      simp only [exec_pure, hu, hcount]
      omega
  · have hsub := deletionBlock_sublist ms'.spec.deletePolicy F
      (min ((F.length : Int) - R).toNat F.length)
    obtain ⟨hdok, hdc⟩ := deleteMiners_exec _ t hnodup ((hsub.map _).nodup hF)
      fun x hx => hFs x (hsub.subset hx)
    rw [length_deletionBlock _ _ (min_le_right _ _)] at hdc
    simp only [getMinersToDelete_eq ms' F hpos, exec_bind, hdok, exec_pure]
    omega
  · simp only [exec_pure, hcount]
    omega

/-- The status write of `updateStatus` changes no Miner. -/
theorem updateStatus_exec_miners (ms : MinerSet) (F : List Miner) (now : Nat) (t : Store) :
    ((updateStatus ms F now).exec t).2.miners = t.miners :=
  AllCalls.exec_frame Store.miners ((AllCalls.perform fun _ => by exact Store.write_miners fun _ _ => rfl).bind
    fun r => by rcases r with _ | _ <;> exact .pure _) t

/-- `reconcile` after the finalizer block, from a store whose listed Miners that the pass keeps
are not being deleted: when it succeeds, the store holds exactly the desired number of
replicas. -/
theorem reconcileMiners_exec (hsame : SameSet ms ms') {R : Int} (hR : ms.spec.replicas = some R)
    (hsel : labelSelectorAsMap ms.spec.selector = .ok sel)
    (htemplate : Labels.selectorMatches sel (computeDesiredMiner ms none).meta.labels)
    {t : Store} (hnodup : (t.miners.map (·.meta.key)).Nodup)
    (hmarked : ∀ m ∈ t.miners, m.meta.ns = ms.meta.ns → Labels.selectorMatches sel m.meta.labels →
      shouldExcludeMiner ms m = false → m.meta.deletionTimestamp = none)
    {now : Nat} {r : Result} (hok : ((reconcileMiners ms' now).exec t).1 = .ok r) :
    liveReplicas ms sel ((reconcileMiners ms' now).exec t).2 = R.toNat := by
  have hsel' : labelSelectorAsMap ms'.spec.selector = .ok sel := by rw [hsame.spec]; exact hsel
  rw [reconcileMiners] at hok ⊢
  set ms₁ : MinerSet := { ms' with meta := { ms'.meta with
    labels := ms'.meta.labels.set chainNameLabel ms'.spec.template.spec.chainName } }
  have hsame₁ : SameSet ms ms₁ := ⟨hsame.uid, hsame.key, hsame.spec⟩
  have hsel₁ : labelSelectorAsMap ms₁.spec.selector = .ok sel := hsel'
  simp only [hsel₁, perform_bind, exec_call, Store.perform, exec_bind, hsame.ns] at hok ⊢
  set L := Table.list t.miners ms.meta.ns sel
  have hL : ∀ m ∈ L, Table.find t.miners m.meta.key = some m ∧ m.meta.ns = ms.meta.ns ∧
      Labels.selectorMatches sel m.meta.labels ∧
      (shouldExcludeMiner ms m = false → m.meta.deletionTimestamp = none) := fun m hm => by
    obtain ⟨hmt, hl⟩ := List.mem_filter.mp hm
    simp only [Bool.and_eq_true, decide_eq_true_eq] at hl
    exact ⟨Table.find_of_mem hnodup hmt, hl.1, hl.2, hmarked m hmt hl.1 hl.2⟩
  generalize hf : (filterMiners ms₁ L).exec t = fu at hok ⊢
  obtain ⟨F, u⟩ := fu
  obtain ⟨hlen, hsub, hF, hu, -, hcount⟩ :=
    filterMiners_exec hsame₁ L hnodup (((List.filter_sublist _).map _).nodup hnodup) hL hf
  have hlive : liveReplicas ms sel u = F.length := by
    rw [hcount, hlen, countP_not_excluded, liveReplicas_eq_countP_list hmarked]
  dsimp only at hok ⊢
  generalize hs : (syncReplicas ms₁ F now).exec u = su at hok ⊢
  obtain ⟨⟨ms₂, _ | result⟩, u₂⟩ := su
  · simp at hok
  have hu₂ := syncReplicas_exec hsame₁ htemplate hR hu
    (hsub.nodup (((List.filter_sublist _).map _).nodup hnodup)) hF hlive (by rw [hs])
  rw [hs] at hu₂
  dsimp only
  rw [exec_bind]
  generalize hw : (updateStatus ms₂ F now).exec u₂ = w
  have h₃ := updateStatus_exec_miners ms₂ F now u₂
  obtain ⟨⟨_, res⟩, u₃⟩ := w
  rw [hw] at h₃
  dsimp only at h₃
  cases res <;> simpa [liveReplicas, h₃] using hu₂

/-- The finalizer block on the stored MinerSet succeeds, returns a copy of it, and changes no
Miner. -/
theorem ensureFinalizer_exec {s : Store} (hfind : Table.find s.minerSets ms.meta.key = some ms) :
    ∃ ms' u, (ensureFinalizer ms).exec s = (.ok ms', u) ∧ SameSet ms ms' ∧ u.miners = s.miners := by
  unfold ensureFinalizer
  split
  · exact ⟨ms, s, rfl, ⟨rfl, rfl, rfl⟩, rfl⟩
  · obtain ⟨y, hu, -, hk, huid, -, -, -, hspec, -⟩ :=
      Table.update_addFinalizer s.revision hfind minerSetFinalizer
    simp only [perform, exec_call, Store.perform, hu, Store.write, exec_pure]
    exact ⟨y, _, rfl, ⟨huid, hk, hspec⟩, rfl⟩

/-- `appSet` of one replica beside an orphan it selects and two Miners it controls. -/
def surplusStore : Store :=
  appStore appLabels [("orphan", appLabels, []),
    ("a", appLabels, [newControllerRef (appSet appLabels).meta msKind]),
    ("b", appLabels, [newControllerRef (appSet appLabels).meta msKind])]

/-- One uninterrupted pass on a MinerSet being deleted that carries the MinerSet finalizer
succeeds and changes nothing in the store but that MinerSet: its Miners are left to the garbage
collector. The pass removes exactly the MinerSet finalizer: the MinerSet leaves the store when no
other finalizer is left, and stays with the others otherwise. -/
theorem deletion_pass_leaves_miners {s : Store} {key : ObjectKey} {ms : MinerSet}
    (hfind : Table.find s.minerSets key = some ms) (hmarked : ms.meta.deletionTimestamp.isSome)
    (hfin : ms.meta.containsFinalizer minerSetFinalizer) (now : Nat) :
    ((Reconcile key now).exec s).1 = .ok {} ∧
      { ((Reconcile key now).exec s).2 with minerSets := s.minerSets, revision := s.revision } = s ∧
      (Table.find ((Reconcile key now).exec s).2.minerSets key).map (·.meta.finalizers) =
        if ms.meta.finalizers.filter (· ≠ minerSetFinalizer) = [] then none
        else some (ms.meta.finalizers.filter (· ≠ minerSetFinalizer)) := by
  have hkey := (Table.find_eq_some hfind).2
  obtain ⟨y, hu, hf⟩ := Table.update_removeFinalizer s.revision
    (hkey ▸ hfind : Table.find s.minerSets ms.meta.key = some ms) hmarked minerSetFinalizer
  simp only [Reconcile, perform_bind, exec_call, Store.perform, Table.get_of_find hfind, hmarked,
    if_true, reconcileDelete, hfin, hu, Store.write, exec_pure]
  exact ⟨trivial, trivial, hkey ▸ hf⟩

/-- `appSet` after its deletion was requested, beside a Miner it controls. -/
def markedAppStore : Store :=
  { appStore appLabels [("a", appLabels, [newControllerRef (appSet appLabels).meta msKind])] with
    minerSets := [{ appSet appLabels with
      meta := { (appSet appLabels).meta with deletionTimestamp := some 1 } }] }

/-- The deletion pass on `markedAppStore` removes `appSet`, whose only finalizer was the MinerSet
finalizer, and keeps its Miner. -/
theorem deletion_pass_leaves_miners_markedAppStore :
    ((Reconcile (appSet appLabels).meta.key 0).exec markedAppStore).2.miners = markedAppStore.miners ∧
      Table.find ((Reconcile (appSet appLabels).meta.key 0).exec markedAppStore).2.minerSets
        (appSet appLabels).meta.key = none :=
  have h := @deletion_pass_leaves_miners markedAppStore (appSet appLabels).meta.key _ rfl rfl rfl 0
  have hminers := congrArg Store.miners h.2.1
  ⟨hminers, Option.map_eq_none'.mp (h.2.2.trans (if_pos (by decide)))⟩

end MinerSetReconciler

end Minerx
