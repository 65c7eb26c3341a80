import Minerx.Verification.Owned

/-!
# The replica bound

Passes of `Reconcile` on one MinerSet `ms`, one call at a time, beside other writers that create
no Miner and change no labels or owner references (`OthersStep`), and in which any call but the
adoption Patch may fail. When every Miner built from the template is selected, and every Miner
`ms` already controls in its namespace is selected, the number of counted Miners never exceeds
the larger of the replica count and the initial number.

The proof follows the code. A pass reads `ms` back with its uid and spec (`SameSet`), lists the
selected Miners, and `filterMiners` keeps every counted Miner: it adopts each orphan without
changing the count (`Pending` is the loop state). So the list it returns is at least the count,
and `createMiners` creates no more than the replica count minus that list. Every other call is
`Harmless`.
-/

namespace Minerx

namespace MinerSetReconciler

open Controller Prog Relation

/-- The calls that may fail in the bound: all but the adoption Patch. -/
def adoptionHolds : Call → Prop
  | .patchMiner _ _ => False
  | _ => True

instance : DecidablePred adoptionHolds := fun c =>
  decidable_of_iff ((match c with | .patchMiner _ _ => false | _ => true : Bool) = true)
    (by cases c <;> simp [adoptionHolds])

/-- A MinerSet as a pass holds it: read back from the store under `ms`'s key. -/
structure SameSet (ms ms' : MinerSet) : Prop where
  uid : ms'.meta.uid = ms.meta.uid
  key : ms'.meta.key = ms.meta.key
  spec : ms'.spec = ms.spec

/-- What the bound keeps: `Base`, and at most `N` counted Miners. -/
def ReplicaInv (ms : MinerSet) (sel : Labels) (N : Nat) (s : Store) : Prop :=
  Base ms sel s ∧ countedMiners ms sel s ≤ N

/-- A pass on `ms` is safe for the bound `N`. -/
abbrev PassSafe (ms : MinerSet) (sel : Labels) (N : Nat) {α : Type} (Q : α → Store → Prop)
    (p : Prog α) (s : Store) : Prop :=
  Safe (OthersStep ms) adoptionHolds (ReplicaInv ms sel N) Q p s

variable {ms ms' : MinerSet} {sel : Labels} {N : Nat}

theorem replicaInv_stable : Stable (OthersStep ms) (ReplicaInv ms sel N) :=
  base_stable.and (countedMiners_stable N)

theorem SameSet.ns (h : SameSet ms ms') : ms'.meta.ns = ms.meta.ns :=
  congrArg ObjectKey.ns h.key

theorem SameSet.isControlledBy (h : SameSet ms ms') (m : ObjectMeta) :
    m.isControlledBy ms'.meta = m.isControlledBy ms.meta := by
  simp [ObjectMeta.isControlledBy, h.uid]

theorem SameSet.desired_labels (h : SameSet ms ms') :
    (computeDesiredMiner ms' none).meta.labels = (computeDesiredMiner ms none).meta.labels := by
  have hn : ms'.meta.name = ms.meta.name := congrArg ObjectKey.name h.key
  simp [computeDesiredMiner, hn, h.spec]

/-- A harmless call keeps `Base` with room for `n` more counted Miners. -/
theorem harmless_room {c : Call} (hc : Harmless ms c) (n : Nat) {s : Store}
    (hs : Base ms sel s ∧ countedMiners ms sel s + n ≤ N) :
    Base ms sel (s.perform c).2 ∧ countedMiners ms sel (s.perform c).2 + n ≤ N :=
  have h := harmless_perform hc hs.1
  ⟨h.1, by omega⟩

theorem room_stable (n : Nat) :
    Stable (OthersStep ms) fun s => Base ms sel s ∧ countedMiners ms sel s + n ≤ N :=
  fun s t h hs => ⟨base_stable s t h hs.1, by have := @countedMiners_le_of_sublist ms sel s t h.1; omega⟩

/-- A program of harmless calls is safe, and keeps the room it starts with. -/
theorem harmless_safe {α : Type} {p : Prog α} (hp : AllCalls (Harmless ms) p) (n : Nat) {s : Store}
    (hs : Base ms sel s ∧ countedMiners ms sel s + n ≤ N) :
    PassSafe ms sel N (fun _ t => Base ms sel t ∧ countedMiners ms sel t + n ≤ N) p s :=
  AllCalls.safe (room_stable n) (fun _ h => ⟨h.1, by omega⟩) (fun _ _ hc => harmless_room hc n) hp hs

/-! ## The calls of a pass -/

theorem allCalls_waitForMinerCreation (miner : Miner) :
    AllCalls (Harmless ms) (waitForMinerCreation miner) := by
  refine AllCalls.pollUntilContextTimeout ((AllCalls.perform trivial).bind fun r => ?_) _ _
  rcases r with (_ | _) | _ <;> exact .pure _

theorem allCalls_deleteMiners (miners : List Miner) : AllCalls (Harmless ms) (deleteMiners miners) := by
  induction miners with
  | nil => exact .pure _
  | cons m miners ih =>
    unfold deleteMiners
    split
    · exact ih
    · refine (AllCalls.perform trivial).bind fun r => ?_
      rcases r with e | _
      · dsimp only
        split
        · exact ih
        · exact .pure _
      · exact ih

theorem allCalls_updateStatus (ms' : MinerSet) (miners : List Miner) (now : Nat) :
    AllCalls (Harmless ms) (updateStatus ms' miners now) :=
  (AllCalls.perform trivial).bind fun r => by rcases r with _ | _ <;> exact .pure _

theorem allCalls_reconcileDelete (h : SameSet ms ms') : AllCalls (Harmless ms) (reconcileDelete ms') := by
  unfold reconcileDelete
  split
  · exact (AllCalls.perform fun _ => h.spec).bind fun r => by rcases r with _ | _ <;> exact .pure _
  · exact .pure _

/-- A pass that stops here keeps the bound. -/
theorem safe_done {α : Type} {a : α} {s : Store} (hs : ReplicaInv ms sel N s) :
    PassSafe ms sel N (fun _ => ReplicaInv ms sel N) (.pure a) s :=
  fun _ ht => ⟨replicaInv_stable.rtg ht hs, replicaInv_stable.rtg ht hs⟩

/-- With room for `n` more counted Miners, `createMiners` for `n` keeps the bound. -/
theorem createMiners_safe (hsame : SameSet ms ms')
    (htemplate : Labels.selectorMatches sel (computeDesiredMiner ms none).meta.labels) (n : Nat)
    {s : Store} (hs : Base ms sel s ∧ countedMiners ms sel s + n ≤ N) :
    PassSafe ms sel N (fun _ => ReplicaInv ms sel N) (createMiners ms' n) s := by
  induction n generalizing s with
  | zero => exact safe_done ⟨hs.1, by omega⟩
  | succ n ih =>
    simp only [createMiners, perform_bind]
    refine safe_call (room_stable (n + 1)) (fun _ h => ⟨h.1, by omega⟩) (fun t ht => ⟨?_, fun _ => ?_⟩) hs
    swap
    · exact safe_done ⟨ht.1, by omega⟩
    have hc := create_perform (hsame.desired_labels ▸ htemplate) ht.1
    have hroom : Base ms sel (t.perform (.createMiner (computeDesiredMiner ms' none))).2 ∧
        countedMiners ms sel (t.perform (.createMiner (computeDesiredMiner ms' none))).2 + n ≤ N :=
      ⟨hc.1, by omega⟩
    split
    · exact safe_done ⟨hroom.1, by omega⟩
    · refine Safe.bind (Safe.mono (fun r u hu => ?_) (harmless_safe (allCalls_waitForMinerCreation _) n hroom))
      split
      · exact safe_done ⟨hu.1, by omega⟩
      · exact ih hu

/-- From a store with no more counted Miners than the filtered list, `syncReplicas` keeps the
bound: it creates at most the replica count minus the list, and otherwise only deletes. -/
theorem syncReplicas_safe (hsame : SameSet ms ms') {R : Int} (hR : ms.spec.replicas = some R)
    (hN : R.toNat ≤ N)
    (htemplate : Labels.selectorMatches sel (computeDesiredMiner ms none).meta.labels)
    {miners : List Miner} {now : Nat} {s : Store}
    (hs : ReplicaInv ms sel N s ∧ countedMiners ms sel s ≤ miners.length) :
    PassSafe ms sel N (fun _ => ReplicaInv ms sel N) (syncReplicas ms' miners now) s := by
  have hR' : ms'.spec.replicas = some R := hsame.spec ▸ hR
  simp only [syncReplicas, hR']
  split_ifs with hneg hpos
  · refine Safe.bind (Safe.mono (fun r u hu => ?_)
      (createMiners_safe hsame htemplate _ ⟨hs.1.1, ?_⟩))
    · split <;> exact safe_done hu
    · omega
  · split
    · exact safe_done hs.1
    · refine Safe.bind (Safe.mono (fun r u hu => ?_)
        (harmless_safe (allCalls_deleteMiners _) 0 ⟨hs.1.1, hs.1.2⟩))
      split <;> exact safe_done hu
  · exact safe_done hs.1

/-! ## The filter loop -/

section Filter

variable (ms ms' sel)

/-- The state of `filterMiners` on the pass's copy `ms'`: the Miners still to visit are of the
namespace and selected, have distinct keys and look in the store as they did in the list, and
every counted Miner of the store is kept already or is one the loop will keep. -/
structure Pending (kept : List ObjectKey) (rest : List Miner) (s : Store) : Prop where
  listed : ∀ m ∈ rest, m.meta.ns = ms.meta.ns ∧ Labels.selectorMatches sel m.meta.labels
  nodup : (rest.map (·.meta.key)).Nodup
  fresh : ∀ m ∈ rest, ∀ x ∈ s.miners, x.meta.key = m.meta.key → view x = view m
  cover : ∀ x ∈ s.miners, counted ms sel x → x.meta.key ∈ kept ∨
    x.meta.key ∈ (rest.filter fun m => !shouldExcludeMiner ms' m).map (·.meta.key)

/-- Every counted Miner of the store is kept already or in `miners`. -/
def Covered (kept : List ObjectKey) (miners : List Miner) (s : Store) : Prop :=
  ∀ x ∈ s.miners, counted ms sel x → x.meta.key ∈ kept ∨ x.meta.key ∈ miners.map (·.meta.key)

end Filter

theorem pending_stable {kept : List ObjectKey} {rest : List Miner} :
    Stable (OthersStep ms) (Pending ms ms' sel kept rest) := by
  intro s t h hs
  refine ⟨hs.listed, hs.nodup, fun m hm x hx hk => ?_, fun x hx hc => ?_⟩
  · obtain ⟨y, hy, hv⟩ := h.exists_view hx
    exact hv.symm.trans (hs.fresh m hm y hy ((key_eq_of_view hv).trans hk))
  · obtain ⟨y, hy, hv⟩ := h.exists_view hx
    rw [← key_eq_of_view hv]
    exact hs.cover y hy ((counted_eq_of_view hv).trans hc)

theorem covered_stable {kept : List ObjectKey} {miners : List Miner} :
    Stable (OthersStep ms) (Covered ms sel kept miners) := by
  intro s t h hs x hx hc
  obtain ⟨y, hy, hv⟩ := h.exists_view hx
  rw [← key_eq_of_view hv]
  exact hs y hy ((counted_eq_of_view hv).trans hc)

theorem mem_keys_filter_cons {p : Miner → Bool} {m : Miner} {rest : List Miner} {k : ObjectKey}
    (h : k ∈ ((m :: rest).filter p).map (·.meta.key)) :
    k = m.meta.key ∨ k ∈ (rest.filter p).map (·.meta.key) := by
  rw [List.filter_cons] at h
  split at h
  · exact List.mem_cons.mp h
  · exact .inr h

theorem Pending.tail {kept : List ObjectKey} {m : Miner} {rest : List Miner} {s : Store}
    (hp : Pending ms ms' sel kept (m :: rest) s)
    (hm : ∀ x ∈ s.miners, counted ms sel x → x.meta.key = m.meta.key → x.meta.key ∈ kept) :
    Pending ms ms' sel kept rest s where
  listed m' hm' := hp.listed m' (List.mem_cons_of_mem _ hm')
  nodup := (List.nodup_cons.mp hp.nodup).2
  fresh m' hm' := hp.fresh m' (List.mem_cons_of_mem _ hm')
  cover x hx hc := by
    rcases hp.cover x hx hc with hk | hk
    · exact .inl hk
    · rcases mem_keys_filter_cons hk with hk' | hk'
      · exact .inl (hm x hx hc hk')
      · exact .inr hk'

/-- A Miner controlled by another owner is skipped. -/
theorem Pending.exclude {kept : List ObjectKey} {m : Miner} {rest : List Miner} {s : Store}
    (hp : Pending ms ms' sel kept (m :: rest) s) (hex : shouldExcludeMiner ms' m = true) :
    Pending ms ms' sel kept rest s where
  listed m' hm' := hp.listed m' (List.mem_cons_of_mem _ hm')
  nodup := (List.nodup_cons.mp hp.nodup).2
  fresh m' hm' := hp.fresh m' (List.mem_cons_of_mem _ hm')
  cover x hx hc := by
    have := hp.cover x hx hc
    rwa [List.filter_cons_of_neg (by simpa using hex)] at this

/-- A kept Miner moves to the kept keys. -/
theorem Pending.keep {kept : List ObjectKey} {m : Miner} {rest : List Miner} {s : Store}
    (hp : Pending ms ms' sel kept (m :: rest) s) :
    Pending ms ms' sel (m.meta.key :: kept) rest s where
  listed m' hm' := hp.listed m' (List.mem_cons_of_mem _ hm')
  nodup := (List.nodup_cons.mp hp.nodup).2
  fresh m' hm' := hp.fresh m' (List.mem_cons_of_mem _ hm')
  cover x hx hc := by
    rcases hp.cover x hx hc with hk | hk
    · exact .inl (List.mem_cons_of_mem _ hk)
    · rcases mem_keys_filter_cons hk with hk' | hk'
      · exact .inl (hk' ▸ List.mem_cons_self _ _)
      · exact .inr hk'

theorem counted_iff {m : Miner} :
    counted ms sel m = true ↔ m.meta.ns = ms.meta.ns ∧ (m.meta.isControlledBy ms.meta = true ∨
      (m.meta.getControllerOf = none ∧ Labels.selectorMatches sel m.meta.labels = true)) := by
  simp [counted]

theorem shouldExcludeMiner_of_counted (hsame : SameSet ms ms') {m : Miner}
    (hm : counted ms sel m = true) : shouldExcludeMiner ms' m = false := by
  rcases (counted_iff.mp hm).2 with hc | ⟨hn, -⟩
  · simp [shouldExcludeMiner, hsame.isControlledBy, hc]
  · simp [shouldExcludeMiner, hn]

/-- The listed Miners start the loop: every counted Miner is selected, so it is listed and kept. -/
theorem pending_list (hsame : SameSet ms ms') {s : Store} (hs : Base ms sel s) :
    Pending ms ms' sel [] (Table.list s.miners ms'.meta.ns sel) s where
  listed m hm := by
    have h := (List.mem_filter.mp hm).2
    simp only [decide_eq_true_eq] at h
    exact ⟨h.1.trans hsame.ns, h.2⟩
  nodup := ((List.filter_sublist _).map _).nodup hs.nodup
  fresh m hm x hx hk := by
    rw [List.inj_on_of_nodup_map hs.nodup hx (List.mem_filter.mp hm).1 hk]
  cover x hx hc := by
    obtain ⟨hns, hown⟩ := counted_iff.mp hc
    have hsel : Labels.selectorMatches sel x.meta.labels = true := by
      rcases hown with hown | hown
      · exact hs.selected x hx hns hown
      · exact hown.2
    refine .inr (List.mem_map_of_mem _ (List.mem_filter.mpr ⟨List.mem_filter.mpr ⟨hx, ?_⟩, ?_⟩))
    · simpa [hsame.ns] using ⟨hns, hsel⟩
    · simp [shouldExcludeMiner_of_counted hsame hc]

/-- A Miner kept under the key of `m` joins the front of the filtered list. -/
theorem Covered.cons {kept : List ObjectKey} {F : List Miner} {s : Store} {m m' : Miner}
    (h : Covered ms sel (m.meta.key :: kept) F s) (hk : m'.meta.key = m.meta.key) :
    Covered ms sel kept (m' :: F) s := by
  intro x hx hc
  rcases h x hx hc with h | h
  · rcases List.mem_cons.mp h with h | h
    · exact .inr (List.mem_cons.mpr (.inl (h.trans hk.symm)))
    · exact .inl h
  · exact .inr (List.mem_cons_of_mem _ h)

/-- At the end of the loop the filtered list is at least the count. -/
theorem countedMiners_le_of_covered {F : List Miner} {s : Store} (hs : Base ms sel s)
    (h : Covered ms sel [] F s) : countedMiners ms sel s ≤ F.length := by
  have hnodup : ((s.miners.filter (counted ms sel)).map (·.meta.key)).Nodup :=
    ((List.filter_sublist _).map _).nodup hs.nodup
  have hsub : (s.miners.filter (counted ms sel)).map (·.meta.key) ⊆ F.map (·.meta.key) := by
    intro k hk
    obtain ⟨x, hx, rfl⟩ := List.mem_map.mp hk
    obtain ⟨hx, hc⟩ := List.mem_filter.mp hx
    simpa using h x hx hc
  simpa [countedMiners] using (List.subperm_of_subset hnodup hsub).length_le

/-- The adoption Patch of an orphan makes the pass's copy its controller: the count does not move,
and the orphan's key joins the kept ones. -/
theorem adopt_ok (hsame : SameSet ms ms') {kept : List ObjectKey} {m : Miner} {rest : List Miner}
    {s : Store} {rev : Nat} {x' : Miner} {t' : List Miner}
    (hs : ReplicaInv ms sel N s) (hp : Pending ms ms' sel kept (m :: rest) s)
    (horph : m.meta.getControllerOf = none)
    (hr : Table.patchOwnerReferences s.miners rev m.meta.key
      (m.meta.ownerReferences ++ [newControllerRef ms'.meta msKind]) = .ok (x', t')) (r : Nat) :
    x'.meta.key = m.meta.key ∧ ReplicaInv ms sel N { s with miners := t', revision := r } ∧
      Pending ms ms' sel (m.meta.key :: kept) rest { s with miners := t', revision := r } := by
  obtain ⟨stored, hstored, hsk, hx', rfl⟩ := Table.patchOwnerReferences_eq_ok hr
  have hv := hp.fresh m (List.mem_cons_self _ _) stored hstored hsk
  have hl : stored.meta.labels = m.meta.labels := congrArg (·.2.1) hv
  have hrefs : stored.meta.ownerReferences = m.meta.ownerReferences := congrArg (·.2.2) hv
  obtain ⟨hns, hmsel⟩ := hp.listed m (List.mem_cons_self _ _)
  have hns' : stored.meta.ns = ms.meta.ns := (ns_eq_of_view hv).trans hns
  have hfind : m.meta.ownerReferences.find? (·.controller) = none := horph
  have hxk : x'.meta.key = stored.meta.key := by rw [hx']; rfl
  have hxl : x'.meta.labels = stored.meta.labels := by rw [hx']
  have hold : counted ms sel stored = true :=
    counted_iff.mpr ⟨hns', .inr ⟨by simpa [ObjectMeta.getControllerOf, hrefs] using hfind, hl ▸ hmsel⟩⟩
  have hnew : counted ms sel x' = true := by
    rw [hx']
    exact counted_iff.mpr ⟨hns', .inl (by simp [ObjectMeta.isControlledBy, ObjectMeta.getControllerOf,
      List.find?_append, hfind, newControllerRef, hsame.uid])⟩
  have hcountP : ∀ l : List Miner, l.countP (counted ms sel) = (l.map (counted ms sel)).countP id :=
    fun l => by rw [List.countP_map]; rfl
  have hcount : countedMiners ms sel { s with miners := Table.replace s.miners x', revision := r } =
      countedMiners ms sel s := by
    simp only [countedMiners, ← List.countP_eq_length_filter]
    rw [hcountP, Table.map_replace _ hs.1.nodup hstored hxk.symm (hnew.trans hold.symm), ← hcountP]
  refine ⟨hxk.trans hsk, ⟨⟨?_, hs.1.minerSet, fun z hz hzns hzc => ?_⟩, hcount ▸ hs.2⟩, ?_⟩
  · rw [Table.map_replace _ hs.1.nodup hstored hxk.symm hxk]
    exact hs.1.nodup
  · rcases Table.mem_replace hz with rfl | hz
    · exact hxl ▸ hl ▸ hmsel
    · exact hs.1.selected z hz hzns hzc
  · have hmrest : m.meta.key ∉ rest.map (·.meta.key) := (List.nodup_cons.mp hp.nodup).1
    refine { hp.keep with fresh := fun m' hm' z hz hk => ?_, cover := fun z hz hc => ?_ }
    · rcases Table.mem_replace hz with rfl | hz
      · exact absurd ((hxk.trans hsk).symm.trans hk ▸ List.mem_map_of_mem _ hm') hmrest
      · exact hp.fresh m' (List.mem_cons_of_mem _ hm') z hz hk
    · by_cases hzk : z.meta.key = m.meta.key
      · exact .inl (hzk ▸ List.mem_cons_self _ _)
      rcases Table.mem_replace hz with rfl | hz
      · exact absurd (hxk.trans hsk) hzk
      · exact hp.keep.cover z hz hc

/-- `filterMiners` keeps the bound and returns every counted Miner it has not kept already. -/
theorem filterMiners_safe (hsame : SameSet ms ms') (rest : List Miner) {kept : List ObjectKey}
    {s : Store} (hs : ReplicaInv ms sel N s ∧ Pending ms ms' sel kept rest s) :
    PassSafe ms sel N (fun F t => ReplicaInv ms sel N t ∧ Covered ms sel kept F t)
      (filterMiners ms' rest) s := by
  induction rest generalizing kept s with
  | nil =>
    exact safe_pure replicaInv_stable (replicaInv_stable.and covered_stable) hs.1
      ⟨hs.1, fun x hx hc => by simpa using hs.2.cover x hx hc⟩
  | cons m rest ih =>
    rw [filterMiners]
    by_cases hex : shouldExcludeMiner ms' m = true
    · rw [if_pos hex]
      exact ih ⟨hs.1, hs.2.exclude hex⟩
    rw [if_neg hex]
    have hdone : ∀ (m' : Miner) (F : List Miner) (u : Store), m'.meta.key = m.meta.key →
        ReplicaInv ms sel N u ∧ Covered ms sel (m.meta.key :: kept) F u →
        PassSafe ms sel N (fun F t => ReplicaInv ms sel N t ∧ Covered ms sel kept F t)
          (Pure.pure (m' :: F)) u := fun _ _ _ hk hu =>
      safe_pure replicaInv_stable (replicaInv_stable.and covered_stable) hu.1 ⟨hu.1, hu.2.cons hk⟩
    by_cases horph : m.meta.getControllerOf.isNone = true
    · rw [if_pos horph]
      simp only [adoptOrphan, perform_bind]
      refine safe_call (replicaInv_stable.and pending_stable) (fun _ h => h.1)
        (fun t ht => ⟨?_, fun h => False.elim h⟩) hs
      cases hr : Table.patchOwnerReferences t.miners t.revision m.meta.key
          (m.meta.ownerReferences ++ [newControllerRef ms'.meta msKind]) with
      | error e =>
        simp only [Store.perform, Store.write, hr]
        refine ih ⟨ht.1, ht.2.tail fun x hx _ hk => ?_⟩
        exact absurd hk (Table.find_eq_none (Table.patchOwnerReferences_eq_error hr) x hx)
      | ok p =>
        obtain ⟨x', t'⟩ := p
        obtain ⟨hk, hinv, hpend⟩ :=
          adopt_ok hsame ht.1 ht.2 (Option.isNone_iff_eq_none.mp horph) hr (t.revision + 1)
        simp only [Store.perform, Store.write, hr]
        exact (Safe.bind (Safe.mono (fun F u hu => hdone x' F u hk hu) (ih ⟨hinv, hpend⟩)) :
          PassSafe ms sel N _ (filterMiners ms' rest >>= fun F => Pure.pure (x' :: F)) _)
    · rw [if_neg horph]
      exact Safe.bind (Safe.mono (fun F u hu => hdone m F u rfl hu) (ih ⟨hs.1, hs.2.keep⟩))

/-! ## Two MinerSets adopting one orphan

`adoptOrphan` sends `client.MergeFrom` of the Miner it listed: a JSON merge patch whose
`ownerReferences` is the listed list with a controller reference appended. A merge patch replaces
a list whole and carries no resource version, so it overwrites whatever owner references the
Miner gained since it was listed. Two MinerSets `a` and `b` select the same orphan. Both list it,
`b` adopts it, then `a` patches it: `b`'s controller reference is gone and `a` controls the
orphan. `b` still holds its adopted copy in its filtered list: with no replica wanted it deletes
the Miner `a` now controls, and with one it writes a status that counts it. The bound above
excludes this with its rely: no other writer changes owner references. -/

/-- The next store call of worker `i`, when its pass is waiting on one. -/
def nextCallOf {α : Type} (ws : List (Option (Prog α))) (i : Nat) : Option Call :=
  match ws[i]? with
  | some (some (.call c _)) => some c
  | _ => none

/-- The owner references of the stored Miner with the given key. -/
def storedOwners (s : Store) (key : ObjectKey) : List OwnerReference :=
  ((Table.find s.miners key).map (·.meta.ownerReferences)).getD []

/-- The controller reference of the stored Miner with the given key. -/
def storedController (s : Store) (key : ObjectKey) : Option OwnerReference :=
  (Table.find s.miners key).bind (·.meta.getControllerOf)

/-- A MinerSet of the `default` namespace selecting `app=miner`. -/
def raceSet (name : String) (uid : Nat) (replicas : Int) : MinerSet :=
  { meta := { name, ns := "default", uid, finalizers := [minerSetFinalizer] }
    spec := { replicas := some replicas, selector := { matchLabels := [("app", "miner")] },
              template := { labels := [("app", "miner")] } }
    status := {} }

/-- An orphan both MinerSets select. -/
def raceOrphan : Miner :=
  { meta := { name := "orphan", ns := "default", labels := [("app", "miner")] }
    spec := {}
    status := {} }

/-- `a` wants one replica, `b` wants `rb`, and the orphan is the only Miner. -/
def raceStore (rb : Int) : Store :=
  { minerSets := [raceSet "a" 1 1, raceSet "b" 2 rb], miners := [raceOrphan], revision := 3 }

/-- Worker 0 runs the passes of `a`, worker 1 those of `b`. -/
def raceStart (rb : Int) (i : Nat) (p : Prog (Except Error Result)) : Prop :=
  ∃ now, (i = 0 ∧ p = Reconcile (raceSet "a" 1 1).meta.key now) ∨
    (i = 1 ∧ p = Reconcile (raceSet "b" 2 rb).meta.key now)

/-- `a` reads itself and lists the orphan; `b` does the same and adopts it. -/
def raceSchedule (rb : Int) : List (Nat × Choice (Except Error Result)) :=
  [(0, .start (Reconcile (raceSet "a" 1 1).meta.key 0)), (0, .call), (0, .call),
   (1, .start (Reconcile (raceSet "b" 2 rb).meta.key 0)), (1, .call), (1, .call), (1, .call)]

/-- The race, with no failing call and no other writer. After the schedule, `a`'s next call is a
Patch of the orphan that drops `b`'s controller reference, added after `a` listed it. Once `a`
has sent it, `b`'s next call deletes the orphan, whose controller is `a`, when `b` wants no
replica; when `b` wants one, its next call writes a status counting the orphan. -/
theorem adoption_race :
    (∃ w, ReflTransGen (Interleaved (fun _ _ => True) (fun _ => False) (raceStart 0))
        (raceStore 0, [none, none]) w ∧
      nextCallOf w.2 0 = some (.patchMiner raceOrphan.meta.key
        [newControllerRef (raceSet "a" 1 1).meta msKind]) ∧
      storedOwners w.1 raceOrphan.meta.key = [newControllerRef (raceSet "b" 2 0).meta msKind]) ∧
    (∃ w, ReflTransGen (Interleaved (fun _ _ => True) (fun _ => False) (raceStart 0))
        (raceStore 0, [none, none]) w ∧
      nextCallOf w.2 1 = some (.deleteMiner raceOrphan.meta.key) ∧
      storedController w.1 raceOrphan.meta.key =
        some (newControllerRef (raceSet "a" 1 1).meta msKind)) ∧
    (∃ w, ReflTransGen (Interleaved (fun _ _ => True) (fun _ => False) (raceStart 1))
        (raceStore 1, [none, none]) w ∧
      (∃ ms, nextCallOf w.2 1 = some (.updateMinerSetStatus ms) ∧ ms.status.replicas = 1) ∧
      storedController w.1 raceOrphan.meta.key =
        some (newControllerRef (raceSet "a" 1 1).meta msKind)) := by
  have hstart : ∀ rb i p, (i, Choice.start p) ∈ raceSchedule rb ++ [(0, .call)] → raceStart rb i p :=
    fun rb i p hp => ⟨0, by simpa [raceSchedule] using hp⟩
  have h₁ : replayAll (fun _ => False) (raceStore 0, [none, none]) (raceSchedule 0) = some _ := rfl
  have h₂ : replayAll (fun _ => False) (raceStore 0, [none, none]) (raceSchedule 0 ++ [(0, .call)]) =
    some _ := rfl
  have h₃ : replayAll (fun _ => False) (raceStore 1, [none, none]) (raceSchedule 1 ++ [(0, .call)]) =
    some _ := rfl
  exact ⟨⟨_, replayAll_reachable (fun i p hp => hstart 0 i p (List.mem_append_left _ hp)) h₁,
      by decide, by decide⟩,
    ⟨_, replayAll_reachable (hstart 0) h₂, by decide, by decide⟩,
    ⟨_, replayAll_reachable (hstart 1) h₃, ⟨_, rfl, by decide⟩, by decide⟩⟩

/-! ## A whole pass -/

section Pass

variable {R : Int} (hsel : labelSelectorAsMap ms.spec.selector = .ok sel)
  (hR : ms.spec.replicas = some R) (hN : R.toNat ≤ N)
  (htemplate : Labels.selectorMatches sel (computeDesiredMiner ms none).meta.labels = true)
include hsel hR hN htemplate

theorem reconcileMiners_safe (hsame : SameSet ms ms') {now : Nat} {s : Store}
    (hs : ReplicaInv ms sel N s) :
    PassSafe ms sel N (fun _ => ReplicaInv ms sel N) (reconcileMiners ms' now) s := by
  have hsame' : SameSet ms { ms' with meta := { ms'.meta with
      labels := ms'.meta.labels.set chainNameLabel ms'.spec.template.spec.chainName } } :=
    ⟨hsame.uid, hsame.key, hsame.spec⟩
  have hsel' : labelSelectorAsMap ms'.spec.selector = .ok sel := hsame.spec ▸ hsel
  simp only [reconcileMiners, hsel', perform_bind]
  refine safe_call replicaInv_stable (fun _ h => h) (fun t ht => ⟨?_, fun _ => ?_⟩) hs
  swap
  · exact safe_done ht
  refine Safe.bind (Safe.mono (fun F u hu => ?_)
    (filterMiners_safe hsame' _ ⟨ht, pending_list hsame' ht.1⟩))
  refine Safe.bind (Safe.mono (fun r v hv => ?_)
    (syncReplicas_safe hsame' hR hN htemplate ⟨hu.1, countedMiners_le_of_covered hu.1.1 hu.2⟩))
  split
  · exact safe_done hv
  · refine Safe.bind (Safe.mono (fun r w hw => ?_) (harmless_safe (allCalls_updateStatus _ _ _) 0 hv))
    split <;> exact safe_done hw

omit hsel hR hN htemplate in
/-- Adding the finalizer keeps the bound, and the MinerSet it returns is still `ms`'s. -/
theorem ensureFinalizer_safe (hsame : SameSet ms ms') {s : Store} (hs : ReplicaInv ms sel N s) :
    PassSafe ms sel N (fun r t => ReplicaInv ms sel N t ∧ ∀ ms'', r = .ok ms'' → SameSet ms ms'')
      (ensureFinalizer ms') s := by
  have hQ : ∀ r : Except Error MinerSet, Stable (OthersStep ms)
      fun t => ReplicaInv ms sel N t ∧ ∀ ms'', r = .ok ms'' → SameSet ms ms'' :=
    fun _ => replicaInv_stable.and fun _ _ _ h => h
  unfold ensureFinalizer
  split
  · exact safe_pure replicaInv_stable (hQ _) hs ⟨hs, fun _ h => by cases h; exact hsame⟩
  refine safe_call replicaInv_stable (fun _ h => h) (fun t ht => ⟨?_, fun _ => ?_⟩) hs
  · have hc : Harmless ms (.updateMinerSet { ms' with meta := ms'.meta.addFinalizer minerSetFinalizer }) :=
      fun _ => hsame.spec
    have h := harmless_perform hc ht.1
    have ht' : ReplicaInv ms sel N (t.perform _).2 := ⟨h.1, h.2.trans ht.2⟩
    refine safe_pure replicaInv_stable (hQ _) ht' ⟨ht', fun ms'' hr => ?_⟩
    obtain ⟨_, hw⟩ := Store.write_fst_eq_ok hr
    obtain ⟨stored, hstored, hsk, hxk, hxu, hxs, -⟩ := Table.update_eq_ok hw
    have hkey : stored.meta.key = ms.meta.key := by simpa [hsame.key] using hsk
    exact ⟨hxu.trans (ht.1.minerSet stored hstored hkey).1, by simpa [hsame.key] using hxk,
      hxs.trans hsame.spec⟩
  · exact safe_pure replicaInv_stable (hQ _) ht ⟨ht, fun _ h => by cases h⟩

theorem reconcile_safe (hsame : SameSet ms ms') {now : Nat} {s : Store} (hs : ReplicaInv ms sel N s) :
    PassSafe ms sel N (fun _ => ReplicaInv ms sel N) (reconcile ms' now) s := by
  refine Safe.bind (Safe.mono (fun r u hu => ?_) (ensureFinalizer_safe hsame hs))
  rcases r with e | ms''
  · exact safe_done hu.1
  · exact reconcileMiners_safe hsel hR hN htemplate (hu.2 ms'' rfl) hu.1

/-- A whole pass on `ms` keeps the bound, from any store where it holds. -/
theorem Reconcile_safe {now : Nat} {s : Store} (hs : ReplicaInv ms sel N s) :
    PassSafe ms sel N (fun _ => ReplicaInv ms sel N) (Reconcile ms.meta.key now) s := by
  simp only [Reconcile, perform_bind]
  refine safe_call replicaInv_stable (fun _ h => h) (fun t ht => ⟨?_, fun _ => ?_⟩) hs
  swap
  · exact safe_done ht
  simp only [Store.perform]
  split
  · exact safe_done ht
  · exact safe_done ht
  · rename_i x hx
    obtain ⟨hmem, hkey⟩ := Table.get_eq_ok hx
    have hsame : SameSet ms x :=
      ⟨(ht.1.minerSet x hmem hkey).1, hkey, (ht.1.minerSet x hmem hkey).2⟩
    split
    · exact Safe.mono (fun _ _ h => h) (harmless_safe (allCalls_reconcileDelete hsame) 0 ht)
    · exact reconcile_safe hsel hR hN htemplate hsame ht

end Pass

/-- The label map of the examples' selector. -/
def appLabels : Labels := [("app", "miner")]

/-- A MinerSet of one replica, selecting `appLabels`, whose template carries `templateLabels`. -/
def appSet (templateLabels : Labels) : MinerSet :=
  { meta := { name := "ms", ns := "default", uid := 1, finalizers := [minerSetFinalizer] }
    spec := { replicas := some 1, selector := { matchLabels := appLabels },
              template := { labels := templateLabels } }
    status := {} }

/-- A store with `appSet` and the given Miners of its namespace. -/
def appStore (templateLabels : Labels) (miners : List (String × Labels × List OwnerReference)) :
    Store :=
  { minerSets := [appSet templateLabels]
    miners := miners.map fun m =>
      { meta := { name := m.1, ns := "default", labels := m.2.1, ownerReferences := m.2.2 }
        spec := {}
        status := {} }
    revision := 2 }

/-- One pass from a store with a selected orphan, when the adoption succeeds. -/
def adoptionSchedule : List (Choice (Except Error Result)) :=
  [.start (Reconcile (appSet appLabels).meta.key 0), .call, .call, .call, .call, .finish]

/-- A pass whose adoption Patch fails, up to the Create of a replacement. -/
def failedAdoptionSchedule : List (Choice (Except Error Result)) :=
  [.start (Reconcile (appSet appLabels).meta.key 0), .call, .call, .fail, .call]

/-- A pass from its start up to its first Create, when the list holds nothing to adopt. -/
def firstCreateSchedule (templateLabels : Labels) : List (Choice (Except Error Result)) :=
  [.start (Reconcile (appSet templateLabels).meta.key 0), .call, .call, .call]

/-- A whole pass that creates one Miner: Get, List, Create, the Get that waits, the status write. -/
def createPassSchedule (templateLabels : Labels) : List (Choice (Except Error Result)) :=
  [.start (Reconcile (appSet templateLabels).meta.key 0), .call, .call, .call, .call, .call, .finish]

end MinerSetReconciler

end Minerx
