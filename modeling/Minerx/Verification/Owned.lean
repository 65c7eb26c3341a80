import Minerx.Interleaving
import Minerx.Controller.MinerSet

/-!
# The Miners a MinerSet answers for

The replica bound counts, for a MinerSet `ms` and the label map `sel` of its selector, the Miners
of its namespace that it controls, or that have no controller and are selected. Whether a Miner
counts depends on its `view` only: its key, labels and owner references. The other writers the
bound allows (`OthersStep`) create no Miner and change no view, so they can only lower the count.

`Base` is what every store along the passes keeps: distinct Miner keys, the MinerSet stored
under `ms`'s key has `ms`'s uid and spec, and every Miner `ms` controls in its namespace is
selected. This file proves what one store call does to `Base` and to the count; the passes are
in `ReplicaBound`.
-/

namespace Minerx

namespace MinerSetReconciler

open Controller Prog

/-- The fields of a Miner that decide whether the bound counts it. -/
def view (m : Miner) : ObjectKey × Labels × List OwnerReference :=
  (m.meta.key, m.meta.labels, m.meta.ownerReferences)

/-- A Miner with the given view and nothing else. -/
def ofView (v : ObjectKey × Labels × List OwnerReference) : Miner :=
  { meta := { name := v.1.name, ns := v.1.ns, labels := v.2.1, ownerReferences := v.2.2 }
    spec := {}
    status := {} }

@[simp] theorem view_ofView (v : ObjectKey × Labels × List OwnerReference) : view (ofView v) = v :=
  rfl

theorem key_eq_of_view {m m' : Miner} (h : view m = view m') : m.meta.key = m'.meta.key :=
  congrArg Prod.fst h

section

variable (ms : MinerSet) (sel : Labels)

/-- A Miner the bound counts for `ms`: in its namespace, and controlled by it, or without a
controller and selected. -/
def counted (m : Miner) : Bool :=
  m.meta.ns = ms.meta.ns ∧ (m.meta.isControlledBy ms.meta ∨
    (m.meta.getControllerOf.isNone ∧ Labels.selectorMatches sel m.meta.labels))

/-- The number of Miners the bound counts. -/
def countedMiners (s : Store) : Nat := (s.miners.filter (counted ms sel)).length

/-- What the other writers may do: create no Miner and change no Miner's labels or owner
references (they may remove Miners and change anything else), and leave `ms` alone. -/
def OthersStep (s t : Store) : Prop :=
  (t.miners.map view).Sublist (s.miners.map view) ∧
    ∀ x ∈ t.minerSets, x.meta.key = ms.meta.key → x ∈ s.minerSets

/-- What every store along the passes keeps. -/
structure Base (s : Store) : Prop where
  nodup : (s.miners.map (·.meta.key)).Nodup
  minerSet : ∀ x ∈ s.minerSets, x.meta.key = ms.meta.key →
    x.meta.uid = ms.meta.uid ∧ x.spec = ms.spec
  selected : ∀ m ∈ s.miners, m.meta.ns = ms.meta.ns → m.meta.isControlledBy ms.meta →
    Labels.selectorMatches sel m.meta.labels

/-- The calls of a pass on `ms` that keep `Base` and never raise the count, whatever the store. -/
def Harmless : Call → Prop
  | .getMinerSet _ | .getMiner _ | .listMiners _ _ | .updateMinerSetStatus _ | .deleteMiner _ => True
  | .updateMinerSet y => y.meta.key = ms.meta.key → y.spec = ms.spec
  | _ => False

end

variable {ms : MinerSet} {sel : Labels}

theorem ns_eq_of_view {m m' : Miner} (h : view m = view m') : m.meta.ns = m'.meta.ns :=
  congrArg ObjectKey.ns (key_eq_of_view h)

theorem isControlledBy_eq_of_view {m m' : Miner} (h : view m = view m') (owner : ObjectMeta) :
    m.meta.isControlledBy owner = m'.meta.isControlledBy owner := by
  have hr : m.meta.ownerReferences = m'.meta.ownerReferences := congrArg (·.2.2) h
  simp [ObjectMeta.isControlledBy, ObjectMeta.getControllerOf, hr]

theorem counted_eq_of_view {m m' : Miner} (h : view m = view m') :
    counted ms sel m = counted ms sel m' := by
  have hr : m.meta.ownerReferences = m'.meta.ownerReferences := congrArg (·.2.2) h
  have hl : m.meta.labels = m'.meta.labels := congrArg (·.2.1) h
  simp [counted, ObjectMeta.isControlledBy, ObjectMeta.getControllerOf, ns_eq_of_view h, hr, hl]

theorem length_filter_counted (l : List Miner) :
    (l.filter (counted ms sel)).length =
      ((l.map view).filter fun v => counted ms sel (ofView v)).length := by
  rw [List.filter_map, List.length_map]
  exact congrArg List.length
    (List.filter_congr fun m _ => counted_eq_of_view (view_ofView (view m)).symm)

theorem countedMiners_le_of_sublist {s t : Store}
    (h : (t.miners.map view).Sublist (s.miners.map view)) :
    countedMiners ms sel t ≤ countedMiners ms sel s := by
  unfold countedMiners
  rw [length_filter_counted, length_filter_counted]
  exact (h.filter _).length_le

theorem Base.of_sublist {s t : Store} (hs : Base ms sel s)
    (hm : (t.miners.map view).Sublist (s.miners.map view))
    (hsets : ∀ x ∈ t.minerSets, x.meta.key = ms.meta.key → x ∈ s.minerSets) : Base ms sel t where
  nodup := by
    have hkeys : ∀ u : Store, u.miners.map (·.meta.key) = (u.miners.map view).map Prod.fst :=
      fun u => by rw [List.map_map]; rfl
    rw [hkeys]
    exact (hm.map Prod.fst).nodup (hkeys s ▸ hs.nodup)
  minerSet x hx hk := hs.minerSet x (hsets x hx hk) hk
  selected m hm' hns hc := by
    obtain ⟨y, hy, hv⟩ := List.mem_map.mp (hm.subset (List.mem_map_of_mem view hm'))
    have hl : y.meta.labels = m.meta.labels := congrArg (·.2.1) hv
    rw [← hl]
    exact hs.selected y hy (ns_eq_of_view hv ▸ hns) (isControlledBy_eq_of_view hv _ ▸ hc)

/-- A Miner after another writer's step shows the view of a Miner before it. -/
theorem OthersStep.exists_view {s t : Store} (h : OthersStep ms s t) {x : Miner} (hx : x ∈ t.miners) :
    ∃ y ∈ s.miners, view y = view x :=
  List.mem_map.mp (h.1.subset (List.mem_map_of_mem view hx))

theorem base_stable : Stable (OthersStep ms) (Base ms sel) :=
  fun _ _ h hs => hs.of_sublist h.1 h.2

theorem countedMiners_stable (N : Nat) :
    Stable (OthersStep ms) fun s => countedMiners ms sel s ≤ N :=
  fun _ _ h hs => (countedMiners_le_of_sublist h.1).trans hs

theorem Base.congr {s t : Store} (hs : Base ms sel s) (hm : t.miners = s.miners)
    (hsets : ∀ x ∈ t.minerSets, x.meta.key = ms.meta.key →
      x.meta.uid = ms.meta.uid ∧ x.spec = ms.spec) : Base ms sel t where
  nodup := hm ▸ hs.nodup
  minerSet := hsets
  selected := hm ▸ hs.selected

/-- A write of the MinerSet table that puts `x` beside the stored MinerSets, and leaves the Miners,
keeps `Base` when `x` keeps `ms`'s uid and spec under `ms`'s key. -/
theorem Base.minerSet_write {s u : Store} (hs : Base ms sel s) (hm : u.miners = s.miners)
    {x : MinerSet} (hx : x.meta.key = ms.meta.key → x.meta.uid = ms.meta.uid ∧ x.spec = ms.spec)
    (ht : ∀ z ∈ u.minerSets, z = x ∨ z ∈ s.minerSets) : Base ms sel u :=
  hs.congr hm fun z hz hk => by
    rcases ht z hz with rfl | hz
    · exact hx hk
    · exact hs.minerSet z hz hk

/-- A harmless call keeps `Base` and does not raise the count. -/
theorem harmless_perform {c : Call} (hc : Harmless ms c) {s : Store} (hs : Base ms sel s) :
    Base ms sel (s.perform c).2 ∧ countedMiners ms sel (s.perform c).2 ≤ countedMiners ms sel s := by
  cases c <;> simp only [Harmless] at hc
  case getMinerSet | getMiner | listMiners => exact ⟨hs, le_rfl⟩
  case updateMinerSet y =>
    simp only [Store.perform]
    rcases Store.write_snd s (Table.update s.minerSets s.revision y) (fun t s => { s with minerSets := t })
      with h | ⟨x, t, hw, h⟩ <;> rw [h]
    · exact ⟨hs, le_rfl⟩
    obtain ⟨stored, hstored, hsk, hxk, hxu, hxs, rfl⟩ := Table.update_eq_ok hw
    refine ⟨hs.minerSet_write rfl (fun hk => ?_) fun z hz => Table.mem_commit hz, le_rfl⟩
    have hstoredk := hsk.trans (hxk.symm.trans hk)
    exact ⟨hxu.trans (hs.minerSet stored hstored hstoredk).1, hxs.trans (hc (hxk.symm.trans hk))⟩
  case updateMinerSetStatus y =>
    simp only [Store.perform]
    rcases Store.write_snd s (Table.updateStatus s.minerSets s.revision y)
      (fun t s => { s with minerSets := t }) with h | ⟨x, t, hw, h⟩ <;> rw [h]
    · exact ⟨hs, le_rfl⟩
    obtain ⟨stored, hstored, hxk, hxu, hxs, rfl⟩ := Table.updateStatus_eq_ok hw
    refine ⟨hs.minerSet_write rfl (fun hk => ?_) fun z hz => Table.mem_replace hz, le_rfl⟩
    have h := hs.minerSet stored hstored (hxk.symm.trans hk)
    exact ⟨hxu.trans h.1, hxs.trans h.2⟩
  case deleteMiner k =>
    simp only [Store.perform]
    rcases Store.write_snd s (Table.delete s.miners s.revision k false)
      (fun t s => { s with miners := t }) with h | ⟨u, t, hw, h⟩ <;> rw [h]
    · exact ⟨hs, le_rfl⟩
    obtain ⟨stored, hstored, -, ht⟩ := Table.delete_eq_ok hw
    have hviews : (t.map view).Sublist (s.miners.map view) := by
      rcases ht with rfl | rfl | rfl
      · exact (List.filter_sublist _).map view
      · exact List.Sublist.refl _
      · rw [Table.map_replace view hs.nodup hstored ?_ ?_]
        exacts [rfl, rfl]
    exact ⟨hs.of_sublist hviews fun x hx _ => hx, countedMiners_le_of_sublist hviews⟩

/-- A created Miner raises the count by at most one, and keeps `Base` when it is selected. -/
theorem create_perform {m : Miner} (hm : Labels.selectorMatches sel m.meta.labels) {s : Store}
    (hs : Base ms sel s) :
    Base ms sel (s.perform (.createMiner m)).2 ∧
      countedMiners ms sel (s.perform (.createMiner m)).2 ≤ countedMiners ms sel s + 1 := by
  simp only [Store.perform]
  rcases Store.write_snd s (Table.create s.miners s.revision m) (fun t s => { s with miners := t })
    with h | ⟨x, t, hw, h⟩ <;> rw [h]
  · exact ⟨hs, Nat.le_succ _⟩
  obtain ⟨hnew, -, hxl, -, rfl⟩ := Table.create_eq_ok hw
  refine ⟨⟨?_, hs.minerSet, fun z hz hns hc => ?_⟩, ?_⟩
  · rw [List.map_append, List.nodup_append]
    exact ⟨hs.nodup, List.nodup_singleton _, by simpa using Table.find_eq_none hnew⟩
  · rcases List.mem_append.mp hz with hz | hz
    · exact hs.selected z hz hns hc
    · rw [List.mem_singleton.mp hz, hxl]
      exact hm
  · unfold countedMiners
    rw [List.filter_append, List.length_append]
    exact Nat.add_le_add_left (List.length_filter_le _ _) _

end MinerSetReconciler

end Minerx
