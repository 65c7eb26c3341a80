import Minerx.Api
import Mathlib.Data.List.Nodup

/-!
# The object store

The API server as the controllers see it: one table per kind, and a revision counter from which
every successful write takes the new resource version (and a created object its uid). A call is
answered at once: it either changes the store and returns the stored object, or returns an error
and changes nothing.

The writes follow the API server. `update` and `updateStatus` send the resource version they were
read at and fail with `conflict` once the stored object has moved on; `update` keeps the stored
status and bumps the generation when the spec changes, `updateStatus` replaces only the status.
The merge patch of `ownerReferences` and a delete carry no precondition. A delete removes an object
without finalizers and otherwise marks it; an update that empties the finalizers of a marked
object removes it. Pods are deleted gracefully: a deleted Pod stays, marked, until the kubelet
removes it. A `List` returns the objects in table order, which is creation order.

The manager's client reads Pods from its informer cache, not from the API server: a Pod Get
answers from `podCache`, the Pods as the informer last saw them. Writes go to the API server and
leave the cache behind until the informer catches up (`syncPods`), which happens between calls
at a time no controller chooses. So a Pod just created may be missing from a Get, and a Pod just
deleted may still be there. The reads of the other kinds answer from the tables themselves.
-/

namespace Minerx

namespace Table

variable {S T : Type}

def find (t : List (Resource S T)) (key : ObjectKey) : Option (Resource S T) :=
  t.find? (·.meta.key = key)

theorem find_eq_some {t : List (Resource S T)} {key : ObjectKey} {x : Resource S T}
    (h : find t key = some x) : x ∈ t ∧ x.meta.key = key :=
  ⟨List.mem_of_find?_eq_some h, by simpa using List.find?_some h⟩

theorem find_eq_none {t : List (Resource S T)} {key : ObjectKey} (h : find t key = none) :
    ∀ x ∈ t, x.meta.key ≠ key := by
  simpa [find] using h

def get (t : List (Resource S T)) (key : ObjectKey) : Except Error (Resource S T) :=
  match find t key with
  | some o => .ok o
  | none => .error .notFound

theorem get_eq_ok {t : List (Resource S T)} {key : ObjectKey} {x : Resource S T}
    (h : get t key = .ok x) : x ∈ t ∧ x.meta.key = key := by
  unfold get at h
  split at h
  · cases h
    exact find_eq_some ‹_›
  · cases h

/-- `List` with `client.InNamespace` and `client.MatchingLabels`. -/
def list (t : List (Resource S T)) (ns : String) (selector : Labels) : List (Resource S T) :=
  t.filter fun o => o.meta.ns = ns ∧ Labels.selectorMatches selector o.meta.labels

def replace (t : List (Resource S T)) (o : Resource S T) : List (Resource S T) :=
  t.map fun x => if x.meta.key = o.meta.key then o else x

theorem mem_replace {t : List (Resource S T)} {o x : Resource S T} (h : x ∈ replace t o) :
    x = o ∨ x ∈ t := by
  obtain ⟨y, hy, rfl⟩ := List.mem_map.mp h
  by_cases hk : y.meta.key = o.meta.key
  · exact .inl (if_pos hk)
  · exact .inr (by rwa [if_neg hk])

/-- Replacing the entry of a key keeps what `f` sees of the table when `f` sees the old and the
new entry alike, as long as keys are distinct. -/
theorem map_replace {β : Type} (f : Resource S T → β) {t : List (Resource S T)} {o x : Resource S T}
    (hnodup : (t.map (·.meta.key)).Nodup) (hx : x ∈ t) (hk : x.meta.key = o.meta.key)
    (hf : f o = f x) : (replace t o).map f = t.map f := by
  rw [replace, List.map_map]
  refine List.map_congr_left fun y hy => ?_
  by_cases hy' : y.meta.key = o.meta.key
  · rw [Function.comp_apply, if_pos hy', List.inj_on_of_nodup_map hnodup hy hx (hy'.trans hk.symm), hf]
  · rw [Function.comp_apply, if_neg hy']

def erase (t : List (Resource S T)) (key : ObjectKey) : List (Resource S T) :=
  t.filter (·.meta.key ≠ key)

theorem mem_erase {t : List (Resource S T)} {key : ObjectKey} {x : Resource S T}
    (h : x ∈ erase t key) : x ∈ t :=
  (List.mem_filter.mp h).1

/-- Store a written object, or drop it once it is marked and has no finalizer left. -/
def commit (t : List (Resource S T)) (o : Resource S T) : List (Resource S T) :=
  if o.meta.deletionTimestamp.isSome ∧ o.meta.finalizers = [] then erase t o.meta.key
  else replace t o

theorem mem_commit {t : List (Resource S T)} {o x : Resource S T} (h : x ∈ commit t o) :
    x = o ∨ x ∈ t := by
  unfold commit at h
  split at h
  · exact .inr (mem_erase h)
  · exact mem_replace h

/-- `Create`: an empty name is generated from `generateName`; the store sets uid, resource
version and generation, and clears the deletion mark. -/
def create (t : List (Resource S T)) (revision : Nat) (o : Resource S T) :
    Except Error (Resource S T × List (Resource S T)) :=
  let name := if o.meta.name = "" then o.meta.generateName ++ toString revision else o.meta.name
  let created : Resource S T :=
    { o with
      meta := { o.meta with
        name, uid := revision, resourceVersion := revision, generation := 1,
        deletionTimestamp := none } }
  match find t created.meta.key with
  | some _ => .error .alreadyExists
  | none => .ok (created, t ++ [created])

/-- `Update`: metadata and spec from the request, status from the store. -/
def update [DecidableEq S] (t : List (Resource S T)) (revision : Nat) (o : Resource S T) :
    Except Error (Resource S T × List (Resource S T)) :=
  match find t o.meta.key with
  | none => .error .notFound
  | some stored =>
    if o.meta.resourceVersion ≠ stored.meta.resourceVersion then .error .conflict
    else
      let updated : Resource S T :=
        { o with
          meta := { o.meta with
            uid := stored.meta.uid, resourceVersion := revision,
            generation := if o.spec = stored.spec then stored.meta.generation
              else stored.meta.generation + 1,
            deletionTimestamp := stored.meta.deletionTimestamp }
          status := stored.status }
      .ok (updated, commit t updated)

/-- `Status().Update`: only the status comes from the request. -/
def updateStatus (t : List (Resource S T)) (revision : Nat) (o : Resource S T) :
    Except Error (Resource S T × List (Resource S T)) :=
  match find t o.meta.key with
  | none => .error .notFound
  | some stored =>
    if o.meta.resourceVersion ≠ stored.meta.resourceVersion then .error .conflict
    else
      let updated : Resource S T :=
        { stored with meta := { stored.meta with resourceVersion := revision }, status := o.status }
      .ok (updated, replace t updated)

/-- A JSON merge patch of `metadata.ownerReferences`: the list is replaced whole. -/
def patchOwnerReferences (t : List (Resource S T)) (revision : Nat) (key : ObjectKey)
    (refs : List OwnerReference) : Except Error (Resource S T × List (Resource S T)) :=
  match find t key with
  | none => .error .notFound
  | some stored =>
    let patched : Resource S T :=
      { stored with meta := { stored.meta with ownerReferences := refs, resourceVersion := revision } }
    .ok (patched, replace t patched)

/-- `Delete` by name. An object without finalizers goes at once unless deletion is graceful;
otherwise it is marked with the revision of the first request. -/
def delete (t : List (Resource S T)) (revision : Nat) (key : ObjectKey) (graceful : Bool) :
    Except Error (Unit × List (Resource S T)) :=
  match find t key with
  | none => .error .notFound
  | some stored =>
    if stored.meta.finalizers = [] ∧ graceful = false then .ok ((), erase t key)
    else if stored.meta.deletionTimestamp.isSome then .ok ((), t)
    else
      let marked : Resource S T :=
        { stored with meta := { stored.meta with deletionTimestamp := some revision,
                                                 resourceVersion := revision } }
      .ok ((), replace t marked)

/-! ### What a successful write leaves -/

theorem create_eq_ok {t t' : List (Resource S T)} {rev : Nat} {o x : Resource S T}
    (h : create t rev o = .ok (x, t')) :
    find t x.meta.key = none ∧ x.meta.ns = o.meta.ns ∧ x.meta.labels = o.meta.labels ∧
      x.meta.ownerReferences = o.meta.ownerReferences ∧ t' = t ++ [x] := by
  unfold create at h
  split at h <;> dsimp only at h <;> split at h <;> cases h <;> exact ⟨‹_›, rfl, rfl, rfl, rfl⟩

theorem update_eq_ok [DecidableEq S] {t t' : List (Resource S T)} {rev : Nat} {o x : Resource S T}
    (h : update t rev o = .ok (x, t')) :
    ∃ stored ∈ t, stored.meta.key = o.meta.key ∧ x.meta.key = o.meta.key ∧
      x.meta.uid = stored.meta.uid ∧ x.spec = o.spec ∧ t' = commit t x := by
  unfold update at h
  split at h
  · cases h
  · rename_i stored hfind
    split_ifs at h <;> dsimp only at h <;> cases h <;>
      exact ⟨stored, (find_eq_some hfind).1, (find_eq_some hfind).2, rfl, rfl, rfl, rfl⟩

theorem updateStatus_eq_ok {t t' : List (Resource S T)} {rev : Nat} {o x : Resource S T}
    (h : updateStatus t rev o = .ok (x, t')) :
    ∃ stored ∈ t, x.meta.key = stored.meta.key ∧ x.meta.uid = stored.meta.uid ∧
      x.spec = stored.spec ∧ t' = replace t x := by
  unfold updateStatus at h
  split at h
  · cases h
  · rename_i stored hfind
    split_ifs at h
    dsimp only at h
    cases h
    exact ⟨stored, (find_eq_some hfind).1, rfl, rfl, rfl, rfl⟩

theorem patchOwnerReferences_eq_ok {t t' : List (Resource S T)} {rev : Nat} {key : ObjectKey}
    {refs : List OwnerReference} {x : Resource S T}
    (h : patchOwnerReferences t rev key refs = .ok (x, t')) :
    ∃ stored ∈ t, stored.meta.key = key ∧
      x = { stored with meta := { stored.meta with ownerReferences := refs, resourceVersion := rev } } ∧
      t' = replace t x := by
  unfold patchOwnerReferences at h
  split at h
  · cases h
  · rename_i stored hfind
    cases h
    exact ⟨stored, (find_eq_some hfind).1, (find_eq_some hfind).2, rfl, rfl⟩

theorem patchOwnerReferences_eq_error {t : List (Resource S T)} {rev : Nat} {key : ObjectKey}
    {refs : List OwnerReference} {e : Error} (h : patchOwnerReferences t rev key refs = .error e) :
    find t key = none := by
  unfold patchOwnerReferences at h
  split at h
  · assumption
  · cases h

/-- A delete erases the entry, leaves the table, or marks the entry it found. -/
theorem delete_eq_ok {t t' : List (Resource S T)} {rev : Nat} {key : ObjectKey} {graceful : Bool}
    (h : delete t rev key graceful = .ok ((), t')) :
    ∃ stored ∈ t, stored.meta.key = key ∧ (t' = erase t key ∨ t' = t ∨
      t' = replace t { stored with meta := { stored.meta with deletionTimestamp := some rev,
                                                              resourceVersion := rev } }) := by
  unfold delete at h
  split at h
  · cases h
  · rename_i stored hfind
    refine ⟨stored, (find_eq_some hfind).1, (find_eq_some hfind).2, ?_⟩
    split_ifs at h <;> cases h
    · exact .inl rfl
    · exact .inr (.inl rfl)
    · exact .inr (.inr rfl)


/-! ### Reads after a write -/

theorem find_replace (t : List (Resource S T)) (o : Resource S T) (key : ObjectKey) :
    find (replace t o) key = (find t key).map fun y => if y.meta.key = o.meta.key then o else y := by
  unfold find replace
  rw [List.find?_map]
  congr 2
  funext y
  by_cases hy : y.meta.key = o.meta.key <;> simp [hy]

theorem find_replace_self {t : List (Resource S T)} {o y : Resource S T} {key : ObjectKey}
    (h : find t key = some y) (hk : o.meta.key = key) : find (replace t o) key = some o := by
  rw [find_replace, h]
  simp [(find_eq_some h).2, hk]

theorem find_replace_of_ne {t : List (Resource S T)} {o : Resource S T} {key : ObjectKey}
    (h : o.meta.key ≠ key) : find (replace t o) key = find t key := by
  rw [find_replace]
  cases hf : find t key with
  | none => rfl
  | some y => simp [(find_eq_some hf).2, Ne.symm h]

theorem find_erase (t : List (Resource S T)) (key' key : ObjectKey) :
    find (erase t key') key = if key = key' then none else find t key := by
  unfold find erase
  induction t with
  | nil => simp
  | cons y t ih =>
    by_cases hy : y.meta.key = key' <;> by_cases hk : y.meta.key = key <;>
      simp_all [List.filter_cons, List.find?_cons]

/-- What a commit leaves under the key of the committed object. -/
theorem find_commit_self {t : List (Resource S T)} {o y : Resource S T} {key : ObjectKey}
    (h : find t key = some y) (hk : o.meta.key = key) :
    find (commit t o) key =
      if o.meta.deletionTimestamp.isSome ∧ o.meta.finalizers = [] then none else some o := by
  unfold commit
  split
  · rw [find_erase, if_pos hk.symm]
  · exact find_replace_self h hk

theorem find_commit_of_ne {t : List (Resource S T)} {o : Resource S T} {key : ObjectKey}
    (h : o.meta.key ≠ key) : find (commit t o) key = find t key := by
  unfold commit
  split
  · rw [find_erase, if_neg (Ne.symm h)]
  · exact find_replace_of_ne h

/-- Replacing the entry of a key by an object with the same finalizers keeps the finalizers found
under every key. -/
theorem find_replace_finalizers {t : List (Resource S T)} {o y z : Resource S T} {key : ObjectKey}
    (hy : find t o.meta.key = some y) (hf : o.meta.finalizers = y.meta.finalizers)
    (hz : find t key = some z) :
    ∃ z', find (replace t o) key = some z' ∧ z'.meta.finalizers = z.meta.finalizers := by
  by_cases hk : o.meta.key = key
  · subst hk
    obtain rfl := Option.some.inj (hy.symm.trans hz)
    exact ⟨o, find_replace_self hy rfl, hf⟩
  · exact ⟨z, (find_replace_of_ne hk).trans hz, rfl⟩

theorem find_append_singleton (t : List (Resource S T)) (x : Resource S T) (key : ObjectKey) :
    find (t ++ [x]) key = (find t key).or (if x.meta.key = key then some x else none) := by
  unfold find
  rw [List.find?_append]
  by_cases h : x.meta.key = key <;> simp [h]

/-- A patch of owner references keeps the finalizers found under every key. -/
theorem find_patchOwnerReferences_finalizers {t t' : List (Resource S T)} {rev : Nat}
    {key' key : ObjectKey} {refs : List OwnerReference} {x z : Resource S T}
    (h : patchOwnerReferences t rev key' refs = .ok (x, t')) (hz : find t key = some z) :
    ∃ z', find t' key = some z' ∧ z'.meta.finalizers = z.meta.finalizers := by
  unfold patchOwnerReferences at h
  split at h
  · cases h
  · rename_i stored hstored
    cases h
    have hy : find t stored.meta.key = some stored := (find_eq_some hstored).2 ▸ hstored
    exact find_replace_finalizers hy rfl hz

/-- A create under a non-empty name stores the object under the request's key. -/
theorem key_of_create_eq_ok {t t' : List (Resource S T)} {rev : Nat} {o x : Resource S T}
    (h : create t rev o = .ok (x, t')) (hname : o.meta.name ≠ "") : x.meta.key = o.meta.key := by
  unfold create at h
  simp only [if_neg hname] at h
  split at h <;> cases h
  rfl

/-- A delete keeps the finalizers found under every key where they are not empty: it erases
only an entry without finalizers, and marking keeps them. -/
theorem find_delete_finalizers {t t' : List (Resource S T)} {rev : Nat} {key' key : ObjectKey}
    {graceful : Bool} (h : delete t rev key' graceful = .ok ((), t')) {z : Resource S T}
    (hz : find t key = some z) (hfin : z.meta.finalizers ≠ []) :
    ∃ z', find t' key = some z' ∧ z'.meta.finalizers = z.meta.finalizers := by
  unfold delete at h
  split at h
  · cases h
  · rename_i stored hstored
    split_ifs at h with hempty hmarked <;> cases h
    · rw [find_erase]
      split_ifs with hk
      · subst hk
        exact absurd (Option.some.inj (hstored.symm.trans hz) ▸ hempty.1) hfin
      · exact ⟨z, hz, rfl⟩
    · exact ⟨z, hz, rfl⟩
    · have hy : find t stored.meta.key = some stored := (find_eq_some hstored).2 ▸ hstored
      exact find_replace_finalizers hy rfl hz

theorem find_of_get_eq_ok {t : List (Resource S T)} {key : ObjectKey} {x : Resource S T}
    (h : get t key = .ok x) : find t key = some x := by
  unfold get at h
  split at h <;> cases h
  assumption

theorem get_eq_error {t : List (Resource S T)} {key : ObjectKey} {e : Error}
    (h : get t key = .error e) : find t key = none ∧ e = .notFound := by
  unfold get at h
  split at h <;> cases h
  exact ⟨‹_›, rfl⟩

/-! ### Calls that succeed -/

theorem get_of_find {t : List (Resource S T)} {key : ObjectKey} {x : Resource S T}
    (h : find t key = some x) : get t key = .ok x := by
  rw [get, h]

theorem get_of_find_none {t : List (Resource S T)} {key : ObjectKey} (h : find t key = none) :
    get t key = .error .notFound := by
  rw [get, h]

/-- A `Create` under a name no object has stores the object at the end of the table, with the
request's key, spec and status. -/
theorem create_of_find_none {t : List (Resource S T)} {rev : Nat} {o : Resource S T}
    (hname : o.meta.name ≠ "") (h : find t o.meta.key = none) :
    ∃ x, create t rev o = .ok (x, t ++ [x]) ∧ x.meta.key = o.meta.key ∧ x.spec = o.spec ∧
      x.status = o.status := by
  unfold create
  simp only [ObjectMeta.key] at h ⊢
  simp only [if_neg hname, h]
  exact ⟨_, rfl, rfl, rfl, rfl⟩

/-- A `Create` under a name an object already has is refused. -/
theorem create_of_find_some {t : List (Resource S T)} {rev : Nat} {o y : Resource S T}
    (hname : o.meta.name ≠ "") (h : find t o.meta.key = some y) :
    create t rev o = .error .alreadyExists := by
  unfold create
  simp only [ObjectMeta.key] at h ⊢
  simp only [if_neg hname, h]

theorem delete_graceful_of_find {t : List (Resource S T)} {rev : Nat} {key : ObjectKey}
    {stored : Resource S T} (h : find t key = some stored) :
    ∃ t', delete t rev key true = .ok ((), t') := by
  unfold delete
  rw [h]
  dsimp only
  split_ifs <;> exact ⟨_, rfl⟩

/-! ### Every successful write, in full -/

/-- What an `Update` stores: the request's metadata and spec, with the stored uid, mark and
status, the new resource version, and the generation bumped when the spec changes. -/
theorem update_eq_ok_iff [DecidableEq S] {t t' : List (Resource S T)} {rev : Nat}
    {o x : Resource S T} :
    update t rev o = .ok (x, t') ↔ ∃ stored, find t o.meta.key = some stored ∧
      o.meta.resourceVersion = stored.meta.resourceVersion ∧
      x = { o with
        meta := { o.meta with
          uid := stored.meta.uid, resourceVersion := rev,
          generation := if o.spec = stored.spec then stored.meta.generation
            else stored.meta.generation + 1,
          deletionTimestamp := stored.meta.deletionTimestamp }
        status := stored.status } ∧ t' = commit t x := by
  unfold update
  split
  · simp_all
  · rename_i stored hfind
    by_cases hrv : o.meta.resourceVersion = stored.meta.resourceVersion
    · simp only [hrv, ne_eq, not_true_eq_false, if_false, Except.ok.injEq, Prod.mk.injEq,
        hfind, Option.some.injEq, exists_eq_left', true_and]
      constructor
      · rintro ⟨rfl, rfl⟩; exact ⟨rfl, rfl⟩
      · rintro ⟨rfl, rfl⟩; exact ⟨rfl, rfl⟩
    · simp [hrv, hfind]

/-- An Update that sends the stored `x` back with other metadata of the same key and version,
as a finalizer block does, is accepted: the table then holds `x` with that metadata and the new
version, or drops it when it is marked and the metadata keeps no finalizer. -/
theorem update_meta_eq [DecidableEq S] {t : List (Resource S T)} (rev : Nat) {x : Resource S T}
    (hfind : find t x.meta.key = some x) {m : ObjectMeta} (hkey : m.key = x.meta.key)
    (hrv : m.resourceVersion = x.meta.resourceVersion) :
    ∃ y : Resource S T, update t rev { x with meta := m } = .ok (y, commit t y) ∧
      y.meta = { m with
        uid := x.meta.uid, resourceVersion := rev, generation := x.meta.generation,
        deletionTimestamp := x.meta.deletionTimestamp } ∧ y.spec = x.spec ∧ y.status = x.status ∧
      find (commit t y) x.meta.key =
        if x.meta.deletionTimestamp.isSome ∧ m.finalizers = [] then none else some y := by
  refine ⟨_, update_eq_ok_iff.mpr ⟨x, hkey ▸ hfind, hrv, rfl, rfl⟩, by simp, rfl, rfl, ?_⟩
  exact find_commit_self hfind hkey

/-- The Update of a finalizer block, which sends the stored `x` back with a finalizer added, is
accepted: the table then holds `x` under its key with the finalizer, and with its uid,
generation, mark, spec and status. -/
theorem update_addFinalizer [DecidableEq S] {t : List (Resource S T)} (rev : Nat) {x : Resource S T}
    (hfind : find t x.meta.key = some x) (f : String) :
    ∃ y : Resource S T, update t rev { x with meta := x.meta.addFinalizer f } = .ok (y, commit t y) ∧
      find (commit t y) x.meta.key = some y ∧ y.meta.key = x.meta.key ∧ y.meta.uid = x.meta.uid ∧
      y.meta.generation = x.meta.generation ∧ y.meta.deletionTimestamp = x.meta.deletionTimestamp ∧
      y.meta.containsFinalizer f ∧ y.spec = x.spec ∧ y.status = x.status := by
  obtain ⟨y, hu, hy, hspec, hst, hf⟩ := update_meta_eq rev hfind (ObjectMeta.key_addFinalizer x.meta f)
    (ObjectMeta.resourceVersion_addFinalizer x.meta f)
  refine ⟨y, hu, hf.trans (if_neg fun h => ObjectMeta.finalizers_addFinalizer_ne_nil _ _ h.2), ?_,
    by rw [hy], by rw [hy], by rw [hy], ?_, hspec, hst⟩
  · rw [hy]
    exact ObjectMeta.key_addFinalizer _ _
  · rw [hy]
    exact ObjectMeta.containsFinalizer_addFinalizer _ _

/-- The Update of a delete path's finalizer block, which sends the stored, marked `x` back
without the finalizer `f`, is accepted: the table then holds `x` with its other finalizers, or
drops it when none is left. -/
theorem update_removeFinalizer [DecidableEq S] {t : List (Resource S T)} (rev : Nat) {x : Resource S T}
    (hfind : find t x.meta.key = some x) (hmarked : x.meta.deletionTimestamp.isSome) (f : String) :
    ∃ y : Resource S T, update t rev { x with meta := x.meta.removeFinalizer f } = .ok (y, commit t y) ∧
      (find (commit t y) x.meta.key).map (·.meta.finalizers) =
        if x.meta.finalizers.filter (· ≠ f) = [] then none else some (x.meta.finalizers.filter (· ≠ f)) := by
  obtain ⟨y, hu, hy, -, -, hf⟩ := update_meta_eq rev hfind (ObjectMeta.key_removeFinalizer x.meta f) rfl
  refine ⟨y, hu, ?_⟩
  rw [hf]
  by_cases hempty : x.meta.finalizers.filter (· ≠ f) = []
  · rw [if_pos ⟨hmarked, hempty⟩, if_pos hempty]
    rfl
  · rw [if_neg fun h => hempty h.2, if_neg hempty, Option.map_some', hy]
    rfl

/-- What a status write stores: the stored object with the request's status and the new
resource version. -/
theorem updateStatus_eq_ok_iff {t t' : List (Resource S T)} {rev : Nat} {o x : Resource S T} :
    updateStatus t rev o = .ok (x, t') ↔ ∃ stored, find t o.meta.key = some stored ∧
      o.meta.resourceVersion = stored.meta.resourceVersion ∧
      x = { stored with meta := { stored.meta with resourceVersion := rev }, status := o.status } ∧
      t' = replace t x := by
  unfold updateStatus
  split
  · simp_all
  · rename_i stored hfind
    by_cases hrv : o.meta.resourceVersion = stored.meta.resourceVersion
    · simp only [hrv, ne_eq, not_true_eq_false, if_false, Except.ok.injEq, Prod.mk.injEq,
        hfind, Option.some.injEq, exists_eq_left', true_and]
      constructor
      · rintro ⟨rfl, rfl⟩; exact ⟨rfl, rfl⟩
      · rintro ⟨rfl, rfl⟩; exact ⟨rfl, rfl⟩
    · simp [hrv, hfind]

/-- A status write of an object with the stored object's metadata is accepted: the stored object
takes the written status and the new version. -/
theorem updateStatus_of_meta_eq {t : List (Resource S T)} (rev : Nat) {x o : Resource S T}
    (hfind : find t x.meta.key = some x) (hmeta : o.meta = x.meta) :
    updateStatus t rev o =
      .ok ({ x with meta := { x.meta with resourceVersion := rev }, status := o.status },
        replace t { x with meta := { x.meta with resourceVersion := rev }, status := o.status }) :=
  updateStatus_eq_ok_iff.mpr ⟨x, hmeta ▸ hfind, congrArg ObjectMeta.resourceVersion hmeta, rfl, rfl⟩

theorem delete_eq_error {t : List (Resource S T)} {rev : Nat} {key : ObjectKey} {graceful : Bool}
    {e : Error} (h : delete t rev key graceful = .error e) : find t key = none ∧ e = .notFound := by
  unfold delete at h
  split at h
  · cases h; exact ⟨‹_›, rfl⟩
  · split_ifs at h

/-- A graceful delete leaves a marked entry as it is and marks the others. -/
theorem delete_graceful_eq_ok {t t' : List (Resource S T)} {rev : Nat} {key : ObjectKey}
    (h : delete t rev key true = .ok ((), t')) : ∃ stored, find t key = some stored ∧
      (stored.meta.deletionTimestamp.isSome ∧ t' = t ∨
        t' = replace t { stored with meta := { stored.meta with deletionTimestamp := some rev,
                                                                resourceVersion := rev } }) := by
  unfold delete at h
  split at h
  · cases h
  · rename_i stored hfind
    refine ⟨stored, hfind, ?_⟩
    rw [if_neg fun h => Bool.noConfusion h.2] at h
    split_ifs at h with hmarked <;> cases h
    · exact .inl ⟨hmarked, rfl⟩
    · exact .inr rfl

end Table

/-- The objects of the five kinds, and the revision the next write takes. -/
structure Store where
  chains : List Chain := []
  minerSets : List MinerSet := []
  miners : List Miner := []
  pods : List Pod := []
  /-- The Pods as the informer cache last saw them; a store written out in full starts caught up. -/
  podCache : List Pod := pods
  configMaps : List ConfigMap := []
  revision : Nat := 1

/-- The client calls the three controllers make. -/
inductive Call where
  | getChain (key : ObjectKey)
  | updateChain (chain : Chain)
  | updateChainStatus (chain : Chain)
  | listConfigMaps (ns : String) (selector : Labels)
  | getMinerSet (key : ObjectKey)
  | updateMinerSet (ms : MinerSet)
  | updateMinerSetStatus (ms : MinerSet)
  | getMiner (key : ObjectKey)
  | listMiners (ns : String) (selector : Labels)
  | createMiner (miner : Miner)
  | updateMiner (miner : Miner)
  | updateMinerStatus (miner : Miner)
  | patchMiner (key : ObjectKey) (ownerReferences : List OwnerReference)
  | deleteMiner (key : ObjectKey)
  | getPod (key : ObjectKey)
  | createPod (pod : Pod)
  | deletePod (key : ObjectKey)
deriving DecidableEq

namespace Call

/-- What a successful call returns. -/
@[reducible] def Payload : Call → Type
  | .getChain _ | .updateChain _ | .updateChainStatus _ => Chain
  | .listConfigMaps _ _ => List ConfigMap
  | .getMinerSet _ | .updateMinerSet _ | .updateMinerSetStatus _ => MinerSet
  | .getMiner _ | .createMiner _ | .updateMiner _ | .updateMinerStatus _ | .patchMiner _ _ => Miner
  | .listMiners _ _ => List Miner
  | .deleteMiner _ | .deletePod _ => Unit
  | .getPod _ | .createPod _ => Pod

@[reducible] def Reply (c : Call) : Type := Except Error c.Payload

/-- The calls that change the store when they succeed. -/
def isWrite : Call → Bool
  | .updateChain _ | .updateChainStatus _ | .updateMinerSet _ | .updateMinerSetStatus _
  | .createMiner _ | .updateMiner _ | .updateMinerStatus _ | .patchMiner _ _ | .deleteMiner _
  | .createPod _ | .deletePod _ => true
  | .getChain _ | .listConfigMaps _ _ | .getMinerSet _ | .getMiner _ | .listMiners _ _
  | .getPod _ => false

end Call

namespace Store

/-- A write of one table: on success the new table, and the revision moves on. -/
def write (s : Store) (r : Except Error (α × List β)) (set : List β → Store → Store) :
    Except Error α × Store :=
  match r with
  | .ok (a, t) => (.ok a, set t { s with revision := s.revision + 1 })
  | .error e => (.error e, s)

theorem write_snd (s : Store) (r : Except Error (α × List β)) (set : List β → Store → Store) :
    (s.write r set).2 = s ∨ ∃ a t, r = .ok (a, t) ∧ (s.write r set).2 = set t { s with revision := s.revision + 1 } := by
  rcases r with e | ⟨a, t⟩
  · exact .inl rfl
  · exact .inr ⟨a, t, rfl, rfl⟩

theorem write_miners {s : Store} {r : Except Error (α × List β)} {set : List β → Store → Store}
    (hset : ∀ t s, (set t s).miners = s.miners) : (s.write r set).2.miners = s.miners := by
  rcases r with e | ⟨a, t⟩
  · rfl
  · exact hset t _

theorem write_pods {s : Store} {r : Except Error (α × List β)} {set : List β → Store → Store}
    (hset : ∀ t s, (set t s).pods = s.pods) : (s.write r set).2.pods = s.pods := by
  rcases r with e | ⟨a, t⟩
  · rfl
  · exact hset t _

/-- A write that answers with an object stored the table its table operation returned. -/
theorem write_eq_ok {s : Store} {r : Except Error (α × List β)} {set : List β → Store → Store}
    {a : α} (h : (s.write r set).1 = .ok a) :
    ∃ t, r = .ok (a, t) ∧ (s.write r set).2 = set t { s with revision := s.revision + 1 } := by
  rcases r with e | ⟨b, t⟩
  · cases h
  · cases h
    exact ⟨t, rfl, rfl⟩

theorem write_eq_error {s : Store} {r : Except Error (α × List β)} {set : List β → Store → Store}
    {e : Error} (h : (s.write r set).1 = .error e) : r = .error e ∧ (s.write r set).2 = s := by
  rcases r with e' | ⟨b, t⟩
  · cases h
    exact ⟨rfl, rfl⟩
  · cases h

theorem write_fst_eq_ok {s : Store} {r : Except Error (α × List β)} {set : List β → Store → Store}
    {a : α} (h : (s.write r set).1 = .ok a) : ∃ t, r = .ok (a, t) := by
  rcases r with e | ⟨b, t⟩
  · cases h
  · cases h
    exact ⟨t, rfl⟩

/-- The store's answer to a call, and the store after it. -/
def perform : (c : Call) → Store → c.Reply × Store
  | .getChain key, s => (Table.get s.chains key, s)
  | .updateChain chain, s =>
    s.write (Table.update s.chains s.revision chain) fun t s => { s with chains := t }
  | .updateChainStatus chain, s =>
    s.write (Table.updateStatus s.chains s.revision chain) fun t s => { s with chains := t }
  | .listConfigMaps ns selector, s => (.ok (Table.list s.configMaps ns selector), s)
  | .getMinerSet key, s => (Table.get s.minerSets key, s)
  | .updateMinerSet ms, s =>
    s.write (Table.update s.minerSets s.revision ms) fun t s => { s with minerSets := t }
  | .updateMinerSetStatus ms, s =>
    s.write (Table.updateStatus s.minerSets s.revision ms) fun t s => { s with minerSets := t }
  | .getMiner key, s => (Table.get s.miners key, s)
  | .listMiners ns selector, s => (.ok (Table.list s.miners ns selector), s)
  | .createMiner miner, s =>
    s.write (Table.create s.miners s.revision miner) fun t s => { s with miners := t }
  | .updateMiner miner, s =>
    s.write (Table.update s.miners s.revision miner) fun t s => { s with miners := t }
  | .updateMinerStatus miner, s =>
    s.write (Table.updateStatus s.miners s.revision miner) fun t s => { s with miners := t }
  | .patchMiner key refs, s =>
    s.write (Table.patchOwnerReferences s.miners s.revision key refs) fun t s => { s with miners := t }
  | .deleteMiner key, s =>
    s.write (Table.delete s.miners s.revision key false) fun t s => { s with miners := t }
  | .getPod key, s => (Table.get s.podCache key, s)
  | .createPod pod, s =>
    s.write (Table.create s.pods s.revision pod) fun t s => { s with pods := t }
  | .deletePod key, s =>
    s.write (Table.delete s.pods s.revision key true) fun t s => { s with pods := t }

/-- A Pod Get reads the informer's view. -/
@[simp] theorem perform_getPod (key : ObjectKey) (s : Store) :
    s.perform (.getPod key) = (Table.get s.podCache key, s) :=
  rfl

/-- The informer catching up: the cache holds the Pods as stored. -/
def syncPods (s : Store) : Store := { s with podCache := s.pods }

end Store

end Minerx
