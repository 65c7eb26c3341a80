import Minerx.Condition
import Mathlib.Algebra.Group.Nat.Basic

/-!
# The API objects

The five kinds the controllers read and write: `Chain`, `MinerSet` and `Miner` of
`api/v1alpha1`, and the core `Pod` and `ConfigMap`. Every object is a `Resource`, its metadata
with a spec and a status; only the fields that some modelled function reads or writes are kept.

A Go `map[string]string` is an association list read through `Labels.get`: the first entry of a
key is its value, so `Labels.set` conses. Durations are milliseconds. Uids and resource versions
are numbers drawn by the store from one revision counter, and a deletion timestamp is the
revision at which the deletion was requested.
-/

namespace Minerx

/-! ## Labels and selectors -/

/-- A Go `map[string]string` of labels, annotations or data. -/
abbrev Labels := List (String × String)

namespace Labels

def get (l : Labels) (key : String) : Option String := l.lookup key

/-- `l[key] = value`. -/
def set (l : Labels) (key value : String) : Labels := (key, value) :: l

/-- `labels.SelectorFromSet(selector).Matches(labels.Set(l))`: every key of the selector has
the selector's value in `l`. -/
def selectorMatches (selector l : Labels) : Bool :=
  selector.all fun e => decide (l.get e.1 = selector.get e.1)

@[simp] theorem get_set (l : Labels) (key value k : String) :
    (l.set key value).get k = if k = key then some value else l.get k := by
  by_cases h : k = key
  · simp [get, set, List.lookup_cons, h]
  · have hb : (k == key) = false := by simpa using h
    simp [get, set, List.lookup_cons, h, hb]

end Labels

/-- `metav1.LabelSelectorRequirement`. -/
structure LabelSelectorRequirement where
  key : String
  operator : String
  values : List String
deriving DecidableEq, Repr

/-- `metav1.LabelSelector`. -/
structure LabelSelector where
  matchLabels : Labels := []
  matchExpressions : List LabelSelectorRequirement := []
deriving DecidableEq, Repr

/-- The loop of `metav1.LabelSelectorAsMap` over the match expressions: only `In` with a
single value has a map form. -/
def addSelectorExpressions : Labels → List LabelSelectorRequirement → Except String Labels
  | selector, [] => .ok selector
  | selector, expr :: exprs =>
    if expr.operator = "In" then
      match expr.values with
      | [value] => addSelectorExpressions (selector.set expr.key value) exprs
      | _ => .error "operator without a single value cannot be converted into the old label selector format"
    else if expr.operator ∈ ["NotIn", "Exists", "DoesNotExist"] then
      .error "operator cannot be converted into the old label selector format"
    else .error "is not a valid selector operator"

/-- `metav1.LabelSelectorAsMap`. -/
def labelSelectorAsMap (ps : LabelSelector) : Except String Labels :=
  addSelectorExpressions ps.matchLabels ps.matchExpressions

/-! ## Metadata -/

/-- `metav1.OwnerReference`; a nil `Controller` reads as `false`. -/
structure OwnerReference where
  kind : String
  name : String
  uid : Nat
  controller : Bool
  blockOwnerDeletion : Bool
deriving DecidableEq, Repr

/-- `client.ObjectKey`. -/
structure ObjectKey where
  ns : String
  name : String
deriving DecidableEq, Repr

/-- `metav1.ObjectMeta`. -/
structure ObjectMeta where
  name : String := ""
  generateName : String := ""
  ns : String := ""
  uid : Nat := 0
  resourceVersion : Nat := 0
  generation : Nat := 0
  labels : Labels := []
  annotations : Labels := []
  ownerReferences : List OwnerReference := []
  finalizers : List String := []
  deletionTimestamp : Option Nat := none
deriving DecidableEq, Repr

namespace ObjectMeta

def key (m : ObjectMeta) : ObjectKey := ⟨m.ns, m.name⟩

/-- `metav1.GetControllerOf`: the first owner reference flagged as controller. -/
def getControllerOf (m : ObjectMeta) : Option OwnerReference :=
  m.ownerReferences.find? (·.controller)

/-- `metav1.IsControlledBy`: the controller reference carries the owner's uid. -/
def isControlledBy (m owner : ObjectMeta) : Bool :=
  match m.getControllerOf with
  | some ref => ref.uid = owner.uid
  | none => false

/-- `controllerutil.ContainsFinalizer`. -/
def containsFinalizer (m : ObjectMeta) (finalizer : String) : Bool :=
  finalizer ∈ m.finalizers

/-- `controllerutil.AddFinalizer`: appended when absent. -/
def addFinalizer (m : ObjectMeta) (finalizer : String) : ObjectMeta :=
  if finalizer ∈ m.finalizers then m else { m with finalizers := m.finalizers ++ [finalizer] }

@[simp] theorem key_addFinalizer (m : ObjectMeta) (finalizer : String) :
    (m.addFinalizer finalizer).key = m.key := by
  unfold addFinalizer
  split <;> rfl

/-- `controllerutil.RemoveFinalizer`: every occurrence is dropped. -/
def removeFinalizer (m : ObjectMeta) (finalizer : String) : ObjectMeta :=
  { m with finalizers := m.finalizers.filter (· ≠ finalizer) }

@[simp] theorem resourceVersion_addFinalizer (m : ObjectMeta) (finalizer : String) :
    (m.addFinalizer finalizer).resourceVersion = m.resourceVersion := by
  unfold addFinalizer
  split <;> rfl

@[simp] theorem labels_addFinalizer (m : ObjectMeta) (finalizer : String) :
    (m.addFinalizer finalizer).labels = m.labels := by
  unfold addFinalizer
  split <;> rfl

@[simp] theorem containsFinalizer_addFinalizer (m : ObjectMeta) (finalizer : String) :
    (m.addFinalizer finalizer).containsFinalizer finalizer := by
  unfold addFinalizer containsFinalizer
  split <;> simp_all

theorem finalizers_addFinalizer_ne_nil (m : ObjectMeta) (finalizer : String) :
    (m.addFinalizer finalizer).finalizers ≠ [] :=
  List.ne_nil_of_mem (of_decide_eq_true (containsFinalizer_addFinalizer m finalizer))

theorem containsFinalizer_addFinalizer_of {m : ObjectMeta} {finalizer : String}
    (h : m.containsFinalizer finalizer) (other : String) :
    (m.addFinalizer other).containsFinalizer finalizer := by
  unfold addFinalizer
  split <;> simp_all [containsFinalizer]

theorem containsFinalizer_removeFinalizer_of {m : ObjectMeta} {finalizer other : String}
    (h : m.containsFinalizer finalizer) (hne : finalizer ≠ other) :
    (m.removeFinalizer other).containsFinalizer finalizer := by
  simp_all [removeFinalizer, containsFinalizer]

@[simp] theorem containsFinalizer_removeFinalizer (m : ObjectMeta) (finalizer : String) :
    (m.removeFinalizer finalizer).containsFinalizer finalizer = false := by
  simp [removeFinalizer, containsFinalizer]

@[simp] theorem key_removeFinalizer (m : ObjectMeta) (finalizer : String) :
    (m.removeFinalizer finalizer).key = m.key :=
  rfl

end ObjectMeta

/-- `metav1.NewControllerRef`. -/
def newControllerRef (owner : ObjectMeta) (kind : String) : OwnerReference :=
  { kind, name := owner.name, uid := owner.uid, controller := true, blockOwnerDeletion := true }

/-- An API object. -/
structure Resource (Spec Status : Type) where
  meta : ObjectMeta
  spec : Spec
  status : Status
deriving DecidableEq, Repr

/-! ## `api/v1alpha1` -/

/-- `MinerPhase`; the empty phase of a fresh Miner is `none` in `MinerStatus.phase`. -/
inductive MinerPhase where
  | pending
  | provisioning
  | running
  | deleting
  | failed
deriving DecidableEq, Repr

structure MinerSpec where
  minerType : String := ""
  chainName : String := ""
  restartPolicy : String := ""
  /-- `PodDeletionTimeout`, when set. -/
  podDeletionTimeout : Option Nat := none
deriving DecidableEq, Repr

/-- The `corev1.ObjectReference` a Miner keeps to its Pod (kind `Pod`, version `v1`). -/
structure PodReference where
  ns : String
  name : String
  uid : Nat
deriving DecidableEq, Repr

structure MinerStatus where
  podRef : Option PodReference := none
  lastUpdated : Option Nat := none
  failureReason : Option String := none
  addresses : List String := []
  phase : Option MinerPhase := none
  observedGeneration : Nat := 0
  conditions : List Condition := []
deriving DecidableEq, Repr

abbrev Miner := Resource MinerSpec MinerStatus

/-- `MinerTemplateSpec`. -/
structure MinerTemplateSpec where
  labels : Labels := []
  annotations : Labels := []
  spec : MinerSpec := {}
deriving DecidableEq, Repr

def deletePolicyRandom : String := "Random"
def deletePolicyNewest : String := "Newest"
def deletePolicyOldest : String := "Oldest"

structure MinerSetSpec where
  /-- `*int32`. -/
  replicas : Option Int := none
  selector : LabelSelector := {}
  template : MinerTemplateSpec := {}
  deletePolicy : String := ""
deriving DecidableEq, Repr

structure MinerSetStatus where
  replicas : Int := 0
  fullyLabeledReplicas : Int := 0
  readyReplicas : Int := 0
  availableReplicas : Int := 0
  observedGeneration : Nat := 0
  conditions : List Condition := []
deriving DecidableEq, Repr

abbrev MinerSet := Resource MinerSetSpec MinerSetStatus

structure ChainSpec where
  minerType : String := ""
  image : String := ""
deriving DecidableEq, Repr

structure ChainStatus where
  /-- `ConfigMapRef.Name`, when the reference is set. -/
  configMapRef : Option String := none
  /-- `MinerRef.Name`, when the reference is set. -/
  minerRef : Option String := none
  observedGeneration : Nat := 0
  conditions : List Condition := []
deriving DecidableEq, Repr

abbrev Chain := Resource ChainSpec ChainStatus

instance : Setter Miner where
  getConditions m := m.status.conditions
  setConditions m conditions := { m with status := { m.status with conditions } }
  getConditions_setConditions _ _ := rfl

@[simp] theorem meta_set_miner (m : Miner) (condition : Condition) :
    (Condition.set m condition).meta = m.meta :=
  rfl

@[simp] theorem status_set_miner (m : Miner) (condition : Condition) :
    (Condition.set m condition).status =
      { m.status with conditions := Condition.setCondition m.status.conditions condition } :=
  rfl

instance : Setter MinerSet where
  getConditions ms := ms.status.conditions
  setConditions ms conditions := { ms with status := { ms.status with conditions } }
  getConditions_setConditions _ _ := rfl

@[simp] theorem status_set_minerSet (ms : MinerSet) (condition : Condition) :
    (Condition.set ms condition).status =
      { ms.status with conditions := Condition.setCondition ms.status.conditions condition } :=
  rfl

instance : Setter Chain where
  getConditions c := c.status.conditions
  setConditions c conditions := { c with status := { c.status with conditions } }
  getConditions_setConditions _ _ := rfl

@[simp] theorem meta_set_chain (c : Chain) (condition : Condition) :
    (Condition.set c condition).meta = c.meta :=
  rfl

@[simp] theorem status_set_chain (c : Chain) (condition : Condition) :
    (Condition.set c condition).status =
      { c.status with conditions := Condition.setCondition c.status.conditions condition } :=
  rfl

/-! ## Core objects -/

/-- `corev1.PodPhase`; an empty phase is `none` in `PodStatus.phase`. -/
inductive PodPhase where
  | pending
  | running
  | succeeded
  | failed
  | unknown
deriving DecidableEq, Repr

structure PodCondition where
  type : String
  status : ConditionStatus
deriving DecidableEq, Repr

structure Container where
  name : String
  image : String
  command : List String
deriving DecidableEq, Repr

structure PodSpec where
  containers : List Container := []
  restartPolicy : String := ""
deriving DecidableEq, Repr

structure PodStatus where
  phase : Option PodPhase := none
  conditions : List PodCondition := []
  podIPs : List String := []
  message : String := ""
deriving DecidableEq, Repr

abbrev Pod := Resource PodSpec PodStatus

/-- A ConfigMap: its data map stands as the spec, and it has no status. -/
abbrev ConfigMap := Resource Labels Unit

/-! ## Results and errors -/

/-- `ctrl.Result`, `requeueAfter` in milliseconds. -/
structure Result where
  requeue : Bool := false
  requeueAfter : Int := 0
deriving DecidableEq, Repr

/-- The errors a reconciler tells apart: the store's answers, a transient failure of a call,
the deadline of a poll, and an error made by the controller itself. -/
inductive Error where
  | notFound
  | alreadyExists
  | conflict
  | transient
  | deadlineExceeded
  | invalid (message : String)
deriving DecidableEq, Repr

instance instDecidableEqExcept {ε α : Type} [DecidableEq ε] [DecidableEq α] :
    DecidableEq (Except ε α)
  | .error a, .error b => if h : a = b then isTrue (h ▸ rfl) else isFalse fun e => h (by injection e)
  | .ok a, .ok b => if h : a = b then isTrue (h ▸ rfl) else isFalse fun e => h (by injection e)
  | .error _, .ok _ => isFalse fun e => by cases e
  | .ok _, .error _ => isFalse fun e => by cases e

/-- Go's slice expression `l[low:high]`, or `none` where its indices are out of range and Go
panics. The bound is the length: the slices this code cuts have no spare capacity it reads. -/
def goSlice (l : List α) (low high : Int) : Option (List α) :=
  if 0 ≤ low ∧ low ≤ high ∧ high ≤ l.length then some ((l.drop low.toNat).take (high - low).toNat)
  else none

theorem goSlice_of_le {l : List α} {low high : Int} (h₁ : 0 ≤ low) (h₂ : low ≤ high)
    (h₃ : high ≤ l.length) : goSlice l low high = some ((l.drop low.toNat).take (high - low).toNat) :=
  if_pos ⟨h₁, h₂, h₃⟩

/-- Go's `int32(n)` of a non-negative `int`: two's complement wrap-around. -/
def int32 (n : Nat) : Int := Int.bmod n (2 ^ 32)

/-- Below `2 ^ 31` the conversion keeps the number. -/
theorem int32_of_lt {n : Nat} (h : n < 2 ^ 31) : int32 n = n := by
  have hmod : (n : Int) % ((2 ^ 32 : Nat) : Int) = n := Int.emod_eq_of_lt (by omega) (by omega)
  rw [int32, Int.bmod_pos _ _ (by omega), hmod]

end Minerx
