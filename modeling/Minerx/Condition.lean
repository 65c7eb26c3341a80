import Mathlib.Data.List.Basic

/-!
# The condition ledger

`pkg/condition` keeps, on every reconciled object, a list of conditions in the shape of
`metav1.Condition`. `setCondition` walks the list: the first entry whose type matches the new
condition is replaced in place, and only when its status, reason or message differs; a condition
of a type not yet present is appended. `get` reads the first entry of a type.

`metav1.Now()` is not a clock here: the constructors take the time `now` of the pass. The
condition's `observedGeneration` is never written by this code and is left out.
-/

namespace Minerx

/-- `metav1.ConditionStatus`. -/
inductive ConditionStatus where
  | conditionTrue
  | conditionFalse
  | conditionUnknown
deriving DecidableEq, Repr

/-- `metav1.Condition`, with the fields the ledger reads and writes. -/
structure Condition where
  type : String
  status : ConditionStatus
  reason : String := ""
  message : String := ""
  lastTransitionTime : Nat
deriving DecidableEq, Repr

/-- `condition.Getter`: an object that exposes its condition list. -/
class Getter (α : Type) where
  getConditions : α → List Condition

/-- `condition.Setter`: an object whose condition list can be replaced. -/
class Setter (α : Type) extends Getter α where
  setConditions : α → List Condition → α
  getConditions_setConditions : ∀ obj conditions, getConditions (setConditions obj conditions) = conditions

namespace Condition

/-! ## Condition types and reasons (`types.go`) -/

def readyCondition : String := "Ready"
def infrastructureReadyCondition : String := "InfrastructureReady"
def bootstrapReadyCondition : String := "BootstrapReady"
def minerPodHealthyCondition : String := "PodHealthy"
def minersCreatedCondition : String := "MinersCreated"
def minersReadyCondition : String := "MinersReady"
def resizedCondition : String := "Resized"
def configMapsCreatedCondition : String := "ConfigMapsCreated"

def creatingReason : String := "Creating"
def deletingReason : String := "Deleting"
def provisioningReason : String := "Provisioning"
def unavailableReason : String := "Unavailable"
def failedReason : String := "Failed"
def podNotFoundReason : String := "PodNotFound"
def minerDeletionFailedReason : String := "MinerDeletionFailed"

/-! ## Setting -/

/-- The loop of `setCondition` over the ledger. -/
def setCondition : List Condition → Condition → List Condition
  | [], condition => [condition]
  | c :: conditions, condition =>
    if c.type = condition.type then
      (if c.status ≠ condition.status ∨ c.reason ≠ condition.reason ∨ c.message ≠ condition.message
        then condition else c) :: conditions
    else c :: setCondition conditions condition

/-- `condition.Set`. -/
def set [Setter α] (obj : α) (condition : Condition) : α :=
  Setter.setConditions obj (setCondition (Getter.getConditions obj) condition)

/-- `condition.TrueCondition`. -/
def trueCondition (conditionType : String) (now : Nat) : Condition :=
  { type := conditionType, status := .conditionTrue, lastTransitionTime := now }

/-- `condition.FalseCondition`. -/
def falseCondition (conditionType reason message : String) (now : Nat) : Condition :=
  { type := conditionType, status := .conditionFalse, reason, message, lastTransitionTime := now }

/-- `condition.UnknownCondition`. -/
def unknownCondition (conditionType reason message : String) (now : Nat) : Condition :=
  { type := conditionType, status := .conditionUnknown, reason, message, lastTransitionTime := now }

def setTrue [Setter α] (obj : α) (conditionType : String) (now : Nat) : α :=
  set obj (trueCondition conditionType now)

def setFalse [Setter α] (obj : α) (conditionType reason message : String) (now : Nat) : α :=
  set obj (falseCondition conditionType reason message now)

def setUnknown [Setter α] (obj : α) (conditionType reason message : String) (now : Nat) : α :=
  set obj (unknownCondition conditionType reason message now)

/-! ## Reading (`getter.go`) -/

/-- `condition.Get`: the first entry of the given type. -/
def get [Getter α] (obj : α) (conditionType : String) : Option Condition :=
  (Getter.getConditions obj).find? (·.type = conditionType)

def has [Getter α] (obj : α) (conditionType : String) : Bool :=
  (get obj conditionType).isSome

def isTrue [Getter α] (obj : α) (conditionType : String) : Bool :=
  match get obj conditionType with
  | some c => c.status = .conditionTrue
  | none => false

def isFalse [Getter α] (obj : α) (conditionType : String) : Bool :=
  match get obj conditionType with
  | some c => c.status = .conditionFalse
  | none => false

/-- `condition.IsUnknown`: an absent condition counts as unknown. -/
def isUnknown [Getter α] (obj : α) (conditionType : String) : Bool :=
  match get obj conditionType with
  | some c => c.status = .conditionUnknown
  | none => true

/-! ## What a set leaves behind -/

/-- Two conditions that agree on status, reason and message. -/
def Agrees (c d : Condition) : Prop :=
  c.status = d.status ∧ c.reason = d.reason ∧ c.message = d.message

instance (c d : Condition) : Decidable (Agrees c d) :=
  inferInstanceAs (Decidable (_ ∧ _ ∧ _))

theorem not_agrees_iff {c d : Condition} :
    ¬Agrees c d ↔ c.status ≠ d.status ∨ c.reason ≠ d.reason ∨ c.message ≠ d.message := by
  simp only [Agrees, not_and_or]

/-- After `setCondition`, the first entry of the new condition's type agrees with it. -/
theorem find?_setCondition_self (conditions : List Condition) (condition : Condition) :
    ∃ c, (setCondition conditions condition).find? (·.type = condition.type) = some c ∧
      c.type = condition.type ∧ Agrees c condition := by
  induction conditions with
  | nil => exact ⟨condition, by simp [setCondition], rfl, rfl, rfl, rfl⟩
  | cons c conditions ih =>
    by_cases ht : c.type = condition.type
    · by_cases hd : c.status ≠ condition.status ∨ c.reason ≠ condition.reason ∨
          c.message ≠ condition.message
      · exact ⟨condition, by simp [setCondition, ht, hd], rfl, rfl, rfl, rfl⟩
      · simp only [not_or, not_not] at hd
        exact ⟨c, by simp [setCondition, ht, hd], ht, hd⟩
    · simpa [setCondition, ht] using ih

/-- `setCondition` leaves the first entry of every other type as it was. -/
theorem find?_setCondition_of_ne (conditions : List Condition) (condition : Condition)
    {conditionType : String} (h : conditionType ≠ condition.type) :
    (setCondition conditions condition).find? (·.type = conditionType) =
      conditions.find? (·.type = conditionType) := by
  induction conditions with
  | nil => simp [setCondition, Ne.symm h]
  | cons c conditions ih =>
    by_cases ht : c.type = condition.type
    · have hc : ¬c.type = conditionType := fun h' => h (h' ▸ ht)
      rw [setCondition, if_pos ht]
      split_ifs <;> simp [hc, Ne.symm h]
    · by_cases hc : c.type = conditionType <;> simp [setCondition, ht, hc, ih, h]

/-- The types after `setCondition`: the same list when the new type is present, else the new
type appended. -/
theorem map_type_setCondition (conditions : List Condition) (condition : Condition) :
    (setCondition conditions condition).map (·.type) =
      if condition.type ∈ conditions.map (·.type) then conditions.map (·.type)
      else conditions.map (·.type) ++ [condition.type] := by
  induction conditions with
  | nil => simp [setCondition]
  | cons c conditions ih =>
    by_cases ht : c.type = condition.type
    · have hmem : condition.type ∈ (c :: conditions).map (·.type) := by simp [ht]
      rw [setCondition, if_pos ht, if_pos hmem]
      split_ifs <;> simp [ht]
    · simp only [setCondition, if_neg ht, List.map_cons, ih, List.mem_cons, Ne.symm ht, false_or]
      split_ifs <;> rfl

/-- `setCondition` leaves the entries of every other type, in their order. -/
theorem filter_setCondition (conditions : List Condition) (condition : Condition) :
    (setCondition conditions condition).filter (·.type ≠ condition.type) =
      conditions.filter (·.type ≠ condition.type) := by
  induction conditions with
  | nil => simp [setCondition]
  | cons c conditions ih =>
    by_cases ht : c.type = condition.type
    · rw [setCondition, if_pos ht]
      split_ifs <;> simp [List.filter_cons, ht]
    · rw [setCondition, if_neg ht, List.filter_cons, List.filter_cons, ih]

/-- When the first entry of the new condition's type agrees with it, `setCondition` changes
nothing. -/
theorem setCondition_of_find?_agrees {conditions : List Condition} {condition c : Condition}
    (h : conditions.find? (·.type = condition.type) = some c) (hc : Agrees c condition) :
    setCondition conditions condition = conditions := by
  induction conditions with
  | nil => cases h
  | cons d conditions ih =>
    by_cases ht : d.type = condition.type
    · obtain rfl : d = c := by simpa [ht] using h
      rw [setCondition, if_pos ht, if_neg (not_agrees_iff.not.mp (not_not.mpr hc))]
    · rw [setCondition, if_neg ht, ih (by simpa [ht] using h)]

/-- In a ledger of distinct types, the entry of the new condition's type is replaced in place
by the new condition when they disagree, and kept when they agree. -/
theorem setCondition_eq_set {conditions : List Condition} (hnodup : (conditions.map (·.type)).Nodup)
    (condition : Condition) {i : Nat} (hi : i < conditions.length)
    (ht : conditions[i].type = condition.type) :
    setCondition conditions condition =
      conditions.set i (if Agrees conditions[i] condition then conditions[i] else condition) := by
  induction conditions generalizing i with
  | nil => cases hi
  | cons c conditions ih =>
    cases i with
    | zero =>
      simp only [List.getElem_cons_zero] at ht ⊢
      rw [setCondition, if_pos ht]
      by_cases ha : Agrees c condition
      · simp [ha, not_agrees_iff.not.mp (not_not.mpr ha)]
      · simp [ha, not_agrees_iff.mp ha]
    | succ j =>
      simp only [List.getElem_cons_succ] at ht ⊢
      have hj : j < conditions.length := Nat.lt_of_succ_lt_succ hi
      have hc : c.type ≠ condition.type := fun h => (List.nodup_cons.mp hnodup).1
        (List.mem_map.mpr ⟨_, List.getElem_mem hj, ht.trans h.symm⟩)
      rw [setCondition, if_neg hc, ih (List.nodup_cons.mp hnodup).2 hj ht]
      rfl

/-- Setting a condition that agrees with one just set, whatever its time, changes nothing. -/
theorem setCondition_setCondition_of_agrees (conditions : List Condition) {c c' : Condition}
    (htype : c'.type = c.type) (hagree : Agrees c' c) :
    setCondition (setCondition conditions c) c' = setCondition conditions c := by
  obtain ⟨d, hd, -, ha⟩ := find?_setCondition_self conditions c
  exact setCondition_of_find?_agrees (by rw [htype]; exact hd)
    ⟨ha.1.trans hagree.1.symm, ha.2.1.trans hagree.2.1.symm, ha.2.2.trans hagree.2.2.symm⟩

@[simp] theorem getConditions_set [Setter α] (obj : α) (condition : Condition) :
    Getter.getConditions (set obj condition) = setCondition (Getter.getConditions obj) condition :=
  Setter.getConditions_setConditions _ _

theorem get_set_self [Setter α] (obj : α) (condition : Condition) :
    ∃ c, get (set obj condition) condition.type = some c ∧ Agrees c condition := by
  obtain ⟨c, hc, -, ha⟩ := find?_setCondition_self (Getter.getConditions obj) condition
  exact ⟨c, by simpa [get, set, Setter.getConditions_setConditions] using hc, ha⟩

theorem get_set_of_ne [Setter α] (obj : α) (condition : Condition) {conditionType : String}
    (h : conditionType ≠ condition.type) :
    get (set obj condition) conditionType = get obj conditionType := by
  simp only [get, set, Setter.getConditions_setConditions]
  exact find?_setCondition_of_ne _ _ h

end Condition

end Minerx
