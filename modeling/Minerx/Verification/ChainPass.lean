import Minerx.Verification.Manager
import Minerx.Verification.Chain

/-!
# One uninterrupted pass of the Chain controller

What a pass of `ChainReconciler` does on a stored Chain that is not being deleted, when no other
writer acts between its calls and the store answers every call (`exec`). The pass adds the
finalizer when it is missing, runs the two phases, and writes a status stamped with the
generation it read. The phases only list: neither sends a Create. A phase that lists no object of
the Chain marks its condition true as if it had created one, and the ConfigMap phase records the
name of a ConfigMap that only had `GenerateName` set, the empty name. So every such pass
succeeds, changes nothing in the store but the Chain, and on a store that holds no ConfigMap and
no Miner of the Chain leaves a Chain that reports both created (`chain_pass_outcome`).
-/

namespace Minerx

namespace ChainReconciler

open Controller Condition Prog

/-- The labels the Chain's ConfigMap and Miner carry, as both phases list them. -/
abbrev chainLabels (chain : Chain) : Labels := [("chain.onex.io/name", chain.meta.name)]

/-- What the ConfigMap phase leaves in a Chain `c` that started as `c₀`, given the Chain's
ConfigMaps it listed: when it listed none, the empty name and `ConfigMapsCreated` true; otherwise
the reference and the condition as they were. -/
def ConfigMapReported (cms : List ConfigMap) (c₀ c : Chain) : Prop :=
  if cms = [] then c.status.configMapRef = some "" ∧ isTrue c configMapsCreatedCondition
  else c.status.configMapRef = c₀.status.configMapRef ∧
    get c configMapsCreatedCondition = get c₀ configMapsCreatedCondition

/-- What the Miner phase leaves in a Chain `c` that started as `c₀`, given the Chain's Miners it
listed: when it listed none, a reference to the Miner named after the Chain unless one was
recorded, and `MinersCreated` true; otherwise the reference and the condition as they were. -/
def MinerReported (ms : List Miner) (c₀ c : Chain) : Prop :=
  if ms = [] then
    c.status.minerRef = some (c₀.status.minerRef.getD c₀.meta.name) ∧ isTrue c minersCreatedCondition
  else c.status.minerRef = c₀.status.minerRef ∧
    get c minersCreatedCondition = get c₀ minersCreatedCondition

theorem isTrue_setTrue {α : Type} [Setter α] (obj : α) (conditionType : String) (now : Nat) :
    isTrue (setTrue obj conditionType now) conditionType := by
  have h := MinerReconciler.status_get_setTrue obj conditionType now
  unfold Condition.isTrue
  split <;> simp_all

/-! ## What stays -/

/-- A call of the Chain controller changes nothing but the Chains and the revision. -/
theorem frame_perform {c : Call} (hc : c.ofChainController) (s : Store) :
    { (s.perform c).2 with chains := s.chains, revision := s.revision } = s := by
  cases c <;> simp only [Call.ofChainController, Bool.false_eq_true] at hc <;> simp only [Store.perform]
  all_goals first
    | rfl
    | rcases Store.write_snd s _ _ with h | ⟨_, _, _, h⟩ <;> rw [h]

/-- A Chain pass changes nothing but the Chains and the revision. -/
theorem frame_exec (key : ObjectKey) (now : Nat) (s : Store) :
    { ((Reconcile key now).exec s).2 with chains := s.chains, revision := s.revision } = s :=
  AllCalls.exec_frame (fun t => { t with chains := s.chains, revision := s.revision })
    ((footprint_Reconcile key now).imp fun _ hc t =>
      congrArg (fun u => { u with chains := s.chains, revision := s.revision }) (frame_perform hc t))
    s

/-! ## The blocks of the pass -/

/-- The finalizer block on the stored Chain: it returns the Chain as stored afterwards, with the
finalizer and the spec, generation and status it had. -/
theorem ensureFinalizer_exec (s : Store) {c : Chain} (hfind : Table.find s.chains c.meta.key = some c) :
    ∃ c' s', (ensureFinalizer c).exec s = (.ok c', s') ∧ Table.find s'.chains c.meta.key = some c' ∧
      c'.meta.key = c.meta.key ∧ c'.meta.generation = c.meta.generation ∧ c'.spec = c.spec ∧
      c'.status = c.status ∧ c'.meta.containsFinalizer chainFinalizer ∧
      s'.configMaps = s.configMaps ∧ s'.miners = s.miners := by
  unfold ensureFinalizer
  split
  · exact ⟨c, s, rfl, hfind, rfl, rfl, rfl, rfl, ‹_›, rfl, rfl⟩
  · obtain ⟨y, hu, hf, hk, -, hgen, -, hfin, hspec, hst⟩ :=
      Table.update_addFinalizer s.revision hfind chainFinalizer
    simp only [perform, exec_call, Store.perform, hu, Store.write]
    exact ⟨y, _, rfl, hf, hk, hgen, hspec, hst, hfin, rfl, rfl⟩

/-- The ConfigMap phase changes nothing in the store and returns the zero result; in the Chain
it touches only the ConfigMap reference and condition. -/
theorem reconcileConfigMap_exec (s : Store) (c : Chain) (now : Nat) :
    ∃ c', (reconcileConfigMap c now).exec s = ((c', .ok {}), s) ∧ c'.meta = c.meta ∧
      c'.spec = c.spec ∧ c'.status.minerRef = c.status.minerRef ∧
      c'.status.observedGeneration = c.status.observedGeneration ∧
      get c' minersCreatedCondition = get c minersCreatedCondition ∧
      ConfigMapReported (Table.list s.configMaps c.meta.ns (chainLabels c)) c c' := by
  unfold reconcileConfigMap isConfigMapReconciled
  by_cases h : Table.list s.configMaps c.meta.ns (chainLabels c) = []
  · simp only [perform_bind, exec_bind, exec_call, Store.perform, h, List.length_nil, ne_eq,
      not_true_eq_false, decide_False, createConfigMap]
    exact ⟨_, rfl, rfl, rfl, rfl, rfl,
      get_set_of_ne _ _ (show minersCreatedCondition ≠ configMapsCreatedCondition by decide),
      by simp only [ConfigMapReported, if_pos h]; exact ⟨rfl, isTrue_setTrue _ _ _⟩⟩
  · simp only [perform_bind, exec_bind, exec_call, Store.perform, ne_eq, List.length_eq_zero, h,
      not_false_eq_true, decide_True]
    exact ⟨c, rfl, rfl, rfl, rfl, rfl, rfl, by simp [ConfigMapReported, h]⟩

/-- The Miner phase changes nothing in the store and returns the zero result; in the Chain it
touches only the Miner reference and condition. -/
theorem reconcileMiner_exec (s : Store) (c : Chain) (now : Nat) :
    ∃ c', (reconcileMiner c now).exec s = ((c', .ok {}), s) ∧ c'.meta = c.meta ∧
      c'.spec = c.spec ∧ c'.status.configMapRef = c.status.configMapRef ∧
      c'.status.observedGeneration = c.status.observedGeneration ∧
      get c' configMapsCreatedCondition = get c configMapsCreatedCondition ∧
      MinerReported (Table.list s.miners c.meta.ns (chainLabels c)) c c' := by
  unfold reconcileMiner isMinerReconciled
  by_cases h : Table.list s.miners c.meta.ns (chainLabels c) = []
  · simp only [perform_bind, exec_bind, exec_call, Store.perform, h, List.length_nil, ne_eq,
      not_true_eq_false, decide_False, createMinerForChain, exec_pure]
    have hne : configMapsCreatedCondition ≠ minersCreatedCondition := by decide
    split
    · exact ⟨_, rfl, rfl, rfl, rfl, rfl, get_set_of_ne _ _ hne, by
        simp only [MinerReported, if_pos rfl, ‹c.status.minerRef = none›, Option.getD_none]
        exact ⟨rfl, isTrue_setTrue _ _ _⟩⟩
    · obtain ⟨r, hr⟩ := Option.ne_none_iff_exists'.mp ‹c.status.minerRef ≠ none›
      exact ⟨_, rfl, rfl, rfl, rfl, rfl, get_set_of_ne _ _ hne, by
        simp only [MinerReported, if_pos rfl, hr, Option.getD_some]
        exact ⟨hr, isTrue_setTrue _ _ _⟩⟩
  · simp only [perform_bind, exec_bind, exec_call, Store.perform, ne_eq, List.length_eq_zero, h,
      not_false_eq_true, decide_True]
    exact ⟨c, rfl, rfl, rfl, rfl, rfl, rfl, by simp [MinerReported, h]⟩

theorem ConfigMapReported.congr {cms : List ConfigMap} {c₀ c c' : Chain}
    (h : ConfigMapReported cms c₀ c) (href : c'.status.configMapRef = c.status.configMapRef)
    (hget : get c' configMapsCreatedCondition = get c configMapsCreatedCondition) :
    ConfigMapReported cms c₀ c' := by
  unfold ConfigMapReported Condition.isTrue at *
  rwa [href, hget]

theorem MinerReported.congr {ms : List Miner} {c₀ c c' : Chain}
    (h : MinerReported ms c₀ c) (href : c'.status.minerRef = c.status.minerRef)
    (hget : get c' minersCreatedCondition = get c minersCreatedCondition) :
    MinerReported ms c₀ c' := by
  unfold MinerReported Condition.isTrue at *
  rwa [href, hget]

theorem ConfigMapReported.base {cms : List ConfigMap} {c₀ c₀' c : Chain}
    (h : ConfigMapReported cms c₀ c) (href : c₀.status.configMapRef = c₀'.status.configMapRef)
    (hget : get c₀ configMapsCreatedCondition = get c₀' configMapsCreatedCondition) :
    ConfigMapReported cms c₀' c := by
  unfold ConfigMapReported at *
  rwa [← href, ← hget]

theorem MinerReported.base {ms : List Miner} {c₀ c₀' c : Chain}
    (h : MinerReported ms c₀ c) (href : c₀.status.minerRef = c₀'.status.minerRef)
    (hname : c₀.meta.name = c₀'.meta.name)
    (hget : get c₀ minersCreatedCondition = get c₀' minersCreatedCondition) :
    MinerReported ms c₀' c := by
  unfold MinerReported at *
  rwa [← href, ← hname, ← hget]

/-- The two phases change nothing in the store and return the zero result, with the Chain's
metadata, spec and observed generation as they were. -/
theorem runPhases_exec (s : Store) (c : Chain) (now : Nat) :
    ∃ c', (runPhases phases c {} now).exec s = ((c', .ok {}), s) ∧ c'.meta = c.meta ∧
      c'.spec = c.spec ∧ c'.status.observedGeneration = c.status.observedGeneration ∧
      ConfigMapReported (Table.list s.configMaps c.meta.ns (chainLabels c)) c c' ∧
      MinerReported (Table.list s.miners c.meta.ns (chainLabels c)) c c' := by
  obtain ⟨c₁, h₁, hm₁, hs₁, hr₁, hg₁, hget₁, hrep₁⟩ := reconcileConfigMap_exec s c now
  obtain ⟨c₂, h₂, hm₂, hs₂, hr₂, hg₂, hget₂, hrep₂⟩ := reconcileMiner_exec s c₁ now
  have hl : chainLabels c₁ = chainLabels c := congrArg (fun m => [("chain.onex.io/name", m.name)]) hm₁
  rw [hl, hm₁] at hrep₂
  refine ⟨c₂, ?_, hm₂.trans hm₁, hs₂.trans hs₁, hg₂.trans hg₁, hrep₁.congr hr₂ hget₂,
    hrep₂.base hr₁ (congrArg ObjectMeta.name hm₁) hget₁⟩
  simp only [phases, runPhases, exec_bind, h₁, h₂]
  rfl

/-- One uninterrupted pass on a stored Chain that is not being deleted succeeds with the zero
result and changes nothing in the store but that Chain, which afterwards carries the finalizer,
its spec, and the generation it had as observed generation. Each phase that listed no object of
the Chain has recorded a reference and marked its condition true without creating the object;
each phase that listed one has left its reference and condition as they were. -/
theorem chain_pass_outcome {s : Store} {key : ObjectKey} {chain : Chain}
    (hfind : Table.find s.chains key = some chain) (hlive : chain.meta.deletionTimestamp = none)
    (now : Nat) :
    ((Reconcile key now).exec s).1 = .ok {} ∧
      { ((Reconcile key now).exec s).2 with chains := s.chains, revision := s.revision } = s ∧
      ∃ c', Table.find ((Reconcile key now).exec s).2.chains key = some c' ∧
        c'.meta.containsFinalizer chainFinalizer ∧ c'.spec = chain.spec ∧
        c'.status.observedGeneration = chain.meta.generation ∧
        ConfigMapReported (Table.list s.configMaps chain.meta.ns (chainLabels chain)) chain c' ∧
        MinerReported (Table.list s.miners chain.meta.ns (chainLabels chain)) chain c' := by
  have hkey := (Table.find_eq_some hfind).2
  obtain ⟨c₁, s₁, he, hf₁, hk₁, hg₁, hsp₁, hst₁, hfin₁, hcm₁, hmi₁⟩ :=
    ensureFinalizer_exec s (hkey ▸ hfind)
  obtain ⟨c₂, hph, hm₂, hsp₂, hg₂, hrc₂, hrm₂⟩ := runPhases_exec s₁ c₁ now
  have hf₂ : Table.find s₁.chains c₂.meta.key = some c₁ := by rw [hm₂, hk₁]; exact hf₁
  have hu : Table.updateStatus s₁.chains s₁.revision
      { c₂ with status := { c₂.status with observedGeneration := c₂.meta.generation } } = .ok (_, _) :=
    Table.updateStatus_eq_ok_iff.mpr ⟨c₁, hf₂, congrArg ObjectMeta.resourceVersion hm₂, rfl, rfl⟩
  obtain ⟨hns, hname⟩ := ObjectKey.mk.inj hk₁
  have hl : chainLabels c₁ = chainLabels chain := congrArg (fun n => [("chain.onex.io/name", n)]) hname
  rw [hcm₁, hl, hns] at hrc₂
  rw [hmi₁, hl, hns] at hrm₂
  refine ⟨?_, frame_exec key now s, ?_⟩
  all_goals simp only [Reconcile, perform_bind, exec_call, Store.perform, Table.get_of_find hfind,
    hlive, Option.isSome_none, Bool.false_eq_true, if_false, reconcile, exec_bind, he, hph, hu,
    Store.write, exec_pure]
  have hget : ∀ t, get c₁ t = get chain t := fun t =>
    congrArg (fun st : ChainStatus => st.conditions.find? fun c : Condition => c.type = t) hst₁
  refine ⟨_, Table.find_replace_self (hkey ▸ hf₁) (hk₁.trans hkey), hfin₁, hsp₁,
    (congrArg ObjectMeta.generation hm₂).trans hg₁, ?_, ?_⟩
  · exact (hrc₂.congr rfl rfl).base (congrArg ChainStatus.configMapRef hst₁) (hget _)
  · exact (hrm₂.congr rfl rfl).base (congrArg ChainStatus.minerRef hst₁) hname (hget _)

theorem chain_pass_outcome_chainStore :
    Table.find chainStore.chains chainC.meta.key = some chainC ∧ chainC.meta.deletionTimestamp = none ∧
      ((Reconcile chainC.meta.key 0).exec chainStore).1 = .ok {} ∧
      { ((Reconcile chainC.meta.key 0).exec chainStore).2 with
          chains := chainStore.chains, revision := chainStore.revision } = chainStore ∧
      ∃ c', Table.find ((Reconcile chainC.meta.key 0).exec chainStore).2.chains chainC.meta.key = some c' ∧
        c'.meta.containsFinalizer chainFinalizer ∧ c'.spec = chainC.spec ∧
        c'.status.observedGeneration = chainC.meta.generation ∧
        ConfigMapReported (Table.list chainStore.configMaps chainC.meta.ns (chainLabels chainC)) chainC c' ∧
        MinerReported (Table.list chainStore.miners chainC.meta.ns (chainLabels chainC)) chainC c' :=
  have hfind : Table.find chainStore.chains chainC.meta.key = some chainC := by decide
  ⟨hfind, rfl, chain_pass_outcome hfind rfl 0⟩

end ChainReconciler

end Minerx
