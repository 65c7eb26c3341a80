import Minerx.Verification.MinerPass
import Minerx.Controller.Chain
import Minerx.Controller.MinerSet

/-!
# The manager: the three controllers at once

The manager runs the Chain, MinerSet and Miner controllers side by side over one store, each with
its own workers, beside other writers (users, the kubelet, the garbage collector), and any call
may fail. Its work queue hands a key to one worker at a time, so the passes on one Miner run one
after another: a Miner worker here serves one key, and no two Miner workers serve the same key.
Chain and MinerSet workers take any request.

The Miner finalizer protocol holds in every interleaving of all of them, with the informer
catching up at any moment or not at all (`miner_finalizer_protocol`): each Miner worker creates
its Pod only under its Miner's finalizer, and drops no finalizer but its own Miner's. Each worker
guarantees something of every call it makes (`Worker.Allows`). The Chain and MinerSet controllers make only their own calls,
none of which updates a Miner or creates a Pod, and a Miner worker keeps the protocol on its
own key. The guarantees of the others are what each worker relies on (`Rely`), and
`Interleaved.guarded` composes them.
-/

namespace Minerx

open Controller Prog Relation

namespace Call

/-- The calls the Chain controller makes. -/
def ofChainController : Call → Bool
  | .getChain _ | .updateChain _ | .updateChainStatus _ | .listConfigMaps _ _ | .listMiners _ _ => true
  | _ => false

/-- The calls the MinerSet controller makes. -/
def ofMinerSetController : Call → Bool
  | .getMinerSet _ | .updateMinerSet _ | .updateMinerSetStatus _ | .listMiners _ _ | .getMiner _
  | .createMiner _ | .patchMiner _ _ | .deleteMiner _ => true
  | _ => false

/-- The calls of the Chain controller's phases: its lists. -/
def ofChainPhases : Call → Bool
  | .listConfigMaps _ _ | .listMiners _ _ => true
  | _ => false

/-- The calls of the MinerSet controller after its finalizer block. -/
def ofMinerSetScaling : Call → Bool
  | .updateMinerSetStatus _ | .listMiners _ _ | .getMiner _ | .createMiner _ | .patchMiner _ _
  | .deleteMiner _ => true
  | _ => false

theorem ofChainController_of_ofChainPhases {c : Call} (h : c.ofChainPhases) :
    c.ofChainController := by
  cases c <;> simp_all [ofChainPhases, ofChainController]

theorem ofMinerSetController_of_ofMinerSetScaling {c : Call} (h : c.ofMinerSetScaling) :
    c.ofMinerSetController := by
  cases c <;> simp_all [ofMinerSetScaling, ofMinerSetController]

end Call

/-! ## What the Chain and MinerSet controllers call -/

namespace ChainReconciler

theorem footprint_runPhases {phs : List Phase}
    (h : ∀ ph ∈ phs, ∀ chain now, AllCalls (fun c => c.ofChainPhases) (ph chain now))
    (chain : Chain) (result : Result) (now : Nat) :
    AllCalls (fun c => c.ofChainPhases) (runPhases phs chain result now) := by
  induction phs generalizing chain result with
  | nil => exact .pure _
  | cons ph phs ih =>
    refine (h ph (List.mem_cons_self _ _) chain now).bind fun r => ?_
    rcases r with ⟨chain', _ | phaseResult⟩
    · exact .pure _
    · exact ih (fun ph' hph' => h ph' (List.mem_cons_of_mem _ hph')) _ _

/-- Each phase lists its objects and makes no other call. -/
theorem footprint_phases : ∀ ph ∈ phases, ∀ chain now,
    AllCalls (fun c => c.ofChainPhases) (ph chain now) := by
  simp only [phases, List.mem_cons, List.mem_singleton, List.not_mem_nil, or_false]
  rintro ph (rfl | rfl) chain now <;>
    refine ((AllCalls.perform (by rfl)).bind fun r => ?_).bind fun r => ?_
  all_goals rcases r with _ | _ | _ <;> exact .pure _

theorem footprint_reconcile (chain : Chain) (now : Nat) :
    AllCalls (fun c => c.ofChainController) (reconcile chain now) := by
  unfold reconcile ensureFinalizer
  refine AllCalls.bind ?_ fun r => ?_
  · split
    · exact .pure _
    · exact AllCalls.perform (by rfl)
  · rcases r with _ | chain'
    · exact .pure _
    · refine ((footprint_runPhases footprint_phases chain' {} now).imp
        fun _ => Call.ofChainController_of_ofChainPhases).bind fun r => ?_
      rcases r with ⟨_, _ | _⟩
      · exact .pure _
      · exact (AllCalls.perform (by rfl)).bind fun r => by rcases r with _ | _ <;> exact .pure _

/-- A Chain pass makes only the Chain controller's calls. -/
theorem footprint_Reconcile (req : ObjectKey) (now : Nat) :
    AllCalls (fun c => c.ofChainController) (Reconcile req now) := by
  refine (AllCalls.perform (by rfl)).bind fun r => ?_
  split
  · exact .pure _
  · exact .pure _
  · rename_i chain
    split
    · unfold reconcileDelete
      split
      · exact (AllCalls.perform (by rfl)).bind fun r => by rcases r with _ | _ <;> exact .pure _
      · exact .pure _
    · exact footprint_reconcile chain now

end ChainReconciler

namespace MinerSetReconciler

theorem footprint_filterMiners (ms : MinerSet) (miners : List Miner) :
    AllCalls (fun c => c.ofMinerSetScaling) (filterMiners ms miners) := by
  induction miners with
  | nil => exact .pure _
  | cons miner miners ih =>
    unfold filterMiners
    split
    · exact ih
    · split
      · refine (AllCalls.perform (by rfl)).bind fun r => ?_
        rcases r with _ | adopted
        · exact ih
        · exact ih.bind fun _ => .pure _
      · exact ih.bind fun _ => .pure _

theorem footprint_deleteMiners (miners : List Miner) :
    AllCalls (fun c => c.ofMinerSetScaling) (deleteMiners miners) := by
  induction miners with
  | nil => exact .pure _
  | cons m miners ih =>
    unfold deleteMiners
    split
    · exact ih
    · refine (AllCalls.perform (by rfl)).bind fun r => ?_
      rcases r with e | _
      · dsimp only
        split
        · exact ih
        · exact .pure _
      · exact ih

theorem footprint_createMiners (ms : MinerSet) (count : Nat) :
    AllCalls (fun c => c.ofMinerSetScaling) (createMiners ms count) := by
  induction count with
  | zero => exact .pure _
  | succ n ih =>
    refine (AllCalls.perform (by rfl)).bind fun r => ?_
    rcases r with _ | miner
    · exact .pure _
    · refine (AllCalls.pollUntilContextTimeout ((AllCalls.perform (by rfl)).bind fun r => ?_) _ _).bind
        fun r => ?_
      · rcases r with (_ | _) | _ <;> exact .pure _
      · rcases r with _ | _
        · exact .pure _
        · exact ih

theorem footprint_syncReplicas (ms : MinerSet) (miners : List Miner) (now : Nat) :
    AllCalls (fun c => c.ofMinerSetScaling) (syncReplicas ms miners now) := by
  unfold syncReplicas
  split
  · exact .pure _
  · dsimp only
    split
    · refine (footprint_createMiners ms _).bind fun r => ?_
      rcases r with _ | _ <;> exact .pure _
    · split
      · split
        · exact .pure _
        · refine (footprint_deleteMiners _).bind fun r => ?_
          rcases r with _ | _ <;> exact .pure _
      · exact .pure _

theorem footprint_reconcileMiners (ms : MinerSet) (now : Nat) :
    AllCalls (fun c => c.ofMinerSetScaling) (reconcileMiners ms now) := by
  unfold reconcileMiners
  dsimp only
  split
  · exact .pure _
  · refine (AllCalls.perform (by rfl)).bind fun r => ?_
    rcases r with _ | allMiners
    · exact .pure _
    · refine (footprint_filterMiners _ _).bind fun filtered => ?_
      refine (footprint_syncReplicas _ _ _).bind fun r => ?_
      rcases r with ⟨_, _ | _⟩
      · exact .pure _
      · refine ((AllCalls.perform (by rfl)).bind fun r => ?_).bind fun r => ?_
        · rcases r with _ | _ <;> exact .pure _
        · rcases r with ⟨_, _ | _⟩ <;> exact .pure _

/-- A MinerSet pass makes only the MinerSet controller's calls. -/
theorem footprint_Reconcile (req : ObjectKey) (now : Nat) :
    AllCalls (fun c => c.ofMinerSetController) (Reconcile req now) := by
  refine (AllCalls.perform (by rfl)).bind fun r => ?_
  split
  · exact .pure _
  · exact .pure _
  · rename_i ms
    split
    · unfold reconcileDelete
      split
      · exact (AllCalls.perform (by rfl)).bind fun r => by rcases r with _ | _ <;> exact .pure _
      · exact .pure _
    · unfold reconcile ensureFinalizer
      refine AllCalls.bind ?_ fun r => ?_
      · split
        · exact .pure _
        · exact AllCalls.perform (by rfl)
      · rcases r with _ | ms'
        · exact .pure _
        · exact (footprint_reconcileMiners ms' now).imp
            fun _ => Call.ofMinerSetController_of_ofMinerSetScaling

end MinerSetReconciler

namespace Manager

open MinerReconciler

/-- A worker of the manager: a Chain or MinerSet worker, or the Miner worker of one key. -/
inductive Worker where
  | chain
  | minerSet
  | miner (key : ObjectKey)
deriving DecidableEq

namespace Worker

/-- The passes a worker runs. -/
def Passes : Worker → Prog (Except Error Result) → Prop
  | chain, p => ∃ req now, p = ChainReconciler.Reconcile req now
  | minerSet, p => ∃ req now, p = MinerSetReconciler.Reconcile req now
  | miner key, p => passesOn key p

/-- What a worker guarantees of each call it makes, at the store it makes the call in. -/
def Allows : Worker → Call → Store → Prop
  | chain, c, _ => c.ofChainController
  | minerSet, c, _ => c.ofMinerSetController
  | miner key, c, s => CreatesUnderFinalizer key c s ∧ DropsOwn key c

/-- Two workers do not serve one Miner key. -/
def apart : Worker → Worker → Bool
  | miner k, miner k' => k != k'
  | _, _ => true

/-- A Miner worker serves a key with a non-empty name, as every stored object has. -/
def named : Worker → Bool
  | miner k => k.name != ""
  | _ => true

end Worker

/-- The workers of the manager, indexed as the interleaving indexes them: the work queue never
gives one Miner key to two workers, and keys name objects. -/
structure Workers where
  list : List Worker
  apart : list.Pairwise fun w w' => w.apart w'
  named : ∀ w ∈ list, w.named

namespace Workers

variable (ws : Workers)

/-- Worker `i` runs the passes of its kind. -/
def Start (i : Nat) (p : Prog (Except Error Result)) : Prop :=
  ∃ w, ws.list[i]? = some w ∧ w.Passes p

/-- The guarantee of worker `i`; an index with no worker makes no call. -/
def Guarantee (i : Nat) (c : Call) (s : Store) : Prop :=
  ∃ w, ws.list[i]? = some w ∧ w.Allows c s

/-- Every worker idle. -/
def idle : List (Option (Prog (Except Error Result))) :=
  ws.list.map fun _ => none

theorem eq_none_of_mem_idle {w : Option (Prog (Except Error Result))} (hw : w ∈ ws.idle) :
    w = none := by
  obtain ⟨_, _, rfl⟩ := List.mem_map.mp hw
  rfl

variable {ws} {i j : Nat} {key key' : ObjectKey}

theorem key_ne (hij : j ≠ i) (hi : ws.list[i]? = some (.miner key))
    (hj : ws.list[j]? = some (.miner key')) : key' ≠ key := by
  obtain ⟨hi, hiw⟩ := List.getElem?_eq_some_iff.mp hi
  obtain ⟨hj, hjw⟩ := List.getElem?_eq_some_iff.mp hj
  have hR := List.pairwise_iff_getElem.mp ws.apart
  rcases Nat.lt_or_gt_of_ne hij with h | h
  · have := hR j i hj hi h
    rw [hiw, hjw] at this
    simpa [Worker.apart] using this
  · have := hR i j hi hj h
    rw [hiw, hjw] at this
    exact fun h => by simp [Worker.apart, h] at this

theorem name_ne (hi : ws.list[i]? = some (.miner key)) : key.name ≠ "" := by
  simpa [Worker.named] using ws.named _ (List.getElem?_mem hi)

variable {E : Store → Store → Prop} {F : Call → Prop}

/-- The Miner worker of `key` relies on the others to keep the finalizer on its Miner: no other
worker updates that Miner without it. -/
theorem rely_finalized (hE : Stable E (finalized key)) (hi : ws.list[i]? = some (.miner key)) :
    Stable (Rely E ws.Guarantee i) (finalized key) := by
  rintro s t (he | ⟨j, c, hji, ⟨w, hj, hw⟩, rfl⟩) hs
  · exact hE s t he hs
  · refine holdsFinalizer_perform (fun x _ hx _ _ hdrop => ?_) hs
    subst hx
    cases w with
    | chain | minerSet => exact absurd hw Bool.false_ne_true
    | miner k' => exact (hw.2 x rfl hdrop).trans_ne (key_ne hji hi hj)

/-- Every pass of every worker is guarded by its worker's guarantee under its rely. -/
theorem guarded_start
    (hE : ∀ key, Worker.miner key ∈ ws.list → Stable E (finalized key))
    (i : Nat) (p : Prog (Except Error Result)) (s : Store) (hp : ws.Start i p) :
    Guarded (Rely E ws.Guarantee i) F (ws.Guarantee i) (fun _ _ => True) p s := by
  obtain ⟨w, hi, hp⟩ := hp
  refine Guarded.imp (fun c s h => ⟨w, hi, h⟩) ?_
  cases w with
  | chain =>
    obtain ⟨req, now, rfl⟩ := hp
    exact AllCalls.guarded_of_forall (fun _ _ h => h) (ChainReconciler.footprint_Reconcile req now) s
  | minerSet =>
    obtain ⟨req, now, rfl⟩ := hp
    exact AllCalls.guarded_of_forall (fun _ _ h => h) (MinerSetReconciler.footprint_Reconcile req now) s
  | miner key =>
    obtain ⟨now, rfl⟩ := hp
    exact Guarded.and (Reconcile_createsUnderFinalizer
      (rely_finalized (hE key (List.getElem?_mem hi)) hi) now s) (Reconcile_dropsOwn now s)

end Workers

/-- In every interleaving of the manager's workers, from any store with every worker idle,
beside writers that keep the finalizer on each served Miner (the informer catching up among
them, or not), and with any call failing, the Miner worker of `key` sends a Pod Create only for
the Pod `key` and while the Miner `key` carries its finalizer, and sends an Update that drops the
finalizer only for the Miner `key`. -/
theorem miner_finalizer_protocol (ws : Workers) {E : Store → Store → Prop} {F : Call → Prop}
    (hE : ∀ key, Worker.miner key ∈ ws.list → Stable E (finalized key))
    {s : Store} {st : Store × List (Option (Prog (Except Error Result)))}
    (hreach : ReflTransGen (Interleaved E F ws.Start) (s, ws.idle) st) (i : Nat) {key : ObjectKey}
    (hi : ws.list[i]? = some (.miner key)) {p : Prog (Except Error Result)}
    (hp : st.2[i]? = some (some p)) {c : Call} (hc : nextCall p = some c) :
    CreatesUnderFinalizer key c st.1 ∧ DropsOwn key c := by
  obtain ⟨w, hw, hallows⟩ :=
    Interleaved.guarded (ws.guarded_start hE) (fun _ => ws.eq_none_of_mem_idle) hreach hp hc
  obtain rfl := Option.some.inj (hw.symm.trans hi)
  exact hallows

/-- A Miner worker for `freshMiner` beside a MinerSet worker. -/
def freshWorkers : Workers where
  list := [.miner freshMiner.meta.key, .minerSet]
  apart := by decide
  named := by decide

/-- The MinerSet worker runs a pass on a MinerSet that is not stored while the Miner worker makes
its first pass on `freshMiner`, up to the Pod Create. -/
def freshManagerSchedule : List (Nat × Choice (Except Error Result)) :=
  [(0, .start (Reconcile freshMiner.meta.key 0)), (0, .call),
   (1, .start (MinerSetReconciler.Reconcile ⟨"default", "set"⟩ 0)), (0, .call), (1, .call),
   (1, .finish), (0, .call)]

theorem miner_finalizer_protocol_freshWorkers :
    ∃ st p pod, ReflTransGen (Interleaved (fun _ _ => False) (fun _ => False) freshWorkers.Start)
        (freshStore, freshWorkers.idle) st ∧ freshWorkers.list[0]? = some (.miner freshMiner.meta.key) ∧
      st.2[0]? = some (some p) ∧ nextCall p = some (.createPod pod) ∧
      CreatesUnderFinalizer freshMiner.meta.key (.createPod pod) st.1 ∧
      DropsOwn freshMiner.meta.key (.createPod pod) :=
  have h : replayAll (fun _ => False) (freshStore, freshWorkers.idle) freshManagerSchedule = some _ :=
    rfl
  have hreach := replayAll_reachable (fun i p hp => by
    rcases hp with _ | ⟨_, _ | ⟨_, _ | ⟨_, _ | ⟨_, _ | ⟨_, _ | ⟨_, _ | ⟨_, ⟨⟩⟩⟩⟩⟩⟩⟩⟩
    · exact ⟨_, rfl, 0, rfl⟩
    · exact ⟨_, rfl, _, 0, rfl⟩) h
  ⟨_, _, _, hreach, rfl, rfl, rfl,
    miner_finalizer_protocol freshWorkers (fun _ _ _ _ h => h.elim) hreach 0 rfl rfl rfl⟩

end Manager

end Minerx
