import Minerx.Prog
import Mathlib.Logic.Relation

/-!
# Passes beside other writers

A controller runs one pass at a time for an object, while other parties write the store between
any two of its calls. `Safe E F I Q p s` says that every run of `p` from `s` keeps `I` at every
store it meets and ends in `Q`, when the environment takes `E` steps before each call and at the
end, and a call allowed by `F` may fail. It is defined by recursion on the program, so that a
proof of it follows the code call by call, and it carries the environment inside: a `Safe`
program stays safe whatever the others do.

`Step` is the same system one call at a time: a worker that starts a pass drawn from `Start`,
makes its calls, and goes idle at the end, with environment steps at any moment.
`Step.invariant` turns passes that are `Safe` from every store satisfying `I` into the invariant
`I` of every reachable state.
-/

namespace Minerx

namespace Prog

open Relation

variable {α β : Type} (E : Store → Store → Prop) (F : Call → Prop) (I : Store → Prop)

/-- Every run of the program from the store, with environment steps and failing calls, keeps `I`
at each store it reaches and ends in `Q`. -/
def Safe (Q : α → Store → Prop) : Prog α → Store → Prop
  | .pure a, s => ∀ t, ReflTransGen E s t → I t ∧ Q a t
  | .call c k, s => ∀ t, ReflTransGen E s t →
      I t ∧ Safe Q (k (t.perform c).1) (t.perform c).2 ∧ (F c → Safe Q (k (.error .transient)) t)

/-- A property of stores that the environment keeps. -/
def Stable (P : Store → Prop) : Prop := ∀ s t, E s t → P s → P t

/-! ## One call at a time -/

/-- A worker running passes drawn from `Start` one call at a time, beside the environment: the
store, and the rest of the current pass when one is running. -/
inductive Step (Start : Prog α → Prop) : Store × Option (Prog α) → Store × Option (Prog α) → Prop
  | start {s : Store} {p : Prog α} : Start p → Step Start (s, none) (s, some p)
  | call {s : Store} {c : Call} {k : c.Reply → Prog α} :
      Step Start (s, some (.call c k)) ((s.perform c).2, some (k (s.perform c).1))
  | fail {s : Store} {c : Call} {k : c.Reply → Prog α} :
      F c → Step Start (s, some (.call c k)) (s, some (k (.error .transient)))
  | finish {s : Store} {a : α} : Step Start (s, some (.pure a)) (s, none)
  | env {s t : Store} {w : Option (Prog α)} : E s t → Step Start (s, w) (t, w)

/-- What holds of a state of the worker: `I`, and the rest of the running pass is safe. -/
def StepInv (st : Store × Option (Prog α)) : Prop :=
  match st.2 with
  | none => I st.1
  | some p => Safe E F I (fun _ => I) p st.1

variable {E F I} {Q Q' : α → Store → Prop} {P : Store → Prop}

theorem Stable.rtg (hP : Stable E P) {s t : Store} (h : ReflTransGen E s t) (hs : P s) : P t := by
  induction h with
  | refl => exact hs
  | tail _ hst ih => exact hP _ _ hst ih

theorem Stable.and {P' : Store → Prop} (hP : Stable E P) (hP' : Stable E P') :
    Stable E fun s => P s ∧ P' s :=
  fun s t h hs => ⟨hP s t h hs.1, hP' s t h hs.2⟩

theorem Safe.env {p : Prog α} {s t : Store} (hp : Safe E F I Q p s) (h : ReflTransGen E s t) :
    Safe E F I Q p t := by
  cases p <;> exact fun u hu => hp u (h.trans hu)

theorem Safe.inv {p : Prog α} {s : Store} (hp : Safe E F I Q p s) : I s := by
  cases p <;> exact (hp s .refl).1

theorem Safe.mono (hQ : ∀ a s, Q a s → Q' a s) {p : Prog α} {s : Store} (hp : Safe E F I Q p s) :
    Safe E F I Q' p s := by
  induction p generalizing s with
  | pure a => exact fun t ht => ⟨(hp t ht).1, hQ _ _ (hp t ht).2⟩
  | call c k ih =>
    intro t ht
    obtain ⟨hI, hk, hf⟩ := hp t ht
    exact ⟨hI, ih _ hk, fun hc => ih _ (hf hc)⟩

/-- A program followed by `f` is safe when the program ends where `f` is safe. -/
theorem Safe.bind {p : Prog α} {f : α → Prog β} {Q : β → Store → Prop} {s : Store}
    (hp : Safe E F I (fun a => Safe E F I Q (f a)) p s) : Safe E F I Q (p >>= f) s := by
  induction p generalizing s with
  | pure a => exact (hp s .refl).2
  | call c k ih =>
    intro t ht
    obtain ⟨hI, hk, hf⟩ := hp t ht
    exact ⟨hI, ih _ hk, fun hc => ih _ (hf hc)⟩

theorem safe_pure (hI : Stable E I) (hQ : Stable E (Q a)) {s : Store} (hs : I s) (ha : Q a s) :
    Safe E F I Q (.pure a) s :=
  fun _ ht => ⟨hI.rtg ht hs, hQ.rtg ht ha⟩

/-- A call is safe from a store where a stable `P` holds, when `P` gives `I` and the program
goes on safely from every store where `P` holds, after the call's answer or its failure. -/
theorem safe_call (hP : Stable E P) (hPI : ∀ s, P s → I s) {c : Call} {k : c.Reply → Prog α}
    (hk : ∀ t, P t → Safe E F I Q (k (t.perform c).1) (t.perform c).2 ∧
      (F c → Safe E F I Q (k (.error .transient)) t)) {s : Store} (hs : P s) :
    Safe E F I Q (.call c k) s :=
  fun t ht => ⟨hPI t (hP.rtg ht hs), hk t (hP.rtg ht hs)⟩

/-- A program whose every call keeps a stable `J` that gives `I` is safe, and ends in `J`. -/
theorem AllCalls.safe {C : Call → Prop} {J : Store → Prop} (hJ : Stable E J) (hJI : ∀ s, J s → I s)
    (hc : ∀ c s, C c → J s → J (s.perform c).2) {p : Prog α} (hp : AllCalls C p) {s : Store}
    (hs : J s) : Safe E F I (fun _ => J) p s := by
  induction hp generalizing s with
  | pure a => exact fun t ht => ⟨hJI t (hJ.rtg ht hs), hJ.rtg ht hs⟩
  | call hC _ ih => exact safe_call hJ hJI (fun t ht => ⟨ih _ (hc _ t hC ht), fun _ => ih _ ht⟩) hs

theorem StepInv.step {Start : Prog α → Prop} (hI : Stable E I)
    (hstart : ∀ p s, Start p → I s → Safe E F I (fun _ => I) p s) {st st' : Store × Option (Prog α)}
    (h : Step E F Start st st') (hst : StepInv E F I st) :
    StepInv E F I st' := by
  cases h with
  | start hp => exact hstart _ _ hp hst
  | call => exact (hst _ .refl).2.1
  | fail hc => exact (hst _ .refl).2.2 hc
  | finish => exact (hst _ .refl).2
  | env he =>
    rename_i w
    cases w with
    | none => exact hI _ _ he hst
    | some p => exact Safe.env hst (.single he)

/-- Passes that are safe from every store satisfying `I` keep `I` in every reachable state. -/
theorem Step.invariant {Start : Prog α → Prop} (hI : Stable E I)
    (hstart : ∀ p s, Start p → I s → Safe E F I (fun _ => I) p s) {s : Store}
    {st : Store × Option (Prog α)} (hreach : ReflTransGen (Step E F Start) (s, none) st)
    (hs : I s) : I st.1 := by
  have hinv : StepInv E F I st := by
    induction hreach with
    | refl => exact hs
    | tail _ h ih => exact StepInv.step hI hstart h ih
  obtain ⟨t, _ | p⟩ := st
  · exact hinv
  · exact Safe.inv hinv

/-! ## Guarantees on each call -/

/-- The call a worker's pass makes next, if it has one left. -/
def nextCall : Prog α → Option Call
  | .pure _ => none
  | .call c _ => some c

variable (E F) in
/-- Every run of the program from the store, with environment steps and failing calls, makes
each call from a store where `G` allows that call, and ends in `Q`. Unlike `Safe`, the property
checked before a call depends on the call, so a pass may set it up with its earlier calls. -/
def Guarded (G : Call → Store → Prop) (Q : α → Store → Prop) : Prog α → Store → Prop
  | .pure a, s => ∀ t, ReflTransGen E s t → Q a t
  | .call c k, s => ∀ t, ReflTransGen E s t →
      G c t ∧ Guarded G Q (k (t.perform c).1) (t.perform c).2 ∧
        (F c → Guarded G Q (k (.error .transient)) t)

section Guarded

variable {G : Call → Store → Prop}

theorem Guarded.env {p : Prog α} {s t : Store} (hp : Guarded E F G Q p s)
    (h : ReflTransGen E s t) : Guarded E F G Q p t := by
  cases p <;> exact fun u hu => hp u (h.trans hu)

theorem Guarded.mono (hQ : ∀ a s, Q a s → Q' a s) {p : Prog α} {s : Store}
    (hp : Guarded E F G Q p s) : Guarded E F G Q' p s := by
  induction p generalizing s with
  | pure a => exact fun t ht => hQ _ _ (hp t ht)
  | call c k ih =>
    intro t ht
    obtain ⟨hG, hk, hf⟩ := hp t ht
    exact ⟨hG, ih _ hk, fun hc => ih _ (hf hc)⟩

/-- A guarantee that gives another on every call gives it on every run. -/
theorem Guarded.imp {G' : Call → Store → Prop} (hG : ∀ c s, G c s → G' c s) {p : Prog α}
    {s : Store} (hp : Guarded E F G Q p s) : Guarded E F G' Q p s := by
  induction p generalizing s with
  | pure a => exact hp
  | call c k ih =>
    intro t ht
    obtain ⟨hc, hk, hf⟩ := hp t ht
    exact ⟨hG _ _ hc, ih _ hk, fun h => ih _ (hf h)⟩

/-- Two guarantees of one program hold together. -/
theorem Guarded.and {G' : Call → Store → Prop} {p : Prog α} {s : Store}
    (hp : Guarded E F G (fun _ _ => True) p s) (hp' : Guarded E F G' (fun _ _ => True) p s) :
    Guarded E F (fun c s => G c s ∧ G' c s) (fun _ _ => True) p s := by
  induction p generalizing s with
  | pure a => exact fun _ _ => trivial
  | call c k ih =>
    intro t ht
    obtain ⟨hc, hk, hf⟩ := hp t ht
    obtain ⟨hc', hk', hf'⟩ := hp' t ht
    exact ⟨⟨hc, hc'⟩, ih _ hk hk', fun h => ih _ (hf h) (hf' h)⟩

/-- A program followed by `f` is guarded when the program ends where `f` is guarded. -/
theorem Guarded.bind {p : Prog α} {f : α → Prog β} {Q : β → Store → Prop} {s : Store}
    (hp : Guarded E F G (fun a => Guarded E F G Q (f a)) p s) : Guarded E F G Q (p >>= f) s := by
  induction p generalizing s with
  | pure a => exact (hp s .refl)
  | call c k ih =>
    intro t ht
    obtain ⟨hG, hk, hf⟩ := hp t ht
    exact ⟨hG, ih _ hk, fun hc => ih _ (hf hc)⟩

/-- Mapping the result keeps the guarantee on the calls. -/
theorem Guarded.map {p : Prog α} {f : α → β} {s : Store} (hp : Guarded E F G (fun _ _ => True) p s) :
    Guarded E F G (fun _ _ => True) (f <$> p) s := by
  induction p generalizing s with
  | pure a => exact fun _ _ => trivial
  | call c k ih =>
    intro t ht
    obtain ⟨hG, hk, hf⟩ := hp t ht
    exact ⟨hG, ih _ hk, fun hc => ih _ (hf hc)⟩

theorem guarded_pure (hQ : Stable E (Q a)) {s : Store} (ha : Q a s) : Guarded E F G Q (.pure a) s :=
  fun _ ht => hQ.rtg ht ha

/-- A call is guarded from a store where a stable `P` holds, when `P` allows the call and the
program goes on guarded from every store where `P` holds, after the call's answer or its
failure. -/
theorem guarded_call (hP : Stable E P) {c : Call} (hG : ∀ t, P t → G c t) {k : c.Reply → Prog α}
    (hk : ∀ t, P t → Guarded E F G Q (k (t.perform c).1) (t.perform c).2 ∧
      (F c → Guarded E F G Q (k (.error .transient)) t)) {s : Store} (hs : P s) :
    Guarded E F G Q (.call c k) s :=
  fun t ht => ⟨hG t (hP.rtg ht hs), hk t (hP.rtg ht hs)⟩

/-- A program whose every call keeps a stable `J` under which `G` allows it is guarded, and
ends in `J`. -/
theorem AllCalls.guarded {C : Call → Prop} {J : Store → Prop} (hJ : Stable E J)
    (hG : ∀ c s, C c → J s → G c s) (hc : ∀ c s, C c → J s → J (s.perform c).2) {p : Prog α}
    (hp : AllCalls C p) {s : Store} (hs : J s) : Guarded E F G (fun _ => J) p s := by
  induction hp generalizing s with
  | pure a => exact guarded_pure hJ hs
  | call hC _ ih =>
    exact guarded_call hJ (fun t => hG _ t hC) (fun t ht => ⟨ih _ (hc _ t hC ht), fun _ => ih _ ht⟩) hs

/-- A program whose every call `G` allows from any store is guarded from every store. -/
theorem AllCalls.guarded_of_forall {C : Call → Prop} (hG : ∀ c s, C c → G c s) {p : Prog α}
    (hp : AllCalls C p) (s : Store) : Guarded E F G (fun _ _ => True) p s := by
  induction hp generalizing s with
  | pure a => exact fun _ _ => trivial
  | call hC _ ih => exact fun t _ => ⟨hG _ t hC, ih _ _, fun _ => ih _ t⟩

/-- Passes that are guarded from every store make every call, in every reachable state, from a
store where `G` allows it. -/
theorem Step.guarded {Start : Prog α → Prop}
    (hstart : ∀ p s, Start p → Guarded E F G (fun _ _ => True) p s) {s : Store}
    {st : Store × Option (Prog α)} (hreach : ReflTransGen (Step E F Start) (s, none) st) {c : Call}
    (hc : st.2.bind nextCall = some c) : G c st.1 := by
  have hinv : ∀ p, st.2 = some p → Guarded E F G (fun _ _ => True) p st.1 := by
    clear hc
    induction hreach with
    | refl => exact fun _ h => by cases h
    | tail _ h ih =>
      cases h with
      | start hp => exact fun _ h => Option.some.inj h ▸ hstart _ _ hp
      | call => exact fun _ h => Option.some.inj h ▸ (ih _ rfl _ .refl).2.1
      | fail hc => exact fun _ h => Option.some.inj h ▸ (ih _ rfl _ .refl).2.2 hc
      | finish => exact fun _ h => by cases h
      | env he => exact fun p h => (ih p h).env (.single he)
  obtain ⟨t, _ | _ | ⟨c', k⟩⟩ := st <;> simp only [Option.bind, nextCall, reduceCtorEq,
    Option.some.injEq] at hc
  exact hc ▸ (hinv _ rfl t .refl).1

end Guarded

/-! ## Replaying a schedule -/

/-- What a worker does next in a replayed schedule. -/
inductive Choice (α : Type) where
  | start (p : Prog α)
  | call
  | fail
  | finish

/-- The state one choice of the worker leads to, or `none` where it does not fit the state. -/
def next (F : Call → Prop) [DecidablePred F] :
    Store × Option (Prog α) → Choice α → Option (Store × Option (Prog α))
  | (s, none), .start p => some (s, some p)
  | (s, some (.call c k)), .call => some ((s.perform c).2, some (k (s.perform c).1))
  | (s, some (.call c k)), .fail => if F c then some (s, some (k (.error .transient))) else none
  | (s, some (.pure _)), .finish => some (s, none)
  | _, _ => none

/-- The state a schedule of the worker leads to. -/
def replay (F : Call → Prop) [DecidablePred F] :
    Store × Option (Prog α) → List (Choice α) → Option (Store × Option (Prog α))
  | st, [] => some st
  | st, ch :: cs => (next F st ch).bind (replay F · cs)

theorem next_step [DecidablePred F] {Start : Prog α → Prop} {ch : Choice α}
    (hstart : ∀ p, ch = .start p → Start p) {st st' : Store × Option (Prog α)}
    (h : next F st ch = some st') : Step E F Start st st' := by
  obtain ⟨s, _ | _ | ⟨c, k⟩⟩ := st <;> cases ch <;>
    simp only [next, reduceCtorEq, Option.some.injEq] at h
  · exact h ▸ .start (hstart _ rfl)
  · exact h ▸ .finish
  · exact h ▸ .call
  · split at h
    · simp only [Option.some.injEq] at h
      exact h ▸ .fail ‹_›
    · cases h

/-- A replayed schedule whose passes are allowed is a run of the system. -/
theorem replay_reachable [DecidablePred F] {Start : Prog α → Prop} {cs : List (Choice α)}
    (hstart : ∀ p, Choice.start p ∈ cs → Start p) {st st' : Store × Option (Prog α)}
    (h : replay F st cs = some st') : ReflTransGen (Step E F Start) st st' := by
  induction cs generalizing st with
  | nil =>
    simp only [replay, Option.some.injEq] at h
    exact h ▸ .refl
  | cons ch cs ih =>
    obtain ⟨st₁, h₁, h⟩ := Option.bind_eq_some.mp h
    exact .head (next_step (fun p hp => hstart p (hp ▸ List.mem_cons_self _ _)) h₁)
      (ih (fun p hp => hstart p (List.mem_cons_of_mem _ hp)) h)

/-! ## Several workers -/

variable (E F) in
/-- Workers over one store, each running its own passes: a move is a step of one worker (an
environment step included), in any order. -/
inductive Interleaved (Start : Nat → Prog α → Prop) :
    Store × List (Option (Prog α)) → Store × List (Option (Prog α)) → Prop
  | move {s s' : Store} {ws : List (Option (Prog α))} {i : Nat} {w w' : Option (Prog α)} :
      ws[i]? = some w → Step E F (Start i) (s, w) (s', w') → Interleaved Start (s, ws) (s', ws.set i w')

/-- The state a schedule of moves, each naming its worker, leads to. -/
def replayAll (F : Call → Prop) [DecidablePred F] :
    Store × List (Option (Prog α)) → List (Nat × Choice α) → Option (Store × List (Option (Prog α)))
  | st, [] => some st
  | (s, ws), (i, ch) :: ms =>
    match ws[i]? with
    | some w => (next F (s, w) ch).bind fun st => replayAll F (st.1, ws.set i st.2) ms
    | none => none

theorem replayAll_reachable [DecidablePred F] {Start : Nat → Prog α → Prop}
    {ms : List (Nat × Choice α)} (hstart : ∀ i p, (i, Choice.start p) ∈ ms → Start i p)
    {st st' : Store × List (Option (Prog α))} (h : replayAll F st ms = some st') :
    ReflTransGen (Interleaved E F Start) st st' := by
  induction ms generalizing st with
  | nil =>
    simp only [replayAll, Option.some.injEq] at h
    exact h ▸ .refl
  | cons m ms ih =>
    obtain ⟨s, ws⟩ := st
    obtain ⟨i, ch⟩ := m
    simp only [replayAll] at h
    split at h
    · rename_i w hw
      obtain ⟨st₁, h₁, h⟩ := Option.bind_eq_some.mp h
      exact .head (.move hw (next_step (fun p hp => hstart i p (hp ▸ List.mem_cons_self _ _)) h₁))
        (ih (fun j p hp => hstart j p (List.mem_cons_of_mem _ hp)) h)
    · cases h

/-! ## Workers that rely on each other's guarantees

Each worker promises a guarantee `G i` about the calls it makes, and relies on the environment
and on the others' guarantees. A pass guarded under that rely makes every call within its own
guarantee, whichever worker moves between its calls, so the guarantees hold of the whole
system. -/

variable (E) in
/-- What worker `i` sees of the others: an environment step, or a call another worker makes from
a store where that worker's guarantee allows it. -/
def Rely (G : Nat → Call → Store → Prop) (i : Nat) (s t : Store) : Prop :=
  E s t ∨ ∃ j c, j ≠ i ∧ G j c s ∧ t = (s.perform c).2

section Workers

variable {G : Nat → Call → Store → Prop} {Start : Nat → Prog α → Prop}

variable (E F G) in
/-- Each running pass of the system is guarded by its worker's guarantee, under its rely. -/
def WorkersGuarded (st : Store × List (Option (Prog α))) : Prop :=
  ∀ ⦃i p⦄, st.2[i]? = some (some p) → Guarded (Rely E G i) F (G i) (fun _ _ => True) p st.1

/-- A step of worker `i`, from a state where its pass is guarded, is seen by every other worker as
a step of its rely, or as no step at all. -/
theorem Step.rely {i j : Nat} (hij : i ≠ j) {s s' : Store} {w w' : Option (Prog α)}
    (h : Step E F (Start i) (s, w) (s', w'))
    (hw : ∀ p, w = some p → Guarded (Rely E G i) F (G i) (fun _ _ => True) p s) :
    ReflTransGen (Rely E G j) s s' := by
  cases h with
  | start _ | fail _ | finish => exact .refl
  | call => exact .single (.inr ⟨i, _, hij, (hw _ rfl s .refl).1, rfl⟩)
  | env he => exact .single (.inl he)

/-- A step of worker `i` keeps its own pass guarded. -/
theorem Step.guarded_self {i : Nat} {s s' : Store} (hstart : ∀ p, Start i p →
      Guarded (Rely E G i) F (G i) (fun _ _ => True) p s)
    {w : Option (Prog α)} {p : Prog α} (h : Step E F (Start i) (s, w) (s', some p))
    (hw : ∀ p, w = some p → Guarded (Rely E G i) F (G i) (fun _ _ => True) p s) :
    Guarded (Rely E G i) F (G i) (fun _ _ => True) p s' := by
  cases h with
  | start hp => exact hstart _ hp
  | call => exact (hw _ rfl s .refl).2.1
  | fail hc => exact (hw _ rfl s .refl).2.2 hc
  | env he => exact (hw _ rfl).env (.single (.inl he))

theorem WorkersGuarded.step {st st' : Store × List (Option (Prog α))} (hstart : ∀ i p, Start i p →
      Guarded (Rely E G i) F (G i) (fun _ _ => True) p st.1)
    (h : Interleaved E F Start st st')
    (hst : WorkersGuarded E F G st) : WorkersGuarded E F G st' := by
  obtain ⟨hw, hstep⟩ := h
  rename_i i w w'
  have hwi : ∀ p, w = some p → Guarded (Rely E G i) F (G i) (fun _ _ => True) p _ :=
    fun p hp => hst (hp ▸ hw)
  intro j p hp
  by_cases hij : i = j
  · subst hij
    rw [List.getElem?_set_self (List.getElem?_eq_some_iff.mp hw).1, Option.some.injEq] at hp
    exact Step.guarded_self (hstart i) (hp ▸ hstep) hwi
  · rw [List.getElem?_set_ne hij] at hp
    exact (hst hp).env (hstep.rely hij hwi)

/-- A store invariant kept by the environment and by every call holds all along an
interleaving. -/
theorem Interleaved.inv {I : Store → Prop} (hE : Stable E I) (hI : ∀ c s, I s → I (s.perform c).2)
    {st st' : Store × List (Option (Prog α))} (h : Interleaved E F Start st st') (hs : I st.1) :
    I st'.1 := by
  obtain ⟨-, hstep⟩ := h
  cases hstep with
  | start _ | fail _ | finish => exact hs
  | call => exact hI _ _ hs
  | env he => exact hE _ _ he hs

/-- Along an interleaving of workers that start idle, from a store where an invariant `I` of the
environment and of every call holds, and whose passes are guarded by their own guarantee under
their rely from every store where `I` holds, `I` holds and every running pass is guarded. -/
theorem Interleaved.reach_guarded {I : Store → Prop} (hE : Stable E I)
    (hI : ∀ c s, I s → I (s.perform c).2)
    (hstart : ∀ i p s, Start i p → I s → Guarded (Rely E G i) F (G i) (fun _ _ => True) p s)
    {s : Store} {ws : List (Option (Prog α))} (hidle : ∀ w ∈ ws, w = none) (hs : I s)
    {st : Store × List (Option (Prog α))} (hreach : ReflTransGen (Interleaved E F Start) (s, ws) st) :
    I st.1 ∧ WorkersGuarded E F G st := by
  induction hreach with
  | refl => exact ⟨hs, fun _ _ h => nomatch hidle _ (List.getElem?_mem h)⟩
  | tail _ h ih =>
    exact ⟨Interleaved.inv hE hI h ih.1, ih.2.step (fun i p hp => hstart i p _ hp ih.1) h⟩

/-- A move from a state whose running passes are guarded keeps every store property that the
environment keeps and that every call some guarantee allows keeps. -/
theorem Interleaved.inv_guarded {K : Store → Prop} (hKE : Stable E K)
    (hK : ∀ i c s, G i c s → K s → K (s.perform c).2) {st st' : Store × List (Option (Prog α))}
    (h : Interleaved E F Start st st') (hst : WorkersGuarded E F G st) (hk : K st.1) : K st'.1 := by
  obtain ⟨hw, hstep⟩ := h
  cases hstep with
  | start _ | fail _ | finish => exact hk
  | call => exact hK _ _ _ (hst hw _ .refl).1 hk
  | env he => exact hKE _ _ he hk

/-- In every interleaving of workers that start idle, from a store where an invariant `I` of the
environment and of every call holds, and whose passes are guarded by their own guarantee under
their rely from every store where `I` holds, every call a worker makes is made from a store where
its guarantee allows it. -/
theorem Interleaved.guarded_of_inv {I : Store → Prop} (hE : Stable E I)
    (hI : ∀ c s, I s → I (s.perform c).2)
    (hstart : ∀ i p s, Start i p → I s → Guarded (Rely E G i) F (G i) (fun _ _ => True) p s)
    {s : Store} {ws : List (Option (Prog α))} (hidle : ∀ w ∈ ws, w = none) (hs : I s)
    {st : Store × List (Option (Prog α))} (hreach : ReflTransGen (Interleaved E F Start) (s, ws) st)
    {i : Nat} {p : Prog α} (hp : st.2[i]? = some (some p)) {c : Call} (hc : nextCall p = some c) :
    G i c st.1 := by
  cases p with
  | pure _ => nomatch hc
  | call c' k =>
    obtain rfl : c' = c := Option.some.inj hc
    exact ((Interleaved.reach_guarded hE hI hstart hidle hs hreach).2 hp st.1 .refl).1

/-- In the same interleavings, a store property that holds at the start, that the environment
keeps, and that every call some guarantee allows keeps, holds all along. -/
theorem Interleaved.inv_of_guarantee {I K : Store → Prop} (hE : Stable E I)
    (hI : ∀ c s, I s → I (s.perform c).2)
    (hstart : ∀ i p s, Start i p → I s → Guarded (Rely E G i) F (G i) (fun _ _ => True) p s)
    {s : Store} {ws : List (Option (Prog α))} (hidle : ∀ w ∈ ws, w = none) (hs : I s)
    (hKE : Stable E K) (hK : ∀ i c s, G i c s → K s → K (s.perform c).2) (hk : K s)
    {st : Store × List (Option (Prog α))} (hreach : ReflTransGen (Interleaved E F Start) (s, ws) st) :
    K st.1 := by
  induction hreach with
  | refl => exact hk
  | tail hr h ih =>
    exact h.inv_guarded hKE hK (Interleaved.reach_guarded hE hI hstart hidle hs hr).2 ih

/-- In every interleaving of workers that start idle and whose passes are guarded by their own
guarantee under their rely, every call a worker makes is made from a store where its guarantee
allows it. -/
theorem Interleaved.guarded (hstart : ∀ i p s, Start i p →
      Guarded (Rely E G i) F (G i) (fun _ _ => True) p s)
    {s : Store} {ws : List (Option (Prog α))} (hidle : ∀ w ∈ ws, w = none)
    {st : Store × List (Option (Prog α))} (hreach : ReflTransGen (Interleaved E F Start) (s, ws) st)
    {i : Nat} {p : Prog α} (hp : st.2[i]? = some (some p)) {c : Call} (hc : nextCall p = some c) :
    G i c st.1 :=
  Interleaved.guarded_of_inv (show Stable E fun _ => True from fun _ _ _ _ => trivial)
    (fun _ _ _ => trivial) (fun i p s hp _ => hstart i p s hp) hidle trivial hreach hp hc

end Workers

end Prog

end Minerx
