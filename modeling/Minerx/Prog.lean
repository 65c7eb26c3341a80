import Minerx.Store

/-!
# Programs of store calls

A reconcile pass is a tree of store calls: `call c k` makes the call `c` and goes on with `k` on
the reply. One program can then be run against the store alone, or interleaved with other
passes (`Interleaving`). `exec` is the run in which the store answers every call, `execLog` the
same run with each call's reply, and `OkTrace` the calls of a run in which every call succeeds,
whatever the replies carry. `AllCalls` says that every call a program can make, whatever the
replies, has a property: a fact about single calls then holds of every run and of every
interleaving.

`pollUntilContextTimeout` is `wait.PollUntilContextTimeout` with `immediate` set. The condition
runs at once and then once every `interval` while the deadline lies ahead. Time is not modelled
beyond this count of attempts: the conditions themselves take no time. With a zero timeout the
poll's context is done before the first attempt, and the client fails every call made with it
before the call reaches the store (`expire`).
-/

namespace Minerx

/-- A program making store calls and returning an `α`. -/
inductive Prog (α : Type) where
  | pure (a : α)
  | call (c : Call) (k : c.Reply → Prog α)

namespace Prog

variable {α β : Type}

def bind : Prog α → (α → Prog β) → Prog β
  | .pure a, f => f a
  | .call c k, f => .call c fun r => (k r).bind f

instance : Monad Prog where
  pure := .pure
  bind := bind

/-- Make one call and return its reply. -/
def perform (c : Call) : Prog c.Reply := .call c .pure

@[simp] theorem pure_eq (a : α) : Prog.pure a = Pure.pure a := rfl

@[simp] theorem bind_pure_left (a : α) (f : α → Prog β) : (Prog.pure a).bind f = f a := rfl

@[simp] theorem call_bind (c : Call) (k : c.Reply → Prog α) (f : α → Prog β) :
    (Prog.call c k >>= f) = .call c fun r => k r >>= f := rfl

@[simp] theorem perform_bind (c : Call) (f : c.Reply → Prog β) : (perform c >>= f) = .call c f :=
  rfl

theorem bind_pure (p : Prog α) : p >>= Pure.pure = p := by
  induction p with
  | pure a => rfl
  | call c k ih => exact congrArg (Prog.call c) (funext ih)

instance : LawfulMonad Prog := LawfulMonad.mk' Prog bind_pure (fun _ _ => rfl)
  fun p f g => by
    induction p with
    | pure a => rfl
    | call c k ih => exact congrArg (Prog.call c) (funext ih)

/-- The result of a program that has made all its calls. -/
def result? : Prog α → Option α
  | .pure a => some a
  | .call _ _ => none

/-! ## Runs -/

/-- The run in which the store answers every call: the result and the final store. -/
def exec : Prog α → Store → α × Store
  | .pure a, s => (a, s)
  | .call c k, s => exec (k (s.perform c).1) (s.perform c).2

@[simp] theorem exec_pure (a : α) (s : Store) : (Pure.pure a : Prog α).exec s = (a, s) := rfl

@[simp] theorem exec_call (c : Call) (k : c.Reply → Prog α) (s : Store) :
    (Prog.call c k).exec s = (k (s.perform c).1).exec (s.perform c).2 := rfl

/-- The run of `p >>= f` is the run of `p`, then the run of `f` on its result. -/
theorem exec_bind (p : Prog α) (f : α → Prog β) (s : Store) :
    (p >>= f).exec s = (f (p.exec s).1).exec (p.exec s).2 := by
  induction p generalizing s with
  | pure a => rfl
  | call c k ih => exact ih _ _

theorem exec_map (f : α → β) (p : Prog α) (s : Store) :
    (f <$> p).exec s = (f (p.exec s).1, (p.exec s).2) := by
  rw [← bind_pure_comp, exec_bind]
  rfl

/-- The same run as a log: each call with the store's reply, in order. -/
def execLog : Prog α → Store → List ((c : Call) × c.Reply)
  | .pure _, _ => []
  | .call c k, s => ⟨c, (s.perform c).1⟩ :: execLog (k (s.perform c).1) (s.perform c).2

/-- The calls a program makes, and what it returns, when every call succeeds, whatever the
successful replies carry. -/
inductive OkTrace : Prog α → List Call → α → Prop
  | pure (a : α) : OkTrace (.pure a) [] a
  | call {c : Call} {k : c.Reply → Prog α} {calls : List Call} {a : α} (v : c.Payload) :
      OkTrace (k (.ok v)) calls a → OkTrace (.call c k) (c :: calls) a

@[simp] theorem okTrace_pure_iff {a b : α} {calls : List Call} :
    OkTrace (Pure.pure a) calls b ↔ calls = [] ∧ b = a := by
  constructor
  · intro h
    cases h
    exact ⟨rfl, rfl⟩
  · rintro ⟨rfl, rfl⟩
    exact .pure _

theorem okTrace_call_iff {c : Call} {k : c.Reply → Prog α} {calls : List Call} {a : α} :
    OkTrace (.call c k) calls a ↔ ∃ v rest, calls = c :: rest ∧ OkTrace (k (.ok v)) rest a := by
  constructor
  · rintro ⟨⟩
    exact ⟨_, _, rfl, ‹_›⟩
  · rintro ⟨v, rest, rfl, h⟩
    exact .call v h

theorem okTrace_bind {p : Prog α} {f : α → Prog β} {calls : List Call} {b : β} :
    OkTrace (p >>= f) calls b ↔
      ∃ calls₁ a calls₂, calls = calls₁ ++ calls₂ ∧ OkTrace p calls₁ a ∧ OkTrace (f a) calls₂ b := by
  induction p generalizing calls with
  | pure a =>
    simp only [pure_eq, pure_bind, okTrace_pure_iff]
    exact ⟨fun h => ⟨[], a, calls, rfl, ⟨rfl, rfl⟩, h⟩,
      fun ⟨_, _, _, he, ⟨h₁, h₂⟩, h⟩ => by subst h₁ h₂; simpa [he] using h⟩
  | call c k ih =>
    simp only [call_bind, okTrace_call_iff, ih]
    constructor
    · rintro ⟨v, rest, rfl, calls₁, a, calls₂, rfl, h₁, h₂⟩
      exact ⟨c :: calls₁, a, calls₂, rfl, ⟨v, calls₁, rfl, h₁⟩, h₂⟩
    · rintro ⟨_, a, calls₂, rfl, ⟨v, calls₁, rfl, h₁⟩, h₂⟩
      exact ⟨v, calls₁ ++ calls₂, rfl, calls₁, a, calls₂, rfl, h₁, h₂⟩

/-- The run against the store, kept when every call succeeds. -/
def okExec : Prog α → Store → Option (List Call × α)
  | .pure a, _ => some ([], a)
  | .call c k, s =>
    match (s.perform c).1 with
    | .ok v => (okExec (k (.ok v)) (s.perform c).2).map fun r => (c :: r.1, r.2)
    | .error _ => none

theorem okTrace_of_okExec (s : Store) {p : Prog α} {calls : List Call} {a : α}
    (h : okExec p s = some (calls, a)) : OkTrace p calls a := by
  induction p generalizing s calls with
  | pure b =>
    simp only [okExec, Option.some.injEq, Prod.mk.injEq] at h
    obtain ⟨rfl, rfl⟩ := h
    exact .pure b
  | call c k ih =>
    simp only [okExec] at h
    split at h
    · obtain ⟨⟨rest, b⟩, hr, he⟩ := Option.map_eq_some'.mp h
      simp only [Prod.mk.injEq] at he
      obtain ⟨rfl, rfl⟩ := he
      exact .call _ (ih _ _ hr)
    · cases h

/-- Every call the program can make, whatever the replies, satisfies `P`. -/
inductive AllCalls (P : Call → Prop) : Prog α → Prop
  | pure (a : α) : AllCalls P (.pure a)
  | call {c : Call} {k : c.Reply → Prog α} : P c → (∀ r, AllCalls P (k r)) → AllCalls P (.call c k)

variable {P : Call → Prop}

theorem AllCalls.bind {p : Prog α} {f : α → Prog β} (hp : AllCalls P p)
    (hf : ∀ a, AllCalls P (f a)) : AllCalls P (p >>= f) := by
  induction hp with
  | pure a => exact hf a
  | call hc _ ih => exact .call hc ih

theorem AllCalls.imp {P' : Call → Prop} (h : ∀ c, P c → P' c) {p : Prog α} (hp : AllCalls P p) :
    AllCalls P' p := by
  induction hp with
  | pure a => exact .pure a
  | call hc _ ih => exact .call (h _ hc) ih

theorem AllCalls.perform {c : Call} (hc : P c) : AllCalls P (perform c) :=
  .call hc fun r => .pure r

/-- What no call of a program changes, its run leaves as it was. -/
theorem AllCalls.exec_frame {X : Type} (f : Store → X) {p : Prog α}
    (hp : AllCalls (fun c => ∀ s, f (s.perform c).2 = f s) p) (s : Store) : f (p.exec s).2 = f s := by
  induction hp generalizing s with
  | pure a => rfl
  | call hc _ ih => exact (ih _ _).trans (hc s)

/-! ## Bounded polling -/

/-- The program run with a context that is already done: every call fails with the context's
error before it reaches the store. -/
def expire : Prog α → Prog α
  | .pure a => .pure a
  | .call _ k => expire (k (.error .deadlineExceeded))

theorem AllCalls.expire (p : Prog α) : AllCalls P p.expire := by
  induction p with
  | pure a => exact .pure a
  | call c k ih => exact ih _

/-- A program run with a done context leaves the store as it is. -/
theorem exec_expire (p : Prog α) (s : Store) : (p.expire.exec s).2 = s :=
  AllCalls.exec_frame id (AllCalls.expire p) s

/-- How many times `wait.PollUntilContextTimeout` with `immediate` runs its condition: once at
once, then at every multiple of `interval` before the deadline `timeout`. -/
def pollAttempts (interval timeout : Nat) : Nat := 1 + (timeout - 1) / interval

/-- The poll loop with `attempts` runs of the condition left: it stops at the first `true` or
error, and after the last run the deadline has passed. -/
def poll (condition : Prog (Except Error Bool)) : Nat → Prog (Except Error Unit)
  | 0 => Pure.pure (.error .deadlineExceeded)
  | n + 1 => condition >>= fun
    | .error e => Pure.pure (.error e)
    | .ok true => Pure.pure (.ok ())
    | .ok false => poll condition n

/-- `wait.PollUntilContextTimeout(ctx, interval, timeout, true, condition)`: the condition gets
the poll's context, which a zero timeout has already ended. -/
def pollUntilContextTimeout (interval timeout : Nat) (condition : Prog (Except Error Bool)) :
    Prog (Except Error Unit) :=
  poll (if timeout = 0 then condition.expire else condition) (pollAttempts interval timeout)

theorem pollAttempts_pos (interval timeout : Nat) : 0 < pollAttempts interval timeout :=
  Nat.lt_of_lt_of_le Nat.one_pos (Nat.le_add_right _ _)

/-- A zero timeout leaves the immediate run of the condition and nothing else. -/
@[simp] theorem pollAttempts_zero (interval : Nat) : pollAttempts interval 0 = 1 := by
  simp [pollAttempts]

/-- With a zero timeout the condition runs once with the done context, and `false` is the
deadline error. -/
theorem pollUntilContextTimeout_zero (interval : Nat) (condition : Prog (Except Error Bool)) :
    pollUntilContextTimeout interval 0 condition = condition.expire >>= fun
      | .error e => Pure.pure (.error e)
      | .ok true => Pure.pure (.ok ())
      | .ok false => Pure.pure (.error .deadlineExceeded) := by
  simp only [pollUntilContextTimeout, pollAttempts_zero, poll, if_true]

/-- With a timeout, every attempt runs the condition on a live context. -/
theorem pollUntilContextTimeout_pos (interval : Nat) {timeout : Nat} (h : 0 < timeout)
    (condition : Prog (Except Error Bool)) :
    pollUntilContextTimeout interval timeout condition =
      poll condition (pollAttempts interval timeout) := by
  rw [pollUntilContextTimeout, if_neg (Nat.pos_iff_ne_zero.mp h)]

theorem AllCalls.poll {condition : Prog (Except Error Bool)} (hc : AllCalls P condition)
    (n : Nat) : AllCalls P (Prog.poll condition n) := by
  induction n with
  | zero => exact .pure _
  | succ n ih =>
    refine hc.bind fun r => ?_
    rcases r with e | (_ | _)
    · exact .pure _
    · exact ih
    · exact .pure _

theorem AllCalls.pollUntilContextTimeout {condition : Prog (Except Error Bool)}
    (hc : AllCalls P condition) (interval timeout : Nat) :
    AllCalls P (Prog.pollUntilContextTimeout interval timeout condition) :=
  AllCalls.poll (by split; exacts [AllCalls.expire _, hc]) _

end Prog

end Minerx
