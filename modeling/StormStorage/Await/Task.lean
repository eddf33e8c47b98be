import Mathlib.Logic.Relation
import Mathlib.Data.List.Basic

/-!
# Asynchronous programs

A `Task` is a program cut at its await points. A step reads and changes the
shared state at once; between two steps any other task may run. What the
program learns from outside (the answer of a call, the time) is the step's
choice, a value of `ι` that the environment picks. A task ends with a value
or fails with an error, and a failure skips the rest of its `bind`.

* `Task.bind`, `Task.attempt`, `Task.forEach`: sequencing, catching a
  failure, and a loop over a list;
* `Task.Ends`: a run alone, from one state to an outcome in another;
  `ends_bind`, `ends_attempt` and `ends_await` follow the program;
* `Task.Only`: every step of a task is related by `C` to the state before it;
  the phases of a program that leave the shared state alone are
  `Only (fun s s' => s' = s)`.
-/

namespace Await

/-- A program that answers `α`, fails with `ε`, and runs on a shared state
`σ` with choices in `ι`. A step waits until `ready`, then changes the state by
`upd` and goes on as `next`, both of the state before the step. -/
inductive Task (ι σ ε α : Type) where
  | ret (a : α)
  | fail (e : ε)
  | step (ready : σ → Bool) (upd : ι → σ → σ) (next : ι → σ → Task ι σ ε α)

namespace Task

variable {ι σ ε α β γ : Type}

def bind : Task ι σ ε α → (α → Task ι σ ε β) → Task ι σ ε β
  | ret a, f => f a
  | fail e, _ => fail e
  | step r u n, f => step r u fun i s => (n i s).bind f

instance : Monad (Task ι σ ε) where
  pure := ret
  bind := bind

/-- The task's outcome as a value: a failure is caught. -/
def attempt : Task ι σ ε α → Task ι σ ε (Except ε α)
  | ret a => ret (.ok a)
  | fail e => ret (.error e)
  | step r u n => step r u fun i s => (n i s).attempt

def ofExcept : Except ε α → Task ι σ ε α
  | .ok a => ret a
  | .error e => fail e

/-- One step: `f` gives the answer and the new state. -/
def atomic (f : ι → σ → α × σ) : Task ι σ ε α :=
  step (fun _ => true) (fun i s => (f i s).2) fun i s => ret (f i s).1

/-- One step that waits until `ready`. -/
def await (ready : σ → Bool) (f : ι → σ → α × σ) : Task ι σ ε α :=
  step ready (fun i s => (f i s).2) fun i s => ret (f i s).1

/-- Read the shared state. -/
def get (f : σ → α) : Task ι σ ε α := atomic fun _ s => (f s, s)

/-- Change the shared state. -/
def modify (f : σ → σ) : Task ι σ ε Unit := atomic fun _ s => ((), f s)

/-- What the environment answers; the shared state is left alone. -/
def ask (f : ι → α) : Task ι σ ε α := atomic fun i s => (f i, s)

/-- Run `f` for each element in order. -/
def forEach : List α → (α → Task ι σ ε Unit) → Task ι σ ε Unit
  | [], _ => ret ()
  | x :: xs, f => (f x).bind fun _ => forEach xs f

@[simp] theorem pure_eq (a : α) : (pure a : Task ι σ ε α) = ret a := rfl

@[simp] theorem bind_eq (t : Task ι σ ε α) (f : α → Task ι σ ε β) : t >>= f = t.bind f := rfl

@[simp] theorem ret_bind (a : α) (f : α → Task ι σ ε β) : (ret a : Task ι σ ε α).bind f = f a := rfl

@[simp] theorem fail_bind (e : ε) (f : α → Task ι σ ε β) : (fail e : Task ι σ ε α).bind f = fail e := rfl

/-- Nothing is left to do. -/
def Ended : Task ι σ ε α → Prop
  | ret _ => True
  | fail _ => True
  | step _ _ _ => False

instance (t : Task ι σ ε α) : Decidable t.Ended :=
  match t with
  | ret _ => isTrue trivial
  | fail _ => isTrue trivial
  | step _ _ _ => isFalse id

theorem step_bind (r : σ → Bool) (u : ι → σ → σ) (n : ι → σ → Task ι σ ε α)
    (f : α → Task ι σ ε β) : (step r u n).bind f = step r u fun i s => (n i s).bind f := rfl

/-! ## A task run alone -/

/-- Run with no other task between its steps, the task ends with outcome `x`
in state `s'`. -/
inductive Ends : Task ι σ ε α → σ → Except ε α → σ → Prop
  | ret (a : α) (s : σ) : Ends (ret a) s (.ok a) s
  | fail (e : ε) (s : σ) : Ends (fail e) s (.error e) s
  | step {r : σ → Bool} {u : ι → σ → σ} {n : ι → σ → Task ι σ ε α} {s s' : σ} {x : Except ε α} (i : ι) :
      r s = true → Ends (n i s) (u i s) x s' → Ends (step r u n) s x s'

variable {s s' : σ}

theorem ends_ret {a : α} {x : Except ε α} :
    Ends (ret a : Task ι σ ε α) s x s' ↔ x = .ok a ∧ s' = s := by
  refine ⟨fun h => ?_, ?_⟩
  · cases h
    exact ⟨rfl, rfl⟩
  · rintro ⟨rfl, rfl⟩
    exact .ret a _

theorem ends_fail {e : ε} {x : Except ε α} :
    Ends (fail e : Task ι σ ε α) s x s' ↔ x = .error e ∧ s' = s := by
  refine ⟨fun h => ?_, ?_⟩
  · cases h
    exact ⟨rfl, rfl⟩
  · rintro ⟨rfl, rfl⟩
    exact .fail e _

theorem ends_step {r : σ → Bool} {u : ι → σ → σ} {n : ι → σ → Task ι σ ε α} {x : Except ε α} :
    Ends (step r u n) s x s' ↔ r s = true ∧ ∃ i, Ends (n i s) (u i s) x s' := by
  refine ⟨fun h => ?_, fun ⟨hr, i, h⟩ => .step i hr h⟩
  cases h with
  | step i hr h => exact ⟨hr, i, h⟩

theorem ends_await {r : σ → Bool} {f : ι → σ → α × σ} {x : Except ε α} :
    Ends (await r f : Task ι σ ε α) s x s' ↔ r s = true ∧ ∃ i, x = .ok (f i s).1 ∧ s' = (f i s).2 := by
  simp only [await, ends_step, ends_ret]

/-- A sequence ends where its second part does, or fails with its first. -/
theorem ends_bind {t : Task ι σ ε α} {f : α → Task ι σ ε β} {x : Except ε β} :
    Ends (t.bind f) s x s' ↔
      (∃ a s₁, Ends t s (.ok a) s₁ ∧ Ends (f a) s₁ x s') ∨ ∃ e, Ends t s (.error e) s' ∧ x = .error e := by
  induction t generalizing s with
  | ret a => simp [ends_ret]
  | fail e =>
    simp only [fail_bind, ends_fail, reduceCtorEq, false_and, exists_false, Except.error.injEq, false_or]
    exact ⟨fun ⟨hx, hs⟩ => ⟨e, ⟨rfl, hs⟩, hx⟩, fun ⟨_, ⟨he, hs⟩, hx⟩ => ⟨he ▸ hx, hs⟩⟩
  | step r u n ih =>
    simp only [step_bind, ends_step, ih]
    constructor
    · rintro ⟨hr, i, ⟨a, s₁, h, h'⟩ | ⟨e, h, hx⟩⟩
      · exact .inl ⟨a, s₁, ⟨hr, i, h⟩, h'⟩
      · exact .inr ⟨e, ⟨hr, i, h⟩, hx⟩
    · rintro (⟨a, s₁, ⟨hr, i, h⟩, h'⟩ | ⟨e, ⟨hr, i, h⟩, hx⟩)
      · exact ⟨hr, i, .inl ⟨a, s₁, h, h'⟩⟩
      · exact ⟨hr, i, .inr ⟨e, h, hx⟩⟩

theorem ends_attempt {t : Task ι σ ε α} {x : Except ε (Except ε α)} :
    Ends t.attempt s x s' ↔ ∃ y, x = .ok y ∧ Ends t s y s' := by
  induction t generalizing s with
  | ret a => simp [attempt, ends_ret, and_comm]
  | fail e => simp [attempt, ends_ret, ends_fail, and_comm]
  | step r u n ih =>
    simp only [attempt, ends_step, ih]
    constructor
    · rintro ⟨hr, i, y, hx, h⟩
      exact ⟨y, hx, hr, i, h⟩
    · rintro ⟨y, hx, hr, i, h⟩
      exact ⟨hr, i, y, hx, h⟩

/-- The run with the choices given, if it ends with them. -/
def run : Task ι σ ε α → List ι → σ → Option (Except ε α × σ)
  | ret a, [], s => some (.ok a, s)
  | fail e, [], s => some (.error e, s)
  | step r u n, i :: is, s => if r s then (n i s).run is (u i s) else none
  | _, _, _ => none

theorem ends_of_run {t : Task ι σ ε α} {is : List ι} {x : Except ε α} (h : t.run is s = some (x, s')) :
    Ends t s x s' := by
  induction t generalizing is s with
  | ret a =>
    cases is with
    | nil =>
      obtain ⟨rfl, rfl⟩ : Except.ok a = x ∧ s = s' := by simpa [run] using h
      exact .ret a s
    | cons i is => cases h
  | fail e =>
    cases is with
    | nil =>
      obtain ⟨rfl, rfl⟩ : Except.error e = x ∧ s = s' := by simpa [run] using h
      exact .fail e s
    | cons i is => cases h
  | step r u n ih =>
    cases is with
    | nil => cases h
    | cons i is =>
      rw [run] at h
      split at h
      · exact .step i ‹_› (ih i s h)
      · cases h

/-- The state such a run ends in. -/
def finalState (t : Task ι σ ε α) (is : List ι) (s : σ) : σ := ((t.run is s).map Prod.snd).getD s

theorem ends_finalState {t : Task ι σ ε α} {is : List ι} {x : Except ε α}
    (h : (t.run is s).map Prod.fst = some x) : Ends t s x (t.finalState is s) := by
  obtain ⟨⟨_, s'⟩, hr, rfl⟩ := Option.map_eq_some_iff.mp h
  rw [finalState, hr]
  exact ends_of_run hr

/-! ## Tasks whose steps are all of one kind -/

/-- Every step of the task takes a state to one that `C` relates it to. -/
def Only (C : σ → σ → Prop) : Task ι σ ε α → Prop
  | ret _ => True
  | fail _ => True
  | step _ u n => ∀ i s, C s (u i s) ∧ (n i s).Only C

/-- The task leaves the shared state alone: it only asks. -/
abbrev Quiet (t : Task ι σ ε α) : Prop := t.Only fun s s' => s' = s

variable {C D : σ → σ → Prop}

@[simp] theorem only_ret (a : α) : (ret a : Task ι σ ε α).Only C := trivial

@[simp] theorem only_fail (e : ε) : (fail e : Task ι σ ε α).Only C := trivial

theorem Only.mono (h : ∀ s s', C s s' → D s s') {t : Task ι σ ε α} (ht : t.Only C) : t.Only D := by
  induction t with
  | ret a => trivial
  | fail e => trivial
  | step r u n ih => exact fun i s => ⟨h _ _ (ht i s).1, ih i s (ht i s).2⟩

theorem Only.and {t : Task ι σ ε α} (ht : t.Only C) (ht' : t.Only D) : t.Only fun s s' => C s s' ∧ D s s' := by
  induction t with
  | ret a => trivial
  | fail e => trivial
  | step r u n ih => exact fun i s => ⟨⟨(ht i s).1, (ht' i s).1⟩, ih i s (ht i s).2 (ht' i s).2⟩

theorem Only.bind {t : Task ι σ ε α} {f : α → Task ι σ ε β} (ht : t.Only C)
    (hf : ∀ a, (f a).Only C) : (t.bind f).Only C := by
  induction t with
  | ret a => exact hf a
  | fail e => trivial
  | step r u n ih => exact fun i s => ⟨(ht i s).1, ih i s (ht i s).2⟩

theorem Only.attempt {t : Task ι σ ε α} (ht : t.Only C) : t.attempt.Only C := by
  induction t with
  | ret a => trivial
  | fail e => trivial
  | step r u n ih => exact fun i s => ⟨(ht i s).1, ih i s (ht i s).2⟩

theorem only_ofExcept (x : Except ε α) : (ofExcept x : Task ι σ ε α).Only C := by
  cases x <;> trivial

theorem only_atomic {f : ι → σ → α × σ} (h : ∀ i s, C s (f i s).2) :
    (atomic f : Task ι σ ε α).Only C :=
  fun i s => ⟨h i s, trivial⟩

theorem quiet_get (f : σ → α) : (get f : Task ι σ ε α).Quiet := only_atomic fun _ _ => rfl

theorem only_forEach {f : α → Task ι σ ε Unit} (hf : ∀ a, (f a).Only C) (xs : List α) :
    (forEach xs f).Only C := by
  induction xs with
  | nil => trivial
  | cons x xs ih => exact (hf x).bind fun _ => ih

/-! ## Tasks that do not fail -/

/-- The task ends with a value, whatever happens. -/
def Total : Task ι σ ε α → Prop
  | ret _ => True
  | fail _ => False
  | step _ _ n => ∀ i s, (n i s).Total

@[simp] theorem total_ret (a : α) : (ret a : Task ι σ ε α).Total := trivial

theorem total_attempt (t : Task ι σ ε α) : t.attempt.Total := by
  induction t with
  | ret a => trivial
  | fail e => trivial
  | step r u n ih => exact fun i s => ih i s

theorem Total.bind {t : Task ι σ ε α} {f : α → Task ι σ ε β} (ht : t.Total) (hf : ∀ a, (f a).Total) :
    (t.bind f).Total := by
  induction t with
  | ret a => exact hf a
  | fail e => exact ht.elim
  | step r u n ih => exact fun i s => ih i s (ht i s)

theorem total_atomic (f : ι → σ → α × σ) : (atomic f : Task ι σ ε α).Total := fun _ _ => trivial

end Task

end Await
