import StormStorage.Await.Task

/-!
# What holds whenever a program is cut off

A program that is cut off leaves the state of some step of its run. `Visits`
says which states those are, and `Upholds I Q` that each of them satisfies `I`
and the outcome `Q`.

* `Upholds.bind`, `Upholds.attempt`, `Upholds.forEach` follow the program;
* `Upholds.visits`: wherever it is cut off, `I` holds;
* `Ends.visits`: the state that it ends in is one of them.
-/

namespace Await.Task

variable {ι σ ε α β : Type} {I : σ → Prop} {s s' : σ}

/-- Run alone from one state, the task comes to the other. -/
inductive Visits : Task ι σ ε α → σ → σ → Prop
  | here (t : Task ι σ ε α) (s : σ) : Visits t s s
  | step {r : σ → Bool} {u : ι → σ → σ} {n : ι → σ → Task ι σ ε α} {s s' : σ} (i : ι) :
      r s = true → Visits (n i s) (u i s) s' → Visits (step r u n) s s'

theorem Ends.visits {t : Task ι σ ε α} {x : Except ε α} (h : Ends t s x s') : Visits t s s' := by
  induction h with
  | ret a s => exact .here _ s
  | fail e s => exact .here _ s
  | step i hr _ ih => exact .step i hr ih

/-- Every step leads to a state with `I`, and the outcome satisfies `Q`. -/
def Upholds (I : σ → Prop) (Q : Except ε α → σ → Prop) : Task ι σ ε α → σ → Prop
  | ret a, s => Q (.ok a) s
  | fail e, s => Q (.error e) s
  | step r u n, s => r s = true → ∀ i, I (u i s) ∧ (n i s).Upholds I Q (u i s)

/-- What holds when a task answers, and when it fails. -/
def Outcome (Q : α → σ → Prop) (E : σ → Prop) : Except ε α → σ → Prop
  | .ok a, s => Q a s
  | .error _, s => E s

theorem Upholds.visits {Q : Except ε α → σ → Prop} {t : Task ι σ ε α} (h : t.Upholds I Q s) (hs : I s)
    (hv : Visits t s s') : I s' := by
  induction hv with
  | here t s => exact hs
  | step i hr _ ih => exact ih (h hr i).2 (h hr i).1

theorem Upholds.bind {Q : Except ε α → σ → Prop} {R : Except ε β → σ → Prop} {t : Task ι σ ε α}
    {f : α → Task ι σ ε β} (h : t.Upholds I Q s) (hf : ∀ a s, Q (.ok a) s → (f a).Upholds I R s)
    (he : ∀ e s, Q (.error e) s → R (.error e) s) : (t.bind f).Upholds I R s := by
  induction t generalizing s with
  | ret a => exact hf a s h
  | fail e => exact he e s h
  | step r u n ih => exact fun hr i => ⟨(h hr i).1, ih i s (h hr i).2⟩

theorem Upholds.attempt {Q : Except ε α → σ → Prop} {R : Except ε (Except ε α) → σ → Prop} {t : Task ι σ ε α}
    (h : t.Upholds I Q s) (hQ : ∀ x s, Q x s → R (.ok x) s) : t.attempt.Upholds I R s := by
  induction t generalizing s with
  | ret a => exact hQ _ _ h
  | fail e => exact hQ _ _ h
  | step r u n ih => exact fun hr i => ⟨(h hr i).1, ih i s (h hr i).2⟩

/-- A phase whose failure is caught, and what follows it. -/
theorem Upholds.attempt_bind {Q : Except ε α → σ → Prop} {R : Except ε β → σ → Prop} {t : Task ι σ ε α}
    {f : Except ε α → Task ι σ ε β} (h : t.Upholds I Q s) (hf : ∀ x s, Q x s → (f x).Upholds I R s) :
    (t.attempt.bind f).Upholds I R s :=
  (h.attempt (R := fun x s => match x with
      | .ok x => Q x s
      | .error _ => False) fun _ _ h => h).bind hf fun _ _ h => h.elim

theorem upholds_atomic {Q : Except ε α → σ → Prop} {f : ι → σ → α × σ}
    (h : ∀ i, I (f i s).2 ∧ Q (.ok (f i s).1) (f i s).2) : (atomic f : Task ι σ ε α).Upholds I Q s :=
  fun _ i => h i

theorem upholds_ofExcept {Q : Except ε α → σ → Prop} {x : Except ε α} (h : Q x s) :
    (ofExcept x : Task ι σ ε α).Upholds I Q s := by
  cases x <;> exact h

/-- A loop whose rounds give back what they start from. -/
theorem Upholds.forEach {P : σ → Prop} {xs : List β} {f : β → Task ι σ ε Unit}
    (hf : ∀ x ∈ xs, ∀ s, P s → (f x).Upholds I (fun _ s => P s) s) (hs : P s) :
    (Task.forEach xs f).Upholds I (fun _ s => P s) s := by
  induction xs generalizing s with
  | nil => exact hs
  | cons x xs ih =>
    exact (hf x (List.mem_cons_self ..) s hs).bind
      (fun _ s hs => ih (fun y hy => hf y (List.mem_cons_of_mem _ hy)) hs) fun _ _ h => h

end Await.Task
