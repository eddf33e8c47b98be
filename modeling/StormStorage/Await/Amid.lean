import StormStorage.Await.Task

/-!
# A task amid what happens meanwhile

`Task.amid` runs one task to its end on a schedule: what happens before each of
its steps, and what the step is answered. `amid_bind` splits the schedule of a
sequence, and `amid_step` reads off its first entry.
-/

namespace Await

variable {ι σ ε α β E : Type}

/-- The events one after another. -/
def after (env : E → σ → σ) (es : List E) (s : σ) : σ := es.foldl (fun s e => env e s) s

@[simp] theorem after_nil {env : E → σ → σ} (s : σ) : after env [] s = s := rfl

theorem after_append {env : E → σ → σ} (es es' : List E) (s : σ) :
    after env (es ++ es') s = after env es' (after env es s) := List.foldl_append

theorem after_keeps {env : E → σ → σ} {P : σ → Prop} (h : ∀ e s, P s → P (env e s)) (es : List E) {s : σ} (hs : P s) :
    P (after env es s) := by
  induction es generalizing s with
  | nil => exact hs
  | cons e es ih => exact ih (h e s hs)

namespace Task

/-- What the task comes to, and the state then; none when the schedule has a
step too few or too many, or one that is not ready. -/
def amid (env : E → σ → σ) : Task ι σ ε α → List (List E × ι) → σ → Option (Except ε α × σ)
  | ret a, [], s => some (.ok a, s)
  | fail e, [], s => some (.error e, s)
  | step r u n, (es, i) :: rest, s =>
    if r (after env es s) then (n i (after env es s)).amid env rest (u i (after env es s)) else none
  | _, _, _ => none

variable {env : E → σ → σ} {sched : List (List E × ι)} {s s' : σ}

theorem amid_ret {a : α} {x : Except ε α × σ} (h : (ret a : Task ι σ ε α).amid env sched s = some x) :
    sched = [] ∧ x = (.ok a, s) := by
  cases sched with
  | nil => exact ⟨rfl, (Option.some.inj h).symm⟩
  | cons y ys => cases h

theorem amid_fail {e : ε} {x : Except ε α × σ} (h : (fail e : Task ι σ ε α).amid env sched s = some x) :
    sched = [] ∧ x = (.error e, s) := by
  cases sched with
  | nil => exact ⟨rfl, (Option.some.inj h).symm⟩
  | cons y ys => cases h

theorem amid_step {r : σ → Bool} {u : ι → σ → σ} {n : ι → σ → Task ι σ ε α} {x : Except ε α × σ}
    (h : (step r u n).amid env sched s = some x) : ∃ es i rest, sched = (es, i) :: rest ∧ r (after env es s) = true ∧
      (n i (after env es s)).amid env rest (u i (after env es s)) = some x := by
  cases sched with
  | nil => cases h
  | cons y ys =>
    obtain ⟨es, i⟩ := y
    unfold amid at h
    split at h
    · rename_i hr
      exact ⟨es, i, ys, rfl, hr, h⟩
    · cases h

/-- One step that answers. -/
theorem amid_atomic {f : ι → σ → α × σ} {x : Except ε α × σ} (h : (atomic f : Task ι σ ε α).amid env sched s = some x) :
    ∃ es i, sched = [(es, i)] ∧ x = (.ok (f i (after env es s)).1, (f i (after env es s)).2) := by
  obtain ⟨es, i, rest, rfl, -, h⟩ := amid_step h
  obtain ⟨rfl, rfl⟩ := amid_ret h
  exact ⟨es, i, rfl, rfl⟩

theorem amid_get {f : σ → α} {x : Except ε α × σ} (h : (get f : Task ι σ ε α).amid env sched s = some x) :
    ∃ es i, sched = [(es, i)] ∧ x = (.ok (f (after env es s)), after env es s) := amid_atomic h

/-- A sequence that comes to its end has come through its first part. -/
theorem amid_bind {t : Task ι σ ε α} {f : α → Task ι σ ε β} {b : β}
    (h : (t.bind f).amid env sched s = some (.ok b, s')) : ∃ sched₁ sched₂ a s₁, sched = sched₁ ++ sched₂ ∧
      t.amid env sched₁ s = some (.ok a, s₁) ∧ (f a).amid env sched₂ s₁ = some (.ok b, s') := by
  induction t generalizing sched s with
  | ret a => exact ⟨[], sched, a, s, rfl, rfl, h⟩
  | fail e =>
    obtain ⟨-, h⟩ := amid_fail h
    cases h
  | step r u n ih =>
    obtain ⟨es, i, rest, rfl, hr, h⟩ := amid_step h
    obtain ⟨sched₁, sched₂, a, s₁, rfl, h₁, h₂⟩ := ih _ _ h
    exact ⟨(es, i) :: sched₁, sched₂, a, s₁, rfl, by rw [amid, if_pos hr, h₁], h₂⟩

theorem amid_ofExcept {y : Except ε α} {a : α} (h : (ofExcept y : Task ι σ ε α).amid env sched s = some (.ok a, s')) :
    sched = [] ∧ y = .ok a ∧ s' = s := by
  cases y with
  | ok b =>
    obtain ⟨rfl, h⟩ := amid_ret h
    cases h
    exact ⟨rfl, rfl, rfl⟩
  | error e =>
    obtain ⟨-, h⟩ := amid_fail h
    cases h

/-- A task whose failure is caught comes to what it came to. -/
theorem amid_attempt {t : Task ι σ ε α} {x : Except ε (Except ε α) × σ} (h : t.attempt.amid env sched s = some x) :
    ∃ y, t.amid env sched s = some (y, x.2) ∧ x.1 = .ok y := by
  induction t generalizing sched s with
  | ret a =>
    obtain ⟨rfl, rfl⟩ := amid_ret h
    exact ⟨.ok a, rfl, rfl⟩
  | fail e =>
    obtain ⟨rfl, rfl⟩ := amid_ret h
    exact ⟨.error e, rfl, rfl⟩
  | step r u n ih =>
    obtain ⟨es, i, rest, rfl, hr, h⟩ := amid_step h
    obtain ⟨y, hy, hx⟩ := ih _ _ h
    exact ⟨y, by rw [amid, if_pos hr, hy], hx⟩

end Task

end Await
