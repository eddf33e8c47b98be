import StormStorage.Await.Task

/-!
# What a task comes to alone

`Task.Comes good Q t s`: run from `s` with no other task between its steps, and
each step chosen as `good` allows, the task is never held up and ends with a
value, not a failure, and a state that satisfy `Q`. Every such run ends so, and
where `good` leaves a choice in every state there is one (`Comes.ends`).

* `Comes.bind`, `Comes.attempt_bind`, `Comes.mono`: the rules of programs;
* `comes_atomic`, `comes_await`, `comes_ofExcept`: the rules of steps;
* `Prompt.comes`: what never waits and never fails comes to its end;
* `Comes.only`: what the kind of its steps adds to where a task ends.
-/

namespace Await.Task

variable {ι σ ε α β : Type}

def Comes (good : ι → σ → Prop) (Q : α → σ → Prop) : Task ι σ ε α → σ → Prop
  | ret a, s => Q a s
  | fail _, _ => False
  | step r u n, s => r s = true ∧ ∀ i, good i s → (n i s).Comes good Q (u i s)

variable {good : ι → σ → Prop} {Q Q' : α → σ → Prop} {R : β → σ → Prop} {s : σ}

theorem comes_ret {a : α} (h : Q a s) : (ret a : Task ι σ ε α).Comes good Q s := h

theorem Comes.mono {t : Task ι σ ε α} (h : t.Comes good Q s) (hQ : ∀ a s, Q a s → Q' a s) : t.Comes good Q' s := by
  induction t generalizing s with
  | ret a => exact hQ a s h
  | fail e => exact h
  | step r u n ih => exact ⟨h.1, fun i hi => ih i s (h.2 i hi)⟩

theorem Comes.bind {t : Task ι σ ε α} {f : α → Task ι σ ε β} (h : t.Comes good Q s)
    (hf : ∀ a s, Q a s → (f a).Comes good R s) : (t.bind f).Comes good R s := by
  induction t generalizing s with
  | ret a => exact hf a s h
  | fail e => exact h.elim
  | step r u n ih => exact ⟨h.1, fun i hi => ih i s (h.2 i hi)⟩

/-- A phase whose failure would be caught. -/
theorem Comes.attempt_bind {t : Task ι σ ε α} {f : Except ε α → Task ι σ ε β} (h : t.Comes good Q s)
    (hf : ∀ a s, Q a s → (f (.ok a)).Comes good R s) : (t.attempt.bind f).Comes good R s := by
  induction t generalizing s with
  | ret a => exact hf a s h
  | fail e => exact h.elim
  | step r u n ih => exact ⟨h.1, fun i hi => ih i s (h.2 i hi)⟩

theorem comes_await {r : σ → Bool} {f : ι → σ → α × σ} (hr : r s = true)
    (h : ∀ i, good i s → Q (f i s).1 (f i s).2) : (await r f : Task ι σ ε α).Comes good Q s := ⟨hr, h⟩

theorem comes_atomic {f : ι → σ → α × σ} (h : ∀ i, good i s → Q (f i s).1 (f i s).2) :
    (atomic f : Task ι σ ε α).Comes good Q s := ⟨rfl, h⟩

theorem comes_get {f : σ → α} (h : Q (f s) s) : (get f : Task ι σ ε α).Comes good Q s := ⟨rfl, fun _ _ => h⟩

theorem comes_modify {f : σ → σ} {Q : Unit → σ → Prop} (h : Q () (f s)) :
    (modify f : Task ι σ ε Unit).Comes good Q s := ⟨rfl, fun _ _ => h⟩

theorem comes_ofExcept {x : Except ε α} {a : α} (hx : x = .ok a) (h : Q a s) :
    (ofExcept x : Task ι σ ε α).Comes good Q s := hx ▸ h

/-- What each round keeps. -/
theorem comes_forEach {I : σ → Prop} {xs : List α} {f : α → Task ι σ ε Unit}
    (hf : ∀ x ∈ xs, ∀ s, I s → (f x).Comes good (fun _ => I) s) (h : I s) : (forEach xs f).Comes good (fun _ => I) s := by
  induction xs generalizing s with
  | nil => exact h
  | cons x xs ih =>
    refine (hf x List.mem_cons_self s h).bind fun _ s h => ?_
    exact ih (fun y hy => hf y (List.mem_cons_of_mem _ hy)) h

/-! ## Tasks that never wait -/

/-- Each step is ready in every state. -/
def Prompt : Task ι σ ε α → Prop
  | ret _ => True
  | fail _ => True
  | step r _ n => (∀ s, r s = true) ∧ ∀ i s, (n i s).Prompt

theorem prompt_atomic (f : ι → σ → α × σ) : (atomic f : Task ι σ ε α).Prompt := ⟨fun _ => rfl, fun _ _ => trivial⟩

theorem prompt_ofExcept (x : Except ε α) : (ofExcept x : Task ι σ ε α).Prompt := by
  cases x <;> trivial

theorem Prompt.bind {t : Task ι σ ε α} {f : α → Task ι σ ε β} (ht : t.Prompt) (hf : ∀ a, (f a).Prompt) : (t.bind f).Prompt := by
  induction t with
  | ret a => exact hf a
  | fail e => trivial
  | step r u n ih => exact ⟨ht.1, fun i s => ih i s (ht.2 i s)⟩

theorem Prompt.attempt {t : Task ι σ ε α} (ht : t.Prompt) : t.attempt.Prompt := by
  induction t with
  | ret a => trivial
  | fail e => trivial
  | step r u n ih => exact ⟨ht.1, fun i s => ih i s (ht.2 i s)⟩

theorem prompt_forEach {xs : List α} {f : α → Task ι σ ε Unit} (hf : ∀ x, (f x).Prompt) : (forEach xs f).Prompt := by
  induction xs with
  | nil => trivial
  | cons x xs ih => exact (hf x).bind fun _ => ih

/-- What never waits and never fails comes to its end. -/
theorem Prompt.comes {t : Task ι σ ε α} (hp : t.Prompt) (ht : t.Total) : t.Comes good (fun _ _ => True) s := by
  induction t generalizing s with
  | ret a => trivial
  | fail e => exact ht.elim
  | step r u n ih => exact ⟨hp.1 s, fun i _ => ih i s (hp.2 i s) (ht i s)⟩

/-! ## The kind of its steps -/

/-- Where its steps are all of one kind, so is the way to where it ends. -/
theorem Comes.only {C : σ → σ → Prop} (hrefl : ∀ s, C s s) (htrans : ∀ s s' s'', C s s' → C s' s'' → C s s'')
    {t : Task ι σ ε α} (ht : t.Only C) (h : t.Comes good Q s) : t.Comes good (fun a s' => Q a s' ∧ C s s') s := by
  induction t generalizing s with
  | ret a => exact ⟨h, hrefl s⟩
  | fail e => exact h
  | step r u n ih =>
    refine ⟨h.1, fun i hi => (ih i s (ht i s).2 (h.2 i hi)).mono fun a s' hq => ⟨hq.1, ?_⟩⟩
    exact htrans _ _ _ (ht i s).1 hq.2

/-- Such a run, where there is always a choice. -/
theorem Comes.ends (hgood : ∀ s, ∃ i, good i s) {t : Task ι σ ε α} (h : t.Comes good Q s) :
    ∃ a s', Ends t s (.ok a) s' ∧ Q a s' := by
  induction t generalizing s with
  | ret a => exact ⟨a, s, .ret a s, h⟩
  | fail e => exact h.elim
  | step r u n ih =>
    obtain ⟨i, hi⟩ := hgood s
    obtain ⟨a, s', he, hq⟩ := ih i s (h.2 i hi)
    exact ⟨a, s', .step i h.1 he, hq⟩

end Await.Task
