import StormStorage.Await.Pool

/-!
# Invariants of single steps

`Task.Keeps inv ok Q` walks through one program: every step from a state with
`inv`, taken as `ok` allows, leaves one with `inv`, and what the program
answers satisfies `Q`. Nothing is said of what the others do, so the answers
satisfy facts of values alone.

* `Keeps.bind`, `Keeps.attempt`, `Keeps.forEach`: the programs put together;
* `Keeps.of_only`: a phase whose steps are all of one kind; `Keeps.of_answers`
  adds what it answers;
* `Run.keeps`: the invariant along every run of programs that keep it.
-/

namespace Await

variable {ι σ ε α β : Type}

/-- The steps keep `inv`, and the answer satisfies `Q`. -/
def Task.Keeps (inv : σ → Prop) (ok : σ → σ → Prop) (Q : α → Prop) : Task ι σ ε α → Prop
  | ret a => Q a
  | fail _ => True
  | step _ u n => ∀ i s, inv s → ok s (u i s) → inv (u i s) ∧ (n i s).Keeps inv ok Q

namespace Task

variable {inv : σ → Prop} {ok : σ → σ → Prop} {Q : α → Prop} {R : β → Prop}

@[simp] theorem keeps_ret {a : α} : (ret a : Task ι σ ε α).Keeps inv ok Q ↔ Q a := Iff.rfl

@[simp] theorem keeps_fail {e : ε} : (fail e : Task ι σ ε α).Keeps inv ok Q := trivial

theorem Keeps.mono {Q' : α → Prop} (h : ∀ a, Q a → Q' a) {t : Task ι σ ε α} (ht : t.Keeps inv ok Q) :
    t.Keeps inv ok Q' := by
  induction t with
  | ret a => exact h a ht
  | fail e => trivial
  | step r u n ih => exact fun i s hi hok => ⟨(ht i s hi hok).1, ih i s (ht i s hi hok).2⟩

theorem Keeps.bind {t : Task ι σ ε α} {f : α → Task ι σ ε β} (ht : t.Keeps inv ok Q)
    (hf : ∀ a, Q a → (f a).Keeps inv ok R) : (t.bind f).Keeps inv ok R := by
  induction t with
  | ret a => exact hf a ht
  | fail e => trivial
  | step r u n ih => exact fun i s hi hok => ⟨(ht i s hi hok).1, ih i s (ht i s hi hok).2⟩

theorem Keeps.attempt {t : Task ι σ ε α} (ht : t.Keeps inv ok Q) :
    t.attempt.Keeps inv ok fun x => ∀ a, x = .ok a → Q a := by
  induction t with
  | ret a => exact fun _ h => Except.ok.inj h ▸ ht
  | fail e => exact fun _ h => nomatch h
  | step r u n ih => exact fun i s hi hok => ⟨(ht i s hi hok).1, ih i s (ht i s hi hok).2⟩

/-- A phase whose failure is caught, and what follows it. -/
theorem Keeps.attempt_bind {t : Task ι σ ε α} {f : Except ε α → Task ι σ ε β} (ht : t.Keeps inv ok Q)
    (hok : ∀ a, Q a → (f (.ok a)).Keeps inv ok R) (herr : ∀ e, (f (.error e)).Keeps inv ok R) :
    (t.attempt.bind f).Keeps inv ok R :=
  ht.attempt.bind fun
    | .ok a, h => hok a (h a rfl)
    | .error e, _ => herr e

/-- A phase whose outcome is not looked at. -/
theorem Keeps.ignore {t : Task ι σ ε α} {f : Except ε α → Task ι σ ε β} (ht : t.Keeps inv ok Q)
    (hf : ∀ x, (f x).Keeps inv ok R) : (t.attempt.bind f).Keeps inv ok R :=
  ht.attempt.bind fun x _ => hf x

theorem keeps_ofExcept {x : Except ε α} (h : ∀ a, x = .ok a → Q a) :
    (ofExcept x : Task ι σ ε α).Keeps inv ok Q := by
  cases x with
  | ok a => exact h a rfl
  | error e => trivial

theorem keeps_await {r : σ → Bool} {f : ι → σ → α × σ}
    (h : ∀ i s, inv s → ok s (f i s).2 → inv (f i s).2 ∧ Q (f i s).1) :
    (await r f : Task ι σ ε α).Keeps inv ok Q := h

theorem keeps_atomic {f : ι → σ → α × σ} (h : ∀ i s, inv s → ok s (f i s).2 → inv (f i s).2 ∧ Q (f i s).1) :
    (atomic f : Task ι σ ε α).Keeps inv ok Q := h

theorem keeps_modify {f : σ → σ} (h : ∀ s, inv s → ok s (f s) → inv (f s)) :
    (modify f : Task ι σ ε Unit).Keeps inv ok fun _ => True :=
  fun _ s hi hok => ⟨h s hi hok, trivial⟩

theorem keeps_get {f : σ → α} (h : ∀ s, inv s → Q (f s)) : (get f : Task ι σ ε α).Keeps inv ok Q :=
  fun _ s hi _ => ⟨hi, h s hi⟩

/-- Steps of a kind that keeps the invariant. -/
theorem Keeps.of_only {C : σ → σ → Prop} (hC : ∀ s s', inv s → C s s' → inv s') {t : Task ι σ ε α}
    (ht : t.Only C) : t.Keeps inv ok fun _ => True := by
  induction t with
  | ret a => trivial
  | fail e => trivial
  | step r u n ih => exact fun i s hi _ => ⟨hC s _ hi (ht i s).1, ih i s (ht i s).2⟩

theorem Keeps.forEach {xs : List β} {f : β → Task ι σ ε Unit}
    (hf : ∀ x ∈ xs, (f x).Keeps inv ok fun _ => True) : (Task.forEach xs f).Keeps inv ok fun _ => True := by
  induction xs with
  | nil => trivial
  | cons x xs ih =>
    exact (hf x (List.mem_cons_self ..)).bind fun _ _ => ih fun y hy => hf y (List.mem_cons_of_mem _ hy)

/-- What the task answers satisfies `Q`, whatever it finds. -/
abbrev Answers (t : Task ι σ ε α) (Q : α → Prop) : Prop := t.Keeps (fun _ => True) (fun _ _ => True) Q

theorem answers_true (t : Task ι σ ε α) : t.Answers fun _ => True := by
  induction t with
  | ret a => trivial
  | fail e => trivial
  | step r u n ih => exact fun i s _ _ => ⟨trivial, ih i s⟩

/-- A phase of one kind of steps that answers `Q`. -/
theorem Keeps.of_answers {C : σ → σ → Prop} (hC : ∀ s s', inv s → C s s' → inv s') {t : Task ι σ ε α}
    (ht : t.Only C) (hq : t.Answers Q) : t.Keeps inv ok Q := by
  induction t with
  | ret a => exact hq
  | fail e => trivial
  | step r u n ih =>
    exact fun i s hi _ => ⟨hC s _ hi (ht i s).1, ih i s (ht i s).2 (hq i s trivial trivial).2⟩

/-- What a task answers whatever it finds, it answers beside the others. -/
theorem Safe.answers {d : Discipline σ} {t : Nat} {R : Except ε α → σ → Prop} {task : Task ι σ ε α} {s : σ}
    (h : task.Safe d t R s) (hq : task.Answers Q) : task.Safe d t (fun x s => R x s ∧ ∀ a, x = .ok a → Q a) s := by
  induction task generalizing s with
  | ret a => exact fun s' hr => ⟨h s' hr, fun _ he => Except.ok.inj he ▸ hq⟩
  | fail e => exact fun s' hr => ⟨h s' hr, fun _ he => nomatch he⟩
  | step r u n ih =>
    intro s' hr hready i hok
    obtain ⟨hi, hg, hn⟩ := h s' hr hready i hok
    exact ⟨hi, hg, ih i s' hn (hq i s' trivial trivial).2⟩

/-- A phase of one kind of steps, beside the others, that answers `Q`. -/
theorem Safe.of_answers {d : Discipline σ} {t : Nat} {P : σ → Prop} {C : σ → σ → Prop} {task : Task ι σ ε α}
    (hC : task.Only C) (hq : task.Answers Q) (hP : d.Stable t P)
    (h : ∀ s s', d.inv s → P s → C s s' → d.ok s s' → d.inv s' ∧ d.guar (some t) s s' ∧ P s')
    {s : σ} (hi : d.inv s) (hs : P s) :
    task.Safe d t (fun x s => P s ∧ ∀ a, x = .ok a → Q a) s := by
  induction task generalizing s with
  | ret a => exact fun s' hr => ⟨(hP.others hr hi hs).2, fun _ he => Except.ok.inj he ▸ hq⟩
  | fail e => exact fun s' hr => ⟨(hP.others hr hi hs).2, fun _ he => nomatch he⟩
  | step r u n ih =>
    intro s' hr _ i hok
    obtain ⟨hi', hs'⟩ := hP.others hr hi hs
    obtain ⟨hi'', hg, hs''⟩ := h s' (u i s') hi' hs' (hC i s').1 hok
    exact ⟨hi'', hg, ih i s' (hC i s').2 (hq i s' trivial trivial).2 hi'' hs''⟩

end Task

/-- The invariant along every run of programs that keep it. -/
theorem System.Run.keeps {S : System ι σ ε} {inv : σ → Prop} {ok : σ → σ → Prop} {p₀ p : Pool ι σ ε}
    (hprog : ∀ t op, (S.prog t op).Keeps inv ok fun _ => True)
    (henv : ∀ e s, inv s → ok s (S.env e s) → inv (S.env e s))
    (h₀ : inv p₀.state) (ht : p₀.tasks = []) (h : S.Run ok p₀ p) : inv p.state := by
  suffices hk : inv p.state ∧ ∀ task ∈ p.tasks, task.Keeps inv ok fun _ => True from hk.1
  induction h with
  | refl => exact ⟨h₀, by simp [ht]⟩
  | @step p p' m _ hm hok ih =>
    cases m with
    | start op =>
      simp only [System.step, Option.some.injEq] at hm
      subst hm
      refine ⟨ih.1, fun task ht => ?_⟩
      rcases List.mem_append.mp ht with ht | ht
      · exact ih.2 task ht
      · exact List.mem_singleton.mp ht ▸ hprog _ op
    | env e =>
      simp only [System.step, Option.some.injEq] at hm
      subst hm
      exact ⟨henv e _ ih.1 hok, ih.2⟩
    | run t i =>
      simp only [System.step] at hm
      split at hm <;> [skip; cases hm]
      rename_i r u n ht
      split at hm <;> [skip; cases hm]
      simp only [Option.some.injEq] at hm
      subst hm
      obtain ⟨hi, hn⟩ := ih.2 _ (List.mem_of_getElem? ht) i p.state ih.1 hok
      refine ⟨hi, fun task htask => ?_⟩
      rcases List.mem_or_eq_of_mem_set htask with htask | rfl
      · exact ih.2 task htask
      · exact hn

end Await
