import StormStorage.Await.Task

/-!
# What a task meets among others

Between two steps of a task the other tasks may leave any state. `Among` says
how a task goes on from there, `Moment` by `Moment`: what it is answered, and
the state before each of its steps and after it.

* `Among.only`: the moments of a task whose steps are all of one kind;
* `Among.later`, `Among.first`, `Among.inside`: a moment of a kind that one part
  of a sequence never has lies in the other part;
* `EndsWith`: what the last step of a run to the end satisfies;
* `Spares`: what every step of a run that fails satisfies;
* `among_moments`: a run alone is one way to go;
* `Tells`: what a program answers, told by what it has met, among others that
  keep to `env`; `Tells.bind`, `Tells.attempt_bind`, `Tells.of_only` follow the
  program, and `Tells.among` carries it to its moments.
-/

namespace Await

variable {ι σ ε α β : Type}

/-- A step of a task: what it is answered, and the state before and after. -/
structure Moment (ι σ : Type) where
  reply : ι
  before : σ
  after : σ

namespace Task

/-- Through these moments the task comes to what it has still to do. -/
inductive Among : Task ι σ ε α → List (Moment ι σ) → Task ι σ ε α → Prop
  | here (t : Task ι σ ε α) : Among t [] t
  | step {r : σ → Bool} {u : ι → σ → σ} {n : ι → σ → Task ι σ ε α} {t' : Task ι σ ε α} {tr : List (Moment ι σ)}
      (i : ι) (s : σ) : r s = true → Among (n i s) tr t' → Among (step r u n) (⟨i, s, u i s⟩ :: tr) t'

variable {t t' : Task ι σ ε α} {f : α → Task ι σ ε β} {tr : List (Moment ι σ)} {m : Moment ι σ}

@[simp] theorem among_ret {a : α} : Among (ret a) tr t' ↔ tr = [] ∧ t' = ret a := by
  refine ⟨fun h => ?_, ?_⟩
  · cases h
    exact ⟨rfl, rfl⟩
  · rintro ⟨rfl, rfl⟩
    exact .here _

@[simp] theorem among_fail {e : ε} : Among (fail e) tr t' ↔ tr = [] ∧ t' = fail e := by
  refine ⟨fun h => ?_, ?_⟩
  · cases h
    exact ⟨rfl, rfl⟩
  · rintro ⟨rfl, rfl⟩
    exact .here _

theorem among_step {r : σ → Bool} {u : ι → σ → σ} {n : ι → σ → Task ι σ ε α} (h : Among (step r u n) (m :: tr) t') :
    m.after = u m.reply m.before ∧ Among (n m.reply m.before) tr t' := by
  cases h with
  | step i s _ h => exact ⟨rfl, h⟩

/-- One step, to its end. -/
theorem among_atomic {g : ι → σ → α × σ} {a : α} (h : Among (atomic g : Task ι σ ε α) tr (ret a)) :
    ∃ m, tr = [m] ∧ m.after = (g m.reply m.before).2 ∧ a = (g m.reply m.before).1 := by
  cases h with
  | step i s _ h =>
    obtain ⟨rfl, he⟩ := among_ret.mp h
    exact ⟨_, rfl, rfl, Task.ret.inj he⟩

/-- One step, begun anywhere. -/
theorem Among.once (g : ι → σ → α × σ) (i : ι) (s : σ) :
    Among (Task.atomic g : Task ι σ ε α) [⟨i, s, (g i s).2⟩] (ret (g i s).1) := by
  unfold Task.atomic
  exact .step i s rfl (.here _)

theorem Among.only {C : σ → σ → Prop} (h : Among t tr t') (ht : t.Only C) : ∀ m ∈ tr, C m.before m.after := by
  induction h with
  | here t => exact fun _ hm => absurd hm List.not_mem_nil
  | step i s hr _ ih =>
    intro m hm
    rcases List.mem_cons.mp hm with rfl | hm
    · exact (ht i s).1
    · exact ih (ht i s).2 m hm

/-- A sequence whose first part has come to its end. -/
theorem Among.bind {t' : Task ι σ ε β} {tr' : List (Moment ι σ)} {a : α} (h : Among t tr (ret a))
    (h' : Among (f a) tr' t') : Among (t.bind f) (tr ++ tr') t' := by
  generalize he : (ret a : Task ι σ ε α) = x at h
  induction h with
  | here t =>
    subst he
    exact h'
  | step i s hr _ ih => exact .step i s hr (ih he)

/-- A sequence is in its first part, or past it. -/
theorem Among.of_bind {t' : Task ι σ ε β} (h : Among (t.bind f) tr t') :
    (∃ t₁, Among t tr t₁ ∧ t' = t₁.bind f) ∨
      ∃ tr₁ tr₂ a, tr = tr₁ ++ tr₂ ∧ Among t tr₁ (ret a) ∧ Among (f a) tr₂ t' := by
  induction t generalizing tr with
  | ret a => exact .inr ⟨[], tr, a, rfl, .here _, h⟩
  | fail e =>
    obtain ⟨rfl, rfl⟩ := among_fail.mp h
    exact .inl ⟨_, .here _, rfl⟩
  | step r u n ih =>
    cases h with
    | here _ => exact .inl ⟨_, .here _, rfl⟩
    | step i s hr h =>
      rcases ih i s h with ⟨t₁, h₁, he⟩ | ⟨tr₁, tr₂, a, rfl, h₁, h₂⟩
      · exact .inl ⟨t₁, .step i s hr h₁, he⟩
      · exact .inr ⟨_ :: tr₁, tr₂, a, rfl, .step i s hr h₁, h₂⟩

theorem Among.ret_bind {b : β} (h : Among (t.bind f) tr (ret b)) :
    ∃ tr₁ tr₂ a, tr = tr₁ ++ tr₂ ∧ Among t tr₁ (ret a) ∧ Among (f a) tr₂ (ret b) := by
  rcases h.of_bind with ⟨t₁, h₁, he⟩ | h
  · match t₁ with
    | ret a => exact ⟨tr, [], a, (List.append_nil tr).symm, h₁, he ▸ .here _⟩
    | .fail e => cases he
    | .step r u n => cases he
  · exact h

theorem Among.of_attempt {t' : Task ι σ ε (Except ε α)} (h : Among t.attempt tr t') :
    ∃ t₁, Among t tr t₁ ∧ t' = t₁.attempt := by
  induction t generalizing tr with
  | ret a =>
    obtain ⟨rfl, rfl⟩ := among_ret.mp h
    exact ⟨_, .here _, rfl⟩
  | fail e =>
    obtain ⟨rfl, rfl⟩ := among_ret.mp h
    exact ⟨_, .here _, rfl⟩
  | step r u n ih =>
    cases h with
    | here _ => exact ⟨_, .here _, rfl⟩
    | step i s hr h =>
      obtain ⟨t₁, h₁, he⟩ := ih i s h
      exact ⟨t₁, .step i s hr h₁, he⟩

theorem Among.attempt_ok {a : α} (h : Among t.attempt tr (ret (.ok a))) : Among t tr (ret a) := by
  obtain ⟨t₁, h₁, he⟩ := h.of_attempt
  match t₁ with
  | .ret b => exact (Except.ok.inj (Task.ret.inj he)) ▸ h₁
  | .fail e => cases he
  | .step r u n => cases he

theorem Among.ofExcept {x : Except ε α} {a : α} (h : Among (ofExcept x) tr (ret a)) : x = .ok a ∧ tr = [] := by
  cases x with
  | ok b =>
    obtain ⟨rfl, he⟩ := among_ret.mp h
    exact ⟨congrArg Except.ok (Task.ret.inj he).symm, rfl⟩
  | error e => exact nomatch (among_fail.mp h).2

section

variable {R : σ → σ → Prop}

/-- The moment is past the first part, which has none of its kind. -/
theorem Among.later {t' : Task ι σ ε β} (h : Among (t.bind f) (tr ++ [m]) t') (hR : R m.before m.after)
    (ht : t.Only fun s s' => ¬ R s s') :
    ∃ tr₁ tr₂ a, tr = tr₁ ++ tr₂ ∧ Among t tr₁ (ret a) ∧ Among (f a) (tr₂ ++ [m]) t' := by
  rcases h.of_bind with ⟨t₁, h₁, -⟩ | ⟨tr₁, tr₂, a, he, h₁, h₂⟩
  · exact absurd hR (h₁.only ht m (List.mem_append_right _ (List.mem_singleton.mpr rfl)))
  · rcases List.eq_nil_or_concat tr₂ with rfl | ⟨tr₂, m', rfl⟩
    · rw [List.append_nil] at he
      exact absurd hR (h₁.only ht m (he ▸ List.mem_append_right _ (List.mem_singleton.mpr rfl)))
    · rw [List.concat_eq_append, ← List.append_assoc] at he
      obtain ⟨rfl, hm⟩ := List.append_inj' he rfl
      obtain rfl := List.singleton_inj.mp hm
      exact ⟨tr₁, tr₂, a, rfl, h₁, by rwa [List.concat_eq_append] at h₂⟩

/-- The moment is in the first part: what follows has none of its kind. -/
theorem Among.first {t' : Task ι σ ε β} (h : Among (t.bind f) (tr ++ [m]) t') (hR : R m.before m.after)
    (hf : ∀ a, (f a).Only fun s s' => ¬ R s s') : ∃ t₁, Among t (tr ++ [m]) t₁ := by
  rcases h.of_bind with ⟨t₁, h₁, -⟩ | ⟨tr₁, tr₂, a, he, h₁, h₂⟩
  · exact ⟨t₁, h₁⟩
  · rcases List.eq_nil_or_concat tr₂ with rfl | ⟨tr₂, m', rfl⟩
    · rw [List.append_nil] at he
      exact ⟨_, he ▸ h₁⟩
    · rw [List.concat_eq_append] at he h₂
      rw [← List.append_assoc] at he
      obtain ⟨-, hm⟩ := List.append_inj' he rfl
      obtain rfl := List.singleton_inj.mp hm
      exact absurd hR (h₂.only (hf a) m (List.mem_append_right _ (List.mem_singleton.mpr rfl)))

/-- The one step before what has none of its kind. -/
theorem Among.inside {g : ι → σ → α × σ} {t' : Task ι σ ε β} (h : Among ((atomic g).bind f) (tr ++ [m]) t')
    (hR : R m.before m.after) (hf : ∀ a, (f a).Only fun s s' => ¬ R s s') :
    tr = [] ∧ m.after = (g m.reply m.before).2 := by
  obtain ⟨t₁, h₁⟩ := h.first hR hf
  match tr, h₁ with
  | [], h₁ => exact ⟨rfl, (among_step h₁).1⟩
  | m' :: tr, h₁ =>
    have he := (among_ret.mp (among_step h₁).2).1
    exact absurd he (by simp)

end

/-! ## The last step -/

/-- A run to the end has a last step, and it satisfies `P`. -/
def EndsWith (t : Task ι σ ε α) (P : Moment ι σ → Prop) : Prop :=
  ∀ tr x, Among t tr (ret x) → ∃ tr₁ m, tr = tr₁ ++ [m] ∧ P m

section

variable {P Q : Moment ι σ → Prop}

theorem EndsWith.mono (h : EndsWith t P) (hpq : ∀ m, P m → Q m) : EndsWith t Q := by
  intro tr x ha
  obtain ⟨tr₁, m, he, hp⟩ := h tr x ha
  exact ⟨tr₁, m, he, hpq m hp⟩

theorem EndsWith.bind (hf : ∀ a, EndsWith (f a) P) : EndsWith (t.bind f) P := by
  intro tr x h
  obtain ⟨tr₁, tr₂, a, rfl, -, h₂⟩ := h.ret_bind
  obtain ⟨tr₃, m, rfl, hp⟩ := hf a tr₂ x h₂
  exact ⟨tr₁ ++ tr₃, m, (List.append_assoc ..).symm, hp⟩

theorem EndsWith.fail {e : ε} : EndsWith (fail e : Task ι σ ε α) P := by
  intro tr x h
  obtain ⟨-, he⟩ := among_fail.mp h
  cases he

theorem EndsWith.atomic {g : ι → σ → α × σ} (h : ∀ i s, P ⟨i, s, (g i s).2⟩) :
    EndsWith (Task.atomic g : Task ι σ ε α) P := by
  intro tr x ha
  obtain ⟨m, rfl, hm, -⟩ := among_atomic ha
  have hp := h m.reply m.before
  rw [← hm] at hp
  exact ⟨[], m, rfl, hp⟩

theorem EndsWith.last (ht : EndsWith t P) {x : α} (h : Among t (tr ++ [m]) (ret x)) : P m := by
  obtain ⟨tr₁, m', he, hp⟩ := ht _ x h
  obtain rfl := List.singleton_inj.mp (List.append_inj' he rfl).2
  exact hp

end

/-! ## Runs that fail -/

theorem Total.not_fail {e : ε} (ht : t.Total) : ¬ Among t tr (fail e) := by
  intro h
  induction t generalizing tr with
  | ret a => cases (among_ret.mp h).2
  | fail e' => exact ht
  | step r u n ih =>
    cases h with
    | step i s _ h => exact ih i s (ht i s) h

/-- A sequence fails with its first part, or past it. -/
theorem Among.fail_bind {e : ε} (h : Among (t.bind f) tr (fail e)) :
    Among t tr (fail e) ∨ ∃ tr₁ tr₂ a, tr = tr₁ ++ tr₂ ∧ Among t tr₁ (ret a) ∧ Among (f a) tr₂ (fail e) := by
  rcases h.of_bind with ⟨t₁, h₁, he⟩ | h
  · cases t₁ with
    | ret a => exact .inr ⟨tr, [], a, (List.append_nil tr).symm, h₁, he ▸ .here _⟩
    | fail e' =>
      cases he
      exact .inl h₁
    | step r u n => cases he
  · exact .inr h

/-- After one step, it fails with what that let it do. -/
theorem Among.fail_atomic {g : ι → σ → α × σ} {e : ε} (h : Among ((atomic g).bind f) tr (fail e)) :
    ∃ m tr', tr = m :: tr' ∧ m.after = (g m.reply m.before).2 ∧ Among (f (g m.reply m.before).1) tr' (fail e) := by
  cases h with
  | step i s _ h => exact ⟨⟨i, s, (g i s).2⟩, _, rfl, rfl, h⟩

/-- A phase whose failure is caught ends with its answer or with its failure. -/
theorem Among.attempt_ret {x : Except ε α} (h : Among t.attempt tr (ret x)) :
    (∃ a, x = .ok a ∧ Among t tr (ret a)) ∨ ∃ e, x = .error e ∧ Among t tr (fail e) := by
  obtain ⟨t₁, h₁, he⟩ := h.of_attempt
  cases t₁ with
  | ret a =>
    cases he
    exact .inl ⟨a, rfl, h₁⟩
  | fail e =>
    cases he
    exact .inr ⟨e, rfl, h₁⟩
  | step r u n => cases he

/-- Every step of a run that fails takes a state to one that `C` relates it to. -/
def Spares (C : σ → σ → Prop) (t : Task ι σ ε α) : Prop :=
  ∀ tr e, Among t tr (fail e) → ∀ m ∈ tr, C m.before m.after

section

variable {C : σ → σ → Prop}

theorem Only.spares (ht : t.Only C) : t.Spares C := fun _ _ h => h.only ht

theorem Total.spares (ht : t.Total) : t.Spares C := fun _ _ h => absurd h ht.not_fail

/-- A phase of steps of the kind, and what follows it. -/
theorem Spares.bind (ht : t.Only C) (hf : ∀ a, (f a).Spares C) : (t.bind f).Spares C := by
  intro tr e h m hm
  rcases h.fail_bind with h | ⟨tr₁, tr₂, a, rfl, h₁, h₂⟩
  · exact h.only ht m hm
  · rcases List.mem_append.mp hm with hm | hm
    · exact h₁.only ht m hm
    · exact hf a tr₂ e h₂ m hm

/-- Past the first part nothing fails. -/
theorem Spares.bind_total (ht : t.Spares C) (hf : ∀ a, (f a).Total) : (t.bind f).Spares C := by
  intro tr e h
  rcases h.fail_bind with h | ⟨tr₁, tr₂, a, -, -, h₂⟩
  · exact ht tr e h
  · exact absurd h₂ (hf a).not_fail

/-- A phase whose failure is caught: past its answer nothing fails, and its
failure is passed on by steps of the kind. -/
theorem Spares.attempt_bind {f : Except ε α → Task ι σ ε β} (ht : t.Spares C) (hok : ∀ a, (f (.ok a)).Total)
    (herr : ∀ e, (f (.error e)).Only C) : (t.attempt.bind f).Spares C := by
  intro tr e h m hm
  rcases h.fail_bind with h | ⟨tr₁, tr₂, x, rfl, h₁, h₂⟩
  · exact absurd h (total_attempt t).not_fail
  · rcases h₁.attempt_ret with ⟨a, rfl, -⟩ | ⟨e', rfl, h₃⟩
    · exact absurd h₂ (hok a).not_fail
    · rcases List.mem_append.mp hm with hm | hm
      · exact ht tr₁ e' h₃ m hm
      · exact h₂.only (herr e') m hm

/-- A step that is of the kind wherever what follows may fail. -/
theorem Spares.atomic_bind {g : ι → σ → α × σ}
    (h : ∀ i s, C s (g i s).2 ∧ (f (g i s).1).Spares C ∨ (f (g i s).1).Total) : ((atomic g).bind f).Spares C := by
  intro tr e ha m hm
  obtain ⟨m', tr', rfl, hm', ha⟩ := ha.fail_atomic
  rcases h m'.reply m'.before with ⟨hc, hs⟩ | ht
  · rcases List.mem_cons.mp hm with rfl | hm
    · rwa [hm']
    · exact hs tr' e ha m hm
  · exact absurd ha ht.not_fail

end

/-! ## Answers by what was met -/

/-- After what it has met the others leave a state that `env` allows; the outcome
and all that was met satisfy `Q`. -/
def Tells (env : List (Moment ι σ) → σ → Prop) (Q : Except ε α → List (Moment ι σ) → Prop) :
    Task ι σ ε α → List (Moment ι σ) → Prop
  | ret a, tr => Q (.ok a) tr
  | fail e, tr => Q (.error e) tr
  | step r u n, tr => ∀ i s, env tr s → r s = true → (n i s).Tells env Q (tr ++ [⟨i, s, u i s⟩])

/-- The others left states that `env` allows. -/
def Heeds (env : List (Moment ι σ) → σ → Prop) (tr : List (Moment ι σ)) : Prop :=
  ∀ tr₁ m tr₂, tr = tr₁ ++ m :: tr₂ → env tr₁ m.before

section

variable {env : List (Moment ι σ) → σ → Prop} {P : List (Moment ι σ) → Prop}
  {Q Q' : Except ε α → List (Moment ι σ) → Prop} {R : Except ε β → List (Moment ι σ) → Prop}

theorem Tells.among {tr' : List (Moment ι σ)} (h : t.Tells env Q tr) (ha : Among t tr' t')
    (he : Heeds env (tr ++ tr')) : t'.Tells env Q (tr ++ tr') := by
  induction ha generalizing tr with
  | here t => rwa [List.append_nil]
  | step i s hr _ ih =>
    rw [List.append_cons]
    rw [List.append_cons] at he
    exact ih (h i s (he tr ⟨i, s, _⟩ _ (List.append_assoc ..)) hr) he

theorem Tells.mono (hQ : ∀ x tr, Q x tr → Q' x tr) (h : t.Tells env Q tr) : t.Tells env Q' tr := by
  induction t generalizing tr with
  | ret a => exact hQ _ _ h
  | fail e => exact hQ _ _ h
  | step r u n ih => exact fun i s he hr => ih i s (h i s he hr)

theorem Tells.bind (h : t.Tells env Q tr) (hf : ∀ a tr, Q (.ok a) tr → (f a).Tells env R tr)
    (hr : ∀ e tr, Q (.error e) tr → R (.error e) tr) : (t.bind f).Tells env R tr := by
  induction t generalizing tr with
  | ret a => exact hf _ _ h
  | fail e => exact hr _ _ h
  | step r u n ih => exact fun i s he hr => ih i s (h i s he hr)

/-- A phase whose failure is caught, and what follows it. -/
theorem Tells.attempt_bind {f : Except ε α → Task ι σ ε β} (h : t.Tells env Q tr)
    (hf : ∀ x tr, Q x tr → (f x).Tells env R tr) : (t.attempt.bind f).Tells env R tr := by
  induction t generalizing tr with
  | ret a => exact hf _ _ h
  | fail e => exact hf _ _ h
  | step r u n ih => exact fun i s he hr => ih i s (h i s he hr)

/-- A phase whose steps are all of one kind, which keep `P`. -/
theorem Tells.of_only {C : σ → σ → Prop} (ht : t.Only C)
    (hP : ∀ tr i s s', P tr → env tr s → C s s' → P (tr ++ [⟨i, s, s'⟩])) (h : P tr) :
    t.Tells env (fun _ tr => P tr) tr := by
  induction t generalizing tr with
  | ret a => exact h
  | fail e => exact h
  | step r u n ih => exact fun i s he _ => ih i s (ht i s).2 (hP tr i s _ h he (ht i s).1)

/-- A phase whose steps keep `P`, and what follows it. -/
theorem Tells.only_bind {C : σ → σ → Prop} (ht : t.Only C)
    (hP : ∀ tr i s s', P tr → env tr s → C s s' → P (tr ++ [⟨i, s, s'⟩]))
    (hf : ∀ a tr, P tr → (f a).Tells env R tr) (hr : ∀ e tr, P tr → R (.error e) tr) (h : P tr) :
    (t.bind f).Tells env R tr :=
  (Tells.of_only ht hP h).bind hf hr

theorem tells_ofExcept {x : Except ε α} (h : Q x tr) : (ofExcept x : Task ι σ ε α).Tells env Q tr := by
  cases x <;> exact h

end

/-! ## A run alone -/

/-- The moments of a run with the choices given. -/
def moments : Task ι σ ε α → List ι → σ → List (Moment ι σ)
  | step r u n, i :: is, s => if r s then ⟨i, s, u i s⟩ :: (n i s).moments is (u i s) else []
  | _, _, _ => []

/-- What is to be done after it. -/
def rest : Task ι σ ε α → List ι → σ → Task ι σ ε α
  | step r u n, i :: is, s => if r s then (n i s).rest is (u i s) else step r u n
  | t, _, _ => t

theorem among_moments (t : Task ι σ ε α) (is : List ι) (s : σ) : Among t (t.moments is s) (t.rest is s) := by
  induction is generalizing t s with
  | nil => cases t <;> exact .here _
  | cons i is ih =>
    match t with
    | ret a => exact .here _
    | fail e => exact .here _
    | step r u n =>
      unfold moments rest
      split
      · exact .step i s ‹_› (ih _ _)
      · exact .here _

theorem moments_first {t : Task ι σ ε α} {is : List ι} {s : σ} (h : t.moments is s = m :: tr) : m.before = s := by
  match t, is with
  | .ret a, _ | .fail e, _ | .step r u n, [] => simp [moments] at h
  | .step r u n, i :: is =>
    unfold moments at h
    split at h
    · rw [← (List.cons.inj h).1]
    · cases h

/-- In a run alone each step finds what the last one left. -/
theorem moments_linked {is : List ι} {s : σ} {tr₁ tr₂ : List (Moment ι σ)} {m' : Moment ι σ}
    (h : t.moments is s = tr₁ ++ m :: m' :: tr₂) : m'.before = m.after := by
  induction is generalizing t s tr₁ with
  | nil => cases t <;> simp [moments] at h
  | cons i is ih =>
    match t with
    | .ret a | .fail e => simp [moments] at h
    | .step r u n =>
      unfold moments at h
      split at h
      · cases tr₁ with
        | nil =>
          obtain ⟨hm, h⟩ := List.cons.inj h
          rw [moments_first h, ← hm]
        | cons x tr₁ => exact ih (List.cons.inj h).2
      · simp at h

/-- It heeds what allows what was left last. -/
theorem heeds_moments {env : List (Moment ι σ) → σ → Prop} (t : Task ι σ ε α) (is : List ι) (s : σ)
    (h : ∀ tr m, tr.getLast? = some m → env tr m.after) (hs : env [] s) : Heeds env (t.moments is s) := by
  intro tr₁ m tr₂ he
  rcases List.eq_nil_or_concat tr₁ with rfl | ⟨tr, m', rfl⟩
  · rw [moments_first he]
    exact hs
  · rw [List.concat_eq_append, List.append_assoc] at he
    rw [moments_linked he]
    exact h _ m' (by simp)

/-- A run that came to its failure. -/
def failing : Task ι σ ε α → Bool
  | fail _ => true
  | ret _ | step _ _ _ => false

theorem failing_iff : t.failing = true ↔ ∃ e, t = fail e := by
  cases t <;> simp [failing]

end Task

end Await
