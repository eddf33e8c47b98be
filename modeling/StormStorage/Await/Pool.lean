import StormStorage.Await.Task

/-!
# Tasks run side by side

A `System` is a family of programs, one for each operation, and what the
environment does by itself. A `Pool` runs any number of them on one shared
state: at every move one task takes one step, or an operation starts, or the
environment acts. `System.Run ok p₀ p` says that `p` is reached from `p₀` by
moves whose states before and after satisfy `ok`.

A property of every run is proved by rely and guarantee. A `Discipline` has
an invariant of the shared state and, for each task, what its steps may do
(`guar`); a task relies on the others doing no more than that. `Safe` walks
through one program at a time:

* `Safe.step` proves a step from an assertion that the others keep;
* `Safe.bind`, `Safe.of_only`, `Safe.quiet_bind`, `Safe.attempt` put programs
  together;
* `Run.safe` carries `Safe` of every program to every run; `Run.safeOut` also what
  each task leaves, which `KeptOut.ended` reads where all have ended.

Where the programs' steps are all of one kind so are the moves of every run
(`Run.only`), and `Run.holds_iff` gives the steps that keep a property.
-/

namespace Await

open Relation (ReflTransGen)

structure System (ι σ ε : Type) where
  Op : Type
  Env : Type
  /-- The program of an operation, told its place in the pool. -/
  prog : Nat → Op → Task ι σ ε Unit
  env : Env → σ → σ

structure Pool (ι σ ε : Type) where
  state : σ
  tasks : List (Task ι σ ε Unit)

inductive Move (ι Op Env : Type) where
  | start (op : Op)
  | run (t : Nat) (i : ι)
  | env (e : Env)

variable {ι σ ε α β : Type}

namespace System

variable (S : System ι σ ε)

/-- One move; `none` when the task has ended or is not ready. -/
def step (p : Pool ι σ ε) : Move ι S.Op S.Env → Option (Pool ι σ ε)
  | .start op => some { p with tasks := p.tasks ++ [S.prog p.tasks.length op] }
  | .env e => some { p with state := S.env e p.state }
  | .run t i =>
    match p.tasks[t]? with
    | some (.step r u n) =>
      if r p.state then some ⟨u i p.state, p.tasks.set t (n i p.state)⟩ else none
    | _ => none

/-- The moves one after another, each allowed by `check`. -/
def exec (check : σ → σ → Bool) (p : Pool ι σ ε) : List (Move ι S.Op S.Env) → Option (Pool ι σ ε)
  | [] => some p
  | m :: ms => (S.step p m).bind fun p' => if check p.state p'.state then exec check p' ms else none

/-- Where the moves lead, if all can be made. -/
def final (check : σ → σ → Bool) (p : Pool ι σ ε) (ms : List (Move ι S.Op S.Env)) : Pool ι σ ε :=
  (S.exec check p ms).getD p

/-- A run whose every move takes the shared state as `ok` allows. -/
inductive Run (ok : σ → σ → Prop) (p₀ : Pool ι σ ε) : Pool ι σ ε → Prop
  | refl : Run ok p₀ p₀
  | step {p p' : Pool ι σ ε} (m : Move ι S.Op S.Env) :
      Run ok p₀ p → S.step p m = some p' → ok p.state p'.state → Run ok p₀ p'

variable {S}

theorem Run.mono {ok ok' : σ → σ → Prop} (h : ∀ s s', ok s s' → ok' s s') {p₀ p : Pool ι σ ε}
    (hr : S.Run ok p₀ p) : S.Run ok' p₀ p := by
  induction hr with
  | refl => exact .refl
  | step m _ hm hok ih => exact ih.step m hm (h _ _ hok)

theorem Run.exec {ok : σ → σ → Prop} {check : σ → σ → Bool} (hc : ∀ s s', check s s' = true → ok s s')
    {p₀ p p' : Pool ι σ ε} {ms : List (Move ι S.Op S.Env)} (h : S.Run ok p₀ p)
    (he : S.exec check p ms = some p') : S.Run ok p₀ p' := by
  induction ms generalizing p with
  | nil =>
    obtain rfl : p = p' := by simpa [System.exec] using he
    exact h
  | cons m ms ih =>
    obtain ⟨q, hq, he⟩ := Option.bind_eq_some_iff.mp he
    split at he
    · rename_i hcheck
      exact ih (h.step m hq (hc _ _ hcheck)) he
    · cases he

theorem run_final {ok : σ → σ → Prop} {check : σ → σ → Bool} (hc : ∀ s s', check s s' = true → ok s s')
    {p : Pool ι σ ε} {ms : List (Move ι S.Op S.Env)} (h : (S.exec check p ms).isSome) :
    S.Run ok p (S.final check p ms) := by
  obtain ⟨q, hq⟩ := Option.isSome_iff_exists.mp h
  rw [final, hq]
  exact Run.refl.exec hc hq

end System

/-! ## Rely and guarantee -/

/-- What holds of the shared state at every moment (`inv`), which steps the
runs take (`ok`), and what the steps of each task, or of the environment
(`none`), do (`guar`). -/
structure Discipline (σ : Type) where
  inv : σ → Prop
  ok : σ → σ → Prop
  guar : Option Nat → σ → σ → Prop

namespace Discipline

variable (d : Discipline σ)

/-- One step of another task than `t`. -/
def rely (t : Nat) (s s' : σ) : Prop := d.inv s' ∧ ∃ u, u ≠ some t ∧ d.guar u s s'

/-- The others keep `P` while task `t` waits. -/
def Stable (t : Nat) (P : σ → Prop) : Prop :=
  ∀ s s' u, u ≠ some t → d.inv s → d.inv s' → d.guar u s s' → P s → P s'

variable {d} {t : Nat} {P : σ → Prop}

theorem Stable.others (hP : d.Stable t P) {s s' : σ} (h : ReflTransGen (d.rely t) s s')
    (hi : d.inv s) (hs : P s) : d.inv s' ∧ P s' := by
  induction h with
  | refl => exact ⟨hi, hs⟩
  | tail _ hr ih => exact ⟨hr.1, let ⟨u, hu, hg⟩ := hr.2; hP _ _ u hu ih.1 hr.1 hg ih.2⟩

theorem Stable.and {P' : σ → Prop} (h : d.Stable t P) (h' : d.Stable t P') :
    d.Stable t fun s => P s ∧ P' s :=
  fun s s' u hu hi hi' hg hs => ⟨h s s' u hu hi hi' hg hs.1, h' s s' u hu hi hi' hg hs.2⟩

theorem stable_const (p : Prop) : d.Stable t fun _ => p := fun _ _ _ _ _ _ _ h => h

end Discipline

/-- Run as task `t` from `s`, with the others free to act before each step and
at the end: each step keeps the invariant and its guarantee, and the outcome
satisfies `Q`. -/
def Task.Safe (d : Discipline σ) (t : Nat) (Q : Except ε α → σ → Prop) : Task ι σ ε α → σ → Prop
  | ret a, s => ∀ s', ReflTransGen (d.rely t) s s' → Q (.ok a) s'
  | fail e, s => ∀ s', ReflTransGen (d.rely t) s s' → Q (.error e) s'
  | step r u n, s => ∀ s', ReflTransGen (d.rely t) s s' → r s' = true → ∀ i, d.ok s' (u i s') →
      d.inv (u i s') ∧ d.guar (some t) s' (u i s') ∧ (n i s').Safe d t Q (u i s')

namespace Task

variable {d : Discipline σ} {t : Nat} {Q Q' : Except ε α → σ → Prop} {P : σ → Prop}

theorem Safe.rely {task : Task ι σ ε α} {s s' : σ} (h : task.Safe d t Q s) (hr : d.rely t s s') :
    task.Safe d t Q s' := by
  cases task with
  | ret a => exact fun s'' hs => h s'' (hs.head hr)
  | fail e => exact fun s'' hs => h s'' (hs.head hr)
  | step r u n => exact fun s'' hs => h s'' (hs.head hr)

theorem Safe.ret (hP : d.Stable t P) (hq : ∀ s, d.inv s → P s → Q (.ok a) s) {s : σ}
    (hi : d.inv s) (hs : P s) : (Task.ret a : Task ι σ ε α).Safe d t Q s := by
  intro s' h
  obtain ⟨hi', hs'⟩ := hP.others h hi hs
  exact hq s' hi' hs'

theorem Safe.fail (hP : d.Stable t P) (hq : ∀ s, d.inv s → P s → Q (.error e) s) {s : σ}
    (hi : d.inv s) (hs : P s) : (Task.fail e : Task ι σ ε α).Safe d t Q s := by
  intro s' h
  obtain ⟨hi', hs'⟩ := hP.others h hi hs
  exact hq s' hi' hs'

/-- A step from an assertion `P` that the others keep. -/
theorem Safe.step (hP : d.Stable t P) {r : σ → Bool} {u : ι → σ → σ} {n : ι → σ → Task ι σ ε α}
    (h : ∀ s i, d.inv s → P s → r s = true → d.ok s (u i s) →
      d.inv (u i s) ∧ d.guar (some t) s (u i s) ∧ (n i s).Safe d t Q (u i s))
    {s : σ} (hi : d.inv s) (hs : P s) : (Task.step r u n).Safe d t Q s := by
  intro s' hr hready i hok
  obtain ⟨hi', hs'⟩ := hP.others hr hi hs
  exact h s' i hi' hs' hready hok

/-- One step that answers, from an assertion the others keep to one they keep. -/
theorem Safe.await (hP : d.Stable t P) (hQ : ∀ a, d.Stable t (Q (.ok a))) {r : σ → Bool} {f : ι → σ → α × σ}
    (h : ∀ s i, d.inv s → P s → r s = true → d.ok s (f i s).2 →
      (d.inv (f i s).2 ∧ d.guar (some t) s (f i s).2) ∧ Q (.ok (f i s).1) (f i s).2)
    {s : σ} (hi : d.inv s) (hs : P s) : (Task.await r f : Task ι σ ε α).Safe d t Q s := by
  refine Safe.step hP (fun s i hi hs hr hok => ?_) hi hs
  obtain ⟨⟨hi', hg⟩, hq⟩ := h s i hi hs hr hok
  exact ⟨hi', hg, Safe.ret (hQ _) (fun _ _ h => h) hi' hq⟩

theorem Safe.mono (hQ : ∀ x s, Q x s → Q' x s) {task : Task ι σ ε α} {s : σ}
    (h : task.Safe d t Q s) : task.Safe d t Q' s := by
  induction task generalizing s with
  | ret a => exact fun s' hr => hQ _ _ (h s' hr)
  | fail e => exact fun s' hr => hQ _ _ (h s' hr)
  | step r u n ih =>
    intro s' hr hready i hok
    obtain ⟨hi, hg, hn⟩ := h s' hr hready i hok
    exact ⟨hi, hg, ih i s' hn⟩

/-- What every task keeps, this one too, holds at the end if it does now. -/
theorem Safe.frame (hP : ∀ u s s', d.inv s → d.inv s' → d.guar u s s' → P s → P s') {task : Task ι σ ε α} {s : σ}
    (hi : d.inv s) (h : task.Safe d t Q s) (hs : P s) : task.Safe d t (fun x s => Q x s ∧ P s) s := by
  have hst : d.Stable t P := fun s s' u _ => hP u s s'
  induction task generalizing s with
  | ret a => exact fun s' hr => ⟨h s' hr, (hst.others hr hi hs).2⟩
  | fail e => exact fun s' hr => ⟨h s' hr, (hst.others hr hi hs).2⟩
  | step r u n ih =>
    intro s' hr hready i hok
    obtain ⟨hi₁, hs₁⟩ := hst.others hr hi hs
    obtain ⟨hi', hg, hn⟩ := h s' hr hready i hok
    exact ⟨hi', hg, ih i s' hi' hn (hP _ _ _ hi₁ hi' hg hs₁)⟩

/-- Sequencing: the rest runs from any state the first part ends in, and its
failure is the whole's. -/
theorem Safe.bind {R : Except ε β → σ → Prop} {task : Task ι σ ε α} {f : α → Task ι σ ε β} {s : σ}
    (hi : d.inv s) (h : task.Safe d t Q s)
    (hf : ∀ a s, d.inv s → Q (.ok a) s → (f a).Safe d t R s)
    (he : ∀ e s, Q (.error e) s → R (.error e) s) : (task.bind f).Safe d t R s := by
  induction task generalizing s with
  | ret a => exact hf a s hi (h s .refl)
  | fail e => exact fun s' hr => he e s' (h s' hr)
  | step r u n ih =>
    intro s' hr hready i hok
    obtain ⟨hi', hg, hn⟩ := h s' hr hready i hok
    exact ⟨hi', hg, ih i s' hi' hn⟩

theorem Safe.attempt {R : Except ε (Except ε α) → σ → Prop} {task : Task ι σ ε α} {s : σ}
    (h : task.Safe d t Q s) (hq : ∀ x s, Q x s → R (.ok x) s) : task.attempt.Safe d t R s := by
  induction task generalizing s with
  | ret a => exact fun s' hr => hq _ s' (h s' hr)
  | fail e => exact fun s' hr => hq _ s' (h s' hr)
  | step r u n ih =>
    intro s' hr hready i hok
    obtain ⟨hi', hg, hn⟩ := h s' hr hready i hok
    exact ⟨hi', hg, ih i s' hn⟩

/-- A phase whose failure is caught, and what follows it. -/
theorem Safe.attempt_bind {R : Except ε β → σ → Prop} {task : Task ι σ ε α} {f : Except ε α → Task ι σ ε β} {s : σ}
    (hi : d.inv s) (h : task.Safe d t Q s) (hf : ∀ x s, d.inv s → Q x s → (f x).Safe d t R s) :
    (task.attempt.bind f).Safe d t R s :=
  Safe.bind (Q := fun x s => match x with
      | .ok x => Q x s
      | .error _ => False) hi (h.attempt fun _ _ h => h) hf fun _ _ h => h.elim

/-- A phase that does not fail, and what follows it. -/
theorem Safe.bind_total {R : Except ε β → σ → Prop} {task : Task ι σ ε α} {f : α → Task ι σ ε β} {s : σ}
    (hi : d.inv s) (ht : task.Total) (h : task.Safe d t Q s)
    (hf : ∀ a s, d.inv s → Q (.ok a) s → (f a).Safe d t R s) : (task.bind f).Safe d t R s := by
  induction task generalizing s with
  | ret a => exact hf a s hi (h s .refl)
  | fail e => exact ht.elim
  | step r u n ih =>
    intro s' hr hready i hok
    obtain ⟨hi', hg, hn⟩ := h s' hr hready i hok
    exact ⟨hi', hg, ih i s' hi' (ht i s') hn⟩

/-- A phase whose steps are all of kind `C` keeps what the others and `C` keep. -/
theorem Safe.of_only {C : σ → σ → Prop} {task : Task ι σ ε α} (hC : task.Only C)
    (hP : d.Stable t P)
    (h : ∀ s s', d.inv s → P s → C s s' → d.ok s s' → d.inv s' ∧ d.guar (some t) s s' ∧ P s')
    {s : σ} (hi : d.inv s) (hs : P s) : task.Safe d t (fun _ s => d.inv s ∧ P s) s := by
  induction task generalizing s with
  | ret a => exact fun s' hr => hP.others hr hi hs
  | fail e => exact fun s' hr => hP.others hr hi hs
  | step r u n ih =>
    intro s' hr _ i hok
    obtain ⟨hi', hs'⟩ := hP.others hr hi hs
    obtain ⟨hi'', hg, hs''⟩ := h s' (u i s') hi' hs' (hC i s').1 hok
    exact ⟨hi'', hg, ih i s' (hC i s').2 hi'' hs''⟩

/-- A phase that leaves the state alone. -/
theorem Safe.of_quiet {task : Task ι σ ε α} (hq : task.Quiet) (hg : ∀ s, d.guar (some t) s s)
    (hP : d.Stable t P) {s : σ} (hi : d.inv s) (hs : P s) :
    task.Safe d t (fun _ s => d.inv s ∧ P s) s :=
  Safe.of_only hq hP (fun _ _ hi hs h _ => by subst h; exact ⟨hi, hg _, hs⟩) hi hs

/-- A loop whose rounds give back what they start from. -/
theorem Safe.rounds (hP : d.Stable t P) {xs : List β} {f : β → Task ι σ ε Unit}
    (hf : ∀ x ∈ xs, ∀ s, d.inv s → P s → (f x).Safe d t (fun _ s => P s) s) {s : σ} (hi : d.inv s) (hs : P s) :
    (Task.forEach xs f).Safe d t (fun _ s => P s) s := by
  induction xs generalizing s with
  | nil => exact Safe.ret hP (fun _ _ h => h) hi hs
  | cons x xs ih =>
    refine Safe.bind hi (hf x (List.mem_cons_self ..) s hi hs) (fun _ s hi hs => ?_) (fun _ _ h => h)
    exact ih (fun y hy => hf y (List.mem_cons_of_mem _ hy)) hi hs

/-- A loop, from an assertion that every task keeps. -/
theorem Safe.forEach (hP : ∀ u s s', d.inv s → d.inv s' → d.guar u s s' → P s → P s')
    {xs : List β} {f : β → Task ι σ ε Unit}
    (hf : ∀ x ∈ xs, ∀ s, d.inv s → P s → (f x).Safe d t (fun _ _ => True) s) {s : σ} (hi : d.inv s) (hs : P s) :
    (Task.forEach xs f).Safe d t (fun _ s => P s) s :=
  Safe.rounds (fun s s' u _ => hP u s s')
    (fun x hx s hi hs => ((hf x hx s hi hs).frame hP hi hs).mono fun _ _ h => h.2) hi hs

/-- A phase that leaves the state alone, and what follows it whatever it found. -/
theorem Safe.quiet_bind {R : Except ε β → σ → Prop} {task : Task ι σ ε α} {f : α → Task ι σ ε β}
    (hq : task.Quiet) (hg : ∀ s, d.guar (some t) s s) (hP : d.Stable t P)
    (hf : ∀ a s, d.inv s → P s → (f a).Safe d t R s) (he : ∀ e s, d.inv s → P s → R (.error e) s)
    {s : σ} (hi : d.inv s) (hs : P s) : (task.bind f).Safe d t R s :=
  (Safe.of_quiet hq hg hP hi hs).bind hi (fun a s hi h => hf a s hi h.2) fun e s h => he e s h.1 h.2

end Task

/-! ## Every run -/

namespace System.Run

variable {S : System ι σ ε} {d : Discipline σ}

/-- What the runs of a system keep: the invariant, and of every task that it is
safe to go on, and that `out` holds of it before its start and after its end. -/
structure KeptOut (d : Discipline σ) (out : Nat → σ → Prop) (p : Pool ι σ ε) : Prop where
  inv : d.inv p.state
  tasks : ∀ t (task : Task ι σ ε Unit), p.tasks[t]? = some task → task.Safe d t (fun _ => out t) p.state
  next : ∀ t, p.tasks.length ≤ t → out t p.state

/-- The same, whatever the tasks leave. -/
def Kept (d : Discipline σ) (p : Pool ι σ ε) : Prop :=
  d.inv p.state ∧ ∀ t (task : Task ι σ ε Unit), p.tasks[t]? = some task → task.Safe d t (fun _ _ => True) p.state

theorem keptOut_true {p : Pool ι σ ε} : KeptOut d (fun _ _ => True) p ↔ Kept d p :=
  ⟨fun h => ⟨h.inv, h.tasks⟩, fun h => ⟨h.1, h.2, fun _ _ => trivial⟩⟩

section

variable {out : Nat → σ → Prop} {p₀ p p' : Pool ι σ ε} {m : Move ι S.Op S.Env}

/-- One move: by rely and guarantee, and nothing changes when an operation starts. -/
theorem keptOut_step (hout : ∀ t, d.Stable t (out t))
    (hprog : ∀ op, out p.tasks.length p.state → (S.prog p.tasks.length op).Safe d p.tasks.length
      (fun _ => out p.tasks.length) p.state)
    (henv : ∀ e s, d.inv s → d.ok s (S.env e s) → d.inv (S.env e s) ∧ d.guar none s (S.env e s))
    (hk : KeptOut d out p) (hm : S.step p m = some p') (hok : d.ok p.state p'.state) :
    KeptOut d out p' ∧ p.tasks.length ≤ p'.tasks.length ∧
      (p'.state = p.state ∨ ∃ u, (∀ t, p.tasks.length ≤ t → u ≠ some t) ∧ d.guar u p.state p'.state) := by
  cases m with
  | start op =>
    simp only [System.step, Option.some.injEq] at hm
    subst hm
    refine ⟨⟨hk.inv, fun t task ht => ?_, fun t ht => hk.next t ?_⟩, by simp, .inl rfl⟩
    · rcases Nat.lt_trichotomy t p.tasks.length with hlt | rfl | hgt
      · exact hk.tasks t task (by rwa [List.getElem?_append_left hlt] at ht)
      · rw [List.getElem?_concat_length, Option.some.injEq] at ht
        exact ht ▸ hprog op (hk.next _ (Nat.le_refl _))
      · rw [List.getElem?_eq_none (by rw [List.length_append, List.length_singleton]; omega)] at ht
        cases ht
    · rw [List.length_append] at ht
      omega
  | env e =>
    simp only [System.step, Option.some.injEq] at hm
    subst hm
    obtain ⟨hi, hg⟩ := henv e p.state hk.inv hok
    refine ⟨⟨hi, fun t task ht => (hk.tasks t task ht).rely ⟨hi, none, nofun, hg⟩, fun t ht => ?_⟩, Nat.le_refl _,
      .inr ⟨none, fun _ _ => nofun, hg⟩⟩
    exact hout t _ _ none nofun hk.inv hi hg (hk.next t ht)
  | run t i =>
    simp only [System.step] at hm
    split at hm <;> [skip; cases hm]
    rename_i r u n ht
    split at hm <;> [skip; cases hm]
    rename_i hready
    simp only [Option.some.injEq] at hm
    subst hm
    obtain ⟨hi, hg, hn⟩ := hk.tasks t _ ht p.state .refl hready i hok
    have hlt : t < p.tasks.length := (List.getElem?_eq_some_iff.mp ht).1
    have hne : ∀ t', p.tasks.length ≤ t' → some t ≠ some t' := fun t' ht' he => by
      obtain rfl := Option.some.inj he
      omega
    refine ⟨⟨hi, fun t' task ht' => ?_, fun t' ht' => ?_⟩, by simp, .inr ⟨some t, hne, hg⟩⟩
    · by_cases h : t = t'
      · subst h
        rw [List.getElem?_set_self hlt, Option.some.injEq] at ht'
        exact ht' ▸ hn
      · rw [List.getElem?_set_ne h] at ht'
        exact (hk.tasks t' task ht').rely ⟨hi, some t, by simpa using h, hg⟩
    · rw [List.length_set] at ht'
      exact hout t' _ _ (some t) (hne t' ht') hk.inv hi hg (hk.next t' ht')

/-- Programs that are safe one by one are safe together, along every run. -/
theorem safeOut (hout : ∀ t, d.Stable t (out t))
    (hprog : ∀ t op s, d.inv s → out t s → (S.prog t op).Safe d t (fun _ => out t) s)
    (henv : ∀ e s, d.inv s → d.ok s (S.env e s) → d.inv (S.env e s) ∧ d.guar none s (S.env e s))
    (h₀ : d.inv p₀.state) (hout₀ : ∀ t, out t p₀.state) (ht : p₀.tasks = []) (h : S.Run d.ok p₀ p) :
    KeptOut d out p := by
  induction h with
  | refl => exact ⟨h₀, fun t task h => by simp [ht] at h, fun t _ => hout₀ t⟩
  | step m _ hm hok ih => exact (keptOut_step hout (fun op => hprog _ op _ ih.inv) henv ih hm hok).1

/-- Where every task has ended, `out` holds of all. -/
theorem KeptOut.ended (hk : KeptOut d out p) (h : ∀ task ∈ p.tasks, task.Ended) (t : Nat) : out t p.state := by
  cases ht : p.tasks[t]? with
  | none => exact hk.next t (List.getElem?_eq_none_iff.mp ht)
  | some task =>
    have hs := hk.tasks t task ht
    have hend := h task (List.mem_of_getElem? ht)
    cases task with
    | ret a => exact hs p.state .refl
    | fail e => exact hs p.state .refl
    | step r u n => exact hend.elim

theorem kept_step (hprog : ∀ op, (S.prog p.tasks.length op).Safe d p.tasks.length (fun _ _ => True) p.state)
    (henv : ∀ e s, d.inv s → d.ok s (S.env e s) → d.inv (S.env e s) ∧ d.guar none s (S.env e s))
    (hk : Kept d p) (hm : S.step p m = some p') (hok : d.ok p.state p'.state) :
    Kept d p' ∧ p.tasks.length ≤ p'.tasks.length ∧
      (p'.state = p.state ∨ ∃ u, (∀ t, p.tasks.length ≤ t → u ≠ some t) ∧ d.guar u p.state p'.state) := by
  rw [← keptOut_true] at hk ⊢
  exact keptOut_step (fun _ => Discipline.stable_const True) (fun op _ => hprog op) henv hk hm hok

theorem safe (hprog : ∀ t op s, d.inv s → (S.prog t op).Safe d t (fun _ _ => True) s)
    (henv : ∀ e s, d.inv s → d.ok s (S.env e s) → d.inv (S.env e s) ∧ d.guar none s (S.env e s))
    (h₀ : d.inv p₀.state) (ht : p₀.tasks = []) (h : S.Run d.ok p₀ p) : Kept d p :=
  keptOut_true.mp (safeOut (fun _ => Discipline.stable_const True) (fun t op s hi _ => hprog t op s hi) henv h₀
    (fun _ => trivial) ht h)

end

/-- A run that stays in `P` ends in it. -/
theorem last {P : σ → Prop} {p₀ p : Pool ι σ ε} (h : S.Run (fun _ s' => P s') p₀ p) (h₀ : P p₀.state) : P p.state := by
  cases h with
  | refl => exact h₀
  | step _ _ _ hs => exact hs

/-- A run's moves are of the kind of the programs' steps. -/
theorem only {C ok : σ → σ → Prop} {p₀ p : Pool ι σ ε} (hprog : ∀ t op, (S.prog t op).Only C)
    (henv : ∀ e s, C s (S.env e s)) (hrefl : ∀ s, C s s) (ht : p₀.tasks = []) (h : S.Run ok p₀ p) :
    S.Run (fun s s' => ok s s' ∧ C s s') p₀ p ∧ ∀ task ∈ p.tasks, task.Only C := by
  induction h with
  | refl => exact ⟨.refl, fun task h => by simp [ht] at h⟩
  | step m _ hm hok ih =>
    obtain ⟨hrun, htasks⟩ := ih
    cases m with
    | start op =>
      have hp := hm
      simp only [System.step, Option.some.injEq] at hm
      subst hm
      refine ⟨hrun.step (.start op) hp ⟨hok, hrefl _⟩, fun task h => ?_⟩
      rcases List.mem_append.mp h with h | h
      · exact htasks task h
      · exact List.mem_singleton.mp h ▸ hprog _ op
    | env e =>
      have hp := hm
      simp only [System.step, Option.some.injEq] at hm
      subst hm
      exact ⟨hrun.step (.env e) hp ⟨hok, henv e _⟩, htasks⟩
    | run t i =>
      have hp := hm
      simp only [System.step] at hm
      split at hm <;> [skip; cases hm]
      rename_i r u n ht
      split at hm <;> [skip; cases hm]
      simp only [Option.some.injEq] at hm
      subst hm
      have honly := htasks _ (List.mem_of_getElem? ht) i
      refine ⟨hrun.step (.run t i) hp ⟨hok, (honly _).1⟩, fun task h => ?_⟩
      rcases List.mem_or_eq_of_mem_set h with h | rfl
      · exact htasks task h
      · exact (honly _).2

/-- Where a step of the kind keeps `P` exactly if it is one of `U`, the runs that
stay in `P` are the runs of such steps. -/
theorem holds_iff {C U : σ → σ → Prop} {P : σ → Prop} {p₀ p : Pool ι σ ε} (hprog : ∀ t op, (S.prog t op).Only C)
    (henv : ∀ e s, C s (S.env e s)) (hrefl : ∀ s, C s s) (hU : ∀ s s', C s s' → P s → (U s s' ↔ P s'))
    (h₀ : P p₀.state) (ht : p₀.tasks = []) : S.Run (fun _ s' => P s') p₀ p ↔ S.Run U p₀ p := by
  constructor
  · intro h
    have hrun := (h.only hprog henv hrefl ht).1
    clear h
    induction hrun with
    | refl => exact .refl
    | step m h hm hok ih => exact ih.step m hm ((hU _ _ hok.2 ((h.mono fun _ _ h => h.1).last h₀)).mpr hok.1)
  · intro h
    have hrun := (h.only hprog henv hrefl ht).1
    clear h
    induction hrun with
    | refl => exact .refl
    | step m _ hm hok ih => exact ih.step m hm ((hU _ _ hok.2 (ih.last h₀)).mp hok.1)

end System.Run

end Await
