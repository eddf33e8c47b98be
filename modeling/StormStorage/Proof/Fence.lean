import StormStorage.Fence

/-!
# What a leg's fences come to

Fences and attaches of one leg run side by side, and others fence it too. The
epochs that fences brought the leg to are all different, so that two calls are
never told the same one; nothing that names an older epoch is let in once a
call was told its own; and a call gives up only where its answers were lost or
two other fences came between its calls: `fences_apart`.

* `Inv`: what the log and the epoch say of one another; `inv_note`, `inv_raise`
  are what keeps it;
* `Seen`: what a call knows between its rounds, which the others keep.
-/

namespace StormStorage.LegFence

open Await

/-! ## The log -/

/-- What a call comes to: it fenced the leg past what it read first; or not all
of its calls were answered; or it fenced nothing, and twice the leg was fenced
after it read. -/
def Came (t : Nat) (log : List Event) : Except String Nat → Prop
  | .ok e => .raised (some t) e ∈ log ∧ ∃ x, .read t x ∈ log ∧ x < e
  | .error _ => .missed t ∈ log ∨ (∀ e, .raised (some t) e ∉ log) ∧
      ∃ x, .read t x ∈ log ∧ ∀ e, x < e → e ≤ x + 2 → ∃ who, .raised who e ∈ log

/-- What is let in after a call was told its epoch names none before it. -/
def Shut (log : List Event) : Prop :=
  log.Pairwise fun a b => ∀ me e e', a = .told me (.ok e) → b = .attached (some e') → e ≤ e'

/-- The log of a leg whose epoch was `base`. -/
structure Inv (base : Nat) (s : Leg) : Prop where
  base_le : base ≤ s.epoch
  between : ∀ who e, .raised who e ∈ s.log → base < e ∧ e ≤ s.epoch
  full : ∀ e, base < e → e ≤ s.epoch → ∃ who, .raised who e ∈ s.log
  single : ∀ who who' e, .raised who e ∈ s.log → .raised who' e ∈ s.log → who = who'
  once : ∀ me e e', .raised (some me) e ∈ s.log → .raised (some me) e' ∈ s.log → e = e'
  reads : ∀ me x, .read me x ∈ s.log → base ≤ x
  came : ∀ me r, .told me r ∈ s.log → Came me s.log r
  shut : Shut s.log

/-- The call has neither fenced nor answered. -/
def Silent (t : Nat) (s : Leg) : Prop := (∀ e, .raised (some t) e ∉ s.log) ∧ ∀ r, .told t r ∉ s.log

variable {base t : Nat} {id : String} {s s' : Leg} {e : Event} {u : Option Nat}

theorem Came.append {log es : List Event} {r : Except String Nat} (h : Came t log r)
    (hes : ∀ e, .raised (some t) e ∉ es) : Came t (log ++ es) r := by
  cases r with
  | ok e =>
    obtain ⟨hr, x, hx, hlt⟩ := h
    exact ⟨List.mem_append_left _ hr, x, List.mem_append_left _ hx, hlt⟩
  | error m =>
    rcases h with h | ⟨hno, x, hx, hall⟩
    · exact .inl (List.mem_append_left _ h)
    · refine .inr ⟨fun e he => ?_, x, List.mem_append_left _ hx, fun e hlt hle => ?_⟩
      · exact (List.mem_append.mp he).elim (hno e) (hes e)
      · obtain ⟨who, hw⟩ := hall e hlt hle
        exact ⟨who, List.mem_append_left _ hw⟩

/-- What may be noted of a leg as it is. -/
def Notable (s : Leg) : Event → Prop
  | .read _ x => x = s.epoch
  | .raised _ _ => False
  | .missed _ => True
  | .told me r => Came me s.log r
  | .attached epoch => ∀ x ∈ epoch, x = s.epoch

theorem inv_note (h : Inv base s) (he : Notable s e) : Inv base (s.note e) := by
  have hmem : ∀ {who x}, .raised who x ∈ s.log ++ [e] → .raised who x ∈ s.log := by
    intro who x hx
    rcases List.mem_append.mp hx with hx | hx
    · exact hx
    · rw [← List.mem_singleton.mp hx] at he
      exact he.elim
  refine ⟨h.base_le, fun who x hx => h.between who x (hmem hx), fun x hlt hle => ?_,
    fun who who' x hx hx' => h.single who who' x (hmem hx) (hmem hx'),
    fun me x x' hx hx' => h.once me x x' (hmem hx) (hmem hx'), fun me x hx => ?_, fun me r hr => ?_, ?_⟩
  · obtain ⟨who, hw⟩ := h.full x hlt hle
    exact ⟨who, List.mem_append_left _ hw⟩
  · rcases List.mem_append.mp hx with hx | hx
    · exact h.reads me x hx
    · rw [← List.mem_singleton.mp hx] at he
      exact he ▸ h.base_le
  · have hcame : Came me s.log r := by
      rcases List.mem_append.mp hr with hr | hr
      · exact h.came me r hr
      · rw [← List.mem_singleton.mp hr] at he
        exact he
    refine hcame.append fun x hx => ?_
    rw [← List.mem_singleton.mp hx] at he
    exact he.elim
  · refine List.pairwise_append.mpr ⟨h.shut, List.pairwise_singleton .., fun a ha b hb me x x' hax hbx => ?_⟩
    subst hax
    rw [List.mem_singleton.mp hb] at hbx
    subst hbx
    rw [he x' rfl]
    exact (h.between _ _ (h.came me (.ok x) ha).1).2

theorem inv_raise {who : Option Nat} (h : Inv base s) (hw : ∀ t ∈ who, Silent t s) : Inv base (s.raise who) := by
  have hmem : ∀ {w x}, .raised w x ∈ s.log ++ [.raised who (s.epoch + 1)] →
      .raised w x ∈ s.log ∨ w = who ∧ x = s.epoch + 1 := by
    intro w x hx
    rcases List.mem_append.mp hx with hx | hx
    · exact .inl hx
    · cases List.mem_singleton.mp hx
      exact .inr ⟨rfl, rfl⟩
  have hbase := h.base_le
  refine ⟨?_, fun w x hx => ?_, fun x hlt hle => ?_, fun w w' x hx hx' => ?_, fun me x x' hx hx' => ?_,
    fun me x hx => ?_, fun me r hr => ?_, ?_⟩
  · show base ≤ s.epoch + 1
    omega
  · show base < x ∧ x ≤ s.epoch + 1
    rcases hmem hx with hx | ⟨-, rfl⟩
    · have := h.between w x hx
      omega
    · omega
  · change x ≤ s.epoch + 1 at hle
    rcases Nat.lt_or_ge s.epoch x with hx | hx
    · obtain rfl : x = s.epoch + 1 := by omega
      exact ⟨who, List.mem_append_right _ (List.mem_singleton_self _)⟩
    · obtain ⟨w, hw⟩ := h.full x hlt hx
      exact ⟨w, List.mem_append_left _ hw⟩
  · rcases hmem hx with hx | ⟨hwho, he⟩ <;> rcases hmem hx' with hx' | ⟨hwho', he'⟩
    · exact h.single w w' x hx hx'
    · have := (h.between w x hx).2
      omega
    · have := (h.between w' x hx').2
      omega
    · rw [hwho, hwho']
  · rcases hmem hx with hx | ⟨hme, rfl⟩ <;> rcases hmem hx' with hx' | ⟨hme', rfl⟩
    · exact h.once me x x' hx hx'
    · exact absurd hx ((hw me hme'.symm).1 x)
    · exact absurd hx' ((hw me hme.symm).1 x')
    · rfl
  · rcases List.mem_append.mp hx with hx | hx
    · exact h.reads me x hx
    · cases List.mem_singleton.mp hx
  · rcases List.mem_append.mp hr with htold | htold
    · refine (h.came me r htold).append fun x hx => ?_
      obtain ⟨rfl, -⟩ := Event.raised.inj (List.mem_singleton.mp hx)
      exact (hw me rfl).2 r htold
    · cases List.mem_singleton.mp htold
  · refine List.pairwise_append.mpr ⟨h.shut, List.pairwise_singleton .., fun a _ b hb me x x' _ hbx => ?_⟩
    subst hbx
    cases List.mem_singleton.mp hb

/-! ## One call -/

/-- A step of `u`: the log and the epoch grow, and no other call fences or
answers in it. -/
def Grows (u : Option Nat) (s s' : Leg) : Prop :=
  s.epoch ≤ s'.epoch ∧ ∃ es, s'.log = s.log ++ es ∧
    ∀ t, u ≠ some t → (∀ e, .raised (some t) e ∉ es) ∧ ∀ r, .told t r ∉ es

def discipline (base : Nat) : Discipline Leg where
  inv := Inv base
  ok _ _ := True
  guar := Grows

/-- Between its rounds the call has fenced nothing, and what it was told last is
`k` past what it read first. -/
def Seen (t k x : Nat) (s : Leg) : Prop := Silent t s ∧ x ≤ s.epoch ∧ ∃ x₀, .read t x₀ ∈ s.log ∧ x₀ + k ≤ x

theorem Grows.silent (h : Grows u s s') (hu : u ≠ some t) (hs : Silent t s) : Silent t s' := by
  obtain ⟨-, es, hlog, hes⟩ := h
  obtain ⟨hraised, htold⟩ := hes t hu
  rw [Silent, hlog]
  refine ⟨fun e he => ?_, fun r hr => ?_⟩
  · exact (List.mem_append.mp he).elim (hs.1 e) (hraised e)
  · exact (List.mem_append.mp hr).elim (hs.2 r) (htold r)

theorem stable_silent : (discipline base).Stable t (Silent t) := fun _ _ _ hu _ _ hg hs => hg.silent hu hs

theorem stable_seen {k x : Nat} : (discipline base).Stable t (Seen t k x) := by
  intro s s' u hu _ _ hg ⟨hsilent, hx, x₀, hread, hk⟩
  refine ⟨hg.silent hu hsilent, Nat.le_trans hx hg.1, x₀, ?_, hk⟩
  obtain ⟨-, es, hlog, -⟩ := hg
  rw [hlog]
  exact List.mem_append_left _ hread

theorem stable_came {r : Except String Nat} : (discipline base).Stable t fun s => Came t s.log r := by
  intro s s' u hu _ _ ⟨_, es, hlog, hes⟩ h
  rw [hlog]
  exact h.append (hes t hu).1

theorem grows_refl (u : Option Nat) (s : Leg) : Grows u s s :=
  ⟨Nat.le_refl _, [], (List.append_nil _).symm, fun _ _ => ⟨fun _ => List.not_mem_nil, fun _ => List.not_mem_nil⟩⟩

theorem Grows.trans {u : Option Nat} {s s' s'' : Leg} (h : Grows u s s') (h' : Grows u s' s'') : Grows u s s'' := by
  obtain ⟨hle, es, hlog, hes⟩ := h
  obtain ⟨hle', es', hlog', hes'⟩ := h'
  refine ⟨Nat.le_trans hle hle', es ++ es', by rw [hlog', hlog, List.append_assoc], fun t ht => ?_⟩
  refine ⟨fun e he => ?_, fun r hr => ?_⟩
  · exact (List.mem_append.mp he).elim ((hes t ht).1 e) ((hes' t ht).1 e)
  · exact (List.mem_append.mp hr).elim ((hes t ht).2 r) ((hes' t ht).2 r)

theorem grows_raise (u : Option Nat) (s : Leg) : Grows u s (s.raise u) := by
  refine ⟨Nat.le_succ _, _, rfl, fun t ht => ⟨fun e he => ?_, fun r hr => ?_⟩⟩
  · cases List.mem_singleton.mp he
    exact ht rfl
  · cases List.mem_singleton.mp hr

theorem grows_note {u : Option Nat} (s : Leg) (hraised : ∀ who e', e ≠ .raised who e')
    (htold : ∀ t r, e = .told t r → u = some t) : Grows u s (s.note e) := by
  refine ⟨Nat.le_refl _, _, rfl, fun t ht => ⟨fun e' he => ?_, fun r hr => ?_⟩⟩
  · exact hraised _ _ (List.mem_singleton.mp he).symm
  · exact ht (htold t r (List.mem_singleton.mp hr).symm)

theorem inv_noted {i : Fate} (h : Inv base s) : Inv base (i.noted t s) := by
  cases i with
  | answered => exact h
  | garbled => exact inv_note h trivial
  | lost reached => exact inv_note h trivial
  | failed status body => exact inv_note h trivial

theorem grows_noted {i : Fate} : Grows (some t) s (i.noted t s) := by
  have h : Grows (some t) s (s.note (.missed t)) := grows_note s (by simp) (by simp)
  cases i with
  | answered => exact grows_refl _ s
  | garbled => exact h
  | lost reached => exact h
  | failed status body => exact h

theorem missed_noted {i : Fate} (hi : i ≠ .answered) : .missed t ∈ (i.noted t s).log := by
  have h : .missed t ∈ (s.note (.missed t)).log := List.mem_append_right _ (List.mem_singleton_self _)
  cases i with
  | answered => exact absurd rfl hi
  | garbled => exact h
  | lost reached => exact h
  | failed status body => exact h

/-! ### What is read of an answer -/

theorem readFence_answered (path : String) (x : Nat) (s : Leg) :
    readFence path (some (postFence x s)) = .ok (if x = s.epoch then .fenced (s.epoch + 1) else .stale s.epoch) := by
  unfold postFence
  split <;> rfl

theorem readFence_missed {i : Fate} (hi : i ≠ .answered) (path : String) (r : Response) :
    ∃ m, readFence path (i.back r) = .error m := by
  have hnone : ∀ status body, ∃ m, readFence path (some { status := status, body := body }) = .error m := by
    intro status body
    simp only [readFence, Option.isSome_none, Bool.false_eq_true, and_false, if_false]
    split
    · exact ⟨_, rfl⟩
    · split <;> exact ⟨_, rfl⟩
  cases i with
  | answered => exact absurd rfl hi
  | garbled => exact hnone _ _
  | lost reached => exact ⟨_, rfl⟩
  | failed status body => exact hnone _ _

theorem readEpoch_missed {i : Fate} (hi : i ≠ .answered) (id : String) (r : Response) :
    ∃ m, readEpoch id (i.back r) = .error m := by
  have hnone : ∀ status body, ∃ m, readEpoch id (some { status := status, body := body }) = .error m := by
    intro status body
    simp only [readEpoch]
    split
    · exact ⟨_, rfl⟩
    · cases body <;> exact ⟨_, rfl⟩
  cases i with
  | answered => exact absurd rfl hi
  | garbled => exact hnone _ _
  | lost reached => exact ⟨_, rfl⟩
  | failed status body => exact hnone _ _

/-! ### The rounds -/

/-- Once two epochs came after the first reading, others brought them. -/
theorem came_moved {x : Nat} (m : String) (hi : Inv base s) (h : Seen t 2 x s) : Came t s.log (.error m) := by
  obtain ⟨hsilent, hx, x₀, hread, hk⟩ := h
  refine .inr ⟨hsilent.1, x₀, hread, fun e hlt hle => hi.full e ?_ ?_⟩
  · have := hi.reads t x₀ hread
    omega
  · omega

/-- The swap, made or not. -/
theorem inv_hit (hit : Bool) (hi : Inv base s) (hs : Silent t s) :
    Inv base (if hit then s.raise (some t) else s) ∧ Grows (some t) s (if hit then s.raise (some t) else s) := by
  cases hit with
  | true => exact ⟨inv_raise hi fun _ h => Option.some.inj h ▸ hs, grows_raise _ s⟩
  | false => exact ⟨hi, grows_refl _ s⟩

theorem fenceRounds_safe (rounds : Nat) {k x : Nat} (hk : rounds + k = 2) (hi : Inv base s) (hs : Seen t k x s) :
    (fenceRounds t id rounds x).Safe (discipline base) t (fun r s => Came t s.log r) s := by
  induction rounds generalizing k x s with
  | zero =>
    obtain rfl : k = 2 := by omega
    exact Task.Safe.fail stable_seen (fun s hi h => came_moved _ hi h) hi hs
  | succ rounds ih =>
    refine Task.Safe.step stable_seen (fun s i hi hs _ _ => ?_) hi hs
    by_cases ha : i = .answered
    · subst ha
      simp only [Fate.noted, Fate.reached, Fate.back, true_and, readFence_answered, Task.ofExcept, Task.ret_bind]
      by_cases hx : x = s.epoch
      · simp only [hx, if_true]
        obtain ⟨hsilent, -, x₀, hread, hle⟩ := hs
        have hi' : Inv base (s.raise (some t)) := inv_raise hi fun _ h => Option.some.inj h ▸ hsilent
        have hcame : Came t (s.raise (some t)).log (.ok (s.epoch + 1)) :=
          ⟨List.mem_append_right _ (List.mem_singleton_self _), x₀, List.mem_append_left _ hread, by omega⟩
        exact ⟨hi', grows_raise _ s, Task.Safe.ret stable_came (fun _ _ h => h) hi' hcame⟩
      · simp only [hx, if_false]
        obtain ⟨hsilent, hle, x₀, hread, hk'⟩ := hs
        exact ⟨hi, grows_refl _ s, ih (k := k + 1) (by omega) hi ⟨hsilent, Nat.le_refl _, x₀, hread, by omega⟩⟩
    · obtain ⟨m, hm⟩ := readFence_missed ha s!"/v1/volumes/{id}/fence" (postFence x s)
      simp only [hm, Task.ofExcept, Task.fail_bind]
      obtain ⟨hi', hg⟩ := inv_hit (decide (i.reached ∧ x = s.epoch)) hi hs.1
      simp only [decide_eq_true_eq] at hi' hg
      refine ⟨inv_noted hi', hg.trans grows_noted, Task.Safe.fail stable_came (fun _ _ h => h) (inv_noted hi') ?_⟩
      exact .inl (missed_noted ha)

theorem fenceLeg_safe (hi : Inv base s) (hs : Silent t s) :
    (fenceLeg t id).Safe (discipline base) t (fun r s => Came t s.log r) s := by
  refine Task.Safe.step stable_silent (fun s i hi hs _ _ => ?_) hi hs
  have hi' : Inv base (s.note (.read t s.epoch)) := inv_note hi rfl
  have hg : Grows (some t) s (s.note (.read t s.epoch)) := grows_note s (by simp) (by simp)
  by_cases ha : i = .answered
  · subst ha
    have hsilent : Silent t (s.note (.read t s.epoch)) := by simpa [Silent, Leg.note] using hs
    have hseen : Seen t 0 s.epoch (s.note (.read t s.epoch)) :=
      ⟨hsilent, Nat.le_refl _, s.epoch, List.mem_append_right _ (List.mem_singleton_self _), Nat.le_refl _⟩
    exact ⟨hi', hg, fenceRounds_safe 2 rfl hi' hseen⟩
  · obtain ⟨m, hm⟩ := readEpoch_missed ha id (getVolume s)
    simp only [hm, Task.ofExcept, Task.fail_bind]
    refine ⟨inv_noted hi', hg.trans grows_noted, Task.Safe.fail stable_came (fun _ _ h => h) (inv_noted hi') ?_⟩
    exact .inl (missed_noted ha)

theorem attachLeg_safe {epoch : Option Nat} (hi : Inv base s) :
    (attachLeg epoch).Safe (discipline base) t (fun _ _ => True) s := by
  refine Task.Safe.step (Discipline.stable_const True) (fun s i hi _ _ _ => ?_) hi trivial
  split
  · rename_i h
    have hepoch : Notable s (.attached epoch) := fun x hx => by
      have := h.2
      rw [Option.mem_def.mp hx, Option.all_some, decide_eq_true_eq] at this
      exact this
    exact ⟨inv_note hi hepoch, grows_note s (by simp) (by simp), fun _ _ => trivial⟩
  · exact ⟨hi, grows_refl _ s, fun _ _ => trivial⟩

theorem program_safe (op : Request) (hi : Inv base s) (hs : Silent t s) :
    (program id t op).Safe (discipline base) t (fun _ _ => True) s := by
  cases op with
  | attach epoch => exact attachLeg_safe hi
  | fence =>
    refine Task.Safe.attempt_bind hi (fenceLeg_safe hi hs) fun r s hi hcame => ?_
    refine Task.Safe.step stable_came (fun s _ hi hcame _ _ => ?_) hi hcame
    exact ⟨inv_note hi hcame, grows_note s (by simp) (by simp), fun _ _ => trivial⟩

/-! ## Every run -/

theorem inv_start (base : Nat) : Inv base { epoch := base } where
  base_le := Nat.le_refl _
  between := by simp
  full e hlt hle := by
    change e ≤ base at hle
    omega
  single := by simp
  once := by simp
  reads := by simp
  came := by simp
  shut := .nil

theorem inv_foreign (hi : Inv base s) : Inv base (s.raise none) := inv_raise hi (by simp)

theorem kept_run {p : Pool Fate Leg String} (h : (calls id).Run (fun _ _ => True) ⟨{ epoch := base }, []⟩ p) :
    System.Run.Kept (discipline base) p ∧ ∀ t, p.tasks.length ≤ t → Silent t p.state := by
  induction h with
  | refl =>
    exact ⟨⟨inv_start base, fun t task ht => by simp at ht⟩,
      fun t _ => ⟨fun _ => List.not_mem_nil, fun _ => List.not_mem_nil⟩⟩
  | step mv _ hstep hok ih =>
    obtain ⟨hk, hlen, hsame | ⟨u, hu, hg⟩⟩ := System.Run.kept_step (S := calls id) (d := discipline base)
      (fun op => program_safe op ih.1.1 (ih.2 _ (Nat.le_refl _)))
      (fun _ s hi _ => ⟨inv_foreign hi, grows_raise none s⟩) ih.1 hstep hok
    · exact ⟨hk, fun t ht => hsame ▸ ih.2 t (Nat.le_trans hlen ht)⟩
    · exact ⟨hk, fun t ht => hg.silent (hu t (Nat.le_trans hlen ht)) (ih.2 t (Nat.le_trans hlen ht))⟩

/-- Whatever fences and attaches run side by side, and whoever else fences the
leg: no two calls are told one epoch, each call comes to what it says, none
fences twice, and nothing that names an epoch before a call's is let in after. -/
theorem fences_apart {id : String} {base : Nat} {p : Pool Fate Leg String}
    (h : (calls id).Run (fun _ _ => True) ⟨{ epoch := base }, []⟩ p) :
    (∀ me me' e, .told me (.ok e) ∈ p.state.log → .told me' (.ok e) ∈ p.state.log → me = me') ∧
      (∀ me r, .told me r ∈ p.state.log → Came me p.state.log r) ∧
      (∀ me e e', .raised (some me) e ∈ p.state.log → .raised (some me) e' ∈ p.state.log → e = e') ∧
      Shut p.state.log := by
  have hi : Inv base p.state := (kept_run h).1.1
  refine ⟨fun me me' e he he' => ?_, hi.came, hi.once, hi.shut⟩
  exact Option.some.inj (hi.single _ _ e (hi.came me _ he).1 (hi.came me' _ he').1)

/-- Two fences at once; one reads before the other swaps, and swaps again. The
attach names the epoch from before the first. -/
def race : List (Move Fate Request Unit) :=
  [.start .fence, .start .fence, .run 0 .answered, .run 1 .answered, .run 0 .answered, .run 1 .answered,
    .run 1 .answered, .run 0 .answered, .run 1 .answered, .start (.attach (some 1)), .run 2 .answered]

theorem fences_apart_race : ∃ p, (calls "v").Run (fun _ _ => True) ⟨{ epoch := 1 }, []⟩ p ∧ p.state.epoch = 3 ∧
    (∀ me me' e, .told me (.ok e) ∈ p.state.log → .told me' (.ok e) ∈ p.state.log → me = me') ∧
      (∀ me r, .told me r ∈ p.state.log → Came me p.state.log r) ∧
      (∀ me e e', .raised (some me) e ∈ p.state.log → .raised (some me) e' ∈ p.state.log → e = e') ∧
      Shut p.state.log := by
  have hrun : (calls "v").Run (fun _ _ => True) ⟨{ epoch := 1 }, []⟩
      ((calls "v").final (fun _ _ => true) ⟨{ epoch := 1 }, []⟩ race) :=
    System.run_final (fun _ _ _ => trivial) (by decide)
  exact ⟨_, hrun, by decide, fences_apart hrun⟩

end StormStorage.LegFence
