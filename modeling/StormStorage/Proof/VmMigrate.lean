import StormStorage.VmMigrate
import Std.Data.String.ToNat

/-!
# A migration keeps one of its copies

`Standing` is what the record of a migration and its history say: the record,
and which copies its steps deleted. The invariant `Sane` of each standing is
kept by the holder of the migration's claim, and the others leave the standing
alone or forget a terminal record (`Guar`).

* `own_step`: a step of the claim's holder, by what it does to the standing;
* `update_safe`, `deleteCopy_safe`, `markAborting_safe`: the steps that change it;
* `advance_safe`, `cutover_safe`, `complete_safe`, `abort_safe`, `retry_safe`:
  the programs;
* `copies_spared`: no migration's steps delete both copies, unless an abort is
  asked of a cut-over whose source a complete has deleted already.
-/

namespace StormStorage.VmMigrate

open Await Task

/-! ## Standings -/

structure Standing where
  record : Option VmMigration
  source : Bool
  target : Bool

def standing (w : AppState) (id : String) : Standing where
  record := w.fed.vmMigrations[id]?
  source := deleted w id .source
  target := deleted w id .target

/-- What a migration's record and history say of each other. The last case is
a start that failed and undoes what it made. -/
structure Sane (claimed : Bool) (s : Standing) : Prop where
  spared : ¬(s.source = true ∧ s.target = true)
  retired : ∀ m, s.record = some m → s.source = true →
    (m.state = .cutOver ∨ m.state = .completed) ∧ m.aborting = false
  undone : ∀ m, s.record = some m → s.target = true →
    m.aborting = true ∨ m.state = .aborted ∨ claimed = true ∧ m.state = .starting

/-- This id was given to a migration. -/
def Issued (w : AppState) (id : String) : Prop := ∃ ms k : Nat, k < w.seq ∧ id = VmMigration.newId ms k

def holder (w : AppState) (id : String) : Option Claim := w.replacing[VmMigration.claimKey id]?

structure Inv (w : AppState) : Prop where
  sane : ∀ id, Sane (holder w id).isSome (standing w id)
  named : ∀ id m, (standing w id).record = some m → m.id = id
  issued : ∀ id, (standing w id).record.isSome ∨ (∃ c, deleted w id c = true) ∨ (holder w id).isSome →
    Issued w id

/-- No abort was asked of a cut-over whose source was deleted already. -/
def Timely (log : List Event) : Prop := ∀ id, .aborting id true ∉ log

/-- From one standing to a later one. -/
structure Later (s s' : Standing) : Prop where
  gone : s.record = none → s'.record = none
  terminal : ∀ m m', s.record = some m → m.state.terminal = true → s'.record = some m' → m'.state.terminal = true

/-- The same, but that a terminal record may be forgotten. -/
def Alike (s s' : Standing) : Prop :=
  s' = s ∨ s' = { s with record := none } ∧ ∃ m, s.record = some m ∧ m.state.terminal = true

structure Guar (u : Option Nat) (w w' : AppState) : Prop where
  seq : w.seq ≤ w'.seq
  later : ∀ id, Issued w id → Later (standing w id) (standing w' id)
  /-- The standing of a claimed migration is its holder's. -/
  mine : ∀ id t, holder w id = some ⟨t⟩ → u ≠ some t →
    holder w' id = some ⟨t⟩ ∧ Alike (standing w id) (standing w' id)

def discipline : Discipline AppState where
  inv := Inv
  ok _ w' := Timely w'.log
  guar := Guar

variable {me : Nat} {w w' : AppState} {id : String} {u : Option Nat}

theorem Later.refl (s : Standing) : Later s s where
  gone := id
  terminal m m' h ht h' := by
    obtain rfl : m = m' := Option.some.inj (h.symm.trans h')
    exact ht

theorem Guar.refl (u : Option Nat) (w : AppState) : Guar u w w :=
  ⟨Nat.le_refl _, fun _ _ => .refl _, fun _ _ h _ => ⟨h, .inl rfl⟩⟩

theorem Issued.mono (h : w.seq ≤ w'.seq) (hi : Issued w id) : Issued w' id := by
  obtain ⟨ms, k, hk, he⟩ := hi
  exact ⟨ms, k, by omega, he⟩

theorem claimKey_inj {i j : String} (h : VmMigration.claimKey i = VmMigration.claimKey j) : i = j := by
  have h := congrArg String.toList h
  simp only [VmMigration.claimKey, String.toList_append, List.append_cancel_left_eq] at h
  exact String.toList_injective h

/-- Ids of different numbers differ. -/
theorem seq_of_id_eq {ms ms' k k' : Nat} (h : VmMigration.newId ms k = VmMigration.newId ms' k') : k = k' := by
  have hd (n : Nat) : '-' ∉ n.repr.toList := fun hm =>
    absurd (Nat.isDigit_of_mem_toDigits (b := 10) (n := n) (by decide) (by decide) (by simpa using hm)) (by decide)
  have h := congrArg String.toList h
  rw [VmMigration.newId, VmMigration.newId] at h
  have hsep : (toString "-").toList = ['-'] := rfl
  simp only [Nat.toString_eq_repr, String.toList_append, List.append_assoc, List.append_cancel_left_eq, hsep,
    List.singleton_append] at h
  exact Nat.repr_injective (String.toList_injective ((List.append_cons_inj_of_notMem (hd ms) (hd k)).mp h).2.2)

theorem fresh_not_issued (w : AppState) (ms : Nat) : ¬ Issued w (VmMigration.newId ms w.seq) := by
  rintro ⟨ms', k, hk, h⟩
  have := seq_of_id_eq h
  omega

/-! ## What a step does to a standing -/

theorem standing_insert (w : AppState) (id : String) (m : VmMigration) (j : String) :
    standing (w.revise fun fed => { fed with vmMigrations := fed.vmMigrations.insert id m }) j =
      if id = j then { standing w j with record := some m } else standing w j := by
  simp only [standing, AppState.revise, AppState.setFed, KeyMap.get_insert, deleted]
  split <;> rfl

theorem standing_erase (w : AppState) (id j : String) :
    standing (w.revise fun fed => { fed with vmMigrations := fed.vmMigrations.erase id }) j =
      if id = j then { standing w j with record := none } else standing w j := by
  simp only [standing, AppState.revise, AppState.setFed, KeyMap.get_erase, deleted]
  split <;> rfl

theorem deleted_note (w : AppState) (e : Event) (j : String) (c : Copy) :
    deleted (w.note e) j c = (deleted w j c || match e with
      | .copyDeleted i c' _ _ => decide (i = j ∧ c' = c)
      | _ => false) := by
  cases e <;> simp [deleted, AppState.note]

/-- A step of the holder of a claim, by what it does to the standing. -/
theorem own_step (hi : Inv w) (ho : holder w id = some ⟨me⟩) (w' : AppState) (hseq : w'.seq = w.seq)
    (hclaim : ∀ j, holder w' j = holder w j) (hother : ∀ j, j ≠ id → standing w' j = standing w j)
    (hsane : Sane true (standing w' id)) (hnamed : ∀ m, (standing w' id).record = some m → m.id = id)
    (hlater : Later (standing w id) (standing w' id)) : Inv w' ∧ Guar (some me) w w' := by
  have hissued : Issued w id := hi.issued id (.inr (.inr (by rw [ho]; rfl)))
  refine ⟨⟨fun j => ?_, fun j m hj => ?_, fun j hj => ?_⟩, Nat.le_of_eq hseq.symm, fun j _ => ?_, fun j t hj hne => ?_⟩
  · by_cases h : j = id
    · subst h
      rw [hclaim, ho]
      exact hsane
    · rw [hclaim, hother j h]
      exact hi.sane j
  · by_cases h : j = id
    · subst h
      exact hnamed m hj
    · exact hi.named j m (hother j h ▸ hj)
  · by_cases h : j = id
    · subst h
      exact hissued.mono (Nat.le_of_eq hseq.symm)
    · have hs := hother j h
      refine (hi.issued j ?_).mono (Nat.le_of_eq hseq.symm)
      rcases hj with hj | ⟨c, hj⟩ | hj
      · exact .inl (hs ▸ hj)
      · refine .inr (.inl ⟨c, ?_⟩)
        cases c
        · exact (congrArg Standing.source hs).symm.trans hj
        · exact (congrArg Standing.target hs).symm.trans hj
      · exact .inr (.inr (hclaim j ▸ hj))
  · by_cases h : j = id
    · subst h
      exact hlater
    · rw [hother j h]
      exact .refl _
  · have hji : j ≠ id := by
      rintro rfl
      rw [ho] at hj
      exact hne (by simpa using hj)
    exact ⟨(hclaim j).trans hj, .inl (hother j hji)⟩

/-! ## The holder of a claim -/

/-- Only a start that undoes what it made deletes the target of a migration
that no abort was asked of. -/
def Tidy (s : Standing) : Prop :=
  s.target = true → ∀ m, s.record = some m → m.aborting = true ∨ m.state = .aborted

/-- This task holds the migration's claim, and its standing satisfies `φ`. -/
structure Owns (me : Nat) (id : String) (φ : Standing → Prop) (w : AppState) : Prop where
  holds : holder w id = some ⟨me⟩
  tidy : Tidy (standing w id)
  fact : φ (standing w id)

/-- `φ` outlives a terminal record. -/
def Closed (φ : Standing → Prop) : Prop :=
  ∀ s m, s.record = some m → m.state.terminal = true → φ s → φ { s with record := none }

abbrev Holds (me : Nat) (id : String) : AppState → Prop := Owns me id fun _ => True

/-- The record is the one that was read, if it is still there. -/
def Reads (m : VmMigration) (s : Standing) : Prop :=
  (∀ m', s.record = some m' → m' = m) ∧ (m.state.terminal = false → s.record = some m)

variable {φ ψ : Standing → Prop}

theorem closed_true : Closed fun _ => True := fun _ _ _ _ _ => trivial

theorem closed_reads (m : VmMigration) : Closed (Reads m) := by
  intro s m' hm ht ⟨h, _⟩
  obtain rfl := h m' hm
  refine ⟨fun _ h => (by cases h), fun hf => ?_⟩
  rw [ht] at hf
  cases hf

theorem Closed.and (hφ : Closed φ) (hψ : Closed ψ) : Closed fun s => φ s ∧ ψ s :=
  fun s m hm ht h => ⟨hφ s m hm ht h.1, hψ s m hm ht h.2⟩

theorem Owns.mono (h : ∀ s, φ s → ψ s) (ho : Owns me id φ w) : Owns me id ψ w :=
  ⟨ho.holds, ho.tidy, h _ ho.fact⟩

theorem stable_owns (hφ : Closed φ) : discipline.Stable me (Owns me id φ) := by
  intro w w' u hu _ _ hg ⟨hh, ht, hf⟩
  obtain ⟨hh', hs⟩ := hg.mine id me hh hu
  rcases hs with hs | ⟨hs, m, hm, hterm⟩
  · exact ⟨hh', hs ▸ ht, hs ▸ hf⟩
  · refine ⟨hh', ?_, hs ▸ hφ _ m hm hterm hf⟩
    rw [hs]
    exact fun _ _ h => by cases h

/-- What follows a phase that leaves the state alone. -/
theorem quiet_then {α β : Type} {t : Async α} {f : α → Async β} {Q : Except Fault β → AppState → Prop}
    (hq : t.Quiet) (hφ : Closed φ) (hf : ∀ a w, Inv w → Owns me id φ w → (f a).Safe discipline me Q w)
    (he : ∀ e w, Owns me id φ w → Q (.error e) w) (hi : Inv w) (ho : Owns me id φ w) :
    (t.bind f).Safe discipline me Q w :=
  Safe.quiet_bind hq (Guar.refl _) (stable_owns hφ) hf (fun e w _ h => he e w h) hi ho

/-- Nothing but engines and what they answer is changed, and no delete of a copy
is noted. -/
structure Calm (w w' : AppState) : Prop where
  eq : w' = { w with engines := w'.engines, log := w'.log, answered := w'.answered }
  kept : ∀ id c, deleted w' id c = deleted w id c

theorem Calm.of_eq (h : w' = { w with engines := w'.engines }) : Calm w w' := ⟨by rw [h], fun _ _ => by rw [h]; rfl⟩

theorem Calm.refl (w : AppState) : Calm w w := .of_eq rfl

theorem Calm.standing (h : Calm w w') (id : String) : standing w' id = standing w id := by
  simp only [VmMigrate.standing, h.kept]
  rw [h.eq]

theorem Calm.holder (h : Calm w w') (id : String) : holder w' id = holder w id := by
  rw [VmMigrate.holder, h.eq]
  rfl

theorem Calm.seq (h : Calm w w') : w'.seq = w.seq := by rw [h.eq]

theorem Calm.inv (h : Calm w w') (hi : Inv w) : Inv w' := by
  refine ⟨fun id => ?_, fun id m hm => ?_, fun id hr => ?_⟩
  · rw [h.holder, h.standing]
    exact hi.sane id
  · rw [h.standing] at hm
    exact hi.named id m hm
  · simp only [h.kept, h.holder, h.standing] at hr
    exact (hi.issued id hr).mono (Nat.le_of_eq h.seq.symm)

theorem Calm.guar (h : Calm w w') (u : Option Nat) : Guar u w w' := by
  refine ⟨Nat.le_of_eq h.seq.symm, fun id _ => ?_, fun id t ht _ => ⟨(h.holder id).trans ht, .inl (h.standing id)⟩⟩
  rw [h.standing]
  exact .refl _

theorem Calm.owns (h : Calm w w') (ho : Owns me id φ w) : Owns me id φ w' := by
  refine ⟨(h.holder id).trans ho.holds, ?_, ?_⟩
  · rw [h.standing]
    exact ho.tidy
  · rw [h.standing]
    exact ho.fact

/-- What follows a phase of calls that leave the migrations alone. -/
theorem calm_then {α β : Type} {t : Async α} {f : α → Async β} {Q : Except Fault β → AppState → Prop}
    (hc : t.Only Calm) (hφ : Closed φ) (hf : ∀ a w, Inv w → Owns me id φ w → (f a).Safe discipline me Q w)
    (he : ∀ e w, Owns me id φ w → Q (.error e) w) (hi : Inv w) (ho : Owns me id φ w) :
    (t.bind f).Safe discipline me Q w := by
  have ht : t.Safe discipline me (fun _ w => Inv w ∧ Owns me id φ w) w :=
    Safe.of_only hc (stable_owns hφ) (fun _ _ hi ho h _ => ⟨h.inv hi, h.guar _, h.owns ho⟩) hi ho
  exact ht.bind hi (fun a w hi h => hf a w hi h.2) fun e w h => he e w h.2

theorem ret_safe {α : Type} {a : α} (hi : Inv w) (ho : Owns me id φ w) :
    (Task.ret a : Async α).Safe discipline me (fun _ w => Holds me id w) w :=
  Safe.ret (stable_owns closed_true) (fun _ _ h => h) hi (ho.mono fun _ _ => trivial)

theorem fail_safe {α : Type} {e : Fault} (hi : Inv w) (ho : Owns me id φ w) :
    (Task.fail e : Async α).Safe discipline me (fun _ w => Holds me id w) w :=
  Safe.fail (stable_owns closed_true) (fun _ _ h => h) hi (ho.mono fun _ _ => trivial)

/-! ### Reading and changing the record -/

theorem getMigration_safe (hφ : Closed φ) (hi : Inv w) (ho : Owns me id φ w) :
    (getMigration id).Safe discipline me (fun x w => match x with
      | .ok m => Owns me id (fun s => φ s ∧ Reads m s) w ∧ m.id = id
      | .error _ => Owns me id (fun s => φ s ∧ s.record = none) w) w := by
  have hnone : Closed fun s => φ s ∧ s.record = none := hφ.and fun _ _ _ _ _ => rfl
  have hsome (m : VmMigration) : discipline.Stable me fun w => Owns me id (fun s => φ s ∧ Reads m s) w ∧ m.id = id :=
    (stable_owns (hφ.and (closed_reads m))).and (Discipline.stable_const _)
  refine Safe.step (stable_owns hφ) (fun w i hi ho _ _ => ⟨hi, Guar.refl _ w, ?_⟩) hi ho
  simp only [ret_bind]
  cases hr : w.fed.vmMigrations[id]? with
  | none => exact Safe.fail (stable_owns hnone) (fun _ _ h => h) hi ⟨ho.holds, ho.tidy, ho.fact, hr⟩
  | some m =>
    have hread : Reads m (standing w id) := ⟨fun _ hm => Option.some.inj (hm.symm.trans hr), fun _ => hr⟩
    exact Safe.ret (hsome m) (fun _ _ h => h) hi ⟨⟨ho.holds, ho.tidy, ho.fact, hread⟩, hi.named id m hr⟩

/-- What a change of a record may do. -/
structure Legal (m m' : VmMigration) : Prop where
  id : m'.id = m.id
  retired : m.state = .cutOver ∨ m.state = .completed → m.aborting = false →
    (m'.state = .cutOver ∨ m'.state = .completed) ∧ m'.aborting = false
  undone : m.aborting = true ∨ m.state = .aborted → m'.aborting = true ∨ m'.state = .aborted
  terminal : m.state.terminal = true → m'.state.terminal = true

theorem Legal.of_eq {m m' : VmMigration} (hid : m'.id = m.id) (hs : m'.state = m.state)
    (ha : m'.aborting = m.aborting) : Legal m m' :=
  ⟨hid, fun h h' => by rw [hs, ha]; exact ⟨h, h'⟩, fun h => by rwa [hs, ha], fun h => by rwa [hs]⟩

/-- A record that is not cut over, nor being aborted, may change as it likes. -/
theorem Legal.of_running {m m' : VmMigration} (hid : m'.id = m.id)
    (hs : m.state ≠ .cutOver ∧ m.state.terminal = false) (ha : m.aborting = false) : Legal m m' where
  id := hid
  retired h := by
    rcases h with h | h
    · exact absurd h hs.1
    · cases h ▸ hs.2
  undone h := by
    rcases h with h | h
    · cases ha.symm.trans h
    · cases h ▸ hs.2
  terminal h := by cases hs.2.symm.trans h

theorem Legal.touch {m m' : VmMigration} (h : Legal m m') (t : SystemTime) :
    Legal m { m' with updatedAtMs := t } :=
  ⟨h.id, h.retired, h.undone, h.terminal⟩

theorem Sane.edit {c : Bool} {s : Standing} {m m' : VmMigration} (h : Sane c s) (ht : Tidy s) (hm : s.record = some m)
    (hl : Legal m m') : Sane c { s with record := some m' } where
  spared := h.spared
  retired := by
    rintro _ ⟨⟩ hs
    obtain ⟨hst, ha⟩ := h.retired m hm hs
    exact hl.retired hst ha
  undone := by
    rintro _ ⟨⟩ hs
    exact (hl.undone (ht hs m hm)).imp_right .inl

/-- A change of the record under its claim. -/
theorem edit_step (hi : Inv w) (ho : Owns me id φ w) {m m' : VmMigration} (hm : w.fed.vmMigrations[id]? = some m)
    (hl : Legal m m') {w' : AppState}
    (hw : w' = w.revise fun fed => { fed with vmMigrations := fed.vmMigrations.insert id m' }) :
    (Inv w' ∧ Guar (some me) w w') ∧ Owns me id (fun s => s = { standing w id with record := some m' }) w' := by
  subst hw
  have hs := standing_insert w id m'
  have hsane := hi.sane id
  rw [ho.holds] at hsane
  refine ⟨own_step hi ho.holds _ rfl (fun _ => rfl) (fun j hj => ?_) ?_ ?_ ?_, ho.holds, ?_, ?_⟩
  · rw [hs, if_neg (Ne.symm hj)]
  · rw [hs, if_pos rfl]
    exact hsane.edit ho.tidy hm hl
  · rw [hs, if_pos rfl]
    rintro _ ⟨⟩
    exact hl.id.trans (hi.named id m hm)
  · rw [hs, if_pos rfl]
    refine ⟨fun hn => ?_, fun m₁ _ h₁ ht h₂ => ?_⟩
    · cases hm.symm.trans hn
    · obtain rfl := Option.some.inj (hm.symm.trans h₁)
      obtain rfl := Option.some.inj h₂
      exact hl.terminal ht
  · rw [hs, if_pos rfl]
    rintro ht _ ⟨⟩
    exact hl.undone (ho.tidy ht m hm)
  · rw [hs, if_pos rfl]

/-- A change of the record, and what follows it. -/
theorem update_then {β : Type} {f : VmMigration → VmMigration} {g : Option VmMigration → Async β}
    {Q : Except Fault β → AppState → Prop} (hφ : Closed φ) (hψ : Closed ψ)
    (hlegal : ∀ s m, φ s → s.record = some m → Legal m (f m)) (hnone : ∀ s, φ s → s.record = none → ψ s)
    (hsome : ∀ s m t, φ s → s.record = some m → ψ { s with record := some { f m with updatedAtMs := t } })
    (hg : ∀ o w, Inv w → Owns me id ψ w → (∀ m, o = some m → m.id = id) → (g o).Safe discipline me Q w)
    (hi : Inv w) (ho : Owns me id φ w) : ((update id f).bind g).Safe discipline me Q w := by
  refine Safe.bind (Q := fun x w => match x with
      | .ok o => Owns me id ψ w ∧ ∀ m, o = some m → m.id = id
      | .error _ => False) hi ?_ (fun o w hi h => hg o w hi h.1 h.2) (fun _ _ h => h.elim)
  refine Safe.await (stable_owns hφ) (fun a => (stable_owns hψ).and (Discipline.stable_const _))
    (fun w i hi ho _ _ => ?_) hi ho
  dsimp only
  split
  · rename_i hr
    exact ⟨⟨hi, Guar.refl _ w⟩, ⟨ho.holds, ho.tidy, hnone _ ho.fact hr⟩, fun _ h => by cases h⟩
  · rename_i m hr
    obtain ⟨hkept, ho'⟩ := edit_step hi ho hr ((hlegal _ m ho.fact hr).touch i.now) rfl
    refine ⟨hkept, ho'.mono ?_, ?_⟩
    · rintro _ rfl
      exact hsome _ m i.now ho.fact hr
    · rintro _ ⟨⟩
      exact (hlegal _ m ho.fact hr).id.trans (hi.named id m hr)

/-- A change of the record, whatever it leaves. -/
theorem change_then {β : Type} {f : VmMigration → VmMigration} {g : Option VmMigration → Async β}
    {Q : Except Fault β → AppState → Prop} (hφ : Closed φ)
    (hlegal : ∀ s m, φ s → s.record = some m → Legal m (f m))
    (hg : ∀ o w, Inv w → Holds me id w → (∀ m, o = some m → m.id = id) → (g o).Safe discipline me Q w)
    (hi : Inv w) (ho : Owns me id φ w) : ((update id f).bind g).Safe discipline me Q w :=
  update_then hφ closed_true hlegal (fun _ _ _ => trivial) (fun _ _ _ _ _ => trivial) hg hi ho

/-- The state of a migration, and whether it is being aborted, are left alone. -/
def Remark (f : VmMigration → VmMigration) : Prop :=
  ∀ m, (f m).id = m.id ∧ (f m).state = m.state ∧ (f m).aborting = m.aborting

theorem Remark.legal {f : VmMigration → VmMigration} (h : Remark f) (m : VmMigration) : Legal m (f m) :=
  .of_eq (h m).1 (h m).2.1 (h m).2.2

/-- The record is there, in this state. -/
def At (st : VmMigrationState) (ab : Bool) (s : Standing) : Prop :=
  ∃ m, s.record = some m ∧ m.state = st ∧ m.aborting = ab

theorem closed_at {st : VmMigrationState} (h : st.terminal = false) (ab : Bool) : Closed (At st ab) := by
  rintro s m hm ht ⟨m', hm', rfl, _⟩
  obtain rfl := Option.some.inj (hm.symm.trans hm')
  rw [ht] at h
  cases h

theorem Reads.at {m : VmMigration} {s : Standing} (h : Reads m s) (ht : m.state.terminal = false) :
    At m.state m.aborting s :=
  ⟨m, h.2 ht, rfl, rfl⟩

/-- `φ` is about the state of the migration alone. -/
structure Steady (φ : Standing → Prop) : Prop where
  closed : Closed φ
  remark : ∀ f, Remark f → ∀ s m, s.record = some m → φ s → φ { s with record := some (f m) }

theorem steady_true : Steady fun _ => True := ⟨closed_true, fun _ _ _ _ _ _ => trivial⟩

theorem steady_at {st : VmMigrationState} (h : st.terminal = false) (ab : Bool) : Steady (At st ab) where
  closed := closed_at h ab
  remark := by
    rintro f hf s m hm ⟨m', hm', rfl, rfl⟩
    obtain rfl := Option.some.inj (hm.symm.trans hm')
    exact ⟨_, rfl, (hf m).2.1, (hf m).2.2⟩

theorem remark_then {β : Type} {f : VmMigration → VmMigration} {g : Option VmMigration → Async β}
    {Q : Except Fault β → AppState → Prop} (hf : Remark f) (hφ : Steady φ)
    (hg : ∀ o w, Inv w → Owns me id φ w → (g o).Safe discipline me Q w)
    (hi : Inv w) (ho : Owns me id φ w) : ((update id f).bind g).Safe discipline me Q w :=
  update_then hφ.closed hφ.closed (fun _ m _ _ => hf.legal m) (fun _ h _ => h)
    (fun s m t h hm => hφ.remark (fun m => { f m with updatedAtMs := t }) hf s m hm h)
    (fun o w hi ho _ => hg o w hi ho) hi ho

/-! ### Phases that only ask -/

theorem quiet_inquire {α : Type} (ans : Reply → Except Fault α) : (inquire ans).Quiet := by
  intro i w
  cases h : i.wire with
  | answered => simp only [h, Wire.effect, only_ofExcept, and_self]
  | refused status why => simp only [h, Wire.effect, only_fail, id, and_self]
  | lost why => simp only [h, Wire.effect, only_fail, and_self]

theorem quiet_withContext {α : Type} {t : Async α} (h : t.Quiet) (what : String) : (withContext what t).Quiet :=
  Only.bind h.attempt fun x => by cases x <;> trivial

theorem quiet_unlessGone {t : Async Unit} (h : t.Quiet) : (unlessGone t).Quiet := by
  refine Only.bind h.attempt fun x => ?_
  cases x with
  | ok _ => trivial
  | error e => dsimp only; split <;> trivial

theorem quiet_engine (node : String) : (engine node).Quiet :=
  Only.bind (quiet_get _) fun _ => only_ofExcept _

theorem quiet_readMirror (m : VmMigration) : (readMirror m).Quiet :=
  Only.bind (quiet_engine _) fun _ => Only.bind (quiet_inquire _) fun _ => trivial

theorem quiet_live (m : VmMigration) : (live m).Quiet := by
  rw [live]
  split
  · exact Only.bind (quiet_readMirror m).attempt fun x => by cases x <;> trivial
  · trivial

theorem quiet_withdrawTarget (m : VmMigration) : (withdrawTarget m).Quiet := by
  rw [withdrawTarget]
  split
  · exact quiet_unlessGone (quiet_inquire _)
  · trivial

theorem quiet_localVolumeId (node name : String) : (localVolumeId node name).Quiet := by
  intro i w
  refine ⟨?_, ?_⟩
  · cases h : i.wire <;> simp only [h, Wire.effect, id]
  · cases h : i.wire with
    | answered => simpa only [h] using only_ofExcept _
    | refused status why => simp only [h, only_fail]
    | lost why => simp only [h, only_fail]

/-! ### The create of a target -/

theorem deleted_left (w : AppState) (why : Left) (e : EngineVolume) (id : String) (c : Copy) :
    deleted (w.note (.left why e)) id c = deleted w id c := by rw [deleted_note, Bool.or_false]

/-- A note of something else than a delete. -/
theorem calm_note (w : AppState) {e : Event} (he : ∀ i c n v, e ≠ .copyDeleted i c n v) : Calm w (w.note e) := by
  refine ⟨rfl, fun j c => ?_⟩
  rw [deleted_note]
  split
  · exact absurd rfl (he _ _ _ _)
  · exact Bool.or_false _

theorem calm_left (w : AppState) (why : Left) (p : EngineVolume → Bool) : Calm w (w.noteLeft why p) := by
  unfold AppState.noteLeft
  split
  · exact ⟨rfl, deleted_left w why _⟩
  · exact .refl w

theorem calm_createOn (me : Nat) (w : AppState) (node name : String) (leg : Bool) (made : String) :
    Calm w (w.createOn me node name leg made) := by
  unfold AppState.createOn
  split
  · exact .of_eq rfl
  · split
    · exact .refl w
    · exact .of_eq rfl

theorem Calm.trans {w'' : AppState} (h : Calm w w') (h' : Calm w' w'') : Calm w w'' :=
  ⟨by rw [h'.eq, h.eq], fun id c => (h'.kept id c).trans (h.kept id c)⟩

theorem calm_created (me : Nat) (w : AppState) (node name : String) (leg : Bool) (i : Reply) :
    Calm w (let w' := w.createOn me node name leg i.made
      if i.names then w'.told node name (w.createdId node name i.made)
      else w'.noteLeft .unanswered fun e => e.node = node ∧ w.given node e.id = false) := by
  have h := calm_createOn me w node name leg i.made
  dsimp only
  split
  · exact h.trans ⟨rfl, fun _ _ => rfl⟩
  · exact h.trans (calm_left _ _ _)

theorem calm_createVolume (node name : String) (leg : Bool) : (Engine.createVolume me node name leg).Only Calm := by
  intro i w
  have h := calm_created me w node name leg i
  cases hw : i.wire with
  | answered =>
    simp only [hw, Wire.effect]
    exact ⟨h, only_ofExcept _⟩
  | refused status why => simp only [hw, Wire.effect, id, only_fail, and_true, Calm.refl]
  | lost why =>
    simp only [hw, Wire.effect]
    exact ⟨h, trivial⟩

theorem calm_withContext {α : Type} {t : Async α} (h : t.Only Calm) (what : String) :
    (withContext what t).Only Calm :=
  h.attempt.bind fun x => by cases x <;> trivial

theorem calm_quiet {α : Type} {t : Async α} (h : t.Quiet) : t.Only Calm := h.mono fun w _ he => he ▸ .refl w

theorem calm_call {α : Type} {eff : Reply → AppState → AppState} {answer : Reply → AppState → Except Fault α}
    (h : ∀ i w, Calm w (eff i w)) : (call eff answer).Only Calm := by
  intro i w
  cases hw : i.wire with
  | answered =>
    simp only [hw, Wire.effect]
    exact ⟨h i w, only_ofExcept _⟩
  | refused status why => simp only [hw, Wire.effect, id, only_fail, and_true, Calm.refl]
  | lost why =>
    simp only [hw, Wire.effect]
    exact ⟨h i w, trivial⟩

/-! ### The source's mirror -/

theorem calm_stopMirror (node volume : String) : (stopMirror node volume).Only Calm := by
  refine Only.bind (calm_call fun _ w => calm_note w (by simp)).attempt fun x => ?_
  split
  · trivial
  · split <;> trivial

theorem calm_stopOurs (m : VmMigration) : (stopOurs m).Only Calm := by
  refine Only.bind (calm_quiet (quiet_get _)) fun up => ?_
  split
  · refine Only.bind (calm_quiet (quiet_engine _)) fun _ => Only.bind (calm_quiet (quiet_inquire _)).attempt fun x => ?_
    split
    · split
      · exact Only.bind (calm_withContext (calm_stopMirror _ _) _) fun _ => trivial
      · trivial
    · trivial
  · trivial

theorem calm_startMirror (m : VmMigration) (uri : String) : (startMirror m uri).Only Calm := by
  refine Only.bind (calm_quiet (quiet_engine _)) fun _ => Only.bind (calm_quiet (quiet_inquire _)).attempt fun x => ?_
  split
  · trivial
  · exact Only.bind (calm_withContext (calm_call fun _ w => calm_note w (by simp)) _) fun _ => trivial

/-! ## Starting -/

variable {hostNqnFor : String → String}

/-- What a step of a start leaves: the record, starting. -/
abbrev Starting (me : Nat) (id : String) : AppState → Prop := Owns me id (At .starting false)

theorem stable_starting (me : Nat) (id : String) : discipline.Stable me (Starting me id) :=
  stable_owns (closed_at rfl false)

theorem makeTarget_safe (m : VmMigration) (hi : Inv w) (ho : Starting me m.id w) :
    (makeTarget me m).Safe discipline me (fun _ w => Starting me m.id w) w := by
  have hst := stable_starting me m.id
  rw [makeTarget]
  split
  · exact Safe.ret hst (fun _ _ h => h) hi ho
  · refine calm_then (calm_withContext (calm_createVolume _ _ _) _) (closed_at rfl false) (fun v w hi ho => ?_)
      (fun _ _ h => h) hi ho
    split
    · exact Safe.fail hst (fun _ _ h => h) hi ho
    · exact remark_then (fun _ => ⟨rfl, rfl, rfl⟩) (steady_at rfl false) (fun _ w hi ho => Safe.ret hst (fun _ _ h => h) hi ho) hi ho

theorem findLocal_safe (m : VmMigration) (hi : Inv w) (ho : Starting me m.id w) :
    (findLocal m).Safe discipline me (fun _ w => Starting me m.id w) w := by
  have hst := stable_starting me m.id
  rw [findLocal]
  split
  · exact Safe.ret hst (fun _ _ h => h) hi ho
  · refine quiet_then (quiet_withContext (quiet_localVolumeId _ _) _) (closed_at rfl false) (fun l w hi ho => ?_)
      (fun _ _ h => h) hi ho
    exact remark_then (fun _ => ⟨rfl, rfl, rfl⟩) (steady_at rfl false) (fun _ w hi ho => Safe.ret hst (fun _ _ h => h) hi ho) hi ho

theorem serveTarget_safe (m : VmMigration) (hi : Inv w) (ho : Starting me m.id w) :
    (serveTarget hostNqnFor m).Safe discipline me (fun _ w => Starting me m.id w) w := by
  have hst := stable_starting me m.id
  rw [serveTarget]
  split
  · exact Safe.ret hst (fun _ _ h => h) hi ho
  · refine quiet_then (quiet_withContext (quiet_inquire _) _) (closed_at rfl false) (fun a w hi ho => ?_)
      (fun _ _ h => h) hi ho
    exact remark_then (fun _ => ⟨rfl, rfl, rfl⟩) (steady_at rfl false) (fun _ w hi ho => Safe.ret hst (fun _ _ h => h) hi ho) hi ho

theorem applyReading_id (m : VmMigration) (r : Option MirrorReading) : (applyReading m r).1.id = m.id := by
  unfold applyReading
  repeat' split
  all_goals rfl

/-- A start that fails leaves the record starting, if it is there. -/
theorem advance_safe (hφ : Closed φ) (hi : Inv w) (ho : Owns me id φ w) :
    (advance hostNqnFor me id).Safe discipline me (fun x w => match x with
      | .ok _ => Holds me id w
      | .error _ => Owns me id (fun s => φ s ∧ s.record = none ∨ At .starting false s) w) w := by
  refine Safe.bind hi (getMigration_safe hφ hi ho) (fun m w hi ⟨ho, hid⟩ => ?_)
    (fun e w h => h.mono fun _ h => .inl h)
  obtain rfl := hid
  split
  · exact Safe.ret (stable_owns closed_true) (fun _ _ h => h) hi (ho.mono fun _ _ => trivial)
  · rename_i hns
    simp only [not_or, not_not, Bool.not_eq_true] at hns
    have ho : Starting me m.id w := ho.mono fun s h => by
      have := h.2.at (by rw [hns.1]; rfl)
      rwa [hns.1, hns.2] at this
    have hfail (_ : Fault) (w : AppState) (h : Starting me m.id w) :
        Owns me m.id (fun s => φ s ∧ s.record = none ∨ At .starting false s) w := h.mono fun _ h => .inr h
    refine quiet_then (quiet_engine _) (closed_at rfl false) (fun _ w hi ho => ?_) hfail hi ho
    refine Safe.bind hi (makeTarget_safe m hi ho) (fun _ w hi ho => ?_) hfail
    refine Safe.bind hi (findLocal_safe m hi ho) (fun _ w hi ho => ?_) hfail
    refine Safe.bind hi (serveTarget_safe m hi ho) (fun a w hi ho => ?_) hfail
    refine calm_then (calm_startMirror m _) (closed_at rfl false) (fun r w hi ho => ?_) hfail hi ho
    refine change_then (closed_at rfl false) ?_ (fun _ w hi ho _ => ?_) hi ho
    · rintro s m' ⟨m₁, hm₁, hst, hab⟩ hm'
      obtain rfl := Option.some.inj (hm'.symm.trans hm₁)
      exact .of_running (applyReading_id _ _) ⟨by rw [hst]; decide, by rw [hst]; rfl⟩ hab
    · exact Safe.ret (stable_owns closed_true) (fun _ _ h => h) hi ho

theorem closed_failed : Closed fun s => φ s ∧ s.record = none ∨ At .starting false s := by
  rintro s m hm ht (⟨_, hn⟩ | h)
  · cases hm.symm.trans hn
  · exact .inr (closed_at rfl false s m hm ht h)

/-- A start that failed is recorded as such. -/
theorem fail_start_safe {e : Fault} (hi : Inv w)
    (ho : Owns me id (fun s => φ s ∧ s.record = none ∨ At .starting false s) w) :
    (fail id e).Safe discipline me (fun _ w => Holds me id w) w := by
  refine change_then closed_failed ?_ (fun _ w hi ho _ => ret_safe hi ho) hi ho
  rintro s m (⟨_, hn⟩ | ⟨m', hm', hst, hab⟩) hm
  · cases hm.symm.trans hn
  · obtain rfl := Option.some.inj (hm.symm.trans hm')
    exact .of_running rfl ⟨by rw [hst]; decide, by rw [hst]; rfl⟩ hab

theorem getMigration_then {β : Type} {g : VmMigration → Async β} (hφ : Closed φ)
    (hg : ∀ m w, Inv w → Owns me m.id (fun s => φ s ∧ Reads m s) w → m.id = id →
      (g m).Safe discipline me (fun _ w => Holds me id w) w)
    (hi : Inv w) (ho : Owns me id φ w) :
    ((getMigration id).bind g).Safe discipline me (fun _ w => Holds me id w) w :=
  Safe.bind hi (getMigration_safe hφ hi ho) (fun m w hi h => hg m w hi (by rw [h.2]; exact h.1) h.2)
    fun _ _ h => h.mono fun _ _ => trivial

theorem get_safe (hi : Inv w) (ho : Owns me id φ w) :
    (getMigration id).Safe discipline me (fun _ w => Holds me id w) w :=
  (getMigration_safe closed_true hi (ho.mono fun _ _ => trivial)).mono fun x _ h => match x with
    | .ok _ => h.1.mono fun _ _ => trivial
    | .error _ => h.mono fun _ _ => trivial

theorem refresh_safe (hi : Inv w) (ho : Holds me id w) :
    (refresh id).Safe discipline me (fun _ w => Holds me id w) w := by
  refine getMigration_then closed_true ?_ hi ho
  clear hi ho
  rintro m w hi ho rfl
  have hφ : Closed fun s => True ∧ Reads m s := closed_true.and (closed_reads m)
  refine quiet_then (quiet_readMirror m) hφ (fun r w hi ho => ?_) (fun _ _ h => h.mono fun _ _ => trivial) hi ho
  dsimp only
  split
  · rename_i hne
    refine change_then hφ ?_ (fun _ w hi ho _ => ret_safe hi ho) hi ho
    rintro s m' ⟨_, hr⟩ hm'
    obtain rfl := hr.1 m' hm'
    -- the reading changed the record, so it was copying or synced
    have hrun : (m'.state = .copying ∨ m'.state = .synced) ∧ m'.aborting = false := by
      by_contra hc
      refine hne ?_
      unfold applyReading
      rw [if_pos]
      by_cases h : m'.state = .copying ∨ m'.state = .synced
      · exact .inr (by simpa [h] using hc)
      · exact .inl h
    refine .of_running rfl ?_ hrun.2
    rcases hrun.1 with h | h <;> rw [h] <;> decide
  · exact ret_safe hi ho

theorem withdraw_safe (m : VmMigration) (hφ : Steady φ) (hi : Inv w) (ho : Owns me m.id φ w) :
    (withdraw m).Safe discipline me (fun _ w => Owns me m.id φ w) w := by
  have hst : discipline.Stable me (Owns me m.id φ) := stable_owns hφ.closed
  rw [withdraw]
  split
  · refine quiet_then (quiet_engine _) hφ.closed (fun _ w hi ho => ?_) (fun _ _ h => h) hi ho
    refine quiet_then (quiet_unlessGone (quiet_inquire _)) hφ.closed (fun _ w hi ho => ?_) (fun _ _ h => h) hi ho
    exact remark_then (fun _ => ⟨rfl, rfl, rfl⟩) hφ (fun _ w hi ho => Safe.ret hst (fun _ _ h => h) hi ho) hi ho
  · exact Safe.ret hst (fun _ _ h => h) hi ho

theorem handOver_safe {st : VmMigrationState} (hst : st = .copying ∨ st = .synced) (hi : Inv w)
    (ho : Owns me id (At st false) w) :
    (handOver id).Safe discipline me (fun _ w => Holds me id w) w := by
  have ht : st ≠ .cutOver ∧ st.terminal = false := by rcases hst with rfl | rfl <;> decide
  refine change_then (closed_at ht.2 false) ?_ ?_ hi ho
  · rintro s m ⟨m', hm', rfl, hab⟩ hm
    obtain rfl := Option.some.inj (hm.symm.trans hm')
    exact .of_running rfl ht hab
  · clear hi ho
    intro o w hi ho hid
    cases o with
    | none => exact fail_safe hi ho
    | some rec =>
      obtain rfl := hid rec rfl
      refine Safe.attempt_bind hi (withdraw_safe rec steady_true hi ho) fun x w hi ho => ?_
      cases x with
      | ok _ => exact get_safe hi ho
      | error e => exact remark_then (fun _ => ⟨rfl, rfl, rfl⟩) steady_true (fun _ w hi ho => get_safe hi ho) hi ho

/-- The mirror stops, and the migration is cut over or failed. -/
theorem switchOver_safe {m : VmMigration} (hst : m.state = .copying ∨ m.state = .synced) (hab : ¬ m.aborting = true)
    (hi : Inv w) (ho : Owns me m.id (fun s => True ∧ Reads m s) w) :
    (switchOver m).Safe discipline me (fun _ w => Holds me m.id w) w := by
  have ht : m.state ≠ .cutOver ∧ m.state.terminal = false := by rcases hst with h | h <;> rw [h] <;> decide
  have hat := closed_at ht.2 false
  have ho : Owns me m.id (At m.state false) w := ho.mono fun s h =>
    eq_false_of_ne_true hab ▸ h.2.at ht.2
  have he (e : Fault) (w : AppState) (h : Owns me m.id (At m.state false) w) : Holds me m.id w :=
    h.mono fun _ _ => trivial
  refine quiet_then (quiet_engine _) hat (fun _ w hi ho => ?_) he hi ho
  refine quiet_then (quiet_live m) hat (fun now w hi ho => ?_) he hi ho
  split
  · exact fail_safe hi ho
  · refine calm_then (calm_withContext (calm_stopMirror _ _) _) hat (fun stopped w hi ho => ?_) he hi ho
    split
    · exact handOver_safe hst hi ho
    · refine change_then hat ?_ (fun _ w hi ho _ => fail_safe hi ho) hi ho
      rintro s m₁ ⟨m', hm', hs', hab'⟩ hm
      obtain rfl := Option.some.inj (hm.symm.trans hm')
      exact .of_running rfl (hs' ▸ ht) hab'

theorem cutover_safe (hi : Inv w) (ho : Holds me id w) :
    (cutover id).Safe discipline me (fun _ w => Holds me id w) w := by
  refine getMigration_then closed_true ?_ hi ho
  clear hi ho
  rintro m w hi ho rfl
  split
  · exact fail_safe hi ho
  · rename_i hab
    have hagain (hi : Inv w) : (do let _ ← (withdraw m).attempt; getMigration m.id).Safe discipline me
        (fun _ w => Holds me m.id w) w :=
      Safe.attempt_bind hi (withdraw_safe m steady_true hi (ho.mono fun _ _ => trivial)) fun _ w hi ho => get_safe hi ho
    split
    · exact hagain hi
    · exact hagain hi
    · exact fail_safe hi ho
    · exact fail_safe hi ho
    · exact fail_safe hi ho
    · exact switchOver_safe (.inl ‹_›) hab hi ho
    · exact switchOver_safe (.inr ‹_›) hab hi ho

/-! ## Deleting a copy -/

/-- A standing after one more copy was deleted. -/
def Standing.delete (s : Standing) (c : Copy) : Standing :=
  match c with
  | .source => { s with source := true }
  | .target => { s with target := true }

theorem standing_deleted (w : AppState) (id : String) (c : Copy) (node volume j : String) :
    standing ((w.destroyOn node volume).note (.copyDeleted id c node volume)) j =
      if id = j then (standing w j).delete c else standing w j := by
  have hd (c' : Copy) : deleted (w.destroyOn node volume) j c' = deleted w j c' := rfl
  simp only [standing, deleted_note, hd]
  by_cases h : id = j
  · cases c <;> simp [h, Standing.delete, AppState.note, AppState.destroyOn, AppState.mapVolume]
  · simp [h, AppState.note, AppState.destroyOn, AppState.mapVolume]

/-- This task holds the migration's claim, whatever it has deleted. -/
structure Claims (me : Nat) (id : String) (ψ : Standing → Prop) (w : AppState) : Prop where
  holds : holder w id = some ⟨me⟩
  fact : ψ (standing w id)

theorem Owns.claims (ho : Owns me id φ w) : Claims me id (fun s => Tidy s ∧ φ s) w := ⟨ho.holds, ho.tidy, ho.fact⟩

theorem Claims.owns (h : Claims me id (fun s => Tidy s ∧ φ s) w) : Owns me id φ w := ⟨h.holds, h.fact.1, h.fact.2⟩

theorem closed_tidy : Closed Tidy := fun _ _ _ _ _ _ _ h => by cases h

theorem stable_claims (hψ : Closed ψ) : discipline.Stable me (Claims me id ψ) := by
  intro w w' u hu _ _ hg ⟨hh, hf⟩
  obtain ⟨hh', hs⟩ := hg.mine id me hh hu
  rcases hs with hs | ⟨hs, m, hm, hterm⟩
  · exact ⟨hh', hs ▸ hf⟩
  · exact ⟨hh', hs ▸ hψ _ m hm hterm hf⟩

/-- What deleting a copy needs of the standing, and keeps. -/
structure Spare (c : Copy) (ψ : Standing → Prop) : Prop where
  closed : Closed ψ
  sane : ∀ s, Sane true s → ψ s → Sane true (s.delete c)
  keep : ∀ s, ψ s → ψ (s.delete c)

theorem deleteCall_safe {c : Copy} (hs : Spare c ψ) (node volume : String) (hi : Inv w) (ho : Claims me id ψ w) :
    (call (fun _ w => (w.destroyOn node volume).note (.copyDeleted id c node volume)) fun _ _ => .ok () :
      Async Unit).Safe discipline me
      (fun _ w => Claims me id ψ w) w := by
  have hst : discipline.Stable me (Claims me id ψ) := stable_claims hs.closed
  refine Safe.step hst (fun w i hi ho _ _ => ?_) hi ho
  have hdid : (Inv ((w.destroyOn node volume).note (.copyDeleted id c node volume)) ∧
      Guar (some me) w ((w.destroyOn node volume).note (.copyDeleted id c node volume))) ∧
      Claims me id ψ ((w.destroyOn node volume).note (.copyDeleted id c node volume)) := by
    have hd := standing_deleted w id c node volume
    have hsane := hi.sane id
    rw [ho.holds] at hsane
    refine ⟨own_step hi ho.holds _ rfl (fun _ => rfl) (fun j hj => ?_) ?_ (hi.named id) ?_, ho.holds, ?_⟩
    · rw [hd, if_neg (Ne.symm hj)]
    · rw [hd, if_pos rfl]
      exact hs.sane _ hsane ho.fact
    · exact ⟨fun h => h, (Later.refl (standing w id)).terminal⟩
    · rw [hd, if_pos rfl]
      exact hs.keep _ ho.fact
  cases i.wire with
  | answered => exact ⟨hdid.1.1, hdid.1.2, Safe.ret hst (fun _ _ h => h) hdid.1.1 hdid.2⟩
  | refused status why => exact ⟨hi, Guar.refl _ w, Safe.fail hst (fun _ _ h => h) hi ho⟩
  | lost why => exact ⟨hdid.1.1, hdid.1.2, Safe.fail hst (fun _ _ h => h) hdid.1.1 hdid.2⟩

theorem deleteCopy_safe {c : Copy} (hs : Spare c ψ) (node volume : String) (hi : Inv w) (ho : Claims me id ψ w) :
    (deleteCopy id c node volume).Safe discipline me (fun _ w => Claims me id ψ w) w := by
  have hst : discipline.Stable me (Claims me id ψ) := stable_claims hs.closed
  refine Safe.attempt_bind hi (deleteCall_safe hs node volume hi ho) fun x w hi ho => ?_
  cases x with
  | ok _ => exact Safe.ret hst (fun _ _ h => h) hi ho
  | error e =>
    dsimp only
    split
    · exact Safe.ret hst (fun _ _ h => h) hi ho
    · exact Safe.fail hst (fun _ _ h => h) hi ho

/-- The source of what is cut over may go. -/
theorem spare_source : Spare .source fun s => Tidy s ∧ At .cutOver false s where
  closed := closed_tidy.and (closed_at rfl false)
  sane := by
    rintro s h ⟨ht, m, hm, hst, hab⟩
    have htarget : s.target = false := by
      by_contra hc
      rcases ht (by simpa using hc) m hm with h' | h'
      · cases hab.symm.trans h'
      · cases hst.symm.trans h'
    refine ⟨by simp [Standing.delete, htarget], fun m' hm' _ => ?_, fun m' hm' => h.undone m' hm'⟩
    obtain rfl := Option.some.inj (hm.symm.trans hm')
    exact ⟨.inl hst, hab⟩
  keep _ h := h

/-- A record that may lose its target has its source. -/
theorem spare_of_at {st : VmMigrationState} {ab : Bool} (ht : st.terminal = false)
    (h : ab = true ∨ st = .starting) {s : Standing} (hs : Sane true s) (hat : At st ab s) :
    Sane true (s.delete .target) := by
  obtain ⟨m, hm, rfl, rfl⟩ := hat
  have hsource : s.source = false := by
    by_contra hc
    obtain ⟨hst, hab⟩ := hs.retired m hm (by simpa using hc)
    rcases h with h | h
    · cases h.symm.trans hab
    · rw [h] at hst
      simp at hst
  refine ⟨by simp [Standing.delete, hsource], fun m' hm' => hs.retired m' hm', fun m' hm' _ => ?_⟩
  obtain rfl := Option.some.inj (hm.symm.trans hm')
  exact h.imp_right fun h => .inr ⟨rfl, h⟩

/-- The target of what is being aborted may go. -/
theorem spare_target {st : VmMigrationState} (ht : st.terminal = false) :
    Spare .target fun s => Tidy s ∧ At st true s where
  closed := closed_tidy.and (closed_at ht true)
  sane _ h hs := spare_of_at ht (.inl rfl) h hs.2
  keep := by
    rintro s ⟨_, m, hm, hst, hab⟩
    refine ⟨fun _ m' hm' => ?_, m, hm, hst, hab⟩
    obtain rfl := Option.some.inj (hm.symm.trans hm')
    exact .inl hab

/-- So may the target of a start that failed. -/
theorem spare_started : Spare .target (At .starting false) where
  closed := closed_at rfl false
  sane _ h hs := spare_of_at rfl (.inr rfl) h hs
  keep _ h := h

/-! ## Complete and abort -/

theorem complete_safe (hi : Inv w) (ho : Holds me id w) :
    (complete id).Safe discipline me (fun _ w => Holds me id w) w := by
  refine getMigration_then closed_true ?_ hi ho
  clear hi ho
  rintro m w hi ho rfl
  split
  · exact ret_safe hi ho
  · rename_i hst
    split
    · exact fail_safe hi ho
    · rename_i hab
      have hat : Steady (At .cutOver false) := steady_at rfl false
      have ho : Owns me m.id (At .cutOver false) w := ho.mono fun s h => by
        have := h.2.at (by rw [hst]; rfl)
        rwa [hst, eq_false_of_ne_true hab] at this
      refine quiet_then (quiet_engine _) hat.closed (fun _ w hi ho => ?_) (fun _ _ h => h.mono fun _ _ => trivial) hi ho
      refine Safe.attempt_bind hi (deleteCopy_safe spare_source _ _ hi ho.claims) fun x w hi ho => ?_
      have ho := ho.owns
      cases x with
      | error e => exact remark_then (fun _ => ⟨rfl, rfl, rfl⟩) hat (fun _ w hi ho => fail_safe hi ho) hi ho
      | ok _ =>
        refine Safe.attempt_bind hi (withdraw_safe m hat hi ho) fun x w hi ho => ?_
        refine change_then hat.closed ?_ (fun o w hi ho _ => ?_) hi ho
        · rintro s m' ⟨m₁, hm₁, hst, hab⟩ hm'
          obtain rfl := Option.some.inj (hm₁.symm.trans hm')
          refine ⟨rfl, fun _ _ => ⟨.inr rfl, hab⟩, fun h => ?_, fun h => rfl⟩
          rcases h with h | h
          · cases hab.symm.trans h
          · cases hst.symm.trans h
        · cases o with
          | none => exact fail_safe hi ho
          | some rec => exact ret_safe hi ho
  · exact fail_safe hi ho

theorem deleteTarget_safe {m : VmMigration} (hs : Spare .target ψ) (volume : Option String) (hi : Inv w)
    (ho : Claims me m.id ψ w) : (deleteTarget m volume).Safe discipline me (fun _ w => Claims me m.id ψ w) w := by
  unfold deleteTarget
  split
  · exact deleteCopy_safe hs _ _ hi ho
  · exact Safe.ret (stable_claims hs.closed) (fun _ _ h => h) hi ho

theorem undoTarget_safe {m : VmMigration} (hs : Spare .target ψ) (hi : Inv w) (ho : Claims me m.id ψ w) :
    (undoTarget m).Safe discipline me (fun _ w => Claims me m.id ψ w) w := by
  have hst : discipline.Stable me (Claims me m.id ψ) := stable_claims hs.closed
  rw [undoTarget]
  split
  · exact Safe.ret hst (fun _ _ h => h) hi ho
  · refine Safe.quiet_bind (quiet_engine _) (Guar.refl _) hst (fun _ w hi ho => ?_) (fun _ _ _ h => h) hi ho
    refine Safe.quiet_bind (quiet_withdrawTarget m) (Guar.refl _) hst (fun _ w hi ho => ?_) (fun _ _ _ h => h) hi ho
    exact Safe.bind hi (deleteTarget_safe hs _ hi ho) (fun _ w hi ho => deleteTarget_safe hs _ hi ho) (fun _ _ h => h)

/-- An abort that is asked in time: the source is still there. -/
theorem markAborting_safe {st : VmMigrationState} (ht : st.terminal = false) (hi : Inv w)
    (ho : Owns me id (At st false) w) :
    (markAborting id).Safe discipline me (fun _ w => Owns me id (At st true) w) w := by
  refine Safe.await (stable_owns (closed_at ht false)) (fun _ => stable_owns (closed_at ht true))
    (fun w _ hi ho _ hok => ?_) hi ho
  obtain ⟨m, hm, hst, hab⟩ := ho.fact
  replace hm : w.fed.vmMigrations[id]? = some m := hm
  have hsource : deleted w id .source = false := by
    by_contra hc
    refine hok id ?_
    simp only [hm, AppState.note, AppState.revise, AppState.setFed]
    rw [show deleted w id .source = true by simpa using hc]
    exact List.mem_append_right _ (List.mem_singleton_self _)
  simp only [hm]
  have hs (j : String) : standing ((w.revise fun fed =>
      { fed with vmMigrations := fed.vmMigrations.insert id { m with aborting := true } }).note
        (.aborting id (deleted w id .source))) j =
      if id = j then { standing w j with record := some { m with aborting := true } } else standing w j := by
    rw [← standing_insert]
    simp only [standing, deleted_note, Bool.or_false]
    rfl
  have hsane := hi.sane id
  rw [ho.holds] at hsane
  refine ⟨own_step hi ho.holds _ rfl (fun _ => rfl) (fun j hj => ?_) ?_ ?_ ?_, ho.holds, ?_, ?_⟩
  · rw [hs, if_neg (Ne.symm hj)]
  · rw [hs, if_pos rfl]
    refine ⟨hsane.spared, fun m' _ hsrc => ?_, ?_⟩
    · cases hsource.symm.trans hsrc
    · rintro _ ⟨⟩ _
      exact .inl rfl
  · rw [hs, if_pos rfl]
    rintro _ ⟨⟩
    exact hi.named id m hm
  · rw [hs, if_pos rfl]
    refine ⟨fun hn => ?_, fun m₁ _ h₁ hterm h₂ => ?_⟩
    · cases hm.symm.trans hn
    · obtain rfl := Option.some.inj (hm.symm.trans h₁)
      obtain rfl := Option.some.inj h₂
      exact hterm
  · rw [hs, if_pos rfl]
    rintro _ _ ⟨⟩
    exact .inl rfl
  · rw [hs, if_pos rfl]
    exact ⟨_, rfl, hst, rfl⟩

theorem setAborting_safe {m : VmMigration} (ht : m.state.terminal = false) (hi : Inv w)
    (ho : Owns me m.id (At m.state m.aborting) w) :
    (setAborting m).Safe discipline me (fun _ w => Owns me m.id (At m.state true) w) w := by
  rw [setAborting]
  split
  · rename_i hab
    rw [hab] at ho
    exact Safe.ret (stable_owns (closed_at ht true)) (fun _ _ h => h) hi ho
  · rename_i hab
    rw [eq_false_of_ne_true hab] at ho
    exact markAborting_safe ht hi ho

theorem finishAbort_safe {m : VmMigration} (ht : m.state.terminal = false) (hi : Inv w)
    (ho : Owns me m.id (At m.state true) w) :
    (finishAbort m).Safe discipline me (fun _ w => Holds me m.id w) w := by
  have hat := steady_at ht true
  have hsteps : (abortSteps m).Safe discipline me (fun _ w => Claims me m.id (fun s => Tidy s ∧ At m.state true s) w) w := by
    refine calm_then (calm_stopOurs m) hat.closed (fun _ w hi ho => ?_) (fun _ _ h => h.claims) hi ho
    exact undoTarget_safe (spare_target ht) hi ho.claims
  refine Safe.attempt_bind hi hsteps ?_
  clear hi ho hsteps
  intro x w hi ho
  cases x with
  | error e => exact remark_then (fun _ => ⟨rfl, rfl, rfl⟩) hat (fun _ w hi ho => fail_safe hi ho) hi ho.owns
  | ok _ =>
    refine change_then hat.closed ?_ (fun o w hi ho _ => ?_) hi ho.owns
    · rintro s m' ⟨m₁, hm₁, _, hab⟩ hm'
      obtain rfl := Option.some.inj (hm₁.symm.trans hm')
      exact ⟨rfl, fun _ h => (by cases hab.symm.trans h), fun _ => .inr rfl, fun _ => rfl⟩
    · cases o with
      | none => exact fail_safe hi ho
      | some rec => exact ret_safe hi ho

theorem abort_safe (hi : Inv w) (ho : Holds me id w) :
    (abort id).Safe discipline me (fun _ w => Holds me id w) w := by
  refine getMigration_then closed_true ?_ hi ho
  clear hi ho
  rintro m w hi ho rfl
  split
  · exact ret_safe hi ho
  · exact fail_safe hi ho
  · rename_i hna hnc
    have ht : m.state.terminal = false := by
      cases hst : m.state with
      | completed => exact absurd hst hnc
      | aborted => exact absurd hst hna
      | _ => rfl
    exact Safe.bind hi (setAborting_safe ht hi (ho.mono fun _ h => h.2.at ht))
      (fun _ w hi ho => finishAbort_safe ht hi ho) (fun _ _ h => h.mono fun _ _ => trivial)

/-! ## Retry -/

theorem restart_safe (hi : Inv w) (ho : Owns me id (At .failed false) w) :
    (restart hostNqnFor me id).Safe discipline me (fun _ w => Holds me id w) w := by
  refine change_then (closed_at rfl false) ?_ ?_ hi ho
  · rintro s m ⟨m', hm', hst, hab⟩ hm
    obtain rfl := Option.some.inj (hm.symm.trans hm')
    exact .of_running rfl ⟨by rw [hst]; decide, by rw [hst]; rfl⟩ hab
  · clear hi ho
    intro _ w hi ho _
    refine Safe.attempt_bind hi (advance_safe closed_true hi ho) fun x w hi ho => ?_
    cases x with
    | ok _ => exact get_safe hi ho
    | error e =>
      exact Safe.bind hi (fail_start_safe hi ho) (fun _ w hi ho => fail_safe hi ho) (fun _ _ h => h)

theorem retry_safe (hi : Inv w) (ho : Holds me id w) :
    (retry hostNqnFor me id).Safe discipline me (fun _ w => Holds me id w) w := by
  refine getMigration_then closed_true ?_ hi ho
  clear hi ho
  rintro m w hi ho rfl
  split
  · exact fail_safe hi ho
  · rename_i hab
    split
    · exact fail_safe hi ho
    · rename_i hst
      simp only [ne_eq, not_not] at hst
      have hat : Closed (At .failed false) := closed_at rfl false
      have he (e : Fault) (w : AppState) (h : Owns me m.id (At .failed false) w) : Holds me m.id w :=
        h.mono fun _ _ => trivial
      have ho : Owns me m.id (At .failed false) w := ho.mono fun s h => by
        have := h.2.at (by rw [hst]; rfl)
        rwa [hst, eq_false_of_ne_true hab] at this
      refine quiet_then (quiet_engine _) hat (fun _ w hi ho => ?_) he hi ho
      refine quiet_then (quiet_inquire _) hat (fun v w hi ho => ?_) he hi ho
      split
      · split
        · exact calm_then (calm_stopMirror _ _) hat (fun _ w hi ho => restart_safe hi ho) he hi ho
        · exact fail_safe hi ho
      · exact restart_safe hi ho

/-! ## The claim -/

/-- A name that is free may be claimed. -/
theorem claim_safe {Q : Except Fault Bool → AppState → Prop} (hissued : Issued w id)
    (hQ : ∀ b, discipline.Stable me (Q (.ok b))) (htrue : ∀ w, Inv w → Holds me id w → Q (.ok true) w)
    (hfalse : ∀ w, Q (.ok false) w) (hi : Inv w) :
    (claim me (VmMigration.claimKey id)).Safe discipline me Q w := by
  have hst : discipline.Stable me fun w => Issued w id := fun _ _ _ _ _ _ hg h => h.mono hg.seq
  refine Safe.step hst (fun w _ hi hissued _ _ => ?_) hi hissued
  cases hfree : w.replacing.contains (VmMigration.claimKey id) with
  | true =>
    simp only [hfree, ↓reduceIte]
    exact ⟨hi, Guar.refl _ w, Safe.ret (hQ false) (fun _ _ h => h) hi (hfalse w)⟩
  | false =>
    simp only [hfree, Bool.false_eq_true, ↓reduceIte]
    have hnone : holder w id = none := by
      rw [holder]
      rw [KeyMap.contains_eq] at hfree
      exact Option.not_isSome_iff_eq_none.mp (by simp [hfree])
    have hh (j : String) : holder { w with replacing := w.replacing.insert (VmMigration.claimKey id) ⟨me⟩ } j =
        if id = j then some ⟨me⟩ else holder w j := by
      simp only [holder, KeyMap.get_insert]
      by_cases h : id = j
      · rw [if_pos h, if_pos (congrArg _ h)]
      · rw [if_neg h, if_neg fun hc => h (claimKey_inj hc)]
    have hs (j : String) : standing { w with replacing := w.replacing.insert (VmMigration.claimKey id) ⟨me⟩ } j =
        standing w j := rfl
    have hsane := hi.sane id
    rw [hnone] at hsane
    have hinv : Inv { w with replacing := w.replacing.insert (VmMigration.claimKey id) ⟨me⟩ } := by
      refine ⟨fun j => ?_, hi.named, fun j hj => ?_⟩
      · rw [hh, hs]
        by_cases h : id = j
        · subst h
          rw [if_pos rfl]
          refine ⟨hsane.spared, hsane.retired, fun m hm ht => ?_⟩
          rcases hsane.undone m hm ht with h | h | ⟨h, _⟩
          · exact .inl h
          · exact .inr (.inl h)
          · cases h
        · rw [if_neg h]
          exact hi.sane j
      · rw [hh] at hj
        by_cases h : id = j
        · exact h ▸ hissued
        · rw [if_neg h] at hj
          exact hi.issued j hj
    have hheld : Holds me id { w with replacing := w.replacing.insert (VmMigration.claimKey id) ⟨me⟩ } := by
      refine ⟨by rw [hh, if_pos rfl], fun ht m hm => ?_, trivial⟩
      simpa using hsane.undone m hm ht
    refine ⟨hinv, ⟨Nat.le_refl _, fun j _ => .refl _, fun j t hj hne => ⟨?_, .inl rfl⟩⟩,
      Safe.ret (hQ true) (fun _ _ h => h) hinv (htrue _ hinv hheld)⟩
    · rw [hh, if_neg]
      · exact hj
      · rintro rfl
        rw [hnone] at hj
        cases hj

/-- The claim is let go. -/
theorem release_step (hi : Inv w) (ho : Owns me id φ w) :
    Inv (w.release (VmMigration.claimKey id)) ∧ Guar (some me) w (w.release (VmMigration.claimKey id)) := by
  have hh (j : String) : holder (w.release (VmMigration.claimKey id)) j = if id = j then none else holder w j := by
    simp only [holder, AppState.release, KeyMap.get_erase]
    by_cases h : id = j
    · rw [if_pos h, if_pos (congrArg _ h)]
    · rw [if_neg h, if_neg fun hc => h (claimKey_inj hc)]
  have hsane := hi.sane id
  refine ⟨⟨fun j => ?_, hi.named, fun j hj => ?_⟩, Nat.le_refl _, fun j _ => .refl _, fun j t hj hne => ⟨?_, .inl rfl⟩⟩
  · rw [hh]
    by_cases h : id = j
    · subst h
      rw [if_pos rfl]
      exact ⟨hsane.spared, hsane.retired, fun m hm ht => (ho.tidy ht m hm).imp_right .inl⟩
    · rw [if_neg h]
      exact hi.sane j
  · rw [hh] at hj
    by_cases h : id = j
    · rw [if_pos h] at hj
      exact hi.issued j (hj.imp_right (.imp_right (by simp)))
    · rw [if_neg h] at hj
      exact hi.issued j hj
  · rw [hh, if_neg]
    · exact hj
    · rintro rfl
      rw [ho.holds] at hj
      exact hne (by simpa using hj)

theorem release_then {β : Type} {f : Unit → Async β} {Q : Except Fault β → AppState → Prop} (hφ : Closed φ)
    (hf : ∀ w, Inv w → (f ()).Safe discipline me Q w) (hi : Inv w) (ho : Owns me id φ w) :
    ((release (VmMigration.claimKey id)).bind f).Safe discipline me Q w := by
  refine Safe.bind (Q := fun x _ => ∃ u, x = .ok u) hi ?_ (fun _ w hi _ => hf w hi) (fun _ _ h => by simp at h)
  refine Safe.step (stable_owns hφ) (fun w _ hi ho _ _ => ?_) hi ho
  obtain ⟨hi', hg⟩ := release_step hi ho
  exact ⟨hi', hg, Safe.ret (Discipline.stable_const _) (fun _ _ h => h) hi' ⟨(), rfl⟩⟩

/-- Any outcome, at any state: an operation that is over. -/
theorem over_safe {α : Type} {t : Async α} (hq : t.Quiet) (hi : Inv w) :
    t.Safe discipline me (fun _ _ => True) w :=
  (Safe.of_quiet hq (Guar.refl _) (Discipline.stable_const True) hi trivial).mono fun _ _ _ => trivial

theorem claimed_safe {f : Async VmMigration}
    (hf : ∀ w, Inv w → Holds me id w → f.Safe discipline me (fun _ w => Holds me id w) w) (hi : Inv w) :
    (claimed me id f).Safe discipline me (fun _ _ => True) w := by
  have hst : discipline.Stable me fun w => Issued w id := fun _ _ _ _ _ _ hg h => h.mono hg.seq
  refine Safe.bind (Q := fun x w => x = .ok true → Issued w id) hi ?_ (fun known w hi hk => ?_) (fun _ _ _ => trivial)
  · refine Safe.await (Discipline.stable_const True) (fun a => ?_) (fun w _ hi _ _ _ => ⟨⟨hi, Guar.refl _ w⟩, ?_⟩) hi trivial
    · intro w w' u hu hi hi' hg h ha
      exact (h ha).mono hg.seq
    · intro hk
      refine hi.issued id (.inl ?_)
      simp only [Except.ok.injEq, KeyMap.contains_eq] at hk
      exact hk
  · split
    · exact over_safe trivial hi
    · rename_i hknown
      have hissued := hk (by simpa using hknown)
      refine Safe.bind (Q := fun x w => x = .ok true → Holds me id w) hi
        (claim_safe hissued (fun b => ?_) (fun _ _ h _ => h) (fun _ h => by cases h) hi) (fun b w hi ho => ?_)
        (fun _ _ _ => trivial)
      · intro w w' u hu hi hi' hg h hb
        exact stable_owns closed_true w w' u hu hi hi' hg (h hb)
      · split
        · exact over_safe trivial hi
        · rename_i hb
          have ho := ho (by simpa using hb)
          refine Safe.attempt_bind hi (hf w hi ho) fun r w hi ho => ?_
          exact release_then closed_true (fun w hi => over_safe (only_ofExcept _) hi) hi ho

/-! ## Starting one -/

theorem inv_of_seq (hi : Inv w) (n : Nat) (h : w.seq ≤ n) :
    Inv { w with seq := n } ∧ Guar u w { w with seq := n } :=
  ⟨⟨hi.sane, hi.named, fun j hj => (hi.issued j hj).mono h⟩, h, fun _ _ => .refl _, fun _ _ hj _ => ⟨hj, .inl rfl⟩⟩

/-- The state with one more migration, claimed by its starter. -/
def opened (w : AppState) (me : Nat) (m : VmMigration) : AppState :=
  { w.revise fun fed => { fed with vmMigrations := fed.vmMigrations.insert m.id m } with
    seq := w.seq + 1
    replacing := w.replacing.insertIfNew (VmMigration.claimKey m.id) { task := me } }

theorem opened_step (me : Nat) (hi : Inv w) {m : VmMigration} {ms : Nat} (hid : m.id = VmMigration.newId ms w.seq)
    (hst : m.state = .starting) (hab : m.aborting = false) :
    (Inv (opened w me m) ∧ Guar (some me) w (opened w me m)) ∧ Starting me m.id (opened w me m) := by
  have hfresh : ¬ Issued w m.id := hid ▸ fresh_not_issued w ms
  have hfree : holder w m.id = none := by
    by_contra hc
    exact hfresh (hi.issued _ (.inr (.inr (Option.isSome_iff_ne_none.mpr hc))))
  have hdel (c : Copy) : deleted w m.id c = false := by
    by_contra hc
    exact hfresh (hi.issued _ (.inr (.inl ⟨c, by simpa using hc⟩)))
  have hh (j : String) : holder (opened w me m) j = if m.id = j then some ⟨me⟩ else holder w j := by
    simp only [holder, opened, Std.ExtTreeMap.getElem?_insertIfNew, Std.LawfulEqCmp.compare_eq_iff_eq]
    by_cases h : m.id = j
    · subst h
      have : VmMigration.claimKey m.id ∉ w.replacing := by
        rw [← Std.ExtTreeMap.isSome_getElem?_iff_mem]
        simpa [holder] using hfree
      rw [if_pos ⟨rfl, this⟩, if_pos rfl]
    · rw [if_neg fun hc => h (claimKey_inj hc.1), if_neg h]
  have hs (j : String) : standing (opened w me m) j =
      if m.id = j then { standing w j with record := some m } else standing w j :=
    standing_insert w m.id m j
  have hissued : Issued (opened w me m) m.id := ⟨ms, w.seq, Nat.lt_succ_self _, hid⟩
  have hle : w.seq ≤ (opened w me m).seq := Nat.le_succ _
  refine ⟨⟨⟨fun j => ?_, fun j m' hm' => ?_, fun j hj => ?_⟩, hle, fun j hj => ?_, fun j t hj hne => ?_⟩, ?_, ?_, ?_⟩
  · rw [hh, hs]
    by_cases h : m.id = j
    · subst h
      rw [if_pos rfl, if_pos rfl]
      refine ⟨(hi.sane _).spared, fun _ _ hsrc => ?_, fun _ _ htgt => ?_⟩
      · cases (hdel .source).symm.trans hsrc
      · cases (hdel .target).symm.trans htgt
    · rw [if_neg h, if_neg h]
      exact hi.sane j
  · rw [hs] at hm'
    by_cases h : m.id = j
    · rw [if_pos h] at hm'
      exact Option.some.inj hm' ▸ h
    · rw [if_neg h] at hm'
      exact hi.named j m' hm'
  · by_cases h : m.id = j
    · exact h ▸ hissued
    · rw [hs, hh, if_neg h, if_neg h] at hj
      exact (hi.issued j hj).mono hle
  · rw [hs, if_neg]
    · exact .refl _
    · rintro rfl
      exact hfresh hj
  · have h : m.id ≠ j := by
      rintro rfl
      rw [hfree] at hj
      cases hj
    rw [hs, hh, if_neg h, if_neg h]
    exact ⟨hj, .inl rfl⟩
  · rw [hh, if_pos rfl]
  · rw [hs, if_pos rfl]
    intro ht
    cases (hdel .target).symm.trans ht
  · rw [hs, if_pos rfl]
    exact ⟨m, rfl, hst, hab⟩

theorem openMigration_safe {node target : String} {planned : Planned} (hi : Inv w) :
    (openMigration me node target planned).Safe discipline me (fun x w => match x with
      | .ok m => Starting me m.id w
      | .error _ => True) w := by
  refine Safe.step (Discipline.stable_const True) (fun w i hi _ _ _ => ?_) hi trivial
  simp only [ret_bind]
  split
  · obtain ⟨hi', hg⟩ := inv_of_seq (u := some me) hi (w.seq + 1) (Nat.le_succ _)
    exact ⟨hi', hg, Safe.fail (Discipline.stable_const True) (fun _ _ h => h) hi' trivial⟩
  · have hid : (planned.migration node target (VmMigration.newId i.now w.seq) i.now).id = VmMigration.newId i.now w.seq :=
      rfl
    have hm := opened_step me hi hid rfl rfl
    exact ⟨hm.1.1, hm.1.2, Safe.ret (stable_starting me _) (fun _ _ h => h) hm.1.1 hm.2⟩

theorem undoMade_safe (hi : Inv w) (ho : Claims me id (At .starting false) w) :
    (undoMade id).Safe discipline me (fun _ w => Claims me id (At .starting false) w) w := by
  have hst : discipline.Stable me (Claims me id (At .starting false)) := stable_claims (closed_at rfl false)
  refine Safe.bind (Q := fun x w => Claims me id (At .starting false) w ∧ ∀ m, x = .ok (some m) → m.id = id) hi ?_ ?_
    (fun _ _ h => h.1)
  · refine Safe.step hst (fun w _ hi ho _ _ => ?_) hi ho
    have hc : Calm w (w.note (.undoing id)) := calm_note w (by simp)
    refine ⟨hc.inv hi, hc.guar _, ?_⟩
    refine Safe.ret (hst.and (Discipline.stable_const _)) (fun _ _ h => h) (hc.inv hi) ⟨?_, ?_⟩
    · exact ⟨(hc.holder id).trans ho.holds, (hc.standing id).symm ▸ ho.fact⟩
    · intro m hm
      exact hi.named id m (Except.ok.inj hm)
  · clear hi ho
    rintro o w hi ⟨ho, hid⟩
    cases o with
    | none => exact Safe.ret hst (fun _ _ h => h) hi ho
    | some m =>
      obtain rfl := hid m rfl
      refine Safe.attempt_bind hi (undoTarget_safe spare_started hi ho) fun _ w hi ho => ?_
      exact Safe.ret hst (fun _ _ h => h) hi ho

/-- The record and the claim of a start that failed go together. -/
theorem undone_step (hi : Inv w) (ho : Claims me id (At .starting false) w) :
    Inv ((w.revise fun fed => { fed with vmMigrations := fed.vmMigrations.erase id }).release (VmMigration.claimKey id)) ∧
      Guar (some me) w
        ((w.revise fun fed => { fed with vmMigrations := fed.vmMigrations.erase id }).release (VmMigration.claimKey id)) := by
  generalize hw : (w.revise fun fed => { fed with vmMigrations := fed.vmMigrations.erase id }).release
    (VmMigration.claimKey id) = w'
  have hh (j : String) : holder w' j = if id = j then none else holder w j := by
    simp only [← hw, holder, AppState.release, AppState.revise, AppState.setFed, KeyMap.get_erase]
    by_cases h : id = j
    · rw [if_pos h, if_pos (congrArg _ h)]
    · rw [if_neg h, if_neg fun hc => h (claimKey_inj hc)]
  have hs (j : String) : standing w' j = if id = j then { standing w j with record := none } else standing w j := by
    rw [← standing_erase, ← hw]
    rfl
  have hseq : w'.seq = w.seq := by rw [← hw]; rfl
  have hissued : Issued w id := hi.issued id (.inr (.inr (by rw [ho.holds]; rfl)))
  refine ⟨⟨fun j => ?_, fun j m hm => ?_, fun j hj => ?_⟩, Nat.le_of_eq hseq.symm, fun j _ => ?_, fun j t hj hne => ?_⟩
  · rw [hh, hs]
    by_cases h : id = j
    · rw [if_pos h, if_pos h]
      exact ⟨(hi.sane j).spared, fun _ h _ => (by cases h), fun _ h _ => (by cases h)⟩
    · rw [if_neg h, if_neg h]
      exact hi.sane j
  · rw [hs] at hm
    by_cases h : id = j
    · rw [if_pos h] at hm
      cases hm
    · rw [if_neg h] at hm
      exact hi.named j m hm
  · by_cases h : id = j
    · exact h ▸ hissued.mono (Nat.le_of_eq hseq.symm)
    · refine (hi.issued j ?_).mono (Nat.le_of_eq hseq.symm)
      rw [hs, hh, if_neg h, if_neg h] at hj
      rcases hj with hj | ⟨c, hj⟩ | hj
      · exact .inl hj
      · exact .inr (.inl ⟨c, by rw [← hj, ← hw]; rfl⟩)
      · exact .inr (.inr hj)
  · rw [hs]
    by_cases h : id = j
    · rw [if_pos h]
      exact ⟨fun _ => rfl, fun _ _ _ _ h => by cases h⟩
    · rw [if_neg h]
      exact .refl _
  · have h : id ≠ j := by
      rintro rfl
      rw [ho.holds] at hj
      exact hne (by simpa using hj)
    rw [hs, hh, if_neg h, if_neg h]
    exact ⟨hj, .inl rfl⟩

theorem begin_safe {m : VmMigration} (hi : Inv w) (ho : Starting me m.id w) :
    (begin hostNqnFor me m).Safe discipline me (fun _ _ => True) w := by
  have hat : Closed (At .starting false) := closed_at rfl false
  refine Safe.attempt_bind hi (advance_safe hat hi ho) ?_
  clear hi ho
  intro x w hi ho
  cases x with
  | ok _ =>
    refine release_then closed_true (fun w hi => ?_) hi ho
    exact over_safe (Only.bind (quiet_get _) fun _ => trivial) hi
  | error e =>
    have ho : Owns me m.id (At .starting false) w := ho.mono fun s h => by
      rcases h with ⟨⟨m', hm', _⟩, hn⟩ | h
      · cases hm'.symm.trans hn
      · exact h
    refine Safe.bind hi (undoMade_safe hi ⟨ho.holds, ho.fact⟩) (fun _ w hi ho => ?_) (fun _ _ _ => trivial)
    refine Safe.step (stable_claims hat) (fun w _ hi ho _ _ => ?_) hi ho
    obtain ⟨hi', hg⟩ := undone_step hi ho
    exact ⟨hi', hg, over_safe trivial hi'⟩

/-! ## The reconciler -/

/-- A record that was read: one that was terminal stays so. -/
def Seen (m : VmMigration) (w : AppState) : Prop :=
  Issued w m.id ∧ (m.state.terminal = true → ∀ m', (standing w m.id).record = some m' → m'.state.terminal = true)

/-- Every step keeps it. -/
theorem Seen.keep {m : VmMigration} (hg : Guar u w w') (h : Seen m w) : Seen m w' := by
  obtain ⟨hissued, hterm⟩ := h
  refine ⟨hissued.mono hg.seq, fun ht m' hm' => ?_⟩
  have hl := hg.later m.id hissued
  cases hr : (standing w m.id).record with
  | none => cases (hl.gone hr).symm.trans hm'
  | some m₁ => exact hl.terminal m₁ m' hr (hterm ht m₁ hr) hm'

theorem forget_step (me : Nat) {m : VmMigration} (hi : Inv w) (hseen : Seen m w) (ht : m.state.terminal = true) :
    Inv (w.revise fun fed => { fed with vmMigrations := fed.vmMigrations.erase m.id }) ∧
      Guar (some me) w (w.revise fun fed => { fed with vmMigrations := fed.vmMigrations.erase m.id }) := by
  generalize hw : (w.revise fun fed => { fed with vmMigrations := fed.vmMigrations.erase m.id }) = w'
  have hs (j : String) : standing w' j = if m.id = j then { standing w j with record := none } else standing w j := by
    rw [← standing_erase, ← hw]
  have hh (j : String) : holder w' j = holder w j := by rw [← hw]; rfl
  have hseq : w'.seq = w.seq := by rw [← hw]; rfl
  refine ⟨⟨fun j => ?_, fun j m' hm' => ?_, fun j hj => ?_⟩, Nat.le_of_eq hseq.symm, fun j _ => ?_, fun j t hj hne => ?_⟩
  · rw [hh, hs]
    by_cases h : m.id = j
    · rw [if_pos h]
      exact ⟨(hi.sane j).spared, fun _ h _ => (by cases h), fun _ h _ => (by cases h)⟩
    · rw [if_neg h]
      exact hi.sane j
  · rw [hs] at hm'
    by_cases h : m.id = j
    · rw [if_pos h] at hm'
      cases hm'
    · rw [if_neg h] at hm'
      exact hi.named j m' hm'
  · by_cases h : m.id = j
    · exact h ▸ hseen.1.mono (Nat.le_of_eq hseq.symm)
    · refine (hi.issued j ?_).mono (Nat.le_of_eq hseq.symm)
      rw [hs, hh, if_neg h] at hj
      rcases hj with hj | ⟨c, hj⟩ | hj
      · exact .inl hj
      · exact .inr (.inl ⟨c, by rw [← hj, ← hw]; rfl⟩)
      · exact .inr (.inr hj)
  · rw [hs]
    by_cases h : m.id = j
    · rw [if_pos h]
      exact ⟨fun _ => rfl, fun _ _ _ _ h => by cases h⟩
    · rw [if_neg h]
      exact .refl _
  · rw [hs, hh]
    refine ⟨hj, ?_⟩
    by_cases h : m.id = j
    · subst h
      rw [if_pos rfl]
      cases hr : (standing w m.id).record with
      | none => exact .inl (by rw [← hr])
      | some m' => exact .inr ⟨rfl, m', hr, hseen.2 ht m' hr⟩
    · rw [if_neg h]
      exact .inl rfl

theorem resume_safe {m : VmMigration} {sOk tOk : Bool} (hi : Inv w) (ho : Holds me m.id w) :
    (resume hostNqnFor me m sOk tOk).Safe discipline me (fun _ w => Holds me m.id w) w := by
  unfold resume
  split
  · exact Safe.bind hi (abort_safe hi ho) (fun _ w hi ho => ret_safe hi ho) (fun _ _ h => h)
  · split
    · refine Safe.attempt_bind hi (advance_safe closed_true hi ho) ?_
      clear hi ho
      intro x w hi ho
      cases x with
      | ok _ => exact ret_safe hi ho
      | error e => exact Safe.bind hi (fail_start_safe hi ho) (fun _ w hi ho => fail_safe hi ho) (fun _ _ h => h)
    all_goals
      first
      | exact ret_safe hi ho
      | split
        · first
          | exact refresh_safe hi ho
          | exact withdraw_safe m steady_true hi ho
        · exact ret_safe hi ho

theorem reconcileOne_safe {m : VmMigration} {now : SystemTime} (hi : Inv w) (hseen : Seen m w) :
    (reconcileOne hostNqnFor me now m).Safe discipline me (fun _ _ => True) w := by
  unfold reconcileOne
  split
  · rename_i hc
    refine Safe.step (fun _ _ _ _ _ _ hg h => h.keep hg) (fun w _ hi hseen _ _ => ?_) hi hseen
    have hstep := forget_step me hi hseen hc.1
    exact ⟨hstep.1, hstep.2, over_safe trivial hstep.1⟩
  · refine Safe.bind (Q := fun x w => x = .ok true → Holds me m.id w) hi
      (claim_safe hseen.1 (fun b => ?_) (fun _ _ h _ => h) (fun _ h => by cases h) hi) ?_ (fun _ _ _ => trivial)
    · intro w w' u hu hi hi' hg h hb
      exact stable_owns closed_true w w' u hu hi hi' hg (h hb)
    · clear hi hseen
      intro b w hi ho
      split
      · rename_i hb
        refine quiet_then (quiet_get _) closed_true (fun sOk w hi ho => ?_) (fun _ _ _ => trivial) hi (ho (by rw [hb]))
        refine quiet_then (quiet_get _) closed_true (fun tOk w hi ho => ?_) (fun _ _ _ => trivial) hi ho
        refine Safe.attempt_bind hi (resume_safe hi ho) fun _ w hi ho => ?_
        refine Safe.step (stable_owns closed_true) (fun w _ hi ho _ _ => ?_) hi ho
        obtain ⟨hi', hg⟩ := release_step hi ho
        exact ⟨hi', hg, over_safe trivial hi'⟩
      · exact over_safe trivial hi

theorem runMigrations_safe (hi : Inv w) : (runMigrations hostNqnFor me).Safe discipline me (fun _ _ => True) w := by
  have hkeep (ms : List VmMigration) (u : Option Nat) (w w' : AppState) (_ : Inv w) (_ : Inv w')
      (hg : Guar u w w') (h : ∀ m ∈ ms, Seen m w) : ∀ m ∈ ms, Seen m w' := fun m hm => (h m hm).keep hg
  refine Safe.bind (Q := fun x w => ∀ r, x = .ok r → ∀ m ∈ r.1, Seen m w) hi ?_ ?_ (fun _ _ _ => trivial)
  · refine Safe.step (Discipline.stable_const True) (fun w i hi _ _ _ => ⟨hi, Guar.refl _ w, ?_⟩) hi trivial
    refine Safe.ret (P := fun s => ∀ m ∈ w.fed.vmMigrations.toList.map Prod.snd, Seen m s)
      (fun w w' u _ hi hi' hg h => hkeep _ u w w' hi hi' hg h) (fun _ _ h r hr => Except.ok.inj hr ▸ h) hi ?_
    intro m hm
    obtain ⟨⟨j, m'⟩, hmem, rfl⟩ := List.mem_map.mp hm
    have hr : (standing w j).record = some m' := KeyMap.mem_toList.mp hmem
    have hid : m'.id = j := hi.named j m' hr
    refine ⟨hi.issued _ (.inl ?_), fun ht m₁ h₁ => ?_⟩
    · rw [hid, hr]
      rfl
    · rw [hid] at h₁
      obtain rfl := Option.some.inj (hr.symm.trans h₁)
      exact ht
  · rintro ⟨all, now⟩ w hi hall
    exact (Safe.forEach (hkeep all) (fun m hm w hi h => reconcileOne_safe hi (h m hm)) hi (hall _ rfl)).mono
      fun _ _ _ => trivial

/-! ## Every run -/

theorem quiet_upstream {α : Type} {t : Async α} (h : t.Quiet) (node : String) : (upstream node t).Quiet :=
  Only.bind h.attempt fun x => by cases x <;> trivial

theorem quiet_planMigration (node vol : String) (body : MigrateBody) : (planMigration node vol body).Quiet := by
  unfold planMigration
  split
  · trivial
  · refine Only.bind (quiet_get _) fun known => Only.bind (only_ofExcept _) fun _ => Only.bind ?_ fun v => ?_
    · refine Only.bind (quiet_inquire _).attempt fun x => ?_
      cases x with
      | ok _ => trivial
      | error e => dsimp only; split <;> trivial
    · split
      · refine Only.bind ?_ fun _ => Only.bind ?_ fun _ => trivial
        · refine Only.bind (quiet_localVolumeId _ _).attempt fun x => ?_
          cases x with
          | ok _ => trivial
          | error e => dsimp only; split <;> trivial
        · unfold placed
          split
          · trivial
          · refine Only.bind (Only.bind (only_ofExcept _) fun k => Only.bind ?_ fun _ => only_ofExcept _) fun _ => trivial
            unfold lookUp
            split
            · exact Only.bind (quiet_upstream (quiet_inquire _) _) fun _ => trivial
            · exact Only.bind (quiet_upstream (quiet_inquire _) _) fun _ => trivial
      all_goals trivial

theorem start_safe {node vol : String} {body : MigrateBody} (hi : Inv w) :
    (start hostNqnFor me node vol body).Safe discipline me (fun _ _ => True) w := by
  refine Safe.quiet_bind (quiet_planMigration node vol body) (Guar.refl _) (Discipline.stable_const True)
    (fun planned w hi _ => ?_) (fun _ _ _ _ => trivial) hi trivial
  exact Safe.bind hi (openMigration_safe hi) (fun m w hi ho => begin_safe hi ho) (fun _ _ _ => trivial)

theorem over_then {α : Type} {t : Async α} (h : t.Safe discipline me (fun _ _ => True) w) (hi : Inv w) :
    (t.bind fun _ => .ret ()).Safe discipline me (fun _ _ => True) w :=
  Safe.bind hi h (fun _ _ hi _ => over_safe trivial hi) (fun _ _ _ => trivial)

/-- Every operation keeps the invariant, and what the others rely on. -/
theorem prog_safe (t : Nat) (op : Op) (w : AppState) (hi : Inv w) :
    (prog hostNqnFor t op).Safe discipline t (fun _ _ => True) w := by
  cases op with
  | start node vol body => exact over_then (start_safe hi) hi
  | cutover id => exact over_then (claimed_safe (fun _ => cutover_safe) hi) hi
  | complete id => exact over_then (claimed_safe (fun _ => complete_safe) hi) hi
  | abort id => exact over_then (claimed_safe (fun _ => abort_safe) hi) hi
  | retry id => exact over_then (claimed_safe (fun _ => retry_safe) hi) hi
  | run => exact runMigrations_safe hi

/-- No migration yet, whatever else the federation holds. -/
def AppState.start (fed : FedState) : AppState := { fed := { fed with vmMigrations := ∅ } }

theorem inv_start (fed : FedState) : Inv (AppState.start fed) := by
  have hr (j : String) : (standing (AppState.start fed) j).record = none := KeyMap.get_empty j
  refine ⟨fun j => ⟨by simp [standing, deleted, AppState.start], fun m hm => ?_, fun m hm => ?_⟩, fun j m hm => ?_, fun j hj => ?_⟩
  · cases (hr j).symm.trans hm
  · cases (hr j).symm.trans hm
  · cases (hr j).symm.trans hm
  · rcases hj with hj | ⟨c, hj⟩ | hj
    · rw [hr j] at hj
      cases hj
    · simp [deleted, AppState.start] at hj
    · simp [holder, AppState.start] at hj

theorem nodes_step (hi : Inv w) (nodes : KeyMap Node) :
    Inv (w.setFed fun fed => { fed with nodes := nodes }) ∧ Guar u w (w.setFed fun fed => { fed with nodes := nodes }) :=
  ⟨⟨hi.sane, hi.named, hi.issued⟩, Nat.le_refl _, fun _ _ => .refl _, fun _ _ h _ => ⟨h, .inl rfl⟩⟩

/-- In every run no migration's steps delete both copies, if no abort is asked
of a cut-over whose source a complete has deleted. -/
theorem copies_spared {fed : FedState} {p : Pool Reply AppState Fault}
    (h : (migrations hostNqnFor).Run (fun _ w => Timely w.log) ⟨AppState.start fed, []⟩ p) (id : String) :
    ¬(deleted p.state id .source = true ∧ deleted p.state id .target = true) := by
  have hkept : System.Run.Kept discipline p := by
    refine System.Run.safe (d := discipline) ?_ ?_ ?_ ?_ h
    · exact prog_safe
    · exact fun nodes w hi _ => nodes_step hi nodes
    · exact inv_start fed
    · rfl
  exact (hkept.1.sane id).spared

/-! ### A small run -/

/-- Nodes s and t, both healthy. -/
def smallFed : FedState where
  nodes := (∅ : KeyMap Node).insert "s" (up "s") |>.insert "t" (up "t")
where
  up (name : String) : Node := ⟨{ name := name, engineUrl := "" }, { NodeStatus.new .static with healthy := true }⟩

def smallVolume : EngineItem := { id := some "v1", name := some "disk", sizeBytes := some 10 }

def smallLeg : AttachedLeg := { nqn := "q", traddr := "t", trsvcid := 4420, nsid := 1 }

abbrev SmallMove := Move Reply Op (KeyMap Node)

/-- The volume is mirrored from s to t and cut over. -/
def smallCutover : List SmallMove :=
  [.start (.start "s" "disk" { «to» := "t" }), .run 0 {}, .run 0 { item := smallVolume }, .run 0 {}, .run 0 {},
    .run 0 {}, .run 0 {}, .run 0 { made := "w1", item := { id := some "w1", name := some "disk" } }, .run 0 {},
    .run 0 {}, .run 0 {}, .run 0 { attach := some smallLeg },
    .run 0 {}, .run 0 {}, .run 0 { item := smallVolume },
    .run 0 { mirror := some ⟨"nvme-tcp://t:4420/q?nsid=1&hostnqn=h", "synced", 10, 0, none⟩ }, .run 0 {}, .run 0 {},
    .run 0 {},
    .start (.cutover "vm-0-0"), .run 1 {}, .run 1 {}, .run 1 {}, .run 1 {}, .run 1 {},
    .run 1 { item := { smallVolume with
      mirror := some ⟨"nvme-tcp://t:4420/q?nsid=1&hostnqn=h", "synced", 10, 0, none⟩ } },
    .run 1 { stopped := ⟨some "synced", true, none⟩ }, .run 1 {}, .run 1 {}, .run 1 {}, .run 1 {}, .run 1 {}, .run 1 {}]

/-- The source is retired; `wire` is how its delete goes. -/
def smallComplete (wire : Wire) : List SmallMove :=
  [.start (.complete "vm-0-0"), .run 2 {}, .run 2 {}, .run 2 {}, .run 2 {}, .run 2 { wire := wire }, .run 2 {},
    .run 2 {}]

def smallAbort : List SmallMove :=
  [.start (.abort "vm-0-0"), .run 3 {}, .run 3 {}, .run 3 {}, .run 3 {}, .run 3 {}, .run 3 {}, .run 3 {}, .run 3 {},
    .run 3 {}, .run 3 {}]

def smallSystem : System Reply AppState Fault := migrations fun _ => "h"

def timely (log : List Event) : Bool :=
  log.all fun
    | .aborting _ true => false
    | _ => true

theorem timely_iff {log : List Event} : timely log = true ↔ Timely log := by
  simp only [timely, List.all_eq_true, Timely]
  refine ⟨fun h id hm => by simpa using h _ hm, fun h e he => ?_⟩
  split
  · exact absurd he (h _)
  · rfl

theorem copies_spared_small : ∃ p, smallSystem.Run (fun _ w => Timely w.log) ⟨AppState.start smallFed, []⟩ p ∧
    deleted p.state "vm-0-0" .source = true ∧
    ¬(deleted p.state "vm-0-0" .source = true ∧ deleted p.state "vm-0-0" .target = true) := by
  have hr : smallSystem.Run (fun _ w => Timely w.log) ⟨AppState.start smallFed, []⟩
      (smallSystem.final (fun _ w => timely w.log) ⟨AppState.start smallFed, []⟩
        (smallCutover ++ smallComplete .answered)) :=
    System.run_final (fun _ _ => timely_iff.mp) (by decide +kernel)
  exact ⟨_, hr, by decide +kernel, copies_spared hr "vm-0-0"⟩

/-- The source's delete takes effect, its answer is lost, and an abort deletes
the target. -/
theorem not_copies_spared : ¬ ∀ (fed : FedState) (p : Pool Reply AppState Fault),
    smallSystem.Run (fun _ _ => True) ⟨AppState.start fed, []⟩ p →
    ∀ id, ¬(deleted p.state id .source = true ∧ deleted p.state id .target = true) := by
  intro h
  have hr : smallSystem.Run (fun _ _ => True) ⟨AppState.start smallFed, []⟩
      (smallSystem.final (fun _ _ => true) ⟨AppState.start smallFed, []⟩
        (smallCutover ++ smallComplete (.lost "timed out") ++ smallAbort)) :=
    System.run_final (fun _ _ _ => trivial) (by decide +kernel)
  exact h _ _ hr "vm-0-0" (by decide +kernel)

end StormStorage.VmMigrate
