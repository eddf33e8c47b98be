import StormStorage.Proof.Steps.Requests
import StormStorage.Proof.Volumes.Apart

/-!
# The steps of every operation

The programs of the operations, walked once side by side: each step does what
`Does` says. What an operation reads of a record stays true while it holds the
volume's claim (`Owned`), so what it writes back later is what `RecordStep` says.

* `StepSafe` and `walk_claim` to `walk_writeBack`: the steps of a claim's holder;
* `walk_program`: every operation's program;
* `does_step`: every step of every run.
-/

namespace StormStorage

open Await Task Orchestrate

/-! ## The discipline -/

/-- What holds at every moment. -/
structure StepInv (w : AppState) : Prop where
  named : Named w.fed
  /-- What was handed to the background is claimed. -/
  handed : ∀ s ∈ w.spawned, w.replacing.contains s.name
  once : (w.spawned.map Spawn.name).Nodup

/-- What a step of `u` does, and leaves to the others. -/
structure StepGuar (u : Option Nat) (w w' : AppState) : Prop where
  others : ∀ name t, u ≠ some t → Holds t name w → Holds t name w' ∧ Spares name w w'
  undertakings : ∀ t, u ≠ some t → w'.undertakings.filter (·.task = t) = w.undertakings.filter (·.task = t)
  passes : Passes w w'
  offered : u ≠ none → Offered w.fed w'.fed ∨ Unoffered w w'

theorem StepGuar.of_does {u : Option Nat} {w w' : AppState}
    (others : ∀ name t, u ≠ some t → Holds t name w → Holds t name w' ∧ Spares name w w')
    (undertakings : ∀ t, u ≠ some t →
      w'.undertakings.filter (·.task = t) = w.undertakings.filter (·.task = t))
    (does : Does w w') : StepGuar u w w' :=
  ⟨others, undertakings, does.toPasses, fun _ => does.offered⟩

@[reducible] def stepDiscipline : Discipline AppState where
  inv := StepInv
  ok _ _ := True
  guar := StepGuar

/-- A task that goes on beside the others. -/
abbrev StepSafe (t : Nat) {α : Type} (task : Async α) (Q : Except Fault α → AppState → Prop) (w : AppState) : Prop :=
  task.Safe stepDiscipline t Q w

section

variable {α : Type} {cfg : Config} {w w' : AppState} {me t : Nat} {u : Option Nat} {name : String} {R : AppState → Prop}

theorem stable_always : stepDiscipline.Stable t fun _ => True := fun _ _ _ _ _ _ _ _ => trivial

/-- What stays known of a volume while it is claimed. -/
def Abiding (name : String) (R : AppState → Prop) : Prop := ∀ w w', Spares name w w' → Passes w w' → R w → R w'

/-- The claim, and what is known under it. -/
def Owned (t : Nat) (name : String) (R : AppState → Prop) (w : AppState) : Prop := Holds t name w ∧ R w

theorem stable_claimed : stepDiscipline.Stable t (Holds t name) := fun _ _ _ hu _ _ hg hh => (hg.others name t hu hh).1

theorem stable_mine (hR : Abiding name R) : stepDiscipline.Stable t (Owned t name R) :=
  fun _ _ _ hu _ _ hg hm =>
    let h := hg.others name t hu hm.1
    ⟨h.1, hR _ _ h.2 hg.passes hm.2⟩

theorem Holds.contains (h : Holds t name w) : w.replacing.contains name = true := by
  rw [KeyMap.contains_eq, h.1]
  rfl

namespace Aloof

theorem inv (h : Aloof me w w') (hi : StepInv w) : StepInv w' where
  named := h.named hi.named
  handed := by
    rw [h.replacing, h.spawned]
    exact hi.handed
  once := by
    rw [h.spawned]
    exact hi.once

theorem guar (h : Aloof me w w') : StepGuar (some me) w w' where
  others n _ _ hh := ⟨hh.of_eq h.replacing h.spawned, h.spares n hh.contains⟩
  undertakings t ht := h.undertakings t fun he => ht (he ▸ rfl)
  passes := h.does.toPasses
  offered _ := h.does.offered

theorem mine (h : Aloof me w w') (hR : Abiding name R) (hm : Owned me name R w) : Owned me name R w' :=
  ⟨hm.1.of_eq h.replacing h.spawned, hR _ _ (h.spares name hm.1.contains) h.does.toPasses hm.2⟩

end Aloof

/-- A phase that leaves claimed volumes alone. -/
theorem walk_aloof {task : Async α} (ht : task.Only (Aloof t)) (hi : StepInv w) :
    StepSafe t task (fun _ _ => True) w :=
  (Safe.of_only ht stable_always (fun _ _ hi _ h _ => ⟨h.inv hi, h.guar, trivial⟩) hi trivial).mono fun _ _ _ => trivial

/-- The same under a claim, with what it answers. -/
theorem walk_mine {task : Async α} {Q : α → Prop} (ht : task.Only (Aloof t)) (hq : task.Answers Q) (hR : Abiding name R)
    (hi : StepInv w) (hm : Owned t name R w) : StepSafe t task (fun x s => Owned t name R s ∧ ∀ a, x = .ok a → Q a) w :=
  Safe.of_answers ht hq (stable_mine hR) (fun _ _ hi hm h _ => ⟨h.inv hi, h.guar, h.mine hR hm⟩) hi hm

theorem walk_holds {task : Async α} (ht : task.Only (Aloof t)) (hi : StepInv w) (hh : Holds t name w) :
    StepSafe t task (fun _ s => Holds t name s) w :=
  (walk_mine (R := fun _ => True) ht (answers_true _) (fun _ _ _ _ h => h) hi ⟨hh, trivial⟩).mono fun _ _ h => h.1.1

theorem walk_ret {a : α} (hi : StepInv w) : StepSafe t (.ret a) (fun _ _ => True) w :=
  Safe.ret stable_always (fun _ _ _ => trivial) hi trivial

theorem walk_fail {e : Fault} (hi : StepInv w) : StepSafe t (.fail e : Async α) (fun _ _ => True) w :=
  Safe.fail stable_always (fun _ _ _ => trivial) hi trivial

/-- A loop whose rounds go from any state. -/
theorem walk_forEach {β : Type} {xs : List β} {f : β → Async Unit}
    (hf : ∀ x, ∀ w, StepInv w → StepSafe t (f x) (fun _ _ => True) w) (hi : StepInv w) :
    StepSafe t (.forEach xs f) (fun _ _ => True) w :=
  Safe.rounds stable_always (fun x _ s hi _ => hf x s hi) hi trivial

/-! ## Claims -/

/-- A step about claims alone. -/
theorem does_claims (h : w' = { w with replacing := w'.replacing, spawned := w'.spawned }) : Does w w' := by
  refine .of_eq (.unseen ?_) (offered_of_eq ?_) ?_ ?_ ?_ <;> rw [h]
  · rfl
  · exact List.Subset.refl _

theorem spares_claims (h : w' = { w with replacing := w'.replacing, spawned := w'.spawned }) (n : String) :
    Spares n w w' :=
  .of_seen (by rw [h]; rfl) n

theorem walk_claim (hi : StepInv w) : StepSafe t (claim t name) (fun x s => x = .ok true → Holds t name s) w := by
  refine Safe.step (P := fun _ => True) stable_always (fun s i hi _ _ _ => ?_) hi trivial
  dsimp only
  split
  · exact ⟨hi, (Aloof.refl s).guar, Safe.ret stable_always (fun _ _ _ h => nomatch h) hi trivial⟩
  · rename_i hfree
    have hfree := Bool.eq_false_of_not_eq_true hfree
    have hi' : StepInv { s with replacing := s.replacing.insert name ⟨t⟩ } :=
      ⟨hi.named, fun x hx => contains_claimed t (hi.handed x hx), hi.once⟩
    refine ⟨hi', .of_does (fun n t' _ h => ⟨h.claimed hfree, spares_claims rfl n⟩) (fun _ _ => rfl) (does_claims rfl), ?_⟩
    exact Safe.ret stable_claimed (fun _ _ h _ => h) hi' (holds_claimed hfree hi.handed)

theorem walk_letGo (hi : StepInv w) (hh : Holds t name w) : StepSafe t (letGo name) (fun _ _ => True) w := by
  refine Safe.step stable_claimed (fun s i hi hh _ _ => ?_) hi hh
  have hi' : StepInv { s.release name with copies := s.copies.erase name } :=
    ⟨hi.named, fun x hx => contains_letGo hh hx (hi.handed x hx), hi.once⟩
  refine ⟨hi', .of_does (fun n t' hu h => ⟨hh.letGo hu rfl rfl h, ?_, fun _ hs _ => hs, fun _ c hc => ⟨c, hc, rfl⟩⟩)
    (fun _ _ => rfl) (.of_eq (.letGo rfl) (offered_of_eq rfl) (List.Subset.refl _) rfl rfl), walk_ret hi'⟩
  show (s.copies.erase name)[n]? = _
  rw [KeyMap.get_erase, if_neg fun he => hh.other hu h he.symm]

theorem walk_release (hi : StepInv w) (hh : Holds t name w) : StepSafe t (release name) (fun _ _ => True) w := by
  refine Safe.step stable_claimed (fun s i hi hh _ _ => ?_) hi hh
  have hi' : StepInv (s.release name) := ⟨hi.named, fun x hx => contains_letGo hh hx (hi.handed x hx), hi.once⟩
  exact ⟨hi', .of_does (fun n t' hu h => ⟨hh.letGo hu rfl rfl h, spares_claims rfl n⟩) (fun _ _ => rfl) (does_claims rfl),
    walk_ret hi'⟩

theorem walk_spawn {s : Spawn} (hi : StepInv w) (hh : Holds t s.name w) :
    StepSafe t (spawn s) (fun _ _ => True) w := by
  refine Safe.step stable_claimed (fun w i hi hh _ _ => ?_) hi hh
  have hi' : StepInv { w with spawned := w.spawned ++ [s] } := by
    refine ⟨hi.named, fun x hx => ?_, once_spawn hh hi.once⟩
    rcases List.mem_append.mp hx with hx | hx
    · exact hi.handed x hx
    · rw [List.mem_singleton.mp hx]
      exact hh.contains
  exact ⟨hi', .of_does (fun n t' hu h => ⟨hh.spawn hu h, spares_claims rfl n⟩) (fun _ _ => rfl) (does_claims rfl), walk_ret hi'⟩

theorem walk_spawnedBy {s : Spawn} (hi : StepInv w) :
    StepSafe t (spawnedBy t s s.name) (fun _ w => Holds t s.name w) w := by
  refine Safe.step (P := fun _ => True) stable_always (fun w i hi _ hready _ => ?_) hi trivial
  have hs : s ∈ w.spawned := of_decide_eq_true hready
  have hi' : StepInv { w with spawned := w.spawned.erase s, replacing := w.replacing.insert s.name ⟨t⟩ } :=
    ⟨hi.named, fun x hx => contains_claimed t (hi.handed x (List.mem_of_mem_erase hx)),
      hi.once.sublist ((List.erase_sublist ..).map _)⟩
  refine ⟨hi', .of_does (fun n t' hu h => ⟨h.spawnedBy hs, spares_claims rfl n⟩) (fun _ _ => rfl) (does_claims rfl), ?_⟩
  exact Safe.ret stable_claimed (fun _ _ h => h) hi' (holds_spawnedBy hi.once hs)

theorem walk_underClaim {busy : Fault} {task : Async α}
    (ht : ∀ w, StepInv w → Holds t name w → StepSafe t task (fun _ s => Holds t name s) w) (hi : StepInv w) :
    StepSafe t (underClaim t name busy task) (fun _ _ => True) w := by
  refine (walk_claim hi).bind hi (fun mine w hi h => ?_) fun _ _ _ => trivial
  cases mine with
  | false => exact walk_fail hi
  | true =>
    refine (ht w hi (h rfl)).attempt_bind hi fun r w hi hh => ?_
    refine (walk_letGo hi hh).bind hi (fun _ w hi _ => ?_) fun _ _ _ => trivial
    exact walk_aloof (only_ofExcept r) hi

/-! ## Copies -/

/-- A step of the holder of `name`. -/
structure Own (name : String) (w w' : AppState) : Prop where
  replacing : w'.replacing = w.replacing
  spawned : w'.spawned = w.spawned
  undertakings : w'.undertakings = w.undertakings
  named : Named w.fed → Named w'.fed
  spares : ∀ n, n ≠ name → Spares n w w'
  does : Does w w'

theorem Own.inv (h : Own name w w') (hi : StepInv w) : StepInv w' where
  named := h.named hi.named
  handed := by
    rw [h.replacing, h.spawned]
    exact hi.handed
  once := by
    rw [h.spawned]
    exact hi.once

theorem Own.guar (h : Own name w w') (hh : Holds me name w) : StepGuar (some me) w w' where
  others n _ hu hn := ⟨hn.of_eq h.replacing h.spawned, h.spares n (hh.other hu hn)⟩
  undertakings _ _ := by rw [h.undertakings]
  passes := h.does.toPasses
  offered _ := h.does.offered

/-- The holder's step, from what is known. -/
theorem walk_own {f : Reply → AppState → α × AppState} (hR : Abiding name R)
    (h : ∀ i s, StepInv s → Holds t name s → R s → Own name s (f i s).2) (hi : StepInv w) (hm : Owned t name R w) :
    StepSafe t (.atomic f) (fun _ s => Holds t name s) w := by
  refine Safe.step (stable_mine hR) (fun s i hi hm _ _ => ?_) hi hm
  have hown := h i s hi hm.1 hm.2
  exact ⟨hown.inv hi, hown.guar hm.1,
    Safe.ret stable_claimed (fun _ _ h => h) (hown.inv hi) (hm.1.of_eq hown.replacing hown.spawned)⟩

/-- The copy that is held, and the node that its head is to move to. -/
def Copied (name : String) (c : DistVolume) (onto : Option String) (w : AppState) : Prop :=
  w.copies[name]? = some c ∧ ∀ node, onto = some node → Foretold w name node

theorem known_copied {c : DistVolume} {onto : Option String} : Abiding name (Copied name c onto) := by
  refine fun w w' hs hd h => ⟨hs.copy.trans h.1, fun node hn hst => hd.log (h.2 node hn ?_)⟩
  obtain ⟨s, hm, hv, hnode⟩ := hst
  exact ⟨s, hs.stale s hm hv, hv, hnode⟩

theorem noteHeading_foretold (w : AppState) (name node : String) : Foretold (w.noteHeading name (some node)) name node := by
  rintro ⟨s, hs, hv, hn⟩
  refine List.mem_append_right _ ?_
  have hany : (w.fed.staleHeads.any fun s => s.ofVolume = name ∧ s.node = node) = true :=
    List.any_eq_true.mpr ⟨s, hs, by simp [hv, hn]⟩
  exact List.mem_map.mpr ⟨node, Option.mem_toList.mpr rfl, by rw [hany]⟩

theorem walk_takeCopy {check : FedState → Except Fault α} {vol : α → DistVolume} {onto : α → Option String}
    {Q : α → Prop} (hcheck : ∀ fed a, Named fed → check fed = .ok a → fed.volumes[name]? = some (vol a) ∧ Q a)
    (hi : StepInv w) (hh : Holds t name w) :
    StepSafe t (takeCopy name check vol onto) (fun x s => Holds t name s ∧
      ∀ a, x = .ok a → Owned t name (Copied name (vol a) (onto a)) s ∧ Q a) w := by
  refine Safe.step stable_claimed (fun s i hi hh _ _ => ?_) hi hh
  dsimp only
  split
  · rename_i a ha
    obtain ⟨hv, hq⟩ := hcheck _ a hi.named ha
    have hown : Own name s { s.noteHeading name (onto a) with copies := s.copies.insert name (vol a) } := by
      refine ⟨rfl, rfl, rfl, id, fun n hn => ⟨KeyMap.get_insert_ne _ _ (Ne.symm hn), fun _ hs _ => hs,
        fun _ c hc => ⟨c, hc, rfl⟩⟩, .of_eq (.copied hv rfl) (offered_of_eq rfl) (List.subset_append_left _ _) rfl rfl⟩
    refine ⟨hown.inv hi, hown.guar hh, ?_⟩
    refine Safe.ret (P := Owned t name (Copied name (vol a) (onto a))) (stable_mine known_copied)
      (fun s _ h => ⟨h.1, fun a' he => ?_⟩) (hown.inv hi) ⟨hh.of_eq rfl rfl, KeyMap.get_insert_self .., fun node hn => ?_⟩
    · rw [hn]
      exact noteHeading_foretold s name node
    · exact Except.ok.inj he ▸ ⟨h, hq⟩
  · exact ⟨hi, (Aloof.refl s).guar, Safe.fail stable_claimed (fun _ _ h => ⟨h, fun _ he => nomatch he⟩) hi hh⟩

theorem writeBack_eq (w : AppState) (name : String) (v : DistVolume) :
    ∃ es, w.writeBack name v = { w with
      fed := { w.fed with volumes := w.fed.volumes.insert name v }, copies := w.copies.erase name, log := w.log ++ es } := by
  unfold AppState.writeBack
  split
  · exact ⟨[], by simp⟩
  · exact ⟨[.restored name], rfl⟩

/-- A copy is written back, over `w₀`, which is the state but for what is noted and recorded beside. -/
theorem own_writeBack {w₀ : AppState} {v : DistVolume} {r : Nat} {es : List Event} {stale : List StaleHead}
    (hw : w₀ = { w with log := w.log ++ es, fed := { w.fed with staleHeads := stale, revision := r } })
    (hstale : ∀ s ∈ stale, s.ofVolume ≠ name → s ∈ w.fed.staleHeads) (hname : v.name = name)
    (h : w' = w₀.writeBack name v ∨ w' = (w₀.writeBack name v).revise id) (hstep : RecordStep w w')
    (hoff : Offered w.fed w'.fed ∨ Unoffered w w') : Own name w w' := by
  obtain ⟨es', hes⟩ := writeBack_eq w₀ name v
  have hw' : ∃ r', w' = { w with
      log := w.log ++ (es ++ es')
      copies := w.copies.erase name
      fed := { w.fed with staleHeads := stale, revision := r', volumes := w.fed.volumes.insert name v } } := by
    rcases h with rfl | rfl
    · refine ⟨r, ?_⟩
      rw [hes, hw, List.append_assoc]
    · refine ⟨r + 1, ?_⟩
      rw [hes, hw, List.append_assoc]
      rfl
  obtain ⟨r', rfl⟩ := hw'
  refine ⟨rfl, rfl, rfl, fun hn => named_insert hn hname, fun n hn => ⟨?_, fun s hs hv => hstale s hs (hv ▸ hn), ?_⟩,
    ⟨⟨hstep, List.subset_append_left _ _, List.Subset.refl _, List.Subset.refl _⟩, hoff⟩⟩
  · show (w.copies.erase name)[n]? = _
    rw [KeyMap.get_erase, if_neg (Ne.symm hn)]
  · intro _ c hc
    refine ⟨c, ?_, rfl⟩
    change ((w.fed.volumes.insert name v)[n]?).map _ = _ at hc
    rwa [KeyMap.get_insert_ne _ _ (Ne.symm hn)] at hc

end

end StormStorage
