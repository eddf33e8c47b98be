import StormStorage.Proof.Exports.Rule
import StormStorage.Proof.Steps.Regained

/-!
# A volume that is being deleted

A delete records the export as Revoking, and no publish begins from then on. A
publish that began before, or a promote or reassembly that read the record
before, writes back what it read; one that finds its served volume missing
writes Failed. Where none of these happens, Revoking stays (`revoking_stays`).

* `Retracted.step`: what a step leaves as it is, once the export is retracted;
* `retracted_of_revoking`: Revoking is recorded where nothing is under way.
-/

namespace StormStorage

open Await Task Orchestrate

/-! ## Retracted exports -/

/-- The volume is attached, or served to a host. -/
def Event.serves (name : String) : Event → Bool
  | .served n _ => n = name
  | _ => false

/-- The served volume was found missing. -/
def Event.misses (name : String) : Event → Bool
  | .missed n => n = name
  | _ => false

/-- A delete has recorded the export as Revoking. -/
def Revoking (name : String) (w : AppState) : Prop :=
  ∃ v, w.fed.volumes[name]? = some v ∧ v.export.state = .revoking

/-- The same, of a record or of a copy that is to be written back. -/
def Recalled (name : String) (w : AppState) : Prop :=
  ∃ v, (w.fed.volumes[name]? = some v ∨ w.copies[name]? = some v) ∧ v.export.state = .revoking

/-- A step that is not in the delete's way. -/
structure Unhindered (name : String) (w w' : AppState) : Prop where
  /-- Revoking is recorded where nothing else is under way. -/
  alone : ¬ Revoking name w → Revoking name w' → Unattended name w
  /-- No promote or reassembly finds the served volume missing meanwhile. -/
  found : Recalled name w → w'.log.filter (·.misses name) = w.log.filter (·.misses name)

/-- The times that the volume was attached, or served to a host. -/
def AppState.servings (w : AppState) (name : String) : List Event := w.log.filter (·.serves name)

/-- Whatever is recorded of the export, or is to be, is Revoking. -/
structure Retracted (name : String) (x : Exposed) : Prop where
  record : ∀ v, x.volumes[name]? = some v → v.export.state = .revoking
  copy : ∀ c, x.copies[name]? = some c → c.export.state = .revoking
  publishes : ∀ p ∈ x.publishes, p.volume.name ≠ name

section

variable {name n : String} {w w' : AppState} {x : Exposed} {v v' c vol : DistVolume}

theorem Retracted.put (h : Retracted name x) (hv : n = name → v.export.state = .revoking) :
    Retracted name (x.put n v) := by
  refine ⟨fun u hu => ?_, h.copy, h.publishes⟩
  simp only [Exposed.put, KeyMap.get_insert] at hu
  split at hu
  · rename_i he
    exact Option.some.inj hu ▸ hv he
  · exact h.record u hu

theorem Retracted.erase (h : Retracted name x) : Retracted name { x with copies := x.copies.erase n } := by
  refine ⟨h.record, fun u hu => ?_, h.publishes⟩
  dsimp only at hu
  rw [KeyMap.get_erase] at hu
  split at hu
  · cases hu
  · exact h.copy u hu

theorem Retracted.endPublish {t : Nat} (h : Retracted name x) : Retracted name (x.endPublish t) :=
  ⟨h.record, h.copy, fun p hp => h.publishes p (List.mem_filter.mp hp).1⟩

theorem Retracted.note {e : Event} (h : Retracted name x) : Retracted name (x.note e) := ⟨h.record, h.copy, h.publishes⟩

theorem servings_exposed (w : AppState) : w.servings name = w.exposed.noted.filter (·.serves name) := by
  rw [AppState.servings, AppState.exposed, List.filter_filter]
  refine List.filter_congr fun e _ => ?_
  cases e <;> simp [Event.serves, Event.serving]

theorem misses_exposed (w : AppState) :
    w.log.filter (·.misses name) = w.exposed.noted.filter (·.misses name) := by
  rw [AppState.exposed, List.filter_filter]
  refine List.filter_congr fun e _ => ?_
  cases e <;> simp [Event.misses, Event.serving]

theorem relabelled_export (h : RelabelledFrom c vol) : vol.export = c.export := by
  obtain ⟨legs, -, rfl⟩ := h
  rfl

theorem forgetServed_state (h : forgetServed n v = .ok v') : v'.export.state = v.export.state := by
  unfold forgetServed at h
  split at h
  · cases h
  · split at h
    · cases h
    · obtain rfl := Except.ok.inj h
      rfl

/-! ## Steps -/

/-- What stays once the export is retracted: nothing attaches it or serves it to
a host. -/
theorem Retracted.step (h : Retracted name w.exposed) (hu : Unhindered name w w') (hs : ServeStep w w') :
    Retracted name w'.exposed ∧ w'.servings name = w.servings name := by
  have hsame : w'.exposed.noted = w.exposed.noted → w'.servings name = w.servings name := fun he => by
    rw [servings_exposed, servings_exposed, he]
  have hnoted : ∀ {e : Event}, e.serves name = false → w'.exposed.noted = w.exposed.noted ++ [e] →
      w'.servings name = w.servings name := fun hserves he => by
    rw [servings_exposed, servings_exposed, he, List.filter_append]
    simp [hserves]
  -- a served volume that is found missing is another one
  have hfound : ∀ {n : String}, w'.exposed.noted = w.exposed.noted ++ [.missed n] →
      ∀ v, w.fed.volumes[n]? = some v ∨ w.copies[n]? = some v → n ≠ name := by
    rintro n he v hv rfl
    have hrecalled : Recalled n w := ⟨v, hv, hv.elim (h.record v) (h.copy v)⟩
    have hmiss := hu.found hrecalled
    rw [misses_exposed, misses_exposed, he, List.filter_append] at hmiss
    simp [Event.misses] at hmiss
  cases hs with
  | unseen he => exact ⟨he ▸ h, hsame (by rw [he])⟩
  | copied hv he =>
    refine ⟨he ▸ ⟨h.record, fun u hc => ?_, h.publishes⟩, hsame (by rw [he])⟩
    rw [KeyMap.get_insert] at hc
    split at hc
    · rename_i hn
      subst hn
      exact Option.some.inj hc ▸ h.record _ hv
    · exact h.copy u hc
  | letGo he => exact ⟨he ▸ h.erase, hsame (by rw [he])⟩
  | edited hv hun he =>
    refine ⟨he ▸ h.put fun hn => ?_, hsame (by rw [he]; rfl)⟩
    subst hn
    rw [hun.export]
    exact h.record _ hv
  | hosts hv hedit he =>
    refine ⟨he ▸ h.put fun hn => ?_, hsame (by rw [he]; rfl)⟩
    subst hn
    exact (congrArg Prod.fst hedit.serves).trans (h.record _ hv)
  | forgot hv hf he =>
    refine ⟨he ▸ h.put fun hn => ?_, hsame (by rw [he]; rfl)⟩
    subst hn
    rw [forgetServed_state hf]
    exact h.record _ hv
  | revoking hv he => exact ⟨he ▸ h.put fun _ => rfl, hsame (by rw [he]; rfl)⟩
  | dropped he =>
    refine ⟨he ▸ ⟨fun u hv => ?_, h.copy, h.publishes⟩, hsame (by rw [he])⟩
    rw [KeyMap.get_erase] at hv
    split at hv
    · cases hv
    · exact h.record u hv
  | began hready _ _ _ he =>
    refine ⟨he ▸ ⟨h.record, h.copy, fun q hq => ?_⟩, hsame (by rw [he])⟩
    rcases List.mem_append.mp hq with hq | hq
    · exact h.publishes q hq
    · obtain rfl := List.mem_singleton.mp hq
      obtain ⟨hv, hstate, -, -⟩ := publishReady_ok hready
      rintro rfl
      exact hstate (h.record _ hv)
  | missing he => exact ⟨he ▸ h.endPublish, hsame (by rw [he]; rfl)⟩
  | unreached hp _ _ he =>
    exact ⟨he ▸ h.endPublish.put fun hn => absurd hn (h.publishes _ hp), hsame (by rw [he]; rfl)⟩
  | recorded hp _ _ _ he =>
    exact ⟨he ▸ h.endPublish.put fun hn => absurd hn (h.publishes _ hp), hsame (by rw [he]; rfl)⟩
  | pinned _ _ _ he => exact ⟨he ▸ h.note, hnoted rfl (by rw [he]; rfl)⟩
  | attached hp he =>
    exact ⟨he ▸ h.note, hnoted (e := .served _ none) (decide_eq_false (h.publishes _ hp)) (by rw [he]; rfl)⟩
  | attachedHost hp _ he =>
    exact ⟨he ▸ ⟨h.record, h.copy, h.publishes⟩,
      hnoted (e := .served _ (some _)) (decide_eq_false (h.publishes _ hp)) (by rw [he]; rfl)⟩
  | withdrew he => exact ⟨he ▸ ⟨h.record, h.copy, h.publishes⟩, hsame (by rw [he])⟩
  | stayed hc _ _ _ he =>
    refine ⟨he ▸ (h.put fun hn => ?_).erase, hsame (by rw [he]; rfl)⟩
    subst hn
    have hstate := h.copy _ hc
    exact hstate
  | promoted hc _ _ hvol _ he =>
    refine ⟨he ▸ (h.put fun hn => ?_).erase, hsame (by rw [he]; rfl)⟩
    subst hn
    exact (congrArg Export.state (relabelled_export hvol)).trans (h.copy _ hc)
  | reassembled hc _ _ _ hvol _ he =>
    refine ⟨he ▸ (h.put fun hn => ?_).erase, hsame (by rw [he]; rfl)⟩
    subst hn
    exact (congrArg Export.state (relabelled_export hvol)).trans (h.copy _ hc)
  | lost hc _ _ _ _ he =>
    have hne := hfound (by rw [he]; rfl) _ (.inr hc)
    exact ⟨he ▸ (h.note.put fun hn => absurd hn hne).erase, hnoted rfl (by rw [he]; rfl)⟩
  | unserved hv he =>
    have hne := hfound (by rw [he]; rfl) _ (.inl hv)
    exact ⟨he ▸ h.note.put fun hn => absurd hn hne, hnoted rfl (by rw [he]; rfl)⟩
  | noted he => exact ⟨he ▸ h.note, hnoted rfl (by rw [he]; rfl)⟩

/-- Revoking is recorded by a delete, where nothing else is under way. -/
theorem retracted_of_revoking (hu : Unhindered name w w') (hs : ServeStep w w') (hno : ¬ Revoking name w)
    (hyes : Revoking name w') : Retracted name w'.exposed := by
  obtain ⟨hfree, hnone⟩ := hu.alone hno hyes
  obtain ⟨v', hv', hstate⟩ := hyes
  have hv' : w'.exposed.volumes[name]? = some v' := hv'
  have hkept : w'.exposed.volumes[name]? ≠ w.exposed.volumes[name]? := fun he => hno ⟨v', he.symm.trans hv', hstate⟩
  have hcases : ∀ {n : String} {v : DistVolume}, w'.exposed.volumes = w.exposed.volumes.insert n v →
      n = name ∧ v = v' := fun {n v} he => by
    by_cases hn : n = name
    · rw [he, hn, KeyMap.get_insert_self] at hv'
      exact ⟨hn, Option.some.inj hv'⟩
    · rw [he, KeyMap.get_insert_ne _ _ hn] at hkept
      exact absurd rfl hkept
  -- a record that was put back in the state that it had
  have hedited : ∀ {n : String} {v u : DistVolume}, w'.exposed.volumes = w.exposed.volumes.insert n u →
      w.fed.volumes[n]? = some v → u.export.state ≠ v.export.state := fun he hv hsame => by
    obtain ⟨rfl, rfl⟩ := hcases he
    exact hno ⟨_, hv, hsame.symm.trans hstate⟩
  cases hs with
  | revoking hv he =>
    obtain ⟨rfl, -⟩ := hcases (by rw [he]; rfl)
    refine ⟨fun u hu => ?_, fun c hc => ?_, fun p hp => ?_⟩
    · rw [Option.some.inj (hu.symm.trans hv')]
      exact hstate
    · rw [he] at hc
      cases hnone.symm.trans hc
    · rw [he] at hp
      exact hfree p hp
  | unseen he => exact absurd (by rw [he]) hkept
  | copied _ he => exact absurd (by rw [he]) hkept
  | letGo he => exact absurd (by rw [he]) hkept
  | edited hv hun he => exact absurd (by rw [hun.export]) (hedited (by rw [he]; rfl) hv)
  | hosts hv hedit he => exact absurd (congrArg Prod.fst hedit.serves) (hedited (by rw [he]; rfl) hv)
  | forgot hv hf he => exact absurd (forgetServed_state hf) (hedited (by rw [he]; rfl) hv)
  | dropped he =>
    rw [he, KeyMap.get_erase] at hv' hkept
    split at hv'
    · cases hv'
    · rename_i hn
      rw [if_neg hn] at hkept
      exact absurd rfl hkept
  | began _ _ _ _ he => exact absurd (by rw [he]) hkept
  | missing he => exact absurd (by rw [he]; rfl) hkept
  | unreached hp _ _ he => exact absurd (hcases (by rw [he]; rfl)).1 (hfree _ hp)
  | recorded hp _ _ _ he => exact absurd (hcases (by rw [he]; rfl)).1 (hfree _ hp)
  | pinned _ _ _ he => exact absurd (by rw [he]; rfl) hkept
  | attached _ he => exact absurd (by rw [he]; rfl) hkept
  | attachedHost _ _ he => exact absurd (by rw [he]; rfl) hkept
  | withdrew he => exact absurd (by rw [he]) hkept
  | stayed hc _ _ _ he =>
    obtain ⟨rfl, -⟩ := hcases (by rw [he]; rfl)
    cases hnone.symm.trans hc
  | promoted hc _ _ _ _ he =>
    obtain ⟨rfl, -⟩ := hcases (by rw [he]; rfl)
    cases hnone.symm.trans hc
  | reassembled hc _ _ _ _ _ he =>
    obtain ⟨rfl, -⟩ := hcases (by rw [he]; rfl)
    cases hnone.symm.trans hc
  | lost hc _ _ _ _ he =>
    obtain ⟨rfl, -⟩ := hcases (by rw [he]; rfl)
    cases hnone.symm.trans hc
  | unserved _ he =>
    obtain ⟨-, rfl⟩ := hcases (by rw [he]; rfl)
    cases hstate
  | noted he => exact absurd (by rw [he]; rfl) hkept

end

/-! ## Runs -/

section

variable {cfg : Config} {w : AppState} {p p' : Pool Reply AppState Fault} {name : String}

theorem Quiescent.retracted (h : Quiescent w) (hrev : Revoking name w) : Retracted name w.exposed := by
  obtain ⟨v, hv, hstate⟩ := hrev
  refine ⟨fun u hu => ?_, fun c hc => ?_, fun p hp => ?_⟩
  · rw [Option.some.inj (hu.symm.trans hv)]
    exact hstate
  · rw [show w.exposed.copies = ∅ from h.copies, KeyMap.get_empty] at hc
    cases hc
  · rw [show w.exposed.publishes = [] from h.publishes] at hp
    cases hp

theorem retracted_run (h₀ : Quiescent w) (h : (operations cfg VolumeOp.serves).Run (Unhindered name) ⟨w, []⟩ p)
    (hrev : Revoking name p.state) : Retracted name p.state.exposed := by
  induction h with
  | refl => exact h₀.retracted hrev
  | @step q q' m h hm hok ih =>
    rcases serve_step (fun _ h => h) (kept_serves (fun _ h => h) h₀.stepInv rfl h) hm with he | ⟨-, hs⟩
    · rw [he] at hrev ⊢
      exact ih hrev
    · by_cases hq : Revoking name q.state
      · exact ((ih hq).step hok hs).1
      · exact retracted_of_revoking hok hs hq hrev

/-- Once a delete has recorded Revoking, the record stays so until it is removed,
and nothing attaches the served volume or serves it to a host, in every run in
which the delete is not hindered. -/
theorem revoking_stays (h₀ : Quiescent w)
    (h : (operations cfg VolumeOp.serves).Run (Unhindered name) ⟨w, []⟩ p) (hrev : Revoking name p.state)
    (h' : (operations cfg VolumeOp.serves).Run (Unhindered name) p p') :
    (∀ v, p'.state.fed.volumes[name]? = some v → v.export.state = .revoking) ∧
      p'.state.servings name = p.state.servings name := by
  suffices hrun : (operations cfg VolumeOp.serves).Run (Unhindered name) ⟨w, []⟩ p' ∧
      Retracted name p'.state.exposed ∧ p'.state.servings name = p.state.servings name from
    ⟨hrun.2.1.record, hrun.2.2⟩
  induction h' with
  | refl => exact ⟨h, retracted_run h₀ h hrev, rfl⟩
  | step m _ hm hok ih =>
    obtain ⟨h, hw, hserved⟩ := ih
    refine ⟨h.step m hm hok, ?_⟩
    rcases serve_step (fun _ h => h) (kept_serves (fun _ h => h) h₀.stepInv rfl h) hm with he | ⟨-, hs⟩
    · rw [he]
      exact ⟨hw, hserved⟩
    · have hkept := hw.step hok hs
      exact ⟨hkept.1, hkept.2.trans hserved⟩

end

/-- A mirror that is served from a. -/
def servedVolume : DistVolume :=
  { rackVolume with «export» := { state := .published, volumeId := some "s", node := some "a", localId := some "s" } }

theorem quiescent_having (v : DistVolume) : Quiescent (.having v) := ⟨resting_having v, rfl⟩

/-- A delete, up to where Revoking is recorded. -/
def deleteFirst : List (VolumeMove VolumeOp.serves) :=
  .env (nodesOf [("a", true), ("b", true)]) :: .start ⟨.delete "v", trivial⟩ :: List.replicate 4 (.run 0 plainReply)

/-- Nothing is under way, and nothing was found missing. -/
def undisturbed (w w' : AppState) : Bool :=
  w.publishes.isEmpty ∧ w.copies.isEmpty ∧ w.log.filter (·.misses "v") = [] ∧ w'.log.filter (·.misses "v") = []

theorem unhindered_of_undisturbed {w w' : AppState} (h : undisturbed w w' = true) : Unhindered "v" w w' := by
  obtain ⟨hp, hc, hw, hw'⟩ := of_decide_eq_true h
  refine ⟨fun _ _ => ⟨fun p hm => ?_, ?_⟩, fun _ => hw'.trans hw.symm⟩
  · rw [List.isEmpty_iff.mp hp] at hm
    cases hm
  · rw [Std.ExtTreeMap.isEmpty_iff.mp hc, KeyMap.get_empty]

theorem revoking_of_state {name : String} {w : AppState}
    (h : (w.fed.volumes[name]?).any (·.export.state = .revoking) = true) : Revoking name w := by
  cases hv : w.fed.volumes[name]? with
  | none =>
    rw [hv] at h
    cases h
  | some v =>
    rw [hv] at h
    exact ⟨v, hv, of_decide_eq_true h⟩

/-- A publish that comes after the delete is refused. -/
theorem revoking_stays_small : ∃ p p' : Pool Reply AppState Fault,
    (operations plainConfig VolumeOp.serves).Run (Unhindered "v") ⟨.having servedVolume, []⟩ p ∧
    (operations plainConfig VolumeOp.serves).Run (Unhindered "v") p p' ∧ Revoking "v" p.state ∧
    (∀ v, p'.state.fed.volumes["v"]? = some v → v.export.state = .revoking) ∧
      p'.state.servings "v" = p.state.servings "v" := by
  have hr : (operations plainConfig VolumeOp.serves).Run (Unhindered "v") ⟨.having servedVolume, []⟩
      ((operations plainConfig VolumeOp.serves).final undisturbed ⟨.having servedVolume, []⟩ deleteFirst) :=
    System.run_final (fun _ _ => unhindered_of_undisturbed) (by decide +kernel)
  have hr' : (operations plainConfig VolumeOp.serves).Run (Unhindered "v")
      ((operations plainConfig VolumeOp.serves).final undisturbed ⟨.having servedVolume, []⟩ deleteFirst)
      ((operations plainConfig VolumeOp.serves).final undisturbed
        ((operations plainConfig VolumeOp.serves).final undisturbed ⟨.having servedVolume, []⟩ deleteFirst)
        [.start ⟨.publish "v", trivial⟩, .run 1 plainReply, .run 0 plainReply]) :=
    System.run_final (fun _ _ => unhindered_of_undisturbed) (by decide +kernel)
  have hrev : Revoking "v" ((operations plainConfig VolumeOp.serves).final undisturbed ⟨.having servedVolume, []⟩
      deleteFirst).state := revoking_of_state (by decide +kernel)
  exact ⟨_, _, hr, hr', hrev, revoking_stays (quiescent_having _) hr hrev hr'⟩

/-- The operations beside a delete. -/
def VolumeOp.besideDelete : VolumeOp → Prop
  | .delete _ | .publish _ | .promote .. | .reassembleHeads => True
  | _ => False

/-- A publish begins, and then a delete comes as far as Revoking. -/
def publishFirst : Pool Reply AppState Fault :=
  (operations plainConfig VolumeOp.besideDelete).final (fun _ _ => true) ⟨.having servedVolume, []⟩
    (.env (nodesOf [("a", true), ("b", true)]) :: .start ⟨.publish "v", trivial⟩ :: .run 0 plainReply ::
      .start ⟨.delete "v", trivial⟩ :: List.replicate 4 (.run 1 plainReply))

/-- The publish comes to its end. -/
def publishLast : Pool Reply AppState Fault :=
  (operations plainConfig VolumeOp.besideDelete).final (fun _ _ => true) publishFirst
    (List.replicate 2 (.run 0 plainReply))

/-- A publish that began before the delete attaches the served volume, and
records it as published. -/
theorem not_revoking_stays : ¬ ∀ (w : AppState) (p p' : Pool Reply AppState Fault) (name : String),
    Quiescent w → (operations plainConfig VolumeOp.besideDelete).Run (fun _ _ => True) ⟨w, []⟩ p →
    Revoking name p.state → (operations plainConfig VolumeOp.besideDelete).Run (fun _ _ => True) p p' →
    (∀ v, p'.state.fed.volumes[name]? = some v → v.export.state = .revoking) ∧
      p'.state.servings name = p.state.servings name := by
  intro h
  have hr : (operations plainConfig VolumeOp.besideDelete).Run (fun _ _ => True) ⟨.having servedVolume, []⟩
      publishFirst := System.run_final (fun _ _ _ => trivial) (by decide +kernel)
  have hr' : (operations plainConfig VolumeOp.besideDelete).Run (fun _ _ => True) publishFirst publishLast :=
    System.run_final (fun _ _ _ => trivial) (by decide +kernel)
  have hstays := h _ _ _ "v" (quiescent_having _) hr (revoking_of_state (by decide +kernel)) hr'
  have hpublished : (publishLast.state.fed.volumes["v"]?).any (·.export.state = .published) = true := by
    decide +kernel
  obtain ⟨v, hv, hstate⟩ := (Option.any_eq_true ..).mp hpublished
  have hrevoking := hstays.1 v hv
  simp [hrevoking] at hstate

end StormStorage
