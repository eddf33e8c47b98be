import StormStorage.Proof.Steps.Regained

/-!
# Copies that are written back

Assemblies, promotes and reassemblies copy a record, call engines, and write the
copy back with what came of them. Where the record is neither removed nor fenced
meanwhile, what they write is of the record that is there.

* `RecordStep.tenure`: how a record comes by its epoch and its fence;
* `stays_deleted`: a record that was removed stays so until a create;
* `fences_kept`: epochs only rise, and a fence stands until its promote.
-/

namespace StormStorage

open Await Task Orchestrate

/-- The volume's record is removed where no copy of it is held. -/
def Unheld (name : String) (w w' : AppState) : Prop :=
  ∀ v, w.fed.volumes[name]? = some v → w'.fed.volumes[name]? = none → w.copies[name]? = none

/-- What copies are of is there. -/
def Rooted (name : String) (w : AppState) : Prop :=
  ∀ c, w.copies[name]? = some c → ∃ v, w.fed.volumes[name]? = some v

/-- Records are removed, fenced and made where no copy of them is held. -/
structure Unshared (w w' : AppState) : Prop where
  removed : ∀ name, Unheld name w w'
  fenced : ∀ f, w'.fences = w.fences ++ [f] → w.copies[f.name]? = none
  /-- No record is made of a name that was fenced, or under a copy. -/
  made : ∀ name, Made w w' name → w.copies[name]? = none ∧ ∀ f ∈ w.fences, f.name ≠ name

/-- Copies and fences agree with the records. -/
structure Abreast (w : AppState) : Prop where
  copies : ∀ (name : String) c, w.copies[name]? = some c →
    ∃ v, w.fed.volumes[name]? = some v ∧ v.epoch = c.epoch ∧ v.fenced = c.fenced
  distinct : w.fences.Nodup
  reached : ∀ f ∈ w.fences, ∀ v, w.fed.volumes[f.name]? = some v → f.epoch ≤ v.epoch

/-- Epochs do not fall, and what lifts a fence is a promote that presented it. -/
def Lifting (w w' : AppState) : Prop :=
  ∀ (name : String) v v', w.fed.volumes[name]? = some v → w'.fed.volumes[name]? = some v' → ¬ Made w w' name →
    v.epoch ≤ v'.epoch ∧ (v.fenced = true → v'.fenced = false →
      v'.epoch = v.epoch ∧ ∃ es, w'.log = w.log ++ .cleared name v.epoch :: es)

/-- How a record has come by its epoch and its fence. -/
inductive Tenure (w w' : AppState) (n : String) (c' : Core) : Prop
  | kept {c : Core} : w.seen.records n = some c → c'.epoch = c.epoch → c'.fenced = c.fenced → Tenure w w' n c'
  | back {c : DistVolume} : w.copies[n]? = some c → c'.epoch = c.epoch → c'.fenced = c.fenced → Tenure w w' n c'
  | fenced {v : DistVolume} : w.fed.volumes[n]? = some v → c'.epoch = v.epoch + 1 → c'.fenced = true →
      w'.fences = w.fences ++ [⟨n, v.epoch + 1⟩] → Tenure w w' n c'
  | cleared {c : DistVolume} : w.copies[n]? = some c → c'.epoch = c.epoch → c.fenced = true → c'.fenced = false →
      w'.copies[n]? = none → (∃ es, w'.log = w.log ++ .cleared n c.epoch :: es) → Tenure w w' n c'
  | made : Made w w' n → Tenure w w' n c'

section

variable {w w' : AppState} {name n : String} {c c' : Core}

/-- The fences are those before, or one more, of a record as it was. -/
theorem RecordStep.fences (h : RecordStep w w') :
    w'.fences = w.fences ∨ ∃ name v, w.fed.volumes[name]? = some v ∧ w'.fences = w.fences ++ [⟨name, v.epoch + 1⟩] ∧
      w'.seen.records name = some { v.core with epoch := v.epoch + 1, fenced := true } := by
  have hfences : ∀ {fs : List Fence}, w'.seen.fences = fs → w'.fences = fs := id
  cases h with
  | @fenced name v hv hs => exact .inr ⟨name, v, hv, hfences (by rw [hs]), by rw [hs]; exact if_pos rfl⟩
  | unseen hs => exact .inl (hfences (by rw [hs]; rfl))
  | lost hs => exact .inl (hfences (by rw [hs]; rfl))
  | replacing _ _ _ hs => exact .inl (hfences (by rw [hs]; rfl))
  | gaveUp _ hs => exact .inl (hfences (by rw [hs]; rfl))
  | swapped _ _ hs => exact .inl (hfences (by rw [hs]; rfl))
  | rejoined _ _ _ _ hs => exact .inl (hfences (by rw [hs]; rfl))
  | copied _ hs => exact .inl (hfences (by rw [hs]; rfl))
  | letGo hs => exact .inl (hfences (by rw [hs]; rfl))
  | assembled _ _ _ _ _ hs => exact .inl (hfences (by rw [hs]; rfl))
  | stayed _ _ _ _ hs => exact .inl (hfences (by rw [hs]; rfl))
  | promoted _ _ _ _ _ _ _ _ hs => exact .inl (hfences (by rw [hs]; rfl))
  | reassembled _ _ _ _ _ _ hs => exact .inl (hfences (by rw [hs]; rfl))
  | made _ _ hs => exact .inl (hfences (by rw [hs]; rfl))
  | dropped _ hs => exact .inl (hfences (by rw [hs]; rfl))
  | undertook hs => exact .inl (hfences (by rw [hs]; rfl))
  | ended hs => exact .inl (hfences (by rw [hs]; rfl))
  | policy _ _ hs => exact .inl (hfences (by rw [hs]; rfl))
  | picked _ hs => exact .inl (hfences (by rw [hs]; rfl))
  | stopped _ _ hs => exact .inl (hfences (by rw [hs]; rfl))
  | purged hs => exact .inl (hfences (by rw [hs]; rfl))
  | reaped hs => exact .inl (hfences (by rw [hs]; rfl))

theorem tenure_afterLoss (fed : FedState) (v : DistVolume) :
    (afterLoss fed v).core.epoch = v.core.epoch ∧ (afterLoss fed v).core.fenced = v.core.fenced := by
  unfold afterLoss
  split <;> exact ⟨rfl, rfl⟩

theorem tenure_applyHeadReading {v v' : DistVolume} {r : Option ArrayReading} {changed : Bool}
    (h : applyHeadReading v r = some (v', changed)) : v'.core.epoch = v.core.epoch ∧ v'.core.fenced = v.core.fenced := by
  obtain ⟨_, -, h⟩ := Option.bind_eq_some_iff.mp h
  obtain ⟨_, -, h⟩ := Option.bind_eq_some_iff.mp h
  obtain ⟨_, -, h⟩ := Option.bind_eq_some_iff.mp h
  obtain ⟨_, -, h⟩ := Option.bind_eq_some_iff.mp h
  split at h
  · cases h
  · split at h <;>
    · obtain ⟨rfl, -⟩ := Prod.mk.inj (Option.some.inj h)
      exact ⟨rfl, rfl⟩

theorem RecordStep.tenure (h : RecordStep w w') (hc : w'.seen.records n = some c') : Tenure w w' n c' := by
  have hsame : w'.seen.records = w.seen.records → Tenure w w' n c' := fun he => .kept (he ▸ hc) rfl rfl
  have hput : ∀ {name : String} {c : Core}, w'.seen.records = (w.seen.put name (some c)).records →
      (name = n → Tenure w w' n c) → Tenure w w' n c' := by
    intro name c he hw
    rw [he] at hc
    rcases put_cases hc with ⟨hn, rfl⟩ | hc
    · exact hw hn
    · exact .kept hc rfl rfl
  have herased : w'.seen.copies = w.copies.erase n → w'.copies[n]? = none := fun he => by
    change w'.seen.copies[n]? = none
    rw [he, KeyMap.get_erase, if_pos rfl]
  cases h with
  | unseen hs => exact hsame (by rw [hs])
  | lost hs =>
    rw [hs] at hc
    obtain ⟨v, hv, rfl⟩ := Option.map_eq_some_iff.mp hc
    exact .kept (records_eq hv) (tenure_afterLoss w.fed v).1 (tenure_afterLoss w.fed v).2
  | fenced hv hs =>
    refine hput (by rw [hs]) fun he => ?_
    subst he
    exact .fenced hv rfl rfl (congrArg View.fences hs)
  | replacing hv _ _ hs =>
    refine hput (by rw [hs]) fun he => ?_
    subst he
    exact .kept (records_eq hv) rfl rfl
  | gaveUp hv hs =>
    refine hput (by rw [hs]) fun he => ?_
    subst he
    exact .kept (records_eq hv) rfl rfl
  | swapped hv _ hs =>
    refine hput (by rw [hs]) fun he => ?_
    subst he
    exact .kept (records_eq hv) rfl rfl
  | rejoined hv hread _ _ hs =>
    refine hput (by rw [hs]) fun he => ?_
    subst he
    exact .kept (records_eq hv) (tenure_applyHeadReading hread).1 (tenure_applyHeadReading hread).2
  | copied _ hs => exact hsame (by rw [hs])
  | letGo hs => exact hsame (by rw [hs])
  | assembled hcopy _ _ hv _ hs =>
    refine hput (by rw [hs]) fun he => ?_
    subst he
    obtain ⟨legs, -, rfl | ⟨array, rfl⟩⟩ := hv <;> exact .back hcopy rfl rfl
  | stayed hcopy hfenced _ hlog hs =>
    refine hput (by rw [hs]) fun he => ?_
    subst he
    exact .cleared hcopy rfl hfenced rfl (herased (by rw [hs])) hlog
  | promoted hcopy _ hfenced _ _ hvol _ hlog hs =>
    refine hput (by rw [hs]) fun he => ?_
    subst he
    obtain ⟨legs, -, rfl⟩ := hvol
    exact .cleared hcopy rfl hfenced rfl (herased (by rw [hs])) hlog
  | reassembled hcopy _ _ hvol _ _ hs =>
    refine hput (by rw [hs]) fun he => ?_
    subst he
    obtain ⟨legs, -, rfl⟩ := hvol
    exact .back hcopy rfl rfl
  | made _ hm hs =>
    refine hput (by rw [hs]) fun he => ?_
    subst he
    exact .made ⟨_, _, hm⟩
  | dropped _ hs =>
    rw [hs] at hc
    simp only [View.put] at hc
    split at hc
    · cases hc
    · exact .kept hc rfl rfl
  | undertook hs => exact hsame (by rw [hs])
  | ended hs => exact hsame (by rw [hs])
  | policy _ _ hs => exact hsame (by rw [hs]; rfl)
  | picked _ hs => exact hsame (by rw [hs]; rfl)
  | stopped _ _ hs => exact hsame (by rw [hs]; rfl)
  | purged hs => exact hsame (by rw [hs]; rfl)
  | reaped hs => exact hsame (by rw [hs])

/-! ## Deleted records -/

theorem Rooted.present (h : Rooted name w) {v : DistVolume} (ht : Tenure w w' name v.core) (hnew : ¬ Made w w' name) :
    ∃ v, w.fed.volumes[name]? = some v := by
  cases ht with
  | kept hc =>
    obtain ⟨v, hv, -⟩ := records_some hc
    exact ⟨v, hv⟩
  | back hc => exact h _ hc
  | fenced hv => exact ⟨_, hv⟩
  | cleared hc => exact h _ hc
  | made hm => exact (hnew hm).elim

/-- What a step keeps. -/
theorem Rooted.step (h : Rooted name w) (hu : Unheld name w w') (hstep : RecordStep w w') : Rooted name w' := by
  intro c hc
  rcases hstep.copies hc with hc | ⟨hv, hr⟩
  · obtain ⟨v, hv⟩ := h c hc
    cases hv' : w'.fed.volumes[name]? with
    | none => rw [hu v hv hv'] at hc; cases hc
    | some v' => exact ⟨v', rfl⟩
  · obtain ⟨v', hv', -⟩ := records_some (hr ▸ records_eq hv)
    exact ⟨v', hv'⟩

theorem Rooted.gone (h : Rooted name w) (hstep : RecordStep w w') (hgone : w.fed.volumes[name]? = none)
    (hnew : ¬ Made w w' name) : w'.fed.volumes[name]? = none := by
  cases hv' : w'.fed.volumes[name]? with
  | none => rfl
  | some v' =>
    obtain ⟨v, hv⟩ := h.present (hstep.tenure (records_eq hv')) hnew
    rw [hgone] at hv
    cases hv

/-! ## Epochs -/

namespace Abreast

/-- The epoch and fence of a record that was there, after a step. -/
theorem lifting (h : Abreast w) (hstep : RecordStep w w') : Lifting w w' := by
  intro name v v' hv hv' hnew
  cases hstep.tenure (records_eq hv') with
  | kept hc he hf =>
    obtain rfl := Option.some.inj ((records_eq hv).symm.trans hc)
    exact ⟨Nat.le_of_eq he.symm, fun hs hs' => nomatch hs.symm.trans (hf.symm.trans hs')⟩
  | back hc he hf =>
    obtain ⟨u, hu, hepoch, hfenced⟩ := h.copies name _ hc
    obtain rfl := Option.some.inj (hv.symm.trans hu)
    exact ⟨Nat.le_of_eq (hepoch.trans he.symm), fun hs hs' => nomatch hs.symm.trans (hfenced.trans (hf.symm.trans hs'))⟩
  | fenced hu he hf =>
    obtain rfl := Option.some.inj (hv.symm.trans hu)
    exact ⟨Nat.le_trans (Nat.le_succ _) (Nat.le_of_eq he.symm), fun _ hs' => nomatch hf.symm.trans hs'⟩
  | cleared hc he _ _ _ hlog =>
    obtain ⟨u, hu, hepoch, -⟩ := h.copies name _ hc
    obtain rfl := Option.some.inj (hv.symm.trans hu)
    exact ⟨Nat.le_of_eq (hepoch.trans he.symm), fun _ _ => ⟨he.trans hepoch.symm, hepoch ▸ hlog⟩⟩
  | made hm => exact (hnew hm).elim

theorem copies_step (h : Abreast w) (hu : Unshared w w') (hstep : RecordStep w w') {c : DistVolume}
    (hc : w'.copies[name]? = some c) :
    ∃ v, w'.fed.volumes[name]? = some v ∧ v.epoch = c.epoch ∧ v.fenced = c.fenced := by
  rcases hstep.copies hc with hold | ⟨hv, hr⟩
  · obtain ⟨v, hv, hepoch, hfenced⟩ := h.copies name c hold
    cases hv' : w'.fed.volumes[name]? with
    | none => rw [hu.removed name v hv hv'] at hold; cases hold
    | some v' =>
      refine ⟨v', rfl, ?_⟩
      cases hstep.tenure (records_eq hv') with
      | kept hc he hf =>
        obtain rfl := Option.some.inj ((records_eq hv).symm.trans hc)
        exact ⟨he.trans hepoch, hf.trans hfenced⟩
      | back hc he hf =>
        obtain rfl := Option.some.inj (hold.symm.trans hc)
        exact ⟨he, hf⟩
      | fenced _ _ _ hf => rw [hu.fenced _ hf] at hold; cases hold
      | cleared _ _ _ _ hnone => rw [hnone] at hc; cases hc
      | made hm => rw [(hu.made name hm).1] at hold; cases hold
  · obtain ⟨v', hv', he⟩ := records_some (hr ▸ records_eq hv)
    exact ⟨v', hv', congrArg Core.epoch he, congrArg Core.fenced he⟩

theorem reached_step (h : Abreast w) (hu : Unshared w w') (hstep : RecordStep w w') {f : Fence} (hf : f ∈ w.fences)
    {v' : DistVolume} (hv' : w'.fed.volumes[f.name]? = some v') : f.epoch ≤ v'.epoch := by
  have hnew : ¬ Made w w' f.name := fun hm => (hu.made f.name hm).2 f hf rfl
  obtain ⟨v, hv⟩ := Rooted.present (fun c hc => (h.copies _ c hc).imp fun _ h => h.1)
    (hstep.tenure (records_eq hv')) hnew
  exact Nat.le_trans (h.reached f hf v hv) (h.lifting hstep f.name v v' hv hv' hnew).1

/-- What a step keeps. -/
theorem step (h : Abreast w) (hu : Unshared w w') (hstep : RecordStep w w') : Abreast w' := by
  refine ⟨fun name c hc => h.copies_step hu hstep hc, ?_, fun f hf v' hv' => ?_⟩
  · rcases hstep.fences with he | ⟨name, v, hv, he, -⟩
    · exact he ▸ h.distinct
    · rw [he]
      refine List.Nodup.append h.distinct (List.nodup_singleton _) fun f hf hx => ?_
      obtain rfl := List.mem_singleton.mp hx
      exact Nat.not_succ_le_self _ (h.reached _ hf v hv)
  · rcases hstep.fences with he | ⟨name, v, hv, he, hr⟩
    · exact h.reached_step hu hstep (he ▸ hf) hv'
    · rcases List.mem_append.mp (he ▸ hf) with hf | hf
      · exact h.reached_step hu hstep hf hv'
      · obtain rfl := List.mem_singleton.mp hf
        have := (records_eq hv').symm.trans hr
        exact Nat.le_of_eq (congrArg Core.epoch (Option.some.inj this)).symm

end Abreast

end

/-- In every run in which the volume's record is removed only where no copy of it
is held, it stays removed until a create makes it anew. -/
theorem stays_deleted {cfg : Config} {w : AppState} {p p' : Pool Reply AppState Fault} {name : String}
    (h : (operations cfg fun _ => True).Run (Unheld name) ⟨w, []⟩ p) (hidle : Resting w)
    (hgone : p.state.fed.volumes[name]? = none)
    (h' : (operations cfg fun _ => True).Run (fun w w' => Unheld name w w' ∧ ¬ Made w w' name) p p') :
    p'.state.fed.volumes[name]? = none := by
  have h₀ : Rooted name w := fun c hc => by
    rw [hidle.copies] at hc
    simp at hc
  suffices h : (operations cfg fun _ => True).Run (Unheld name) ⟨w, []⟩ p' ∧ p'.state.fed.volumes[name]? = none from h.2
  induction h' with
  | refl => exact ⟨h, hgone⟩
  | step m _ hm hok ih =>
    obtain ⟨h, hgone⟩ := ih
    refine ⟨h.step m hm hok.1, ?_⟩
    have hrooted := keeps_run (J := Rooted name) hidle.stepInv rfl h₀
      (fun _ _ _ _ hu hg hJ => hJ.step hu hg.passes.step) h
    rcases does_step hidle.stepInv rfl h hm with he | ⟨u, hg⟩
    · rwa [he]
    · exact hrooted.gone hg.passes.step hgone hok.2

/-- An array is put back together, so far. -/
def putBackFor (replies : Nat) : List (VolumeMove fun _ => True) :=
  .env (nodesOf [("a", true), ("b", true)]) :: .start ⟨.reassembleHeads, trivial⟩ ::
    List.replicate replies (.run 0 plainReply)

def deleteWhile : List (VolumeMove fun _ => True) := .start ⟨.delete "v", trivial⟩ :: List.replicate 11 (.run 1 plainReply)

/-- No copy is held, and no record was made. -/
def untaken (w w' : AppState) : Bool := w.copies.isEmpty ∧ w'.creations.isEmpty

theorem not_made {w w' : AppState} {name : String} (h : w'.creations = []) : ¬ Made w w' name := fun ⟨_, _, hm⟩ => by
  simp [h] at hm

theorem untaken_iff {name : String} {w w' : AppState} (h : untaken w w' = true) :
    Unheld name w w' ∧ ¬ Made w w' name := by
  obtain ⟨hc, hm⟩ := of_decide_eq_true h
  refine ⟨fun v _ _ => ?_, not_made (List.isEmpty_iff.mp hm)⟩
  rw [Std.ExtTreeMap.isEmpty_iff.mp hc]
  simp

/-- The array is to be put back together, but the delete comes first. -/
theorem stays_deleted_small : ∃ p p' : Pool Reply AppState Fault,
    (operations plainConfig fun _ => True).Run (Unheld "v") ⟨.having rackVolume, []⟩ p ∧
    (operations plainConfig fun _ => True).Run (fun w w' => Unheld "v" w w' ∧ ¬ Made w w' "v") p p' ∧
    p.state.fed.volumes["v"]? = none ∧ p'.state.fed.volumes["v"]? = none := by
  have hr : (operations plainConfig fun _ => True).Run (Unheld "v") ⟨.having rackVolume, []⟩
      ((operations plainConfig fun _ => True).final untaken ⟨.having rackVolume, []⟩
        (putBackFor 0 ++ deleteWhile)) :=
    System.run_final (fun _ _ h => (untaken_iff h).1) (by decide +kernel)
  have hr' : (operations plainConfig fun _ => True).Run (fun w w' => Unheld "v" w w' ∧ ¬ Made w w' "v")
      ((operations plainConfig fun _ => True).final untaken ⟨.having rackVolume, []⟩
        (putBackFor 0 ++ deleteWhile))
      ((operations plainConfig fun _ => True).final untaken
        ((operations plainConfig fun _ => True).final untaken ⟨.having rackVolume, []⟩
          (putBackFor 0 ++ deleteWhile)) [.run 0 arrayReply]) :=
    System.run_final (fun _ _ => untaken_iff) (by decide +kernel)
  have hgone : ((operations plainConfig fun _ => True).final untaken ⟨.having rackVolume, []⟩
      (putBackFor 0 ++ deleteWhile)).state.fed.volumes["v"]? = none :=
    Option.isNone_iff_eq_none.mp (by decide +kernel)
  exact ⟨_, _, hr, hr', hgone, stays_deleted hr (resting_having _) hgone hr'⟩

/-- The array comes back after the delete, and its copy with it. -/
theorem not_stays_deleted : ¬ ∀ (w : AppState) (p p' : Pool Reply AppState Fault) (name : String),
    (operations plainConfig fun _ => True).Run (fun _ _ => True) ⟨w, []⟩ p → Resting w →
    p.state.fed.volumes[name]? = none →
    (operations plainConfig fun _ => True).Run (fun w w' => ¬ Made w w' name) p p' →
    p'.state.fed.volumes[name]? = none := by
  intro h
  have hr : (operations plainConfig fun _ => True).Run (fun _ _ => True) ⟨.having rackVolume, []⟩
      ((operations plainConfig fun _ => True).final (fun _ _ => true) ⟨.having rackVolume, []⟩
        (putBackFor 4 ++ deleteWhile)) :=
    System.run_final (fun _ _ _ => trivial) (by decide +kernel)
  have hr' : (operations plainConfig fun _ => True).Run (fun w w' => ¬ Made w w' "v")
      ((operations plainConfig fun _ => True).final (fun _ _ => true) ⟨.having rackVolume, []⟩
        (putBackFor 4 ++ deleteWhile))
      ((operations plainConfig fun _ => True).final (fun _ w' => w'.creations.isEmpty)
        ((operations plainConfig fun _ => True).final (fun _ _ => true) ⟨.having rackVolume, []⟩
          (putBackFor 4 ++ deleteWhile)) (List.replicate 8 (.run 0 arrayReply))) :=
    System.run_final (fun _ _ h => not_made (List.isEmpty_iff.mp h)) (by decide +kernel)
  have hgone := h _ _ _ "v" hr (resting_having _) (Option.isNone_iff_eq_none.mp (by decide +kernel)) hr'
  have hback : (((operations plainConfig fun _ => True).final (fun _ w' => w'.creations.isEmpty)
      ((operations plainConfig fun _ => True).final (fun _ _ => true) ⟨.having rackVolume, []⟩
        (putBackFor 4 ++ deleteWhile)) (List.replicate 8 (.run 0 arrayReply))).state.fed.volumes["v"]?).isSome = true := by
    decide +kernel
  rw [hgone] at hback
  cases hback

/-- In every run in which records are removed, fenced and made only where no
copy of them is held, no two fences answer one epoch, epochs do not fall, and a
fence is lifted by a promote that presented its epoch. -/
theorem fences_kept {cfg : Config} {w : AppState} {p : Pool Reply AppState Fault}
    (h : (operations cfg fun _ => True).Run Unshared ⟨w, []⟩ p) (hidle : Resting w) (hnone : w.fences = []) :
    p.state.fences.Nodup ∧ (∀ f ∈ p.state.fences, ∀ v, p.state.fed.volumes[f.name]? = some v → f.epoch ≤ v.epoch) ∧
      ∀ m p', (operations cfg fun _ => True).step p m = some p' → Lifting p.state p'.state := by
  have h₀ : Abreast w := by
    refine ⟨fun n c hc => ?_, hnone ▸ List.nodup_nil, fun f hf => ?_⟩
    · rw [hidle.copies] at hc
      simp at hc
    · rw [hnone] at hf
      cases hf
  have hJ : Abreast p.state :=
    keeps_run (J := Abreast) hidle.stepInv rfl h₀ (fun _ _ _ _ hu hg hJ => hJ.step hu hg.passes.step) h
  refine ⟨hJ.distinct, hJ.reached, fun m p' hm name v v' hv hv' hnew => ?_⟩
  rcases does_step hidle.stepInv rfl h hm with he | ⟨u, hg⟩
  · obtain rfl : v' = v := Option.some.inj (hv'.symm.trans (he ▸ hv))
    exact ⟨Nat.le_refl _, fun hs hs' => nomatch hs.symm.trans hs'⟩
  · exact hJ.lifting hg.passes.step name v v' hv hv' hnew

/-- a is lost: the volume is fenced, and b is to become its head. -/
def fenceFor (replies : Nat) : List (VolumeMove fun _ => True) :=
  .env (nodesOf [("a", false), ("b", true)]) :: .start ⟨.fence "v" 1, trivial⟩ :: List.replicate 3 (.run 0 arrayReply) ++
    (.start ⟨.promote "v" "b" 2, trivial⟩ :: List.replicate replies (.run 1 arrayReply))

/-- It is fenced once more. -/
def fenceAgain : List (VolumeMove fun _ => True) := .start ⟨.fence "v" 2, trivial⟩ :: List.replicate 3 (.run 2 arrayReply)

/-- Records stay, none is made, and none is fenced under a copy. -/
def unshared (w w' : AppState) : Bool :=
  w'.creations.isEmpty ∧ (w.fed.volumes.toList.all fun (name, _) => w'.fed.volumes[name]?.isSome) ∧
    (w'.fences = w.fences ∨ w.copies.isEmpty)

theorem unshared_iff {w w' : AppState} (h : unshared w w' = true) : Unshared w w' := by
  obtain ⟨hm, hv, hf⟩ := of_decide_eq_true h
  refine ⟨fun name v hold hnone => ?_, fun f he => ?_, fun name hmade => (not_made (List.isEmpty_iff.mp hm) hmade).elim⟩
  · have := List.all_eq_true.mp hv (name, v) (KeyMap.mem_toList.mpr hold)
    dsimp only at this
    rw [hnone] at this
    cases this
  · rcases hf with hf | hf
    · simp [hf] at he
    · rw [Std.ExtTreeMap.isEmpty_iff.mp hf]
      simp

theorem fences_kept_small : ∃ p : Pool Reply AppState Fault,
    (operations plainConfig fun _ => True).Run Unshared ⟨.having rackVolume, []⟩ p ∧ p.state.fences = [⟨"v", 2⟩, ⟨"v", 3⟩] ∧
    (p.state.fences.Nodup ∧ (∀ f ∈ p.state.fences, ∀ v, p.state.fed.volumes[f.name]? = some v → f.epoch ≤ v.epoch) ∧
      ∀ m p', (operations plainConfig fun _ => True).step p m = some p' → Lifting p.state p'.state) := by
  have hr : (operations plainConfig fun _ => True).Run Unshared ⟨.having rackVolume, []⟩
      ((operations plainConfig fun _ => True).final unshared ⟨.having rackVolume, []⟩ (fenceFor 10 ++ fenceAgain)) :=
    System.run_final (fun _ _ => unshared_iff) (by decide +kernel)
  exact ⟨_, hr, by decide +kernel, fences_kept hr (resting_having _) rfl⟩

/-- The volume is fenced again while b becomes its head. -/
theorem not_fences_kept : ¬ ∀ (w : AppState) (p : Pool Reply AppState Fault),
    (operations plainConfig fun _ => True).Run (fun _ _ => True) ⟨w, []⟩ p → Resting w → w.fences = [] →
    p.state.fences.Nodup ∧ (∀ f ∈ p.state.fences, ∀ v, p.state.fed.volumes[f.name]? = some v → f.epoch ≤ v.epoch) ∧
      ∀ m p', (operations plainConfig fun _ => True).step p m = some p' → Lifting p.state p'.state := by
  intro h
  have hr : (operations plainConfig fun _ => True).Run (fun _ _ => True) ⟨.having rackVolume, []⟩
      ((operations plainConfig fun _ => True).final (fun _ _ => true) ⟨.having rackVolume, []⟩
        (fenceFor 3 ++ fenceAgain ++ List.replicate 5 (.run 1 arrayReply))) :=
    System.run_final (fun _ _ _ => trivial) (by decide +kernel)
  obtain ⟨-, hreached, -⟩ := h _ _ hr (resting_having _) rfl
  obtain ⟨v, hv, he⟩ := (Option.any_eq_true _ _).mp (show ((((operations plainConfig fun _ => True).final (fun _ _ => true)
    ⟨.having rackVolume, []⟩ (fenceFor 3 ++ fenceAgain ++ List.replicate 5 (.run 1 arrayReply))).state.fed.volumes["v"]?).any
      fun v => v.epoch = 2) = true by decide +kernel)
  have hle := hreached ⟨"v", 3⟩ (by decide +kernel) v hv
  rw [of_decide_eq_true he] at hle
  exact absurd hle (by decide)

end StormStorage
