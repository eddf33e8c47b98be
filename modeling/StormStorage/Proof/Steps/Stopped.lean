import StormStorage.Proof.Steps.Away
import StormStorage.Proof.Steps.Written

/-!
# Backups of deleted volumes

A delete ends its volume's backups before anything of it can fail, and nothing
takes that back. Where no delete fails after that, a backup that was ended is of
a volume that is gone.

* `Outlived.step`: what a step keeps;
* `finished_gone`: every run.
-/

namespace StormStorage

open Await Task Orchestrate

/-- The volume's backups were ended by a delete of it. -/
def Finished (w : AppState) (name : String) : Prop := ∃ b, w.seen.backups name = some b ∧ b.deleted = true

/-- No delete fails once it has ended the backups, and no record is put back or
made beside backups that were ended. -/
structure Concluded (w w' : AppState) : Prop where
  ended : ∀ name v, w.fed.volumes[name]? = some v → Finished w name → Removing w name → Removing w' name
  removed : ∀ name, Unheld name w w'
  made : ∀ name, Made w w' name → ¬ Finished w name

/-- Backups that were ended are of no volume, but for those being deleted. -/
structure Outlived (w : AppState) : Prop where
  rooted : ∀ name, Rooted name w
  gone : ∀ name v, Finished w name → w.fed.volumes[name]? = some v → Removing w name

section

variable {w w' : AppState} {name : String}

/-- Backups are ended by a delete that is under way. -/
theorem RecordStep.finished (h : RecordStep w w') (hf : Finished w' name) :
    Finished w name ∨ Removing w name ∧ w'.seen.deletes = w.seen.deletes := by
  obtain ⟨b, hb, hd⟩ := hf
  rcases h.beside with hs | ⟨n, b', hs, hb'⟩
  · exact .inl ⟨b, hs ▸ hb, hd⟩
  · rw [hs] at hb
    simp only [View.putBackup] at hb
    split at hb
    · rename_i he
      subst he
      exact (hb' b hb hd).imp id fun h => ⟨h, by rw [hs]; rfl⟩
    · exact .inl ⟨b, hb, hd⟩

/-- What a step keeps. -/
theorem Outlived.step (h : Outlived w) (hc : Concluded w w') (hstep : RecordStep w w') : Outlived w' := by
  refine ⟨fun name => (h.rooted name).step (hc.removed name) hstep, fun name v' hf hv' => ?_⟩
  rcases hstep.finished hf with hf | ⟨⟨t, ht⟩, he⟩
  · obtain ⟨v, hv⟩ := (h.rooted name).present (hstep.tenure (records_eq hv')) fun hm => hc.made name hm hf
    exact hc.ended name v hv hf (h.gone name v hf hv)
  · exact ⟨t, show (t, [name]) ∈ w'.seen.deletes from he ▸ ht⟩

end

/-- In every run in which no delete fails once it has ended the backups, and no
record is put back or made beside such backups, a volume whose backups were
ended is gone when no delete of it is under way. -/
theorem finished_gone {cfg : Config} {w : AppState} {p : Pool Reply AppState Fault}
    (h : (operations cfg fun _ => True).Run Concluded ⟨w, []⟩ p) (hidle : Resting w)
    (hw : ∀ (name : String) b v, w.fed.backups[name]? = some b → w.fed.volumes[name]? = some v → b.sourceDeleted = false)
    {name : String} {b : Backup} (hb : p.state.fed.backups[name]? = some b) (hd : b.sourceDeleted = true)
    (hnone : ¬ Removing p.state name) : p.state.fed.volumes[name]? = none := by
  have h₀ : Outlived w := by
    refine ⟨fun name c hc => ?_, fun name v ⟨c, hc, hd⟩ hv => ?_⟩
    · rw [hidle.copies] at hc
      simp at hc
    · obtain ⟨b, hb, rfl⟩ := Option.map_eq_some_iff.mp hc
      exact nomatch hd.symm.trans (hw name b v hb hv)
  have hJ : Outlived p.state :=
    keeps_run (J := Outlived) hidle.stepInv rfl h₀ (fun _ _ _ _ hc hg hJ => hJ.step hc hg.passes.step) h
  cases hv : p.state.fed.volumes[name]? with
  | none => rfl
  | some v => exact (hnone (hJ.gone name v ⟨b.core, backups_eq hb, hd⟩ hv)).elim

/-! ## A small run -/

/-- Backups are turned on, and the volume is deleted. -/
def backupThenDelete (reply : Reply) (steps : Nat) : List (VolumeMove fun _ => True) :=
  .env (nodesOf [("a", true), ("b", true)]) :: .start ⟨.policy "v" {}, trivial⟩ :: .run 0 plainReply ::
    .start ⟨.delete "v", trivial⟩ :: List.replicate steps (.run 1 reply)

/-- The engine refuses. -/
def refusal : Reply := { plainReply with wire := .refused (some 500) "" }

/-- Deletes end when no volume is there, nothing is copied, and nothing made. -/
def concluded (w w' : AppState) : Bool :=
  ((w.deletes.all fun d => d ∈ w'.deletes) ∨ w.fed.volumes.isEmpty) ∧ w.copies.isEmpty ∧ w'.creations.isEmpty

theorem concluded_iff {w w' : AppState} (h : concluded w w' = true) : Concluded w w' := by
  obtain ⟨hd, hc, hm⟩ := of_decide_eq_true h
  refine ⟨fun name v hv _ ⟨t, ht⟩ => ?_, fun name => (untaken_iff (decide_eq_true ⟨hc, hm⟩)).1,
    fun name hmade => (not_made (List.isEmpty_iff.mp hm) hmade).elim⟩
  rcases hd with hd | hd
  · exact ⟨t, of_decide_eq_true (List.all_eq_true.mp hd _ ht)⟩
  · rw [Std.ExtTreeMap.isEmpty_iff.mp hd] at hv
    simp at hv

theorem having_backups {v w : DistVolume} {name : String} {b : Backup} (hb : (AppState.having v).fed.backups[name]? = some b)
    (_ : (AppState.having v).fed.volumes[name]? = some w) : b.sourceDeleted = false := by
  simp [AppState.having] at hb

/-- The backups of v, when no delete of it is under way. -/
def finishedBackup (w : AppState) : Option Backup :=
  (w.fed.backups["v"]?).filter fun b => b.sourceDeleted ∧ w.deletes = []

theorem finishedBackup_some {w : AppState} {b : Backup} (h : finishedBackup w = some b) :
    w.fed.backups["v"]? = some b ∧ b.sourceDeleted = true ∧ ¬ Removing w "v" := by
  obtain ⟨hb, hd⟩ := Option.filter_eq_some_iff.mp h
  obtain ⟨hd, hnone⟩ := of_decide_eq_true hd
  exact ⟨hb, hd, fun ⟨t, ht⟩ => by simp [hnone] at ht⟩

theorem finished_gone_small : ∃ p b, (operations plainConfig fun _ => True).Run Concluded ⟨.having rackVolume, []⟩ p ∧
    p.state.fed.backups["v"]? = some b ∧ b.sourceDeleted = true ∧ p.state.fed.volumes["v"]? = none := by
  have hr : (operations plainConfig fun _ => True).Run Concluded ⟨.having rackVolume, []⟩
      ((operations plainConfig fun _ => True).final concluded ⟨.having rackVolume, []⟩ (backupThenDelete plainReply 12)) :=
    System.run_final (fun _ _ => concluded_iff) (by decide +kernel)
  obtain ⟨b, hb⟩ := Option.isSome_iff_exists.mp (show (finishedBackup ((operations plainConfig fun _ => True).final
    concluded ⟨.having rackVolume, []⟩ (backupThenDelete plainReply 12)).state).isSome = true by decide +kernel)
  obtain ⟨hb, hd, hnone⟩ := finishedBackup_some hb
  exact ⟨_, b, hr, hb, hd, finished_gone hr (resting_having _) (fun _ _ _ => having_backups) hb hd hnone⟩

/-- The engine refuses the delete of a leg: the volume stays, its backups ended. -/
theorem not_finished_gone : ¬ ∀ (w : AppState) (p : Pool Reply AppState Fault),
    (operations plainConfig fun _ => True).Run (fun _ _ => True) ⟨w, []⟩ p → Resting w →
    (∀ (name : String) b v, w.fed.backups[name]? = some b → w.fed.volumes[name]? = some v → b.sourceDeleted = false) →
    ∀ (name : String) b, p.state.fed.backups[name]? = some b → b.sourceDeleted = true → ¬ Removing p.state name →
      p.state.fed.volumes[name]? = none := by
  intro h
  have hr : (operations plainConfig fun _ => True).Run (fun _ _ => True) ⟨.having rackVolume, []⟩
      ((operations plainConfig fun _ => True).final (fun _ _ => true) ⟨.having rackVolume, []⟩
        (backupThenDelete refusal 11)) :=
    System.run_final (fun _ _ _ => trivial) (by decide +kernel)
  obtain ⟨b, hb⟩ := Option.isSome_iff_exists.mp (show (finishedBackup ((operations plainConfig fun _ => True).final
    (fun _ _ => true) ⟨.having rackVolume, []⟩ (backupThenDelete refusal 11)).state).isSome = true by decide +kernel)
  obtain ⟨hb, hd, hnone⟩ := finishedBackup_some hb
  have hgone := h _ _ hr (resting_having _) (fun _ _ _ => having_backups) "v" b hb hd hnone
  have hstays : (((operations plainConfig fun _ => True).final (fun _ _ => true) ⟨.having rackVolume, []⟩
      (backupThenDelete refusal 11)).state.fed.volumes["v"]?).isSome = true := by
    decide +kernel
  rw [hgone] at hstays
  cases hstays

end StormStorage
