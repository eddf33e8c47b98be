import StormStorage.Proof.Remote

/-!
# Phases that change backups alone

The reconciler's pass over the backups, and the requests about policies, call
engines and write backup records under claims of their own.

* `steps_step`, `only_run`: what the steps of a backup do, and of a pass over
  the backups; `backed_run`;
* `backed_putPolicy`, `backed_stop`, `backed_deletePoint`, `backed_onVolumeDelete`:
  what the API does to them.
-/

namespace StormStorage

open Await Task

/-- Nothing but backups is changed, beside claims, the log and what engines
hold, serve and answer. -/
def Backed (w w' : AppState) : Prop :=
  w' = { w with
    engines := w'.engines
    access := w'.access
    log := w'.log
    answered := w'.answered
    sizes := w'.sizes
    capacity := w'.capacity
    grows := w'.grows
    servedSizes := w'.servedSizes
    replacing := w'.replacing
    choices := w'.choices
    fed := { w.fed with backups := w'.fed.backups, revision := w'.fed.revision } }

theorem Backed.volumes {w w' : AppState} (h : Backed w w') : w'.fed.volumes = w.fed.volumes := by rw [h]

theorem backed_of_remote {w w' : AppState} (h : Remote w w') : Backed w w' := by rw [Backed, h.eq]

section

variable {α : Type} {cfg : Config} {me : Nat} {name node : String} {r : Backups.Reading} {now : Int}

theorem backed_remote {t : Async α} (h : t.Only Remote) : t.Only Backed := h.mono fun _ _ => backed_of_remote

namespace Backups

/-- A record that goes where it went: what a step writes of its own. -/
structure Onward (b b' : Backup) : Prop where
  volume : b'.volume = b.volume
  policy : b'.policy = b.policy
  node : b'.node = b.node
  sourceDeleted : b'.sourceDeleted = b.sourceDeleted

/-- What a step of a backup does: a call, an edit of its record, or the record of
the node it picked. -/
inductive Steps (w w' : AppState) : Prop
  | calls : Remote w w' → Steps w w'
  | edits {name : String} {b b' : Backup} {log : List Event} : w.fed.backups[name]? = some b → Onward b b' →
      w.log ⊆ log →
        w' = { w with log := log }.revise (fun fed => { fed with backups := fed.backups.insert name b' }) → Steps w w'
  | picks {name node : String} {b : Backup} {p : BackupPolicy} : w.fed.backups[name]? = some b →
      w' = { w with choices := ⟨name, p⟩ :: w.choices }.revise (fun fed =>
        { fed with backups := fed.backups.insert name { b with node := some node } }) → Steps w w'

theorem Steps.backed {w w' : AppState} (h : Steps w w') : Backed w w' := by
  cases h with
  | calls h => exact backed_of_remote h
  | edits _ _ _ h => rw [h]; rfl
  | picks _ h => rw [h]; rfl

theorem steps_remote {t : Async α} (h : t.Only Remote) : t.Only Steps := h.mono fun _ _ => .calls

theorem steps_update {f : Backup → Backup} (hf : ∀ b, Onward b (f b)) : (update name f).Only Steps := by
  refine only_atomic fun _ w => ?_
  dsimp only
  split
  · exact .calls (.refl w)
  · exact .edits ‹_› (hf _) (List.Subset.refl _) rfl

theorem steps_recordPoints {read dropped : List BackupPoint} {point : BackupPoint} {failed : List String}
    {f : Backup → Backup} (hf : ∀ b, Onward b (f b)) : (recordPoints name read point dropped failed f).Only Steps := by
  refine only_atomic fun _ w => ?_
  dsimp only
  split
  · exact .calls (remote_note w _)
  · rename_i b hb
    have h : Onward b { f b with points := keepPoints (read ++ [point]) dropped failed } :=
      ⟨(hf b).volume, (hf b).policy, (hf b).node, (hf b).sourceDeleted⟩
    exact .edits hb h (List.subset_append_left _ _) rfl

theorem steps_pickNode : (pickNode cfg name r).Only Steps := by
  refine (steps_remote (remote_get _)).bind fun picks => ?_
  split
  · refine only_atomic fun _ w => ?_
    dsimp only
    split
    · exact .calls (.refl w)
    · exact .picks ‹_› rfl
  · trivial

theorem remote_dropAll (points : List BackupPoint) : (dropAll node points).Only Remote := by
  induction points with
  | nil => trivial
  | cons p ps ih =>
    refine Api.remote_dropSnapshot.attempt.bind fun x => ih.bind fun _ => ?_
    cases x <;> trivial

theorem remote_dropBase {base : Option ShipSnapshot} : (dropBase node base).Only Remote := by
  unfold dropBase
  split
  · trivial
  · exact only_ignore Api.remote_dropSnapshot

theorem steps_finish {job : ShipJob} : (finish me name node r job now).Only Steps := by
  refine Only.bind (only_atomic fun _ w => .calls (remote_note w _)) fun _ => ?_
  refine (steps_remote (only_withContext (Engine.remote_createVolume fun _ => rfl))).bind fun p => ?_
  refine (steps_remote (remote_dropAll _)).bind fun _ => ?_
  exact (steps_remote remote_dropBase).bind fun _ => steps_recordPoints fun _ => ⟨rfl, rfl, rfl, rfl⟩

theorem steps_followJob {job : ShipJob} : (followJob me name node r job now).Only Steps := by
  unfold followJob
  split
  · exact Only.bind (C := Steps) (steps_update fun _ => ⟨rfl, rfl, rfl, rfl⟩) fun _ => trivial
  · refine (steps_remote (remote_inquire _)).bind fun read => ?_
    dsimp only
    split
    · exact steps_update fun _ => ⟨rfl, rfl, rfl, rfl⟩
    · split
      · exact steps_finish
      · refine (steps_remote Api.remote_dropSnapshot).attempt.bind fun _ => ?_
        exact Only.bind (C := Steps) (steps_update fun _ => ⟨rfl, rfl, rfl, rfl⟩) fun _ => trivial

theorem steps_ship {snapshot : ShipSnapshot} : (ship name r snapshot).Only Steps := by
  refine (steps_remote (remote_inquire _)).attempt.bind fun x => ?_
  split
  · trivial
  · exact steps_update fun _ => ⟨rfl, rfl, rfl, rfl⟩
  · refine (steps_remote Api.remote_dropSnapshot).attempt.bind fun _ => ?_
    split
    · exact steps_update fun _ => ⟨rfl, rfl, rfl, rfl⟩
    · trivial

theorem steps_stepOn : (stepOn cfg me name node r now).Only Steps := by
  refine (steps_remote remote_engine).bind fun _ => ?_
  split
  · refine (steps_remote (only_withContext (Engine.remote_createVolume fun _ => rfl))).bind fun v => ?_
    split
    · trivial
    · exact steps_update fun _ => ⟨rfl, rfl, rfl, rfl⟩
  · split
    · refine (steps_remote (only_withContext Engine.remote_attachLeg)).bind fun _ => ?_
      exact steps_update fun _ => ⟨rfl, rfl, rfl, rfl⟩
    · split
      · refine (steps_remote (only_withContext Engine.remote_act)).bind fun _ => ?_
        exact steps_update fun _ => ⟨rfl, rfl, rfl, rfl⟩
      · split
        · exact steps_followJob
        · split
          · trivial
          · refine (steps_remote (only_withContext (Engine.remote_createVolume fun _ => rfl))).bind fun _ => ?_
            exact steps_ship

theorem steps_step : (step cfg me name now).Only Steps := by
  refine (steps_remote (remote_get _)).bind fun x => (only_ofExcept _).bind fun r => ?_
  split
  · trivial
  · split
    · exact steps_pickNode
    · exact steps_stepOn

theorem steps_recordFailure {e : Fault} : (recordFailure name now e).Only Steps :=
  (steps_remote (remote_get _)).bind fun _ => steps_update fun _ => ⟨rfl, rfl, rfl, rfl⟩

/-- A pass over the backups takes and lets go of their claims, and steps. -/
theorem only_run {C : AppState → AppState → Prop} (hs : ∀ w w', Steps w w' → C w w')
    (hc : ∀ w w', w' = { w with replacing := w'.replacing } → C w w') : (run cfg me).Only C := by
  refine Only.bind (only_atomic fun _ w => hs _ _ (.calls (.refl w))) fun x => only_forEach (fun name => ?_) _
  refine Only.bind (only_atomic fun _ w => ?_) fun mine => ?_
  · refine hc _ _ ?_
    split <;> rfl
  · split
    · refine (steps_step.mono hs).attempt.bind fun r => Only.bind (only_atomic fun _ w => hc _ _ rfl) fun _ => ?_
      split
      · trivial
      · exact steps_recordFailure.mono hs
    · trivial

/-- A pass over the backups. -/
theorem backed_run : (run cfg me).Only Backed :=
  only_run (fun _ _ => Steps.backed) fun w w' h => by rw [h]; rfl

end Backups

namespace Api

theorem backed_putPolicy {body : PolicyBody} : (putPolicy cfg name body).Only Backed := by
  unfold putPolicy
  dsimp only
  split
  · trivial
  · split
    · trivial
    · split
      · trivial
      · refine Only.bind (only_atomic fun i w => ?_) fun x => only_ofExcept _
        split <;> rfl

theorem remote_purgePoints {b : Backup} : (purgePoints node b).Only Remote := by
  refine (only_forEach (fun p => only_asUpstream remote_dropSnapshot) _).bind fun _ => ?_
  split
  · trivial
  · refine Only.bind (C := Remote) ?_ fun _ => only_asUpstream Engine.remote_deleteVolume
    unfold detachTarget
    split
    · exact only_ignore Engine.remote_act
    · trivial

theorem remote_purge {b : Backup} : (purge b).Only Remote := by
  refine (remote_get _).bind fun x => (only_ofExcept _).bind fun held => ?_
  refine (only_forEach (fun s => only_ignore remote_dropSnapshot) _).bind fun _ => ?_
  split
  · trivial
  · exact remote_purgePoints

theorem backed_stop {purged : Bool} : (stop name purged).Only Backed := by
  refine Only.bind (only_atomic fun _ w => ?_) fun b => ?_
  · split <;> rfl
  · split
    · trivial
    · split
      · exact (backed_remote remote_purge).bind fun _ => only_atomic fun _ _ => rfl
      · trivial

theorem backed_deletePoint {point : String} : (deletePoint name point).Only Backed := by
  refine (backed_remote (remote_get _)).bind fun x => (only_ofExcept _).bind fun found => ?_
  split
  · trivial
  · refine (backed_remote (only_asUpstream remote_dropSnapshot)).bind fun _ => only_atomic fun _ w => ?_
    unfold AppState.revise AppState.setFed
    dsimp only
    split <;> rfl

theorem backed_onVolumeDelete : (onVolumeDelete name).Only Backed := by
  refine (backed_remote (remote_get _)).bind fun held => ?_
  split
  · trivial
  · refine (only_forEach (fun x => backed_remote remote_dropHeld) _).bind fun _ => only_atomic fun _ w => ?_
    unfold AppState.revise AppState.setFed
    dsimp only
    split <;> rfl

end Api

end

end StormStorage
