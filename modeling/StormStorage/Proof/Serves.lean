import StormStorage.Proof.Backups

/-!
# Phases that serve volumes

Serving a volume, and withdrawing it before its delete, write what is exported
in the records that are there, beside backups; no leg is made.

* `serves_publish`, `serves_revoke`, `serves_onVolumeDelete`: the phases.
-/

namespace StormStorage

open Await Task Orchestrate

/-- A record without what is exported. -/
def DistVolume.bare (v : DistVolume) : DistVolume :=
  { v with «export» := {}, legs := v.legs.map fun l => { l with «export» := none } }

/-- Beside calls that make no leg, what is exported changes, and backups. -/
structure Serves (w w' : AppState) : Prop where
  eq : w' = { w with
    engines := w'.engines
    access := w'.access
    log := w'.log
    answered := w'.answered
    sizes := w'.sizes
    capacity := w'.capacity
    grows := w'.grows
    servedSizes := w'.servedSizes
    publishes := w'.publishes
    fed := { w.fed with volumes := w'.fed.volumes, backups := w'.fed.backups, revision := w'.fed.revision } }
  engines : EnginesLater false w w'
  records : ∀ n : String, (w'.fed.volumes[n]?).map DistVolume.bare = (w.fed.volumes[n]?).map DistVolume.bare

section

variable {w w' : AppState} {name : String} {me : Nat}

theorem serves_of_calls (h : Calls false w w') : Serves w w' := by
  refine ⟨?_, h.engines, fun n => by rw [h.fed]⟩
  rw [h.eq]

theorem serves_calls {α : Type} {t : Async α} (h : t.Only (Calls false)) : t.Only Serves :=
  h.mono fun _ _ => serves_of_calls

theorem Serves.refl (w : AppState) : Serves w w := serves_of_calls (.refl w)

/-- An edit of what a record exports. -/
theorem serves_insert {v v' : DistVolume} (hv : w.fed.volumes[name]? = some v) (hb : v'.bare = v.bare)
    (p : List Publish) :
    Serves w ({ w with publishes := p }.revise fun fed => { fed with volumes := fed.volumes.insert name v' }) := by
  refine ⟨rfl, enginesLater_of_eq rfl, fun n => ?_⟩
  show ((w.fed.volumes.insert name v')[n]?).map _ = _
  rw [KeyMap.get_insert]
  split
  · rename_i he
    rw [← he, hv, Option.map_some, Option.map_some, hb]
  · rfl

theorem serves_modify {f : DistVolume → DistVolume} (hf : ∀ v, (f v).bare = v.bare) (p : List Publish) :
    Serves w ({ w with publishes := p }.revise (·.modifyVolume name f)) := by
  unfold AppState.revise AppState.setFed FedState.modifyVolume
  dsimp only
  split
  · exact ⟨rfl, enginesLater_of_eq rfl, fun _ => rfl⟩
  · exact serves_insert ‹_› (hf _) p

theorem bare_exportLeg (legs : List Leg) (c : AttachedLeg) :
    (exportLeg legs c).map (fun l => { l with «export» := none }) = legs.map fun l => { l with «export» := none } := by
  cases legs <;> rfl

theorem bare_record {s : Served} {vol v : DistVolume} {place : ServeAt} {now : SystemTime} :
    (s.record name vol place now v).bare = v.bare := by
  unfold Served.record DistVolume.bare
  dsimp only
  split
  · split
    · rw [bare_exportLeg]
    · rfl
  · rfl

/-- Serving a volume. -/
theorem serves_publish : (publish me name).Only Serves := by
  refine Only.bind (C := Serves) ?_ fun r => ?_
  · refine Only.bind (only_atomic fun _ w => ?_) fun x => only_ofExcept x
    split
    · exact ⟨rfl, enginesLater_of_eq rfl, fun _ => rfl⟩
    · exact .refl w
  · obtain ⟨vol, place, up⟩ := r
    dsimp only
    split
    · refine (serves_calls remote_serveShared).bind fun s => (serves_calls remote_serveHosts).bind fun s => ?_
      refine Only.bind (only_atomic fun i w => ?_) fun x => only_ofExcept x
      dsimp only
      split
      · exact ⟨rfl, enginesLater_of_eq rfl, fun _ => rfl⟩
      · exact serves_insert ‹_› bare_record _
    · refine Only.bind (only_atomic fun _ w => ?_) fun _ => trivial
      dsimp only
      split
      · refine serves_modify (w := w) ?_ _
        exact fun _ => rfl
      · exact ⟨rfl, enginesLater_of_eq rfl, fun _ => rfl⟩

/-- Withdrawing it before its delete. -/
theorem serves_revoke {vol : DistVolume} : (revoke vol).Only Serves := by
  have hset : ∀ st m, (setExportState vol.name st m).Only Serves := by
    intro st m
    refine only_atomic fun _ w => ?_
    dsimp only
    split
    · refine serves_modify (w := w) ?_ w.publishes
      exact fun _ => rfl
    · exact .refl w
  unfold revoke
  split
  · split
    · trivial
    · refine (serves_calls remote_healthy).bind fun up => ?_
      split
      · refine (hset _ _).bind fun _ => (serves_calls (only_withContext remote_deleteServed)).attempt.bind fun x => ?_
        split
        · trivial
        · exact (hset _ _).bind fun _ => trivial
      · trivial
  · trivial

theorem serves_onVolumeDelete : (Api.onVolumeDelete name).Only Serves := by
  refine (serves_calls (remote_get _)).bind fun held => ?_
  split
  · trivial
  · refine (only_forEach (fun _ => serves_calls Api.remote_dropHeld) _).bind fun _ => only_atomic fun _ w => ?_
    unfold AppState.revise AppState.setFed
    dsimp only
    split <;> exact ⟨rfl, enginesLater_of_eq rfl, fun _ => rfl⟩

end

end StormStorage
