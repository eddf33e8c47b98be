import StormStorage.Operations
import StormStorage.Replicate

/-!
# What peers are offered

A peer takes a payload that is newer than its own, so a change of what is sent
is `Offered` when it comes with a new revision. The writes that do without are
those of `Unoffered`.

* `offered_revise`, `offered_edit`: changes of durable intent, and edits of what
  is not sent;
* `Unoffered.not_offered`: the exceptions are none of them.
-/

namespace StormStorage

open Await Task Orchestrate

/-- A record but for its cooldowns and its pending rate. -/
def DistVolume.durable (v : DistVolume) : DistVolume :=
  { v with nextRelegAfter := none, nextAssembleAfter := none, ratePending := false }

/-- What peers are sent, those apart. -/
def FedState.sent (fed : FedState) : Intent × List NodeConfig :=
  ({ fed.intent with volumes := fed.volumes.map fun _ v => v.durable }, (buildPayload fed).registered)

/-- Nothing that is sent is changed, or the revision is a new one. -/
def Offered (fed fed' : FedState) : Prop := fed'.sent = fed.sent ∨ fed.revision < fed'.revision

/-- What is exported once the served volume did not come across. -/
def unserved (message : String) (ex : Export) : Export := { ex with state := .failed, message := some message }

/-- A record with other exports. -/
def DistVolume.exporting (v : DistVolume) (ex : Export) : DistVolume := { v with «export» := ex }

/-- The writes of what is sent that keep the revision. -/
inductive Unoffered (w w' : AppState) : Prop
  /-- A request to export names hosts that the record has not. -/
  | asked {name : String} {v : DistVolume} (add : List HostServe) : w.fed.volumes[name]? = some v →
      Api.addHosts add v.export ≠ v.export →
      w' = w.setFed (·.modifyVolume name fun v => v.exporting (Api.addHosts add v.export)) → Unoffered w w'
  /-- A promote found no served volume on the new head. -/
  | unserved {name : String} {v : DistVolume} (message : String) : w.fed.volumes[name]? = some v →
      unserved message v.export ≠ v.export →
      w' = (w.note (.missed name)).setFed (·.modifyVolume name fun v => v.exporting (unserved message v.export)) →
      Unoffered w w'
  /-- An assembly that stopped writes back a copy that is not the record. -/
  | stopped {name : String} {c : DistVolume} : (w.fed.volumes[name]?).map DistVolume.durable ≠ some c.durable →
      w' = w.writeBack name c → Unoffered w w'

section

variable {w w' : AppState} {fed fed' : FedState} {name : String} {v v' : DistVolume}

theorem offered_of_eq (h : fed' = fed) : Offered fed fed' := .inl (by rw [h])

theorem offered_revise {f : FedState → FedState} (h : w'.fed = w.fed) : Offered w.fed (w'.revise f).fed :=
  .inr (h ▸ Nat.lt_succ_self w'.fed.revision)

/-- Where a map is changed at one key, to what reads the same there. -/
theorem map_insert_same {β γ : Type} {m : KeyMap β} {k : String} {b b' : β} (f : β → γ) (hb : m[k]? = some b)
    (hf : f b' = f b) : ((m.insert k b').map fun _ b => f b) = m.map fun _ b => f b := by
  refine KeyMap.ext fun a => ?_
  rw [Std.ExtTreeMap.getElem?_map, Std.ExtTreeMap.getElem?_map, KeyMap.get_insert]
  split
  · rename_i he
    rw [← he, hb, Option.map_some, Option.map_some, hf]
  · rfl

theorem sent_insert (hv : fed.volumes[name]? = some v) (hd : v'.durable = v.durable) :
    ({ fed with volumes := fed.volumes.insert name v' } : FedState).sent = fed.sent := by
  unfold FedState.sent
  rw [map_insert_same DistVolume.durable hv hd]
  rfl

theorem sent_modify {f : DistVolume → DistVolume} (hf : ∀ v, (f v).durable = v.durable) :
    (fed.modifyVolume name f).sent = fed.sent := by
  unfold FedState.modifyVolume
  split
  · rfl
  · exact sent_insert ‹_› (hf _)

/-- An edit of what is not sent. -/
theorem offered_edit {f : DistVolume → DistVolume} (hf : ∀ v, (f v).durable = v.durable) :
    Offered w.fed (w.setFed (·.modifyVolume name f)).fed :=
  .inl (sent_modify hf)

/-- What is sent of a record is what the record is, cooldowns and the pending rate apart. -/
theorem sent_volume (h : fed'.sent = fed.sent) (name : String) :
    (fed'.volumes[name]?).map DistVolume.durable = (fed.volumes[name]?).map DistVolume.durable := by
  have hm := congrArg (fun s : Intent × List NodeConfig => s.1.volumes[name]?) h
  simpa only [FedState.sent, Std.ExtTreeMap.getElem?_map] using hm

theorem revision_modifyVolume (fed : FedState) (name : String) (f : DistVolume → DistVolume) :
    (fed.modifyVolume name f).revision = fed.revision := by
  unfold FedState.modifyVolume
  split <;> rfl

theorem revision_writeBack (w : AppState) (name : String) (c : DistVolume) :
    (w.writeBack name c).fed.revision = w.fed.revision := by
  unfold AppState.writeBack
  split <;> rfl

theorem volume_writeBack (w : AppState) (name : String) (c : DistVolume) :
    (w.writeBack name c).fed.volumes[name]? = some c := by
  unfold AppState.writeBack
  split <;> exact KeyMap.get_insert_self ..

theorem volume_modifyVolume {f : DistVolume → DistVolume} (hv : fed.volumes[name]? = some v) :
    (fed.modifyVolume name f).volumes[name]? = some (f v) := by
  unfold FedState.modifyVolume
  rw [hv]
  exact KeyMap.get_insert_self ..

theorem not_offered {fed fed' : FedState} (name : String) (hr : fed'.revision = fed.revision)
    (hs : (fed.volumes[name]?).map DistVolume.durable ≠ (fed'.volumes[name]?).map DistVolume.durable) :
    ¬ Offered fed fed' := by
  rintro (h | h)
  · exact hs (sent_volume h name).symm
  · exact Nat.lt_irrefl _ (hr ▸ h)

theorem not_offered_export {f : Export → Export} (hv : w.fed.volumes[name]? = some v) (hf : f v.export ≠ v.export) :
    ¬ Offered w.fed (w.setFed (·.modifyVolume name fun v => v.exporting (f v.export))).fed := by
  refine not_offered name (revision_modifyVolume _ _ _) fun h => hf ?_
  change _ = ((w.fed.modifyVolume name _).volumes[name]?).map _ at h
  rw [volume_modifyVolume hv, hv] at h
  exact (congrArg DistVolume.export (Option.some.inj h)).symm

theorem Unoffered.not_offered (h : Unoffered w w') : ¬ Offered w.fed w'.fed := by
  cases h with
  | asked add hv hne he =>
    subst he
    exact not_offered_export (f := Api.addHosts add) hv hne
  | unserved message hv hne he =>
    subst he
    exact not_offered_export (w := w.note _) (f := StormStorage.unserved message) hv hne
  | @stopped name c hne he =>
    subst he
    refine StormStorage.not_offered name (revision_writeBack _ _ _) ?_
    rw [volume_writeBack]
    exact hne

end

end StormStorage
