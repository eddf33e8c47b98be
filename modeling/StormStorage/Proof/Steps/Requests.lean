import StormStorage.Proof.Steps.Aloof

/-!
# Phases of the requests about snapshots, backups and sizes

They leave claimed volumes alone like the others; a create's record is new
under its name, and what a backup's phases record of it keeps its node and its
end, but for the one that picks the node.
-/

namespace StormStorage

open Await Task Orchestrate

section

variable {me : Nat} {name : String} {w : AppState}

/-! ## Undertakings -/

theorem aloof_undertake {u : Undertaking} (h : u.task = me) :
    Aloof me w { w with undertakings := w.undertakings ++ [u] } := by
  have hdoes : RecordStep w { w with undertakings := w.undertakings ++ [u] } := by
    refine .undertook (View.ext rfl rfl rfl rfl (?_ : _ = _ ++ [(me, u.deletes)]) rfl)
    show (w.undertakings ++ [u]).map _ = _
    rw [List.map_append, List.map_singleton, h]
    rfl
  refine ⟨rfl, rfl, fun n _ => ⟨rfl, fun s hs _ => hs, fun _ c hc => ⟨c, hc, rfl⟩⟩, fun t ht => ?_, id,
    .of_eq hdoes (offered_of_eq rfl) (List.Subset.refl _) rfl rfl⟩
  have hne : u.task ≠ t := fun he => ht (he ▸ h)
  rw [List.filter_append, List.filter_singleton, decide_eq_false hne]
  exact List.append_nil _

theorem aloof_enter {α : Type} {check : FedState → Except Fault α} {what : α → Undertaking}
    (h : ∀ a, (what a).task = me) : (enter check what).Only (Aloof me) := by
  refine Only.bind (only_atomic fun _ w => ?_) fun x => only_ofExcept x
  split
  · exact aloof_undertake (h _)
  · exact .refl w

theorem aloof_ended : (ended me).Only (Aloof me) := by
  refine only_atomic fun _ w => ?_
  have hdoes : RecordStep w { w with undertakings := w.undertakings.filter (·.task ≠ me) } := by
    refine .ended (t := me) (View.ext rfl rfl rfl rfl ?_ rfl)
    show (w.undertakings.filter _).map _ = (w.undertakings.map _).filter _
    rw [List.filter_map]
    rfl
  refine ⟨rfl, rfl, fun n _ => ⟨rfl, fun s hs _ => hs, fun _ c hc => ⟨c, hc, rfl⟩⟩, fun t ht => ?_, id,
    .of_eq hdoes (offered_of_eq rfl) (List.Subset.refl _) rfl rfl⟩
  show (w.undertakings.filter _).filter _ = _
  rw [List.filter_filter]
  refine List.filter_congr fun x _ => ?_
  by_cases hx : x.task = t
  · simp [hx, ht]
  · simp [hx]

theorem aloof_tracked {α : Type} {t : Async α} (h : t.Only (Aloof me)) : (tracked me t).Only (Aloof me) :=
  h.attempt.bind fun _ => aloof_ended

theorem deletes_recorded (w : AppState) (names groups : List String) : (w.recorded me names groups).deletes = w.deletes := by
  show (w.undertakings.map _).map _ = w.undertakings.map _
  rw [List.map_map]
  refine List.map_congr_left fun u _ => ?_
  dsimp only [Function.comp_apply]
  split <;> rfl

/-! ## Creates -/

/-- A create records its volume. -/
theorem aloof_recordVolume {vol : SystemTime → DistVolume} (hname : ∀ now, (vol now).name = name)
    (hfresh : ∀ now, Fresh (vol now)) : (Api.recordVolume me name vol).Only (Aloof me) := by
  refine only_atomic fun i w => ?_
  have hmade : (w.recorded me [name] []).creations =
      w.creations ++ [⟨name, false, w.fed.taken name, w.replacing.contains name⟩] := List.append_nil _
  have hmem : (⟨name, false, w.fed.taken name, w.replacing.contains name⟩ : Creation) ∈
      (w.recorded me [name] []).creations := hmade ▸ List.mem_append_right _ (List.mem_singleton_self _)
  have hseen : ((w.recorded me [name] []).revise fun fed =>
      { fed with volumes := fed.volumes.insert name (vol i.now) }).seen = w.seen.put name (some (vol i.now).core) := by
    refine (seen_insert (w.recorded me [name] []) name (vol i.now)).trans ?_
    refine congrArg (View.put · _ _) ?_
    exact View.ext rfl rfl rfl rfl (deletes_recorded w _ _) rfl
  refine ⟨rfl, rfl, fun n hn => ⟨rfl, fun s hs _ => hs, fun hun c' hc' => ?_⟩,
    fun t ht => filter_recorded (fun he => ht he.symm) _, fun h => named_insert h (hname _),
    ⟨⟨.made (hfresh _) hmade hseen, List.Subset.refl _, List.Subset.refl _, ?_⟩, .inl (offered_revise rfl)⟩⟩
  · rw [hseen] at hc'
    simp only [View.put] at hc'
    split at hc'
    · rename_i he
      have := hun _ hmem he
      rw [he, hn] at this
      cases this
    · exact ⟨c', hc', rfl⟩
  · exact List.Subset.trans (List.subset_append_left _ _) (List.subset_append_left _ _)

theorem aloof_commit {names groups : List String} {f : FedState → FedState}
    (hf : ∀ fed, (f fed).volumes = fed.volumes ∧ (f fed).staleHeads = fed.staleHeads ∧ (f fed).backups = fed.backups) :
    (Api.commit me names groups f).Only (Aloof me) := by
  refine only_atomic fun i w => ?_
  have hseen : ((w.recorded me names groups).revise f).seen = w.seen := by
    refine View.ext ?_ rfl (hf _).2.1 ?_ (deletes_recorded w names groups) rfl
    · show (fun n : String => ((f w.fed).volumes[n]?).map _) = _
      rw [(hf _).1]
      rfl
    · show (fun n : String => ((f w.fed).backups[n]?).map _) = _
      rw [(hf _).2.2]
      rfl
  refine ⟨rfl, rfl, fun n _ => .of_seen hseen n, fun t ht => filter_recorded (fun he => ht he.symm) _, fun h => ?_,
    ⟨⟨.unseen hseen, List.Subset.refl _, List.Subset.refl _, ?_⟩, .inl (offered_revise rfl)⟩⟩
  · show Named { f w.fed with revision := _ }
    intro n v hv
    dsimp only at hv
    rw [(hf _).1] at hv
    exact h n v hv
  · exact List.Subset.trans (List.subset_append_left _ _) (List.subset_append_left _ _)

/-- A change of durable intent beside volumes, stale heads and backups. -/
theorem aloof_beside {f : FedState → FedState} {w : AppState}
    (hf : ∀ fed, (f fed).volumes = fed.volumes ∧ (f fed).staleHeads = fed.staleHeads ∧ (f fed).backups = fed.backups) :
    Aloof me w (w.revise f) := by
  refine .of_seen rfl (View.ext ?_ rfl (hf _).2.1 ?_ rfl rfl) (fun h n v hv => ?_) (offered_revise rfl)
    (List.Subset.refl _)
  · show (fun n : String => ((f w.fed).volumes[n]?).map _) = _
    rw [(hf _).1]
    rfl
  · show (fun n : String => ((f w.fed).backups[n]?).map _) = _
    rw [(hf _).2.2]
    rfl
  · change (f w.fed).volumes[n]? = some v at hv
    rw [(hf _).1] at hv
    exact h n v hv

theorem aloof_createSnapshot {volumeId : String} : (Api.createSnapshot me name volumeId).Only (Aloof me) := by
  refine (aloof_enter fun place => ?_).bind fun place => ?_
  · cases place <;> rfl
  · split
    · refine (aloof_calls Api.remote_healthyHome).bind fun _ => (aloof_calls (remote_get _)).bind fun _ => ?_
      refine (aloof_calls (only_asUpstream (Engine.remote_createVolume fun _ => rfl))).bind fun r => ?_
      exact (aloof_calls (remote_ask _)).bind fun now => aloof_commit fun _ => ⟨rfl, rfl, rfl⟩
    · trivial

theorem aloof_createGroup {volumeIds : List String} : (Api.createGroup me name volumeIds).Only (Aloof me) := by
  unfold Api.createGroup
  split
  · trivial
  · split
    · trivial
    · refine (aloof_enter fun ats => ?_).bind fun ats => ?_
      · cases ats <;> rfl
      · split
        · unfold Api.takeGroup
          dsimp only
          split
          · trivial
          · refine (aloof_calls Api.remote_healthyHome).bind fun _ => ?_
            refine (aloof_calls (only_asUpstream (remote_inquire _))).bind fun r => ?_
            refine (aloof_calls (remote_ask _)).bind fun now => (aloof_calls (remote_get _)).bind fun sizes => ?_
            exact aloof_commit fun _ => ⟨rfl, rfl, rfl⟩
        · trivial

theorem aloof_createClone {size : Nat} {source : VolumeSource} {hosts : List HostServe} :
    (Api.createClone me name size source hosts).Only (Aloof me) := by
  refine Only.bind (C := Aloof me) (aloof_enter fun _ => rfl) fun c => ?_
  refine Only.bind (C := Aloof me) ?_ fun _ => only_ignore aloof_publish
  refine (aloof_calls Api.remote_healthyHome).bind fun _ => ?_
  split
  · trivial
  · refine (aloof_calls (only_asUpstream (Engine.remote_createVolume fun _ => rfl))).bind fun r => ?_
    split
    · trivial
    · exact aloof_recordVolume (fun _ => rfl) fun _ => ⟨by simp [Api.cloneRecord], ⟨nofun, nofun⟩, rfl, rfl⟩

theorem aloof_restore {cfg : Config} {volume point : String} :
    (Api.restore cfg me volume point name).Only (Aloof me) := by
  refine Only.bind (C := Aloof me) (aloof_enter fun _ => rfl) fun c => ?_
  refine (aloof_calls (only_asUpstream (Engine.remote_createVolume fun _ => rfl))).bind fun r => ?_
  split
  · trivial
  · refine Only.bind (C := Aloof me) (aloof_recordVolume (fun _ => rfl) fun _ => ?_) fun _ => only_ignore aloof_publish
    exact ⟨by simp [Api.restoredRecord], ⟨nofun, nofun⟩, rfl, rfl⟩

theorem aloof_deleteSnapshot {id : String} : (Api.deleteSnapshot id).Only (Aloof me) := by
  refine (aloof_calls (remote_get _)).bind fun x => (only_ofExcept x).bind fun found => ?_
  split
  · trivial
  · refine (aloof_calls Api.remote_deleteMade).bind fun _ => only_atomic fun _ w => ?_
    dsimp only
    exact aloof_beside fun _ => ⟨rfl, rfl, rfl⟩

theorem aloof_deleteGroup {id : String} : (Api.deleteGroup id).Only (Aloof me) := by
  refine (aloof_calls (remote_get _)).bind fun x => (only_ofExcept x).bind fun found => ?_
  split
  · trivial
  · refine (only_forEach (fun _ => aloof_calls Api.remote_deleteMade) _).bind fun _ => only_atomic fun _ w => ?_
    dsimp only
    exact aloof_beside fun _ => ⟨rfl, rfl, rfl⟩

/-! ## Backups -/

theorem Spares.of_backup (h : w' = { w with
    log := w'.log
    choices := w'.choices
    fed := { w.fed with backups := w'.fed.backups, revision := w'.fed.revision } }) (n : String) : Spares n w w' := by
  rw [h]
  exact ⟨rfl, fun _ hs _ => hs, fun _ c hc => ⟨c, hc, rfl⟩⟩

theorem aloof_insertBackup {b : Backup} (hstep : RecordStep w (w.revise fun fed =>
    { fed with backups := fed.backups.insert name b })) :
    Aloof me w (w.revise fun fed => { fed with backups := fed.backups.insert name b }) :=
  .of_step rfl hstep (.of_backup rfl) id (offered_revise rfl) (List.Subset.refl _)

/-- A backup that is there is changed where nothing is seen. -/
theorem aloof_editBackup {b b' : Backup} {log : List Event} (hb : w.fed.backups[name]? = some b)
    (hc : b'.core = b.core) (hl : w.log ⊆ log) : Aloof me w ({ w with log := log }.revise fun fed =>
      { fed with backups := fed.backups.insert name b' }) := by
  have hs := (seen_insertBackup w name b').trans (by rw [hc, View.putBackup_self (backups_eq hb)])
  refine .of_step rfl (.unseen hs) (.of_backup rfl) id ?_ hl
  exact offered_revise rfl

theorem aloof_sameBackup {b b' : Backup} (hb : w.fed.backups[name]? = some b) (hc : b'.core = b.core) :
    Aloof me w (w.revise fun fed => { fed with backups := fed.backups.insert name b' }) :=
  aloof_editBackup hb hc (List.Subset.refl _)

theorem aloof_steps (h : Backups.Steps w w') : Aloof me w w' := by
  cases h with
  | calls h => exact aloof_of_calls h
  | edits hb ho hl h =>
    rw [h]
    exact aloof_editBackup hb (congrArg₂ BackupCore.mk ho.node ho.sourceDeleted) hl
  | @picks name node b p hb h =>
    rw [h]
    have hs := seen_insertBackup w name { b with node := some node }
    refine .of_step rfl (.picked (backups_eq hb) hs) (.of_backup rfl) id ?_ (List.Subset.refl _)
    exact offered_revise rfl

theorem aloof_backupStep {cfg : Config} {now : Int} : (Backups.step cfg me name now).Only (Aloof me) :=
  Backups.steps_step.mono fun _ _ => aloof_steps

theorem aloof_recordFailure {now : Int} {e : Fault} : (Backups.recordFailure name now e).Only (Aloof me) :=
  Backups.steps_recordFailure.mono fun _ _ => aloof_steps

theorem withPolicy_ok {fed : FedState} {policy : BackupPolicy} {now : SystemTime} {b : Backup}
    (h : Api.withPolicy fed name policy now = .ok b) :
    (∃ v, fed.volumes[name]? = some v ∧ b.core = ((fed.backups[name]?).getD (Api.freshBackup name v.sizeBytes)).core) := by
  obtain ⟨_, -, h⟩ := check_bind.mp h
  obtain ⟨v, hv, h⟩ := check_bind.mp h
  obtain ⟨_, -, h⟩ := check_bind.mp h
  obtain ⟨_, -, h⟩ := check_bind.mp h
  obtain rfl := Except.ok.inj h
  exact ⟨v, volumeIn_eq.mp hv, rfl⟩

theorem aloof_putPolicy {cfg : Config} {body : Api.PolicyBody} : (Api.putPolicy cfg name body).Only (Aloof me) := by
  unfold Api.putPolicy
  dsimp only
  split
  · trivial
  · split
    · trivial
    · split
      · trivial
      · refine Only.bind (only_atomic fun i w => ?_) fun x => only_ofExcept _
        split
        · rename_i b h
          obtain ⟨v, hv, hc⟩ := withPolicy_ok h
          cases hb : w.fed.backups[name]? with
          | some old => exact aloof_sameBackup hb (by rw [hc, hb]; rfl)
          | none =>
            rw [hb] at hc
            refine aloof_insertBackup (.policy (by rw [KeyMap.contains_eq, hv]; rfl) ?_
              ((seen_insertBackup w name b).trans (by rw [hc]; rfl)))
            exact congrArg (Option.map Backup.core) hb
        · exact .refl w

theorem aloof_stop {purged : Bool} : (Api.stop name purged).Only (Aloof me) := by
  refine Only.bind (only_atomic fun _ w => ?_) fun b => ?_
  · split
    · exact .refl w
    · rename_i b hb
      exact aloof_sameBackup hb rfl
  · split
    · trivial
    · split
      · refine (aloof_calls Api.remote_purge).bind fun _ => only_atomic fun _ w => ?_
        refine .of_step rfl (.purged (seen_eraseBackup w name)) (.of_backup rfl) id ?_ (List.subset_append_left _ _)
        exact offered_revise rfl
      · trivial

theorem aloof_deletePoint {point : String} : (Api.deletePoint name point).Only (Aloof me) := by
  refine (aloof_calls (remote_get _)).bind fun x => (only_ofExcept _).bind fun found => ?_
  split
  · trivial
  · refine (aloof_calls (only_asUpstream Api.remote_dropSnapshot)).bind fun _ => only_atomic fun _ w => ?_
    cases hb : w.fed.backups[name]? with
    | none =>
      refine .of_seen rfl ?_ (fun h => ?_) (.inr (Nat.lt_succ_self _)) (List.subset_append_left _ _)
      · unfold AppState.note AppState.revise AppState.setFed
        dsimp only
        rw [hb]
        rfl
      · unfold AppState.note AppState.revise AppState.setFed
        dsimp only
        rw [hb]
        exact h
    | some b =>
      unfold AppState.note AppState.revise AppState.setFed
      dsimp only
      rw [hb]
      show Aloof me w ({ w with log := w.log ++ [Event.pointDeleted name point] }.revise fun fed => { fed with
        backups := fed.backups.insert name { b with points := b.points.filter (·.name ≠ point) } })
      exact aloof_editBackup hb rfl (List.subset_append_left _ _)

/-! ## Expanding -/

theorem aloof_record {f : Expansion → Expansion} : (Expand.record name f).Only (Aloof me) := by
  refine only_atomic fun _ w => ?_
  dsimp only
  unfold Expand.modifyExpanding
  split
  · exact .refl w
  · rename_i v hv
    split
    · exact .refl w
    · exact aloof_insert w.publishes hv rfl rfl

theorem aloof_growHead {node array : String} {x : Expansion} : (Expand.growHead name node array x).Only (Aloof me) := by
  refine Only.bind (C := Aloof me) ?_ fun before => ?_
  · unfold Expand.bytesBefore
    split
    · trivial
    · exact (aloof_calls (Expand.only_asUpstream Expand.remote_arrayBytes)).bind fun b => aloof_record.bind fun _ => trivial
  · refine (aloof_calls Expand.remote_growAnswer).bind fun short => aloof_record.bind fun _ => ?_
    split <;> trivial

theorem aloof_finishExpand {n : Nat} : (Expand.finish name n).Only (Aloof me) := by
  refine Only.bind (only_atomic fun _ w => ?_) fun x => only_ofExcept x
  split
  · exact .refl w
  · rename_i v hv
    exact aloof_insert w.publishes (volumeIn_eq.mp hv) rfl rfl

theorem aloof_expandClaimed {«to» : Nat} : (Expand.expandClaimed name «to»).Only (Aloof me) := by
  refine Only.bind (C := Aloof me) ?_ fun plan => ?_
  · refine Only.bind (only_atomic fun _ w => ?_) fun x => only_ofExcept x
    split
    · exact .refl w
    · exact .refl w
    · rename_i p hp
      obtain ⟨v, hv, he, -⟩ := Expand.plan_ok hp
      exact aloof_insert w.publishes hv (by rw [he]; rfl) (by rw [he])
  · split
    · trivial
    · split
      · trivial
      · split
        · trivial
        · refine (aloof_calls Expand.remote_expandLegs).bind fun _ => Only.bind (C := Aloof me) ?_ fun _ => ?_
          · unfold Expand.growHeads
            split
            · trivial
            · exact only_forEach (fun x => aloof_growHead) _
          · exact (only_forEach (fun s => aloof_calls Expand.remote_growServed) _).bind fun _ => aloof_finishExpand

end

end StormStorage
