import StormStorage.Proof.Steps.Requests

/-!
# Which writes peers are offered

Every step of the operations on volumes comes with a new revision or changes
nothing that is sent, but for those of `Unoffered`; and that from any state,
whatever goes on beside it (`offers_program`).

* `offers_writeBack`: a copy that is written back as it is;
* `offers_assembleClaimed` to `offers_deleteVolume`: the phases of the programs.
-/

namespace StormStorage

open Await Task Orchestrate

/-- What the step changed is offered, or it is one of the exceptions. -/
def Offers (w w' : AppState) : Prop := Offered w.fed w'.fed ∨ Unoffered w w'

section

variable {α : Type} {cfg : Config} {me : Nat} {name : String} {w w' : AppState}

theorem offers_of_fed (h : w'.fed = w.fed) : Offers w w' := .inl (offered_of_eq h)

theorem offers_revise {f : FedState → FedState} (h : w'.fed = w.fed) : Offers w (w'.revise f) := .inl (offered_revise h)

theorem offers_aloof (me : Nat) {t : Async α} (ht : t.Only (Aloof me)) : t.Only Offers := ht.mono fun _ _ h => h.does.offered

theorem offers_calls {t : Async α} (ht : t.Only Remote) : t.Only Offers := ht.mono fun _ _ h => offers_of_fed h.fed

theorem offers_read {f : Reply → AppState → α} : (.atomic fun i w => (f i w, w) : Async α).Only Offers :=
  only_atomic fun _ _ => offers_of_fed rfl

theorem offers_edit {f : DistVolume → DistVolume} (hf : ∀ v, (f v).durable = v.durable) :
    (.modify (·.setFed (·.modifyVolume name f)) : Async Unit).Only Offers :=
  only_atomic fun _ _ => .inl (offered_edit hf)

/-! ## Claims and copies -/

theorem offers_claim {k : String} : (claim me k).Only Offers := by
  refine only_atomic fun _ w => ?_
  split <;> exact offers_of_fed rfl

theorem offers_letGo : (letGo name).Only Offers := only_atomic fun _ _ => offers_of_fed rfl

theorem offers_release {k : String} : (release k).Only Offers := only_atomic fun _ _ => offers_of_fed rfl

theorem offers_spawn {s : Spawn} : (spawn s).Only Offers := only_atomic fun _ _ => offers_of_fed rfl

theorem offers_spawnedBy {s : Spawn} : (spawnedBy me s name).Only Offers := by
  refine fun i w => ⟨?_, trivial⟩
  exact offers_of_fed rfl

theorem offers_takeCopy {check : FedState → Except Fault α} {vol : α → DistVolume} {onto : α → Option String} :
    (takeCopy name check vol onto).Only Offers := by
  refine Only.bind (only_atomic fun _ w => ?_) fun x => only_ofExcept x
  split <;> exact offers_of_fed rfl

theorem offers_underClaim {busy : Fault} {t : Async α} (ht : t.Only Offers) : (underClaim me name busy t).Only Offers := by
  refine offers_claim.bind fun mine => ?_
  split
  · exact ht.attempt.bind fun r => offers_letGo.bind fun _ => only_ofExcept r
  · trivial

/-- A background operation is handed over. -/
theorem offers_resume {s : Spawn} : (Orchestrate.resume me s name).Only Offers := by
  refine offers_claim.bind fun mine => ?_
  split
  · exact offers_spawn
  · trivial

/-- A copy is written back with a new revision. -/
theorem offered_writeBack {w₀ : AppState} {v : DistVolume} (h : w.fed.revision ≤ w₀.fed.revision) :
    Offered w.fed ((w₀.writeBack name v).revise id).fed := by
  refine .inr ?_
  show w.fed.revision < (w₀.writeBack name v).fed.revision + 1
  rw [revision_writeBack]
  omega

/-- One is written back as it is. -/
theorem offers_writeBack (w : AppState) (c : DistVolume) : Offers w (w.writeBack name c) := by
  by_cases hd : (w.fed.volumes[name]?).map DistVolume.durable = some c.durable
  · obtain ⟨v, hv, he⟩ := Option.map_eq_some_iff.mp hd
    have hfed : (w.writeBack name c).fed = { w.fed with volumes := w.fed.volumes.insert name c } := by
      unfold AppState.writeBack
      split <;> rfl
    refine .inl (.inl ?_)
    rw [hfed]
    exact sent_insert hv he.symm
  · exact .inr (.stopped hd rfl)

/-! ## Assembling -/

theorem offers_assembleClaimed : (assembleClaimed cfg name).Only Offers := by
  refine offers_takeCopy.bind fun vol => (offers_calls remote_assembleInner).bind fun r => ?_
  obtain ⟨c, stopped⟩ := r
  cases stopped with
  | none => exact (only_atomic fun _ _ => .inl (offered_writeBack (Nat.le_refl _))).bind fun _ => trivial
  | some e => exact (only_atomic fun _ w => offers_writeBack w _).bind fun _ => trivial

theorem offers_assemble : (assemble cfg me name).Only Offers := offers_underClaim offers_assembleClaimed

theorem offers_assembleVolume : (assembleVolume cfg me name).Only Offers := by
  refine (offers_calls (remote_get _)).bind fun x => (only_ofExcept x).bind fun vol => ?_
  split
  · trivial
  · split
    · trivial
    · exact offers_assemble.bind fun _ => only_ignore (offers_aloof me aloof_publish)

theorem offers_retryAssembly : (retryAssembly cfg me name).Only Offers := by
  refine offers_spawnedBy.bind fun _ => offers_assembleClaimed.attempt.bind fun r => offers_letGo.bind fun _ => ?_
  split
  · exact only_ignore (offers_aloof me aloof_publish)
  · trivial

/-! ## Promoting and reassembling -/

theorem offers_servePromoted {target : String} {served : Option String} :
    (Head.servePromoted me name target served).Only Offers := by
  unfold Head.servePromoted
  split
  · exact offers_aloof me (aloof_publish.attempt.bind fun _ => aloof_publishClonesOf)
  · refine offers_aloof me (only_atomic fun _ w => ?_)
    exact aloof_export (u := w.note _) (f := unserved _) rfl (List.subset_append_left _ _) fun v hv hne =>
      .unserved _ hv hne rfl

theorem offers_takeOver {target array : String} {presented : Nat} {p : Head.Promotable} :
    (Head.takeOver cfg me name target array presented p).Only Offers := by
  refine (offers_calls Head.remote_assembleOn).bind fun r => ?_
  obtain ⟨vol, served, read⟩ := r
  refine Only.bind (only_atomic fun _ w => .inl (.inr ?_)) fun _ => offers_servePromoted
  rw [revision_writeBack]
  exact Nat.lt_succ_self _

theorem offers_promoteClaimed {target : String} {presented : Nat} :
    (Head.promoteClaimed cfg me name target presented).Only Offers := by
  refine offers_takeCopy.bind fun p => ?_
  split
  · trivial
  · split
    · refine (offers_calls (Head.remote_reattachLegs _)).bind fun legs => only_atomic fun _ w => ?_
      exact .inl (offered_writeBack (Nat.le_refl _))
    · split
      · trivial
      · exact offers_takeOver

theorem offers_promote {target : String} {presented : Nat} : (Head.promote cfg me name target presented).Only Offers :=
  offers_underClaim offers_promoteClaimed

theorem offers_reassemble : (Head.reassemble cfg me name).Only Offers := by
  refine offers_takeCopy.bind fun p => ?_
  split
  · trivial
  · refine (offers_calls (remote_inquire _)).attempt.bind fun found => ?_
    split
    · unfold Head.putBack
      dsimp only
      split
      · trivial
      · refine (offers_calls Head.remote_assembleOn).bind fun r => ?_
        obtain ⟨vol, served, read⟩ := r
        refine Only.bind (only_atomic fun _ w => .inl (offered_writeBack (Nat.le_refl _))) fun _ => ?_
        exact offers_aloof me (aloof_publishAll.bind fun _ => aloof_publishClonesOf)
    · trivial
    · trivial

theorem offers_reassembleHeads : (Head.reassembleHeads cfg me).Only Offers := by
  refine Only.bind offers_read fun r => only_forEach (fun v => ?_) _
  refine offers_claim.bind fun mine => ?_
  split
  · refine offers_reassemble.attempt.bind fun r => offers_letGo.bind fun _ => ?_
    split
    · trivial
    · exact offers_edit fun _ => rfl
  · trivial

/-! ## Replacing -/

theorem offers_undoLeg {leg : Leg} {e : Fault} : (do undoLeg me leg; .fail e : Async α).Only Offers :=
  (offers_calls remote_undoLeg).bind fun _ => trivial

theorem offers_recordReplacement {«from» reason : String} {leg : Leg} :
    (recordReplacement me name «from» leg reason).Only Offers := by
  refine only_atomic fun _ w => ?_
  split
  · exact offers_of_fed rfl
  · exact offers_revise rfl

theorem offers_buildReplacement {«from» reason : String} {«to» : Option String} :
    (buildReplacement cfg me name «from» «to» reason).Only Offers := by
  refine Only.bind ?_ fun p => ?_
  · refine Only.bind (only_atomic fun _ w => ?_) fun x => only_ofExcept x
    split
    · refine offers_of_fed ?_
      split <;> rfl
    · exact offers_of_fed rfl
  · split
    · trivial
    · refine (offers_calls remote_makeLeg).bind fun leg => (offers_calls remote_wireLeg).bind fun r => ?_
      split
      · exact offers_undoLeg
      · refine offers_recordReplacement.bind fun ok => ?_
        split
        · trivial
        · exact offers_undoLeg

theorem offers_startReplacement {«from» reason : String} {«to» : Option String} :
    (startReplacement cfg me name «from» «to» reason).Only Offers := by
  refine offers_claim.bind fun mine => ?_
  split
  · refine offers_buildReplacement.attempt.bind fun r => ?_
    split
    · exact offers_spawn.bind fun _ => trivial
    · exact offers_letGo.bind fun _ => trivial
  · trivial

/-- A replacement that is tried, and put off when it cannot start. -/
theorem offers_startOr {v «from» reason : String} {«to» : Option String} {f : DistVolume → DistVolume}
    (hf : ∀ v, (f v).durable = v.durable) :
    (do
      match ← (startReplacement cfg me v «from» «to» reason).attempt with
      | .ok _ => return ()
      | .error _ => .modify (·.setFed (·.modifyVolume v f)) : Async Unit).Only Offers := by
  refine offers_startReplacement.attempt.bind fun r => ?_
  split
  · trivial
  · exact offers_edit hf

theorem offers_finishReplacement : (finishReplacement cfg me name).Only Offers := by
  have hinner : (finishInner cfg me name).Only Offers := by
    refine (offers_calls (remote_get _)).bind fun begun => ?_
    split
    · trivial
    · refine (offers_calls (remote_ask _)).bind fun done => ?_
      split
      · refine (offers_calls remote_retireOld).bind fun orphan => only_atomic fun _ w => ?_
        refine offers_revise ?_
        split <;> rfl
      · exact (offers_calls remote_undoLeg).bind fun _ => only_atomic fun _ _ => offers_revise rfl
  exact offers_spawnedBy.bind fun _ => hinner.attempt.bind fun _ => offers_letGo

theorem offers_prestage {node «from» : Option String} {class? : Option BandwidthClass} :
    (Head.prestage cfg me name node «from» class?).Only Offers := by
  refine Only.bind (only_atomic fun _ w => ?_) fun x => (only_ofExcept x).bind fun _ => offers_startReplacement
  split
  · exact offers_revise rfl
  · exact offers_of_fed rfl

/-! ## The reconciler's passes -/

theorem offers_recover {enabled : Bool} : (recover cfg me enabled).Only Offers := by
  refine Only.bind (offers_aloof me (only_atomic fun _ _ => aloof_planRecovery)) fun r => ?_
  obtain ⟨plan, now⟩ := r
  refine (only_forEach (fun _ => offers_resume) _).bind fun _ => ?_
  refine (only_forEach (fun m => ?_) _).bind fun _ => only_forEach (fun _ => offers_resume) _
  exact offers_startOr fun _ => rfl

theorem offers_rebalance {active : Bool} : (Rebalance.run cfg me active).Only Offers := by
  unfold Rebalance.run
  split
  · refine Only.bind offers_read fun r => ?_
    obtain ⟨moves, now⟩ := r
    refine only_forEach (fun m => ?_) _
    exact offers_startOr fun _ => rfl
  · trivial

theorem offers_reheadLost {active : Bool} : (Head.reheadLost cfg me active).Only Offers := by
  unfold Head.reheadLost
  split
  · refine Only.bind offers_read fun r => only_forEach (fun v => ?_) _
    refine (offers_aloof me aloof_fence).attempt.bind fun x => ?_
    split
    · trivial
    · refine offers_promote.attempt.bind fun x => ?_
      split
      · trivial
      · exact offers_edit fun _ => rfl
  · trivial

theorem offers_closeWindow {epoch : Nat} {outcome : Head.Outcome} :
    (Head.closeWindow cfg me name epoch outcome).Only Offers := by
  refine Only.bind (only_atomic fun _ w => ?_) fun x => (only_ofExcept x).bind fun target => ?_
  · split
    · exact offers_revise rfl
    · exact offers_of_fed rfl
  · cases outcome with
    | abort => trivial
    | commit => exact (offers_aloof me aloof_fence).bind fun _ => offers_promote

theorem offers_migrations {active : Bool} : (Migrate.run cfg me active).Only Offers := by
  unfold Migrate.run
  split
  · refine Only.bind offers_read fun r => only_forEach (fun d => ?_) _
    unfold Migrate.runOne
    split
    · exact offers_startReplacement.attempt.bind fun _ => only_atomic fun _ _ => offers_revise rfl
    · exact only_atomic fun _ _ => offers_revise rfl
    · split
      · trivial
      · exact only_atomic fun _ _ => offers_revise rfl
    · split
      · trivial
      · exact only_atomic fun _ _ => offers_revise rfl
  · trivial

theorem offers_backups : (Backups.run cfg me).Only Offers := by
  refine Only.bind offers_read fun r => only_forEach (fun name => offers_claim.bind fun mine => ?_) _
  split
  · refine (offers_aloof me aloof_backupStep).attempt.bind fun r => offers_release.bind fun _ => ?_
    split
    · trivial
    · exact offers_aloof me aloof_recordFailure
  · trivial

/-! ## Requests -/

theorem offers_expand {«to» : Nat} : (Expand.expand me name «to»).Only Offers := by
  refine offers_claim.bind fun mine => ?_
  split
  · refine (offers_aloof me aloof_expandClaimed).attempt.bind fun r => offers_release.bind fun _ => ?_
    split
    · trivial
    · exact (offers_aloof me aloof_record).bind fun _ => trivial
  · trivial

theorem offers_tracked {t : Async α} (h : t.Only Offers) : (tracked me t).Only Offers :=
  h.attempt.bind fun _ => offers_aloof me aloof_ended

theorem offers_createLegged {req : Api.CreateVolumeRequest} {hosts : List HostServe} :
    (Api.createLegged cfg me req hosts).Only Offers := by
  have henter : (enter (Api.legNameFree req.name) fun _ => { task := me, creates := [req.name] }).Only Offers :=
    offers_aloof me (aloof_enter fun _ => rfl)
  refine henter.bind fun _ => (offers_calls (remote_get _)).bind fun x => (only_ofExcept x).bind fun r => ?_
  refine (offers_calls (Api.remote_createLegs _)).bind fun made => ?_
  split
  · exact (only_forEach (fun _ => offers_calls Api.remote_rollbackLeg) _).bind fun _ => trivial
  · refine Only.bind (only_atomic fun _ _ => offers_revise rfl) fun _ => Only.bind (C := Offers) ?_ fun x => ?_
    · unfold Api.wire
      split
      · exact offers_assemble.attempt
      · trivial
    · split
      · exact only_ignore (offers_aloof me aloof_publish)
      · trivial

theorem offers_createVolume {req : Api.CreateVolumeRequest} : (Api.createVolume cfg me req).Only Offers := by
  refine (only_ofExcept _).bind fun hosts => ?_
  split
  · exact (only_ofExcept _).bind fun _ => offers_aloof me aloof_createClone
  · exact (only_ofExcept _).bind fun _ => offers_createLegged

theorem offers_deleteVolume : (Api.deleteVolume me name).Only Offers := by
  have henter : (enter (Api.deletable name) fun _ => { task := me, deletes := [name] }).Only Offers :=
    offers_aloof me (aloof_enter fun _ => rfl)
  refine henter.bind fun vol => Only.bind (C := Offers) ?_ fun _ => ?_
  · refine (offers_calls (remote_get _)).bind fun held => ?_
    split
    · trivial
    · exact (only_forEach (fun _ => offers_calls Api.remote_dropHeld) _).bind fun _ =>
        only_atomic fun _ _ => offers_revise rfl
  · refine (offers_aloof me aloof_revoke).attempt.bind fun r => ?_
    split
    · trivial
    · refine (offers_calls remote_teardown).bind fun _ => (offers_calls (Api.remote_deleteLegs _)).bind fun r => ?_
      split
      · exact only_atomic fun _ _ => offers_revise rfl
      · trivial

/-! ## Every operation -/

theorem offers_done {t : Async α} (ht : t.Only Offers) : (do let _ ← t : Async Unit).Only Offers := ht.bind fun _ => trivial

theorem offers_program (op : VolumeOp) : (program cfg me op).Only Offers := by
  cases op with
  | create req => exact offers_tracked offers_createVolume
  | snapshot name volumeId => exact offers_tracked (offers_aloof me aloof_createSnapshot)
  | group name volumeIds => exact offers_tracked (offers_aloof me aloof_createGroup)
  | restore volume point name => exact offers_tracked (offers_aloof me aloof_restore)
  | policy name body => exact offers_aloof me aloof_putPolicy
  | backups => exact offers_backups
  | delete name => exact offers_tracked offers_deleteVolume
  | assemble name => exact offers_assembleVolume
  | retryAssembly name => exact offers_retryAssembly
  | publish name => exact offers_done (offers_aloof me aloof_publish)
  | recreateExport name => exact offers_done (offers_aloof me aloof_recreateExport)
  | serveHost name host dhchap => exact offers_done (offers_aloof me aloof_serveHost)
  | withdrawHost name host => exact offers_done (offers_aloof me aloof_withdrawHost)
  | republishOn node => exact offers_aloof me aloof_republishOn
  | move name «from» «to» => exact offers_done offers_startReplacement
  | prestage name node «from» c => exact offers_done offers_prestage
  | rebalance active => exact offers_rebalance
  | recover enabled => exact offers_recover
  | finish name => exact offers_finishReplacement
  | rejoinHeads => exact offers_aloof me aloof_rejoinHeads
  | reassembleHeads => exact offers_reassembleHeads
  | reapOrphans => exact offers_aloof me aloof_reapOrphans
  | fence name expected => exact offers_done (offers_aloof me aloof_fence)
  | promote name target epoch => exact offers_promote
  | «export» name body => exact offers_done (offers_aloof me aloof_exportVolume)
  | expand name «to» => exact offers_expand
  | deleteSnapshot id => exact offers_aloof me aloof_deleteSnapshot
  | deleteGroup id => exact offers_aloof me aloof_deleteGroup
  | stopBackup name purged => exact offers_aloof me aloof_stop
  | deletePoint volume point => exact offers_aloof me aloof_deletePoint
  | bandwidthClass name c => exact offers_aloof me aloof_setBandwidthClass
  | pendingRates => exact offers_aloof me aloof_retryPendingRates
  | openWindow name target ttl => exact offers_done (offers_aloof me aloof_openWindow)
  | closeWindow name epoch outcome => exact offers_closeWindow
  | expireWindows => exact offers_aloof me aloof_expireWindows
  | reapStaleHeads => exact offers_aloof me aloof_reapStaleHeads
  | rehead active => exact offers_reheadLost
  | migrate name «to» => exact offers_aloof me aloof_migrate
  | cancelMigration name => exact offers_aloof me aloof_cancelMigration
  | migrations active => exact offers_migrations

end

end StormStorage
