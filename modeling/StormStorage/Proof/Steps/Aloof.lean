import StormStorage.Proof.Recovery
import StormStorage.Proof.Requests.Admission
import StormStorage.Proof.Steps.Offered
import StormStorage.Proof.Steps.Seen
import StormStorage.Proof.Volumes.HeadLeg

/-!
# Phases that leave claimed volumes alone

An operation that takes no copy of a record and holds no claim changes a
record in one step, from what it reads there: it is `Aloof`. What another
operation knows of a volume that it holds stays true (`Spares`).

* `aloof_of_calls`, `aloof_edit`, `aloof_insert`: calls, and edits where nothing
  is seen;
* `aloof_publish` to `aloof_deletePoint`: the phases of the programs.
-/

namespace StormStorage

open Await Task Orchestrate

/-- Where a record's legs are, and the one that is coming. -/
def Core.sites (c : Core) : List String × Option Replacement := (c.faces.map Prod.fst, c.replacing)

/-- What is known of a claimed volume stays. -/
structure Spares (name : String) (w w' : AppState) : Prop where
  copy : w'.copies[name]? = w.copies[name]?
  stale : ∀ s ∈ w'.fed.staleHeads, s.ofVolume = name → s ∈ w.fed.staleHeads
  sites : Unmade w' name → ∀ c', w'.seen.records name = some c' →
    ∃ c, w.seen.records name = some c ∧ c'.sites = c.sites

/-- What every step does. -/
structure Passes (w w' : AppState) : Prop where
  step : RecordStep w w'
  log : w.log ⊆ w'.log
  answered : w.answered ⊆ w'.answered
  creations : w.creations ⊆ w'.creations

/-- What every step of an operation does. -/
structure Does (w w' : AppState) : Prop extends Passes w w' where
  offered : Offered w.fed w'.fed ∨ Unoffered w w'

/-- A step of task `me` that leaves claims and what is claimed alone. -/
structure Aloof (me : Nat) (w w' : AppState) : Prop where
  replacing : w'.replacing = w.replacing
  spawned : w'.spawned = w.spawned
  spares : ∀ name : String, w.replacing.contains name = true → Spares name w w'
  undertakings : ∀ t, t ≠ me → w'.undertakings.filter (·.task = t) = w.undertakings.filter (·.task = t)
  named : Named w.fed → Named w'.fed
  does : Does w w'

section

variable {me : Nat} {w w' : AppState} {name : String} {v v' : DistVolume}

theorem Spares.of_seen (h : w'.seen = w.seen) (name : String) : Spares name w w' where
  copy := congrArg (fun s : View => s.copies[name]?) h
  stale s hs _ := by rwa [show w'.fed.staleHeads = w.fed.staleHeads from congrArg View.stale h] at hs
  sites _ c' hc' := ⟨c', by rwa [← h], rfl⟩

/-- A record is put in place of one with the same sites. -/
theorem Spares.of_insert (hc : w'.copies = w.copies) (hs : w'.fed.staleHeads = w.fed.staleHeads)
    (hr : w'.fed.volumes = w.fed.volumes.insert name v') (hv : w.fed.volumes[name]? = some v)
    (hsites : v'.core.sites = v.core.sites) (n : String) : Spares n w w' where
  copy := by rw [hc]
  stale s hm _ := hs ▸ hm
  sites _ c' hc' := by
    change (w'.fed.volumes[n]?).map _ = _ at hc'
    rw [hr, KeyMap.get_insert] at hc'
    split at hc'
    · rename_i he
      exact ⟨v.core, he ▸ records_eq hv, by rw [← Option.some.inj hc', hsites]⟩
    · exact ⟨c', hc', rfl⟩

theorem Does.of_eq (hstep : RecordStep w w') (hoff : Offered w.fed w'.fed) (hl : w.log ⊆ w'.log)
    (ha : w'.answered = w.answered) (hc : w'.creations = w.creations) : Does w w' :=
  ⟨⟨hstep, hl, by rw [ha]; exact List.Subset.refl _, by rw [hc]; exact List.Subset.refl _⟩, .inl hoff⟩

/-- A step where nothing is seen. -/
theorem Aloof.of_seen (h : w' = { w with fed := w'.fed, publishes := w'.publishes, log := w'.log, begun := w'.begun })
    (hseen : w'.seen = w.seen) (hnamed : Named w.fed → Named w'.fed) (hoff : Offered w.fed w'.fed)
    (hl : w.log ⊆ w'.log) : Aloof me w w' where
  replacing := by rw [h]
  spawned := by rw [h]
  spares n _ := .of_seen hseen n
  undertakings _ _ := by rw [h]
  named := hnamed
  does := .of_eq (.unseen hseen) hoff hl (by rw [h]) (by rw [h])

/-- A step that changes records and backups. -/
theorem Aloof.of_step
    (h : w' = { w with fed := w'.fed, log := w'.log, fences := w'.fences, choices := w'.choices })
    (hstep : RecordStep w w') (hsp : ∀ n, Spares n w w') (hnamed : Named w.fed → Named w'.fed) (hoff : Offered w.fed w'.fed)
    (hl : w.log ⊆ w'.log) : Aloof me w w' where
  replacing := by rw [h]
  spawned := by rw [h]
  spares n _ := hsp n
  undertakings _ _ := by rw [h]
  named := hnamed
  does := .of_eq hstep hoff hl (by rw [h]) (by rw [h])

theorem aloof_of_calls {b : Bool} (h : Calls b w w') : Aloof me w w' where
  replacing := h.replacing
  spawned := h.spawned
  spares n _ := .of_seen (by rw [h.eq]; rfl) n
  undertakings _ _ := by rw [h.undertakings]
  named hn := by rwa [h.fed]
  does := ⟨⟨.unseen (by rw [h.eq]; rfl), h.log, h.answered, by rw [h.eq]; exact List.Subset.refl _⟩,
    .inl (offered_of_eq h.fed)⟩

theorem Aloof.refl (w : AppState) : Aloof me w w := aloof_of_calls (Calls.refl (b := true) w)

theorem aloof_calls {α : Type} {t : Async α} (ht : t.Only Remote) : t.Only (Aloof me) :=
  ht.mono fun _ _ => aloof_of_calls

theorem named_insert {fed : FedState} (h : Named fed) (hv : v.name = name) :
    Named { fed with volumes := fed.volumes.insert name v } := by
  intro n x hx
  simp only [KeyMap.get_insert] at hx
  split at hx
  · rename_i he
    rw [← Option.some.inj hx, hv, he]
  · exact h n x hx

theorem named_modify {fed : FedState} {f : DistVolume → DistVolume} (hf : ∀ v, (f v).name = v.name) (h : Named fed) :
    Named (fed.modifyVolume name f) := by
  unfold FedState.modifyVolume
  split
  · exact h
  · exact named_insert h ((hf _).trans (h _ _ ‹_›))

/-- A record that is there is changed where nothing is seen. -/
theorem aloof_insert (p : List Publish) (hv : w.fed.volumes[name]? = some v) (hc : v'.core = v.core)
    (hn : v'.name = v.name) :
    Aloof me w ({ w with publishes := p }.revise fun fed => { fed with volumes := fed.volumes.insert name v' }) :=
  .of_seen rfl (seen_same hv hc) (fun h => named_insert h (hn.trans (h _ _ hv))) (offered_revise rfl)
    (List.Subset.refl _)

/-- The same of an edit. -/
theorem aloof_unpublish {f : DistVolume → DistVolume} (p : List Publish)
    (hf : ∀ v, (f v).core = v.core ∧ (f v).name = v.name) :
    Aloof me w ({ w with publishes := p }.revise (·.modifyVolume name f)) :=
  .of_seen rfl (seen_edit (w := { w with publishes := p }) fun v => (hf v).1) (named_modify fun v => (hf v).2)
    (offered_revise rfl) (List.Subset.refl _)

theorem aloof_edit {f : DistVolume → DistVolume} (hf : ∀ v, (f v).core = v.core ∧ (f v).name = v.name) :
    Aloof me w (w.revise (·.modifyVolume name f)) :=
  aloof_unpublish w.publishes hf

/-- An edit of cooldowns or the pending rate. -/
theorem aloof_cooldown {f : DistVolume → DistVolume}
    (hf : ∀ v, ((f v).core = v.core ∧ (f v).name = v.name) ∧ (f v).durable = v.durable) :
    Aloof me w (w.setFed (·.modifyVolume name f)) :=
  .of_seen rfl (seen_edit fun v => (hf v).1.1) (named_modify fun v => (hf v).1.2) (offered_edit fun v => (hf v).2)
    (List.Subset.refl _)

/-- An edit of what is exported that keeps the revision, over `u`, which is
the state but for what is noted. -/
theorem aloof_export {u : AppState} {f : Export → Export} (hw : u = { w with log := u.log })
    (hl : w.log ⊆ u.log)
    (h : ∀ v, w.fed.volumes[name]? = some v → f v.export ≠ v.export →
      Unoffered w (u.setFed (·.modifyVolume name fun v => v.exporting (f v.export)))) :
    Aloof me w (u.setFed (·.modifyVolume name fun v => v.exporting (f v.export))) := by
  have hsame : (u.setFed (·.modifyVolume name fun v => v.exporting (f v.export))).seen = u.seen :=
    seen_edit fun _ => rfl
  have hseen : (u.setFed (·.modifyVolume name fun v => v.exporting (f v.export))).seen = w.seen := by
    rw [hsame, hw]
    rfl
  have hfed : u.fed = w.fed := by rw [hw]
  have heq : u.setFed (·.modifyVolume name fun v => v.exporting (f v.export)) = { w with
      log := u.log, fed := w.fed.modifyVolume name fun v => v.exporting (f v.export) } := by
    rw [← hfed, hw]
    rfl
  rw [heq] at hseen h ⊢
  refine ⟨rfl, rfl, fun n _ => .of_seen hseen n, fun _ _ => rfl, named_modify fun _ => rfl,
    ⟨⟨.unseen hseen, hl, List.Subset.refl _, List.Subset.refl _⟩, ?_⟩⟩
  cases hv : w.fed.volumes[name]? with
  | none => exact .inl (offered_of_eq (modifyVolume_none hv))
  | some v =>
    by_cases hne : f v.export = v.export
    · refine .inl (.inl ?_)
      show (w.fed.modifyVolume name _).sent = _
      rw [modifyVolume_some hv]
      exact sent_insert hv (by rw [hne]; rfl)
    · exact .inr (h v hv hne)

end

/-! ## Serving -/

section

variable {me : Nat} {name node : String}

theorem core_record {s : Served} {vol v : DistVolume} {place : ServeAt} {now : SystemTime} :
    (s.record name vol place now v).core = v.core := by
  unfold Served.record DistVolume.core
  dsimp only
  split
  · split
    · rw [sameLegs_exportLeg]
    · rfl
  · rfl

theorem aloof_publish : (publish me name).Only (Aloof me) := by
  refine Only.bind (C := Aloof me) ?_ fun r => ?_
  · refine Only.bind (only_atomic fun _ w => ?_) fun x => only_ofExcept x
    split
    · exact .of_seen rfl rfl id (offered_of_eq rfl) (List.Subset.refl _)
    · exact .refl w
  · obtain ⟨vol, place, up⟩ := r
    dsimp only
    split
    · refine (aloof_calls remote_serveShared).bind fun s => (aloof_calls remote_serveHosts).bind fun s => ?_
      refine Only.bind (only_atomic fun i w => ?_) fun x => only_ofExcept x
      dsimp only
      split
      · exact .of_seen rfl rfl id (offered_of_eq rfl) (List.Subset.refl _)
      · exact aloof_insert _ ‹_› core_record rfl
    · refine Only.bind (only_atomic fun _ w => ?_) fun _ => trivial
      dsimp only
      split
      · refine aloof_unpublish (w := w) _ ?_
        exact fun _ => ⟨rfl, rfl⟩
      · exact .of_seen rfl rfl id (offered_of_eq rfl) (List.Subset.refl _)

theorem aloof_publishAll {names : List String} : (publishAll me names).Only (Aloof me) :=
  only_forEach (fun _ => only_ignore aloof_publish) _

theorem aloof_publishClonesOf {parent : String} : (publishClonesOf me parent).Only (Aloof me) :=
  (aloof_calls (remote_get _)).bind fun _ => aloof_publishAll

theorem aloof_recreateExport : (recreateExport me name).Only (Aloof me) := by
  refine Only.bind (only_atomic fun _ w => ?_) fun x => (only_ofExcept x).bind fun _ => aloof_publish.bind fun _ => ?_
  · split
    · rename_i v' hv'
      obtain ⟨v, hv, hf⟩ := check_bind.mp hv'
      have he : v' = { v with «export» := v'.export } := by
        unfold forgetServed at hf
        split at hf
        · cases hf
        · split at hf
          · cases hf
          · rw [← Except.ok.inj hf]
      exact aloof_insert w.publishes (findVolume_eq.mp hv) (by rw [he]; rfl) (by rw [he])
    · exact .refl w
  · refine Only.bind (only_atomic fun _ w => ?_) fun x => only_ofExcept x
    split
    · exact .refl w
    · rename_i v hv
      exact aloof_insert w.publishes hv rfl rfl

theorem aloof_serveHost {host : String} {dhchap : Bool} : (serveHost me name host dhchap).Only (Aloof me) := by
  unfold serveHost
  split
  · trivial
  · refine Only.bind (only_atomic fun _ w => ?_) fun x => (only_ofExcept x).bind fun _ => ?_
    · split
      · rename_i v hv
        exact aloof_insert w.publishes (findVolume_eq.mp hv) rfl rfl
      · exact .refl w
    · refine aloof_publish.attempt.bind fun r => ?_
      split
      · refine (aloof_calls (remote_get _)).bind fun why => ?_
        split <;> trivial
      · split <;> trivial

theorem aloof_dropHost {host : String} : (dropHost name host).Only (Aloof me) := by
  refine Only.bind (only_atomic fun _ w => ?_) fun x => only_ofExcept x
  split
  · exact .refl w
  · rename_i v hv
    exact aloof_insert w.publishes (findVolume_eq.mp hv) rfl rfl

theorem aloof_withdrawHost {host : String} : (withdrawHost name host).Only (Aloof me) := by
  refine aloof_dropHost.bind fun p => ?_
  split
  · trivial
  · refine (aloof_calls remote_withdrawOnEngine).attempt.bind fun r => ?_
    split
    · trivial
    · refine Only.bind (only_atomic fun _ w => aloof_edit fun v => ?_) fun _ => trivial
      split <;> exact ⟨rfl, rfl⟩

theorem aloof_republishOn : (republishOn me node).Only (Aloof me) := by
  refine Only.bind (C := Aloof me) ?_ fun _ => (aloof_calls (remote_get _)).bind fun _ => aloof_publishAll
  refine (aloof_calls (remote_get _)).bind fun due => only_forEach (fun p => ?_) _
  refine (aloof_calls remote_withdrawOnEngine).attempt.bind fun r => ?_
  split
  · exact only_atomic fun _ w => aloof_edit fun _ => ⟨rfl, rfl⟩
  · trivial

theorem aloof_revoke {vol : DistVolume} : (revoke vol).Only (Aloof me) := by
  have hset : ∀ st m, (setExportState vol.name st m).Only (Aloof me) := by
    intro st m
    refine only_atomic fun _ w => ?_
    dsimp only
    split
    · exact aloof_edit fun _ => ⟨rfl, rfl⟩
    · exact .refl w
  unfold revoke
  split
  · split
    · trivial
    · refine (aloof_calls remote_healthy).bind fun up => ?_
      split
      · refine (hset _ _).bind fun _ => (aloof_calls (only_withContext remote_deleteServed)).attempt.bind fun x => ?_
        split
        · trivial
        · exact (hset _ _).bind fun _ => trivial
      · trivial
  · trivial

theorem aloof_exportVolume {body : Api.ExportBody} : (Api.exportVolume me name body).Only (Aloof me) := by
  refine (only_ofExcept _).bind fun add => Only.bind (C := Aloof me) ?_ fun _ => ?_
  · refine Only.bind (only_atomic fun _ w => ?_) fun x => only_ofExcept x
    split
    · exact aloof_export (f := Api.addHosts add) rfl (List.Subset.refl _) fun v hv hne => .asked add hv hne rfl
    · exact .refl w
  · refine Only.bind (C := Aloof me) (Only.attempt ?_) fun x => ?_
    · split
      · exact aloof_recreateExport
      · exact aloof_publish
    · split <;> trivial

end

/-! ## Fences and readings -/

theorem sites_core (v : DistVolume) : v.core.sites = (v.legs.map (·.node), v.replacing) := by
  simp only [Core.sites, DistVolume.core, List.map_map]
  rfl

/-- What a reading of the head's array leaves of a record. -/
theorem applyHeadReading_quiet {v v' : DistVolume} {r : Option ArrayReading} {b : Bool}
    (h : applyHeadReading v r = some (v', b)) : v'.name = v.name ∧ (b = false → v' = v) := by
  obtain ⟨head, -, h⟩ := Option.bind_eq_some_iff.mp h
  obtain ⟨array, -, h⟩ := Option.bind_eq_some_iff.mp h
  obtain ⟨i, -, h⟩ := Option.bind_eq_some_iff.mp h
  obtain ⟨leg, hleg, h⟩ := Option.bind_eq_some_iff.mp h
  split at h
  · cases h
  · split at h
    · obtain ⟨rfl, rfl⟩ := Prod.mk.inj (Option.some.inj h)
      exact ⟨rfl, nofun⟩
    · obtain ⟨rfl, rfl⟩ := Prod.mk.inj (Option.some.inj h)
      refine ⟨rfl, fun hm => ?_⟩
      have hm := of_decide_eq_false hm
      rw [ne_eq, Decidable.not_not] at hm
      obtain ⟨hi, he⟩ := List.getElem?_eq_some_iff.mp hleg
      have hset : v.legs.set i { leg with message := leg.message } = v.legs := by
        rw [← he]
        exact List.set_getElem_self hi
      rw [← hm, hset]

section

variable {me : Nat} {w : AppState} {name : String}

theorem core_recordLegEpochs (done : List (String × Nat)) (v : DistVolume) :
    (Head.recordLegEpochs done v).core = v.core := by
  unfold Head.recordLegEpochs DistVolume.core
  dsimp only
  rw [sameLegs_withEpochs]

theorem aloof_fence {expected : Nat} : (Head.fence name expected).Only (Aloof me) := by
  refine Only.bind (C := Aloof me) ?_ fun r => ?_
  · refine Only.bind (only_atomic fun _ w => ?_) fun x => only_ofExcept x
    split
    · rename_i vol h
      obtain ⟨v, hv, hf⟩ := check_bind.mp h
      have hv := volumeIn_eq.mp hv
      obtain rfl := applyFence_ok hf
      have hseen := seen_insert (w.noteFence name (v.epoch + 1)) name { v with epoch := v.epoch + 1, fenced := true }
      have hname : Named w.fed → v.name = name := fun hn => hn _ _ hv
      exact .of_step rfl (.fenced hv hseen) (.of_insert rfl rfl rfl hv rfl) (fun hn => named_insert hn (hname hn))
        (offered_revise rfl) (List.Subset.refl _)
    · exact .refl w
  · refine (aloof_calls (Head.remote_fenceEach _)).bind fun x => ?_
    exact Only.bind (only_atomic fun _ w => aloof_edit fun v => ⟨core_recordLegEpochs _ v, rfl⟩) fun _ => trivial

theorem aloof_rejoinOne {head array : String} : (rejoinOne name head array).Only (Aloof me) := by
  refine (aloof_calls (remote_inquire _)).attempt.bind fun x => ?_
  split
  · trivial
  · rename_i found
    refine only_atomic fun _ w => ?_
    dsimp only
    split
    · exact .of_seen rfl rfl id (offered_of_eq rfl) (List.subset_append_left _ _)
    · rename_i v' changed h
      obtain ⟨v, hv, h⟩ := Option.bind_eq_some_iff.mp h
      obtain ⟨-, -, hrep, hnodes⟩ := applyHeadReading_keeps h
      obtain ⟨hname, hquiet⟩ := applyHeadReading_quiet h
      have hsites : v'.core.sites = v.core.sites := by rw [sites_core, sites_core, hnodes, hrep]
      have hnamed : ∀ fed : FedState, fed.volumes = w.fed.volumes → Named w.fed →
          Named { fed with volumes := fed.volumes.insert name v' } :=
        fun fed hf hn => named_insert (by rw [Named, hf]; exact hn) (hname.trans (hn _ _ hv))
      have hseen := seen_insert (w.note (.headRead name head array found)) name v'
      split
      · exact .of_step rfl (.rejoined hv h rfl (KeyMap.get_insert_self ..) hseen) (.of_insert rfl rfl rfl hv hsites) (hnamed _ rfl)
          (offered_revise rfl) (List.subset_append_left _ _)
      · rename_i hch
        refine .of_step rfl (.rejoined hv h rfl (KeyMap.get_insert_self ..) hseen) (.of_insert rfl rfl rfl hv hsites) (hnamed _ rfl)
          (.inl (sent_insert hv ?_)) (List.subset_append_left _ _)
        rw [hquiet (by simpa using hch)]

theorem aloof_rejoinHeads : rejoinHeads.Only (Aloof me) :=
  (aloof_calls (remote_get _)).bind fun _ => only_forEach (fun _ => aloof_rejoinOne) _

theorem core_afterLoss (fed : FedState) (v : DistVolume) :
    (afterLoss fed v).core.sites = v.core.sites ∧ (afterLoss fed v).name = v.name := by
  rw [sites_core, sites_core]
  unfold afterLoss
  split
  · refine ⟨?_, rfl⟩
    simp only [List.map_map, Prod.mk.injEq, and_true]
    exact List.map_congr_left fun l _ => node_loseLeg fed l
  · exact ⟨rfl, rfl⟩

/-- Recovery marks what is lost. -/
theorem aloof_planRecovery {enabled : Bool} {now : SystemTime} {busy : String → Bool} :
    Aloof me w { w with fed := (planRecovery w.fed enabled now busy).1 } := by
  have hseen : ({ w with fed := (planRecovery w.fed enabled now busy).1 } : AppState).seen =
      { w.seen with records := fun n => (w.fed.volumes[n]?).map fun v => (afterLoss w.fed v).core } := by
    refine View.ext (funext fun n => ?_) rfl rfl rfl rfl rfl
    show ((w.fed.volumes.map fun _ v => afterLoss w.fed v)[n]?).map _ = _
    rw [Std.ExtTreeMap.getElem?_map, Option.map_map]
    rfl
  refine .of_step rfl (.lost hseen) (fun n => ⟨rfl, fun s hs _ => hs, fun _ c' hc' => ?_⟩) (fun hn n v' hv' => ?_) ?_
    (List.Subset.refl _)
  · rw [hseen] at hc'
    obtain ⟨v, hv, rfl⟩ := Option.map_eq_some_iff.mp hc'
    exact ⟨v.core, records_eq hv, (core_afterLoss w.fed v).1⟩
  · change (w.fed.volumes.map fun _ v => afterLoss w.fed v)[n]? = _ at hv'
    rw [Std.ExtTreeMap.getElem?_map] at hv'
    obtain ⟨v, hv, rfl⟩ := Option.map_eq_some_iff.mp hv'
    exact (core_afterLoss w.fed v).2.trans (hn n v hv)
  · by_cases he : (w.fed.volumes.map fun _ v => afterLoss w.fed v) = w.fed.volumes
    · refine .inl ?_
      rw [planRecovery_fst, if_pos he, he]
    · refine .inr ?_
      rw [planRecovery_fst]
      dsimp only
      rw [if_neg he]
      exact Nat.lt_succ_self _

theorem aloof_reapOrphans : reapOrphans.Only (Aloof me) := by
  refine (aloof_calls (remote_get _)).bind fun due => only_forEach (fun o => ?_) _
  refine (aloof_calls Engine.remote_act).attempt.bind fun _ => (aloof_calls Engine.remote_deleteVolume).attempt.bind fun r => ?_
  split
  · exact only_atomic fun _ w => .of_seen rfl rfl id (offered_revise rfl) (List.Subset.refl _)
  · trivial

theorem aloof_reapStaleHeads : Head.reapStaleHeads.Only (Aloof me) := by
  refine (aloof_calls (remote_get _)).bind fun due => only_forEach (fun s => only_ignore ?_) _
  refine (aloof_calls (remote_inquire _)).bind fun arrays => ?_
  split
  · trivial
  · refine (aloof_calls Head.remote_leftoverOn).bind fun leftover => ?_
    refine (only_forEach (fun _ => aloof_calls (only_ignore Engine.remote_deleteDrive)) _).bind fun _ => ?_
    refine (only_forEach (fun _ => aloof_calls Engine.remote_deleteVolume) _).bind fun _ => only_atomic fun _ w => ?_
    refine .of_step rfl (.reaped rfl) (fun n => ⟨rfl, fun x hx _ => List.mem_of_mem_filter hx, fun _ c' hc' => ?_⟩) id
      (offered_revise rfl) (List.Subset.refl _)
    exact ⟨c', hc', rfl⟩

/-! ## Upkeep -/

theorem aloof_applyRate : (Head.applyRate name).Only (Aloof me) := by
  have hset : ∀ pending, (Head.setRatePending name pending).Only (Aloof me) :=
    fun _ => only_atomic fun _ w => aloof_cooldown fun _ => ⟨⟨rfl, rfl⟩, rfl⟩
  refine (aloof_calls (remote_get _)).bind fun target => ?_
  split
  · trivial
  · exact hset _
  · exact (aloof_calls Head.remote_capHead).bind fun applied => hset _

theorem aloof_setBandwidthClass {c : BandwidthClass} : (Head.setBandwidthClass name c).Only (Aloof me) := by
  refine Only.bind (only_atomic fun _ w => ?_) fun x => (only_ofExcept x).bind fun _ => aloof_applyRate
  split
  · dsimp only
    split
    · exact .refl w
    · exact aloof_edit fun _ => ⟨rfl, rfl⟩
  · exact .refl w

theorem aloof_retryPendingRates : Head.retryPendingRates.Only (Aloof me) :=
  (aloof_calls (remote_get _)).bind fun _ => only_forEach (fun _ => aloof_applyRate) _

theorem aloof_openWindow {cfg : Config} {target : String} {ttl : Nat} :
    (Head.openWindow cfg name target ttl).Only (Aloof me) := by
  refine Only.bind (only_atomic fun _ w => ?_) fun x => only_ofExcept x
  split
  · exact aloof_edit fun _ => ⟨rfl, rfl⟩
  · exact .refl w

/-- The same edit of many records, where nothing is seen. -/
theorem seen_map {f : DistVolume → DistVolume} (hf : ∀ v, (f v).core = v.core) :
    (w.setFed fun fed => { fed with volumes := fed.volumes.map fun _ v => f v }).seen = w.seen := by
  refine View.ext (funext fun n => ?_) rfl rfl rfl rfl rfl
  show ((w.fed.volumes.map fun _ v => f v)[n]?).map _ = _
  rw [Std.ExtTreeMap.getElem?_map, Option.map_map]
  exact congrArg (Option.map · _) (funext hf)

theorem named_map {fed : FedState} {f : DistVolume → DistVolume} (hf : ∀ v, (f v).name = v.name) (h : Named fed) :
    Named { fed with volumes := fed.volumes.map fun _ v => f v } := by
  intro n v' hv'
  simp only [Std.ExtTreeMap.getElem?_map] at hv'
  obtain ⟨v, hv, rfl⟩ := Option.map_eq_some_iff.mp hv'
  exact (hf v).trans (h n v hv)

theorem aloof_expireWindows : Head.expireWindows.Only (Aloof me) := by
  refine only_atomic fun i w => ?_
  dsimp only
  split
  · refine .of_seen rfl (seen_map (w := w) fun v => ?_) (named_map fun v => ?_) (.inr (Nat.lt_succ_self _))
      (List.Subset.refl _)
    · split <;> rfl
    · split <;> rfl
  · exact .refl w

theorem aloof_migrate {cfg : Config} {«to» : String} : (Migrate.start cfg name «to»).Only (Aloof me) := by
  refine Only.bind (only_atomic fun _ w => ?_) fun x => only_ofExcept x
  split
  · exact .refl w
  · exact aloof_edit fun _ => ⟨rfl, rfl⟩
  · exact .refl w

theorem aloof_cancelMigration : (Migrate.cancel name).Only (Aloof me) := by
  refine Only.bind (only_atomic fun _ w => ?_) fun x => only_ofExcept x
  split
  · dsimp only
    split
    · exact aloof_edit fun _ => ⟨rfl, rfl⟩
    · exact .refl w
  · exact .refl w

theorem aloof_setMigration {st : MigrationState} {message : Option String} :
    (Migrate.set name st message).Only (Aloof me) :=
  only_atomic fun _ _ => aloof_edit fun _ => ⟨rfl, rfl⟩

end

end StormStorage
