import StormStorage.Proof.Exports.Walk
import StormStorage.Proof.Steps.Program

/-!
# The operations that serve volumes

The programs of the operations that publish volumes, serve them to hosts, move
their heads and delete them, walked once side by side: each step does what
`ServeStep` says.

* `gentle_revoke`, `gentle_deleteVolume`, `gentle_fence`: what holds no copy;
* `serve_promote`, `serve_reassembleHeads`: what writes one back;
* `serve_program`, `serve_step`: every operation, and every step of every run.
-/

namespace StormStorage

open Await Task Orchestrate

/-- The operations that serve volumes. -/
def VolumeOp.serves : VolumeOp → Prop
  | .delete _ | .publish _ | .recreateExport _ | .serveHost .. | .withdrawHost .. | .republishOn _
  | .«export» .. | .fence .. | .promote .. | .reassembleHeads => True
  | _ => False

section

variable {α : Type} {b : Bool} {cfg : Config} {t : Nat} {w w' : AppState} {name node : String} {P : AppState → Prop}

/-! ## Edits -/

theorem gentle_of_eq (h : w' = { w with fed := w'.fed }) (hn : Named w.fed → Named w'.fed) (hstep : ServeStep w w') :
    Gentle w w' where
  replacing := by rw [h]
  spawned := by rw [h]
  copies := by rw [h]
  publishes := by rw [h]
  named := hn
  answered := by rw [h]; exact List.Subset.refl _
  step := hstep

/-- A record is put in place of one that is there. -/
theorem gentle_put {v v' : DistVolume} (hv : w.fed.volumes[name]? = some v) (hn : v'.name = v.name)
    (hstep : ∀ w' : AppState, w'.exposed = w.exposed.put name v' → ServeStep w w') :
    Gentle w (w.revise fun fed => { fed with volumes := fed.volumes.insert name v' }) :=
  gentle_of_eq rfl (fun h => named_insert h (hn.trans (h _ _ hv))) (hstep _ rfl)

theorem gentle_setFed {f : DistVolume → DistVolume} (hn : ∀ v, (f v).name = v.name)
    (hstep : ∀ v (w' : AppState), w.fed.volumes[name]? = some v → w'.exposed = w.exposed.put name (f v) →
      ServeStep w w') : Gentle w (w.setFed (·.modifyVolume name f)) := by
  refine gentle_of_eq rfl (named_modify hn) ?_
  cases hv : w.fed.volumes[name]? with
  | none => exact .unseen (exposed_modify_none hv)
  | some v => exact hstep v _ hv (exposed_modify hv)

theorem gentle_edit {f : DistVolume → DistVolume} (hn : ∀ v, (f v).name = v.name)
    (hstep : ∀ v (w' : AppState), w.fed.volumes[name]? = some v → w'.exposed = w.exposed.put name (f v) →
      ServeStep w w') : Gentle w (w.revise (·.modifyVolume name f)) := by
  have h : Gentle w (w.setFed (·.modifyVolume name f)) := gentle_setFed hn hstep
  refine gentle_of_eq rfl h.named ?_
  cases hv : w.fed.volumes[name]? with
  | none => exact .unseen (exposed_modify_none hv)
  | some v => exact hstep v _ hv (exposed_modify hv)

theorem Unserving.refl (v : DistVolume) : Unserving v v := ⟨rfl, rfl, rfl, rfl, rfl, .refl _⟩

/-! ## Hosts -/

theorem gentle_dropHost {host : String} : (dropHost name host).Only Gentle := by
  refine Only.bind (only_atomic fun _ w => ?_) fun x => only_ofExcept x
  split
  · exact .refl w
  · rename_i v hv
    exact gentle_put (findVolume_eq.mp hv) rfl fun _ h => .hosts (findVolume_eq.mp hv) (.dropped host _) h

theorem gentle_withdrawOnEngine {p : PendingWithdraw} : (withdrawOnEngine p).Only Gentle := by
  have hcall : (Engine.withdrawHost p.node p.name p.hostNqn).Only Gentle :=
    only_callOr (fun _ w => ⟨rfl, rfl, rfl, rfl, id, List.Subset.refl _, .withdrew rfl⟩) .refl
  refine (gentle_get _).bind fun up => ?_
  split
  · trivial
  · split
    · exact hcall
    · refine (gentle_calls (b := true) Engine.remote_localVolumeId Engine.hushed_localVolumeId).attempt.bind fun x => ?_
      cases x with
      | ok _ => exact hcall
      | error e =>
        dsimp only
        split <;> trivial

theorem gentle_addPending {p : PendingWithdraw} : (addPending name p).Only Gentle := by
  refine only_atomic fun _ w => gentle_edit (fun v => ?_) fun v w' hv h => ?_
  · split <;> rfl
  · split at h
    · exact .edited hv (.refl v) h
    · exact .hosts hv (.pending p _) h

theorem gentle_withdrawHost {host : String} : (withdrawHost name host).Only Gentle := by
  refine gentle_dropHost.bind fun p => ?_
  split
  · trivial
  · refine gentle_withdrawOnEngine.attempt.bind fun r => ?_
    split
    · trivial
    · exact gentle_addPending.bind fun _ => trivial

theorem gentle_withdrawPendingOn : (withdrawPendingOn node).Only Gentle := by
  refine (gentle_get _).bind fun due => only_forEach (fun p => ?_) _
  refine gentle_withdrawOnEngine.attempt.bind fun r => ?_
  split
  · refine only_atomic fun _ w => gentle_edit (fun _ => rfl) fun v w' hv h => ?_
    exact .hosts hv (.withdrawn p.2 _) h
  · trivial

theorem serve_republishOn (hP : Firm t P) (hi : StepInv w) (hs : P w) :
    ServeSafe t (republishOn t node) (fun _ s => P s) w :=
  (serve_gentle hP.enduring gentle_withdrawPendingOn hi hs).bind hi (fun _ _ hi hs =>
    (serve_gentle hP.enduring (gentle_get _) hi hs).bind hi (fun _ _ hi hs => serve_publishAll hP hi hs) fun _ _ h => h)
    fun _ _ h => h

/-- A gentle phase, and what follows it. -/
theorem serve_then {β : Type} {task : Async α} {f : α → Async β} (hP : Enduring t P) (ht : task.Only Gentle)
    (hf : ∀ a w, StepInv w → P w → ServeSafe t (f a) (fun _ s => P s) w) (hi : StepInv w) (hs : P w) :
    ServeSafe t (task.bind f) (fun _ s => P s) w :=
  (serve_gentle hP ht hi hs).bind hi (fun a w hi hs => hf a w hi hs) fun _ _ h => h

theorem serve_recreateExport (hP : Firm t P) (hi : StepInv w) (hs : P w) :
    ServeSafe t (recreateExport t name) (fun _ s => P s) w := by
  refine serve_then hP.enduring (only_atomic fun _ w => ?_) (fun x w hi hs => serve_then hP.enduring (gentle_ofExcept x)
    (fun _ w hi hs => (serve_publish hP hi hs).bind hi (fun _ w hi hs =>
      serve_gentle hP.enduring (Only.bind (only_atomic fun _ w => ?_) fun x => only_ofExcept x) hi hs) fun _ _ h => h)
    hi hs) hi hs
  · split
    · rename_i v' hv'
      obtain ⟨v, hv, hf⟩ := check_bind.mp hv'
      have hname : v'.name = v.name := by
        unfold forgetServed at hf
        split at hf
        · cases hf
        · split at hf
          · cases hf
          · rw [← Except.ok.inj hf]
      exact gentle_put (findVolume_eq.mp hv) hname fun _ h => .forgot (findVolume_eq.mp hv) hf h
    · exact .refl w
  · split
    · exact .refl w
    · rename_i v hv
      exact gentle_put hv rfl fun _ h => .hosts hv (.renewed _) h

theorem serve_serveHost {host : String} {dhchap : Bool} (hP : Firm t P) (hi : StepInv w) (hs : P w) :
    ServeSafe t (serveHost t name host dhchap) (fun _ s => P s) w := by
  unfold serveHost
  split
  · exact serve_fail hP.enduring hi hs
  · refine serve_then hP.enduring (only_atomic fun _ w => ?_) (fun x w hi hs => serve_then hP.enduring
      (gentle_ofExcept x) (fun _ w hi hs => ?_) hi hs) hi hs
    · split
      · rename_i v hv
        exact gentle_put (findVolume_eq.mp hv) rfl fun _ h => .hosts (findVolume_eq.mp hv) (.asked host dhchap _) h
      · exact .refl w
    · refine (serve_publish hP hi hs).attempt_bind hi fun r w hi hs => ?_
      split
      · refine serve_then hP.enduring (gentle_get _) (fun why w hi hs => ?_) hi hs
        split <;> exact serve_fail hP.enduring hi hs
      · split
        · exact serve_ret hP.enduring hi hs
        · exact serve_fail hP.enduring hi hs

theorem serve_exportVolume {body : Api.ExportBody} (hP : Firm t P) (hi : StepInv w) (hs : P w) :
    ServeSafe t (Api.exportVolume t name body) (fun _ s => P s) w := by
  have hask : ∀ add, (Api.askExport name add).Only Gentle := fun add => by
    refine Only.bind (only_atomic fun _ w => ?_) fun x => only_ofExcept x
    split
    · exact gentle_setFed (fun _ => rfl) fun v w' hv h => .hosts hv (.added add _) h
    · exact .refl w
  refine serve_then hP.enduring (gentle_ofExcept _) (fun add w hi hs => serve_then hP.enduring (hask add)
    (fun _ w hi hs => ?_) hi hs) hi hs
  refine Safe.attempt_bind (Q := fun _ s => P s) hi ?_ fun r w hi hs => ?_
  · split
    · exact serve_recreateExport hP hi hs
    · exact serve_publish hP hi hs
  · split
    · exact serve_ret hP.enduring hi hs
    · exact serve_fail hP.enduring hi hs

/-! ## Deleting -/

theorem gentle_setExportState {message : Option String} : (setExportState name .revoking message).Only Gentle := by
  refine only_atomic fun _ w => ?_
  dsimp only
  split
  · exact gentle_edit (fun _ => rfl) fun v w' hv h => .revoking hv h
  · exact .refl w

theorem gentle_revoke {vol : DistVolume} : (revoke vol).Only Gentle := by
  unfold revoke
  split
  · split
    · trivial
    · refine (gentle_get _).bind fun up => ?_
      split
      · refine gentle_setExportState.bind fun _ => (gentle_calls (b := true) (only_withContext remote_deleteServed)
          (only_withContext hushed_deleteServed)).attempt.bind fun x => ?_
        split
        · trivial
        · exact gentle_setExportState.bind fun _ => trivial
      · trivial
  · trivial

theorem gentle_onVolumeDelete : (Api.onVolumeDelete name).Only Gentle := by
  refine (gentle_get _).bind fun held => ?_
  split
  · trivial
  · refine (only_forEach (fun _ => gentle_calls (b := true) Api.remote_dropHeld hushed_dropHeld) _).bind fun _ => ?_
    refine only_atomic fun _ w => gentle_of_eq rfl ?_ (.unseen ?_)
    · show Named w.fed → Named (AppState.revise w _).fed
      unfold AppState.revise AppState.setFed
      dsimp only
      split <;> exact id
    · unfold AppState.revise AppState.setFed
      dsimp only
      split <;> rfl

theorem gentle_dropVolume {orphans : List Orphan} : (Api.dropVolume name orphans).Only Gentle := by
  refine only_atomic fun _ w => gentle_of_eq rfl (fun hn n v hv => ?_) (.dropped rfl)
  change (w.fed.volumes.erase name)[n]? = some v at hv
  rw [KeyMap.get_erase] at hv
  split at hv
  · cases hv
  · exact hn n v hv

theorem gentle_takeDown {vol : DistVolume} : (Api.takeDown name vol).Only Gentle := by
  refine gentle_onVolumeDelete.bind fun _ => gentle_revoke.attempt.bind fun x => ?_
  split
  · trivial
  · refine (gentle_calls (b := true) remote_teardown hushed_teardown).bind fun _ => ?_
    refine (gentle_calls (b := true) (Api.remote_deleteLegs _) (hushed_deleteLegs _)).bind fun r => ?_
    split
    · exact gentle_dropVolume
    · trivial

theorem gentle_undertaken {us : List Undertaking} : Gentle w { w with undertakings := us } :=
  ⟨rfl, rfl, rfl, rfl, id, List.Subset.refl _, .unseen rfl⟩

theorem gentle_deleteVolume : (tracked t (Api.deleteVolume t name)).Only Gentle := by
  refine Only.bind (C := Gentle) (Only.attempt ?_) fun _ => only_atomic fun _ w => gentle_undertaken
  refine Only.bind (C := Gentle) ?_ fun vol => gentle_takeDown
  refine Only.bind (only_atomic fun _ w => ?_) fun x => only_ofExcept x
  split
  · exact gentle_undertaken
  · exact .refl w

/-! ## Fencing -/

theorem applyFence_unserving {v v' : DistVolume} {expected : Nat} (h : Head.applyFence v expected = .ok v') :
    Unserving v v' := by
  unfold Head.applyFence at h
  split at h
  · cases h
  · split at h
    · cases h
    · obtain rfl := Except.ok.inj h
      exact ⟨rfl, rfl, rfl, rfl, rfl, .refl _⟩

theorem gentle_fence {expected : Nat} : (Head.fence name expected).Only Gentle := by
  refine Only.bind (C := Gentle) ?_ fun r => ?_
  · refine Only.bind (only_atomic fun _ w => ?_) fun x => only_ofExcept x
    split
    · rename_i v' hv'
      obtain ⟨v, hv, hf⟩ := check_bind.mp hv'
      have hun := applyFence_unserving hf
      have hv := volumeIn_eq.mp hv
      have hg := gentle_put (w := w) hv hun.name fun _ h => .edited hv hun h
      exact ⟨rfl, rfl, rfl, rfl, hg.named, List.Subset.refl _, .edited hv hun rfl⟩
    · exact .refl w
  · refine (gentle_calls (b := true) (Head.remote_fenceEach _) (Head.hushed_fenceEach _)).bind fun r => ?_
    refine Only.bind (only_atomic fun _ w => gentle_edit (fun _ => rfl) fun v w' hv h => ?_) fun _ => trivial
    have hun : Unserving v (Head.recordLegEpochs r.1 v) := ⟨rfl, rfl, rfl, rfl, rfl, sameLegs_withEpochs _ _⟩
    exact .edited hv hun h

/-! ## Claims and copies -/

theorem serve_claim (hi : StepInv w) : ServeSafe t (claim t name) (fun x s => x = .ok true → Holds t name s) w := by
  refine Safe.step (P := fun _ => True) (firm_const True).stable (fun s i hi _ _ _ => ?_) hi trivial
  dsimp only
  split
  · exact ⟨hi, (Gentle.refl s).guar, Safe.ret (firm_const True).stable (fun _ _ _ h => nomatch h) hi trivial⟩
  · rename_i hfree
    have hfree := Bool.eq_false_of_not_eq_true hfree
    have hi' : StepInv { s with replacing := s.replacing.insert name ⟨t⟩ } :=
      ⟨hi.named, fun x hx => contains_claimed t (hi.handed x hx), hi.once⟩
    refine ⟨hi', ⟨fun n t' _ h => ⟨h.claimed hfree, rfl⟩, fun _ hp _ => hp, List.Subset.refl _, .unseen rfl⟩, ?_⟩
    exact Safe.ret firm_holds.stable (fun _ _ h _ => h) hi' (holds_claimed hfree hi.handed)

theorem serve_letGo (hi : StepInv w) (hh : Holds t name w) : ServeSafe t (letGo name) (fun _ _ => True) w := by
  refine Safe.step firm_holds.stable (fun s i hi hh _ _ => ?_) hi hh
  have hi' : StepInv { s.release name with copies := s.copies.erase name } :=
    ⟨hi.named, fun x hx => contains_letGo hh hx (hi.handed x hx), hi.once⟩
  refine ⟨hi', ⟨fun n t' hu h => ⟨hh.letGo hu rfl rfl h, ?_⟩, fun _ hp _ => hp, List.Subset.refl _, .letGo rfl⟩,
    serve_ret (firm_const True).enduring hi' trivial⟩
  show (s.copies.erase name)[n]? = _
  rw [KeyMap.get_erase, if_neg fun he => hh.other hu h he.symm]

theorem serve_underClaim {busy : Fault} {task : Async α}
    (ht : ∀ w, StepInv w → Holds t name w → ServeSafe t task (fun _ s => Holds t name s) w) (hi : StepInv w) :
    ServeSafe t (underClaim t name busy task) (fun _ _ => True) w := by
  refine (serve_claim hi).bind hi (fun mine w hi h => ?_) fun _ _ _ => trivial
  cases mine with
  | false => exact serve_fail (firm_const True).enduring hi trivial
  | true =>
    refine (ht w hi (h rfl)).attempt_bind hi fun r w hi hh => ?_
    refine (serve_letGo hi hh).bind hi (fun _ w hi _ => ?_) fun _ _ _ => trivial
    exact serve_gentle (firm_const True).enduring (gentle_ofExcept r) hi trivial

/-- A step of the holder of `name`. -/
structure OwnServe (name : String) (w w' : AppState) : Prop where
  replacing : w'.replacing = w.replacing
  spawned : w'.spawned = w.spawned
  publishes : w'.publishes = w.publishes
  answered : w'.answered = w.answered
  named : Named w'.fed
  copies : ∀ n, n ≠ name → w'.copies[n]? = w.copies[n]?
  step : ServeStep w w'

theorem OwnServe.inv (h : OwnServe name w w') (hi : StepInv w) : StepInv w' :=
  inv_of_eq h.replacing h.spawned h.named hi

theorem OwnServe.guar (h : OwnServe name w w') (hh : Holds t name w) : ServeGuar (some t) w w' where
  others n _ hu hn := ⟨hn.of_eq h.replacing h.spawned, h.copies n (hh.other hu hn)⟩
  publishes p hp _ := by rwa [h.publishes]
  answered := by rw [h.answered]; exact List.Subset.refl _
  step := h.step

/-- The holder's step, from what is known. -/
theorem serve_own {f : Reply → AppState → α × AppState} (hP : Enduring t fun w => Holds t name w ∧ P w)
    (h : ∀ i s, StepInv s → Holds t name s → P s → OwnServe name s (f i s).2) (hi : StepInv w)
    (hs : Holds t name w ∧ P w) : ServeSafe t (.atomic f) (fun _ s => Holds t name s) w := by
  refine Safe.step hP.stable (fun s i hi hs _ _ => ?_) hi hs
  have hown := h i s hi hs.1 hs.2
  exact ⟨hown.inv hi, hown.guar hs.1, serve_ret firm_holds.enduring (hown.inv hi)
    (hs.1.of_eq hown.replacing hown.spawned)⟩

theorem serve_takeCopy {check : FedState → Except Fault α} {vol : α → DistVolume} {onto : α → Option String}
    {Q : α → Prop} (hcheck : ∀ fed a, Named fed → check fed = .ok a → fed.volumes[name]? = some (vol a) ∧ Q a)
    (hi : StepInv w) (hh : Holds t name w) :
    ServeSafe t (takeCopy name check vol onto) (fun x s => Holds t name s ∧
      ∀ a, x = .ok a → Guarding t name (vol a) s ∧ Q a) w := by
  refine Safe.step firm_holds.stable (fun s i hi hh _ _ => ?_) hi hh
  dsimp only
  split
  · rename_i a ha
    obtain ⟨hv, hq⟩ := hcheck _ a hi.named ha
    generalize hw : ({ s.noteHeading name (onto a) with copies := s.copies.insert name (vol a) } : AppState) = s'
    have hexposed : s'.exposed = { s.exposed with copies := s.copies.insert name (vol a) } := by
      subst hw
      have hnone : ((onto a).toList.map fun node => Event.heading name node
          (s.fed.staleHeads.any fun x => x.ofVolume = name ∧ x.node = node)).filter Event.serving = [] := by
        simp [List.filter_eq_nil_iff, Event.serving]
      simp only [AppState.exposed, AppState.noteHeading, List.filter_append, hnone, List.append_nil]
    have hown : OwnServe name s s' := by
      refine ⟨by subst hw; rfl, by subst hw; rfl, by subst hw; rfl, by subst hw; rfl, by subst hw; exact hi.named,
        fun n hn => ?_, .copied hv hexposed⟩
      subst hw
      exact KeyMap.get_insert_ne _ _ (Ne.symm hn)
    have hkeep : Guarding t name (vol a) s' := by
      refine ⟨hh.of_eq hown.replacing hown.spawned, ?_⟩
      subst hw
      exact KeyMap.get_insert_self ..
    refine ⟨hown.inv hi, hown.guar hh, Safe.ret firm_keeping.stable (fun s _ h => ⟨h.1, fun a' he => ?_⟩)
      (hown.inv hi) hkeep⟩
    exact Except.ok.inj he ▸ ⟨h, hq⟩
  · exact ⟨hi, (Gentle.refl s).guar, Safe.fail firm_holds.stable (fun _ _ h => ⟨h, fun _ he => by cases he⟩) hi hh⟩

/-- A copy is written back, over `w₀`, which is the state but for what is noted
and recorded beside. -/
theorem own_serve {w₀ : AppState} {x : Exposed} {v : DistVolume} {r : Nat} {stale : List StaleHead} (hn : Named w.fed)
    (hw : w₀ = { w with log := w₀.log, fed := { w.fed with staleHeads := stale, revision := r } })
    (hx : w₀.exposed = x) (hname : v.name = name)
    (h : w' = w₀.writeBack name v ∨ w' = (w₀.writeBack name v).revise id)
    (hstep : w'.exposed = { x.put name v with copies := w.copies.erase name } → ServeStep w w') :
    OwnServe name w w' := by
  obtain ⟨es, hes⟩ := writeBack_eq w₀ name v
  have hcopies : w₀.copies = w.copies := by rw [hw]
  have hexposed : w'.exposed = { x.put name v with copies := w.copies.erase name } := by
    rcases h with rfl | rfl
    · rw [exposed_writeBack, hcopies, hx]
    · show (w₀.writeBack name v).exposed = _
      rw [exposed_writeBack, hcopies, hx]
  have hw' : ∃ l r', w' = { w with
      log := l
      copies := w.copies.erase name
      fed := { w.fed with staleHeads := stale, revision := r', volumes := w.fed.volumes.insert name v } } := by
    rcases h with rfl | rfl
    · refine ⟨w₀.log ++ es, r, ?_⟩
      rw [hes]
      rw [hw]
    · refine ⟨w₀.log ++ es, r + 1, ?_⟩
      rw [hes]
      rw [hw]
      rfl
  have hs := hstep hexposed
  obtain ⟨l, r', rfl⟩ := hw'
  refine ⟨rfl, rfl, rfl, rfl, named_insert hn hname, fun n hne => ?_, hs⟩
  show (w.copies.erase name)[n]? = _
  rw [KeyMap.get_erase, if_neg (Ne.symm hne)]

/-! ## Heads -/

/-- A served volume that came across was listed there. -/
def Across (node mirror : String) (served : Option String) (w : AppState) : Prop :=
  ∀ id, served = some id → ⟨node, mirror, id⟩ ∈ w.answered

theorem firm_across {mirror : String} {served : Option String} : Firm t (Across node mirror served) where
  stable _ _ _ _ _ _ hg h id hid := hg.answered (h id hid)
  own _ _ _ _ _ ha h id hid := ha (h id hid)

theorem serve_listEngineVolumes (mirror : String) (hP : Enduring t P) (hi : StepInv w) (hs : P w) :
    ServeSafe t (Engine.listEngineVolumes node) (fun x s => P s ∧ ∀ vs, x = .ok vs →
      Across node mirror (Head.servedListed mirror vs) s) w := by
  refine (@serve_told _ _ _ _ node mirror _ _ (Head.servedListed mirror) hP (fun i w => gentle_heard w node i)
    (fun i w a id hw ha hid => ?_) hi hs).mono fun x s h => ⟨h.1, fun vs hx id hid => h.2 vs id hx hid⟩
  obtain rfl := Except.ok.inj ha
  obtain ⟨v, hv, hvid⟩ := Option.bind_eq_some_iff.mp hid
  have hname := List.find?_some hv
  rw [decide_eq_true_eq] at hname
  exact mem_heard hw (List.mem_of_find?_eq_some hv) hname.1 hvid

/-- The array on a head, with the served volume that came across. -/
theorem serve_assembleOn {target : String} {up : List String} {pick : Leg → Bool} {vol : DistVolume}
    (hP : Enduring t P) (hi : StepInv w) (hs : P w) :
    ServeSafe t (Head.assembleOn cfg target up pick vol) (fun x s => P s ∧ ∀ r, x = .ok r →
      Across target (vol.name ++ mirrorSuffix) r.2.1 s ∧ RelabelledFrom vol r.1) w := by
  suffices h : ServeSafe t (Head.assembleOn cfg target up pick vol) (fun x s => P s ∧ ∀ r, x = .ok r →
      Across target (vol.name ++ mirrorSuffix) r.2.1 s) w from
    (h.answers answers_assembleOn).mono fun x s h => ⟨h.1.1, fun r hr => ⟨h.1.2 r hr, h.2 r hr⟩⟩
  have hfail : ∀ {e : Fault} {w}, StepInv w → P w → ServeSafe t (.fail e : Async (DistVolume × Option String ×
      Option EngineArray)) (fun x s => P s ∧ ∀ r, x = .ok r → Across target (vol.name ++ mirrorSuffix) r.2.1 s) w :=
    fun hi hs => Safe.fail hP.stable (fun _ _ h => ⟨h, fun _ he => by cases he⟩) hi hs
  unfold Head.assembleOn
  split
  · exact hfail hi hs
  · have hopen : (Head.openPicked cfg target up pick vol.legs).Only Gentle :=
      gentle_calls (b := true) (Head.remote_openPicked vol.legs) (Head.hushed_openPicked vol.legs)
    refine (serve_gentle hP hopen hi hs).bind hi (fun legs w hi hs => ?_) fun _ _ h => ⟨h, fun _ he => by cases he⟩
    have hmake : (withContext s!"{target}: assemble" Engine.assembleArrays).Only Gentle :=
      gentle_calls (b := true) (only_withContext (remote_inquire _)) (only_withContext (hushed_inquire _))
    refine (serve_gentle hP hmake hi hs).bind hi (fun made w hi hs => ?_) fun _ _ h => ⟨h, fun _ he => by cases he⟩
    split
    · exact hfail hi hs
    · refine (serve_gentle hP (gentle_calls (b := true) Head.remote_renumbered Head.hushed_renumbered) hi hs).bind hi
        (fun r w hi hs => ?_) fun _ _ h => ⟨h, fun _ he => by cases he⟩
      refine (serve_listEngineVolumes (vol.name ++ mirrorSuffix) hP hi hs).attempt_bind hi
        fun x w hi h => ?_
      cases x with
      | ok vs =>
        exact Safe.ret (hP.stable.and firm_across.stable) (fun _ _ h => ⟨h.1, fun _ he => Except.ok.inj he ▸ h.2⟩) hi
          ⟨h.1, h.2 vs rfl⟩
      | error e =>
        exact Safe.ret hP.stable (fun _ _ h => ⟨h, fun _ he => Except.ok.inj he ▸ fun _ hid => by cases hid⟩) hi h.1

/-- What is known of a copy that is held. -/
theorem enduring_held {c : DistVolume} {served : Option String} {mirror : String} : Enduring t fun w =>
    Holds t name w ∧ w.copies[name]? = some c ∧ Across node mirror served w :=
  have h : Enduring t fun w => Guarding t name c w ∧ Across node mirror served w :=
    (firm_keeping.and firm_across).enduring
  ⟨fun s s' u hu hi hi' hg hs =>
      have := h.stable s s' u hu hi hi' hg ⟨⟨hs.1, hs.2.1⟩, hs.2.2⟩
      ⟨this.1.1, this.1.2, this.2⟩,
    fun s s' hg hs =>
      have := h.gentle s s' hg ⟨⟨hs.1, hs.2.1⟩, hs.2.2⟩
      ⟨this.1.1, this.1.2, this.2⟩⟩

/-- What a promote reads has an array. -/
theorem promotable_mirrored {target : String} {epoch : Nat} {fed : FedState} {p : Head.Promotable}
    (h : Head.promotable name target epoch fed = .ok p) : p.vol.mirrored := by
  obtain ⟨v, -, h⟩ := check_bind.mp h
  obtain ⟨old, hold, h⟩ := check_bind.mp h
  obtain rfl := Except.ok.inj h
  unfold Head.checkPromote at hold
  split at hold
  · cases hold
  · split at hold
    · cases hold
    · split at hold
      · cases hold
      · rename_i hup
        rcases not_and_or.mp hup with hup | hup
        · exact .inl (not_not.mp hup)
        · exact .inr (not_not.mp hup)

theorem reassemblable_mirrored {fed : FedState} {p : Head.Reassemblable}
    (h : Head.reassemblable name fed = .ok p) : p.vol.mirrored := by
  obtain ⟨v, -, h⟩ := check_bind.mp h
  split at h
  · cases h
  · rename_i hup
    have hmirrored : v.mirrored := by
      rcases not_and_or.mp hup with hup | hup
      · exact .inl (not_not.mp hup)
      · exact .inr (not_not.mp hup)
    split at h
    · cases h
    · split at h
      · cases h
      · split at h
        · cases h
        · obtain rfl := Except.ok.inj h
          exact hmirrored

/-! ## Promoting -/

/-- A served volume that is missing is noted, and said in the record. -/
theorem gentle_unserved {m : Option String} :
    Gentle w ((w.note (.missed name)).setFed (·.modifyVolume name fun v =>
      { v with «export» := { v.export with state := .failed, message := m } })) := by
  refine ⟨rfl, rfl, rfl, rfl, named_modify fun _ => rfl, List.Subset.refl _, ?_⟩
  have hnoted : (w.note (.missed name)).exposed = w.exposed.note (.missed name) := exposed_noted rfl
  cases hv : w.fed.volumes[name]? with
  | none => exact .noted ((exposed_modify_none (w := w.note (.missed name)) hv).trans hnoted)
  | some v =>
    have h := exposed_modify (w := w.note (.missed name)) (f := fun v => { v with
      «export» := { v.export with state := .failed, message := m } }) hv
    rw [hnoted] at h
    exact .unserved hv h

theorem serve_servePromoted {target : String} {served : Option String} (hi : StepInv w) (hh : Holds t name w) :
    ServeSafe t (Head.servePromoted t name target served) (fun _ s => Holds t name s) w := by
  unfold Head.servePromoted
  split
  · exact (serve_publish firm_holds hi hh).attempt_bind hi fun _ w hi hh => serve_publishClonesOf firm_holds hi hh
  · exact serve_gentle firm_holds.enduring (only_atomic fun _ _ => gentle_unserved) hi hh

theorem relabelled_name {c vol : DistVolume} (h : RelabelledFrom c vol) : vol.name = c.name := by
  obtain ⟨legs, -, rfl⟩ := h
  rfl

theorem serve_takeOver {target array : String} {presented : Nat} {p : Head.Promotable} (hname : p.vol.name = name)
    (hup : p.vol.mirrored) (hi : StepInv w) (hh : Guarding t name p.vol w) :
    ServeSafe t (Head.takeOver cfg t name target array presented p) (fun _ s => Holds t name s) w := by
  refine (serve_assembleOn firm_keeping.enduring hi hh).bind hi (fun r w hi h => ?_) fun _ _ h => h.1.1
  obtain ⟨hacross, hvol⟩ := h.2 r rfl
  obtain ⟨vol, served, read⟩ := r
  dsimp only at hacross hvol ⊢
  rw [hname] at hacross
  refine (serve_own (P := fun w => w.copies[name]? = some p.vol ∧ Across target (name ++ mirrorSuffix) served w)
    enduring_held (fun i s hi hh hs => ?_) hi ⟨h.1.1, h.1.2, hacross⟩).bind hi
    (fun _ w hi hh => serve_servePromoted hi hh) fun _ _ h => h
  have hx : ((s.note (.cleared name presented)).revise fun fed => { fed with
      staleHeads := fed.staleHeads ++ Head.staleHead vol (p.oldHead.getD "") array i.now }).exposed = s.exposed :=
    exposed_note rfl
  exact own_serve (v := Head.promoted target p.up served vol) (r := s.fed.revision + 1) hi.named rfl hx
    ((relabelled_name hvol).trans hname) (.inl rfl) (.promoted hs.1 hname hup hvol hs.2)

theorem serve_promoteClaimed {target : String} {presented : Nat} (hi : StepInv w) (hh : Holds t name w) :
    ServeSafe t (Head.promoteClaimed cfg t name target presented) (fun _ s => Holds t name s) w := by
  refine (serve_takeCopy (Q := fun p => p.vol.name = name ∧ p.vol.mirrored) (fun fed p hn h => ?_) hi hh).bind hi
    (fun p w hi h => ?_) fun _ _ h => h.1
  · have hv := (promotable_ok h).1
    exact ⟨hv, hn _ _ hv, promotable_mirrored h⟩
  · obtain ⟨hm, hname, hup⟩ := h.2 p rfl
    split
    · exact serve_fail firm_holds.enduring hi hm.1
    · split
      · refine (serve_answers firm_keeping.enduring (gentle_calls (b := true) (Head.remote_reattachLegs _)
          (Head.hushed_reattachLegs _)) (answers_reattachLegs _) hi hm).bind hi (fun legs w hi h => ?_)
          fun _ _ h => h.1.1
        have hlegs := h.2 _ rfl
        refine serve_own (P := fun w => w.copies[name]? = some p.vol) firm_keeping.enduring
          (fun i s hi hh hc => ?_) hi h.1
        obtain rfl := hname
        exact own_serve (v := { p.vol with legs := legs, fenced := false }) (r := s.fed.revision) hi.named rfl
          (exposed_note rfl) rfl (.inr rfl) (.stayed hc rfl hup hlegs)
      · split
        · exact serve_fail firm_holds.enduring hi hm.1
        · exact serve_takeOver hname hup hi hm

theorem serve_promote {target : String} {presented : Nat} (hi : StepInv w) :
    ServeSafe t (Head.promote cfg t name target presented) (fun _ _ => True) w :=
  serve_underClaim (fun _ hi hh => serve_promoteClaimed hi hh) hi

/-! ## Reassembling -/

theorem own_putBack {head array : String} {up : List String} {served : Option String} {c vol : DistVolume}
    {read : Option EngineArray} (hname : c.name = name) (hup : c.mirrored) (hhead : c.head = some head)
    (hvol : RelabelledFrom c vol) (hn : Named w.fed) (hc : w.copies[name]? = some c) (hacross : Across head (name ++ mirrorSuffix) served w) :
    OwnServe name w (((Head.noteBack w name read served).writeBack name
      (Head.reassembled head array (Head.comesBack head up) served vol)).revise id) := by
  have hvname : vol.name = name := (relabelled_name hvol).trans hname
  cases served with
  | some id =>
    have hx : (Head.noteBack w name read (some id)).exposed = w.exposed :=
      exposed_note (w := w) (e := .cameBack name read) rfl
    exact own_serve (v := Head.reassembled head array (Head.comesBack head up) (some id) vol) (r := w.fed.revision) hn
      rfl hx hvname (.inr rfl) (.reassembled hc hname hup hhead hvol (hacross id rfl))
  | none =>
    have hx : (Head.noteBack w name read none).exposed = w.exposed.note (.missed name) := by
      simp [Head.noteBack, AppState.exposed, Exposed.note, Event.serving]
    exact own_serve (v := Head.reassembled head array (Head.comesBack head up) none vol) (r := w.fed.revision) hn rfl
      hx hvname (.inr rfl) (.lost hc hname hup hhead hvol)

theorem serve_putBack {array : String} {p : Head.Reassemblable} (hname : p.vol.name = name) (hup : p.vol.mirrored)
    (hhead : p.vol.head = some p.head) (hi : StepInv w) (hh : Guarding t name p.vol w) :
    ServeSafe t (Head.putBack cfg t name array p) (fun _ s => Holds t name s) w := by
  unfold Head.putBack
  dsimp only
  split
  · exact serve_fail firm_holds.enduring hi hh.1
  · refine (serve_assembleOn firm_keeping.enduring hi hh).bind hi (fun r w hi h => ?_) fun _ _ h => h.1.1
    obtain ⟨hacross, hvol⟩ := h.2 r rfl
    obtain ⟨vol, served, read⟩ := r
    dsimp only at hacross hvol ⊢
    rw [hname] at hacross
    refine (serve_own (P := fun w => w.copies[name]? = some p.vol ∧ Across p.head (name ++ mirrorSuffix) served w)
      enduring_held (fun i s hi hh hs => ?_) hi ⟨h.1.1, h.1.2, hacross⟩).bind hi (fun _ w hi hh => ?_) fun _ _ h => h
    · have hrname : (Head.reassembled p.head array (Head.comesBack p.head p.up) served vol).name = name :=
        (relabelled_name hvol).trans hname
      dsimp only
      rw [hrname]
      exact own_putBack hname hup hhead hvol hi.named hs.1 hs.2
    · exact (serve_publishAll firm_holds hi hh).bind hi (fun _ w hi hh => serve_publishClonesOf firm_holds hi hh)
        fun _ _ h => h

theorem serve_reassemble (hi : StepInv w) (hh : Holds t name w) :
    ServeSafe t (Head.reassemble cfg t name) (fun _ s => Holds t name s) w := by
  refine (serve_takeCopy (Q := fun p => p.vol.name = name ∧ p.vol.mirrored ∧ p.vol.head = some p.head)
    (fun fed p hn h => ?_) hi hh).bind hi (fun p w hi h => ?_) fun _ _ h => h.1
  · obtain ⟨hv, hhead⟩ := reassemblable_ok h
    exact ⟨hv, hn _ _ hv, reassemblable_mirrored h, hhead⟩
  · obtain ⟨hm, hname, hup, hhead⟩ := h.2 p rfl
    split
    · exact serve_fail firm_holds.enduring hi hm.1
    · refine (serve_gentle firm_keeping.enduring (gentle_calls (b := true) (remote_inquire _) (hushed_inquire _)) hi
        hm).attempt_bind hi fun found w hi hm => ?_
      split
      · exact serve_putBack hname hup hhead hi hm
      · exact serve_ret firm_holds.enduring hi hm.1
      · exact serve_ret firm_holds.enduring hi hm.1

theorem serve_reassembleHeads (hi : StepInv w) :
    ServeSafe t (Head.reassembleHeads cfg t) (fun _ _ => True) w := by
  have htrue : Enduring t fun _ => True := (firm_const True).enduring
  refine serve_then htrue (only_atomic fun _ w => Gentle.refl w) (fun x w hi _ => ?_) hi trivial
  refine serve_forEach htrue (fun name w hi _ => ?_) hi trivial
  refine (serve_claim hi).bind hi (fun mine w hi h => ?_) fun _ _ _ => trivial
  cases mine with
  | false => exact serve_ret htrue hi trivial
  | true =>
    refine (serve_reassemble hi (h rfl)).attempt_bind hi fun r w hi hh => ?_
    refine (serve_letGo hi hh).bind hi (fun _ w hi _ => ?_) fun _ _ _ => trivial
    split
    · exact serve_ret htrue hi trivial
    · refine serve_gentle htrue (only_atomic fun _ w => gentle_setFed (fun _ => rfl) fun v w' hv h => ?_) hi trivial
      have hun : Unserving v { v with nextAssembleAfter := some (x.2 + cfg.cooldown) } :=
        ⟨rfl, rfl, rfl, rfl, rfl, .refl _⟩
      exact .edited hv hun h

/-! ## Every operation -/

theorem serve_program (op : VolumeOp) (hop : op.serves) (hi : StepInv w) :
    ServeSafe t (program cfg t op) (fun _ _ => True) w := by
  have htrue : Firm t fun _ => True := firm_const True
  have hignore : ∀ {α : Type} {task : Async α}, ServeSafe t task (fun _ _ => True) w →
      ServeSafe t (do let _ ← task) (fun _ _ => True) w := fun h =>
    h.bind hi (fun _ _ hi _ => serve_ret htrue.enduring hi trivial) fun _ _ _ => trivial
  cases op with
  | delete name => exact serve_gentle htrue.enduring gentle_deleteVolume hi trivial
  | publish name => exact hignore (serve_publish htrue hi trivial)
  | recreateExport name => exact hignore (serve_recreateExport htrue hi trivial)
  | serveHost name host dhchap => exact hignore (serve_serveHost htrue hi trivial)
  | withdrawHost name host => exact hignore (serve_gentle htrue.enduring gentle_withdrawHost hi trivial)
  | republishOn node => exact serve_republishOn htrue hi trivial
  | reassembleHeads => exact serve_reassembleHeads hi
  | fence name expected => exact hignore (serve_gentle htrue.enduring gentle_fence hi trivial)
  | promote name target epoch => exact serve_promote hi
  | «export» name body => exact hignore (serve_exportVolume htrue hi trivial)
  | _ => exact hop.elim

end

/-! ## Every step -/

/-- Nothing is under way, and nothing is published. -/
structure Quiescent (w : AppState) : Prop extends Resting w where
  publishes : w.publishes = []

/-- Nodes come, go and change beside the operations. -/
theorem serve_nodes {w : AppState} (nodes : KeyMap Node) (hi : StepInv w) :
    StepInv (w.setFed fun fed => { fed with nodes := nodes }) ∧
      ServeGuar none w (w.setFed fun fed => { fed with nodes := nodes }) :=
  have h : Gentle w (w.setFed fun fed => { fed with nodes := nodes }) := gentle_of_eq rfl id (.unseen rfl)
  ⟨h.inv hi, h.guar⟩

section

variable {cfg : Config} {ops : VolumeOp → Prop} {ok : AppState → AppState → Prop} {p₀ p : Pool Reply AppState Fault}

theorem kept_serves (hops : ∀ op, ops op → op.serves) (h₀ : StepInv p₀.state) (ht : p₀.tasks = [])
    (h : (operations cfg ops).Run ok p₀ p) : System.Run.Kept serveDiscipline p :=
  (h.mono fun _ _ _ => trivial).safe (fun _ (op : { op // ops op }) _ hi => serve_program op.1 (hops _ op.2) hi)
    (fun nodes _ hi _ => serve_nodes nodes hi) h₀ ht

/-- Every step of every run, of a task or of the nodes. -/
theorem serve_step {p' : Pool Reply AppState Fault} {m : Move Reply (operations cfg ops).Op (operations cfg ops).Env}
    (hops : ∀ op, ops op → op.serves) (hk : System.Run.Kept serveDiscipline p)
    (hm : (operations cfg ops).step p m = some p') :
    p'.state = p.state ∨ p.state.answered ⊆ p'.state.answered ∧ ServeStep p.state p'.state := by
  obtain ⟨-, -, he | ⟨u, -, hg⟩⟩ := System.Run.kept_step
    (fun op : { op // ops op } => serve_program op.1 (hops _ op.2) hk.1) (fun nodes _ hi _ => serve_nodes nodes hi) hk hm
    trivial
  · exact .inl he
  · exact .inr ⟨hg.answered, hg.step⟩

end

end StormStorage
