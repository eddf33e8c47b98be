import StormStorage.Await.Trace
import StormStorage.Operations
import StormStorage.Proof.Remote
import StormStorage.Proof.Steps.Regained

/-!
# Replication calls that are refused

A call of the replication routes checks before it writes: a run of it that
fails, for whatever reason, has left the records alone at each of its steps.
Two calls write before their last check. A prestage has stored the class that
was asked for before its replacement is refused, and a commit has closed its
window before its fence and its promote are.

* `spares_fence`, `spares_promote`, `spares_openWindow`,
  `spares_startReplacement`: the calls that leave every record alone;
* `fence_steps`: what the steps of a fence change;
* `failed_leaves`: what each call that fails has done, step by step.
-/

namespace StormStorage.Head

open Await Task Orchestrate

/-- A call of the replication routes. -/
inductive Call where
  | fence (expected : Nat)
  | promote (target : String) (fencedEpoch : Nat)
  | prestage (node «from» : Option String) (bandwidthClass : Option BandwidthClass)
  | openWindow (target : String) (ttlSecs : Nat)
  | closeWindow (epoch : Nat) (outcome : Outcome)
deriving DecidableEq, Repr

/-- The operation that it is on a volume. -/
def Call.op (name : String) : Call → VolumeOp
  | fence expected => .fence name expected
  | promote target fencedEpoch => .promote name target fencedEpoch
  | prestage node «from» bandwidthClass => .prestage name node «from» bandwidthClass
  | openWindow target ttlSecs => .openWindow name target ttlSecs
  | closeWindow epoch outcome => .closeWindow name epoch outcome

/-! ## What a step does to the records -/

/-- Every volume's record is what it was. -/
def SameRecords (w w' : AppState) : Prop := w'.fed.volumes = w.fed.volumes

/-- The record of the volume, where there is one, is changed by `f`, and no other. -/
def Edited (name : String) (f : DistVolume → DistVolume) (w w' : AppState) : Prop :=
  ∀ n : String, w'.fed.volumes[n]? = if n = name then w.fed.volumes[n]?.map f else w.fed.volumes[n]?

/-- A step of a fence: none of the records, or one epoch up and fenced, or the
epochs that legs answered. -/
inductive FenceStep (name : String) (w w' : AppState) : Prop
  | same : SameRecords w w' → FenceStep name w w'
  | fenced : Edited name (fun v => { v with epoch := v.epoch + 1, fenced := true }) w w' → FenceStep name w w'
  | legEpochs (epochs : List (String × Nat)) : Edited name (recordLegEpochs epochs) w w' → FenceStep name w w'

variable {cfg : Config} {me : Nat} {name «from» target reason : String} {«to» : Option String} {w : AppState}
  {expected ttlSecs fencedEpoch epoch : Nat} {tr : List (Moment Reply AppState)} {e : Fault}

theorem edited_modifyVolume {f : DistVolume → DistVolume} :
    Edited name f w (w.revise (·.modifyVolume name f)) := by
  intro n
  show (w.fed.modifyVolume name f).volumes[n]? = _
  unfold FedState.modifyVolume
  by_cases hn : n = name
  · subst hn
    cases hv : w.fed.volumes[n]? <;> simp [hv]
  · rw [if_neg hn]
    split
    · rfl
    · exact KeyMap.get_insert_ne _ _ (Ne.symm hn)

theorem same_calls {α : Type} {t : Async α} (h : t.Only Remote) : t.Only SameRecords :=
  h.mono fun _ _ hc => congrArg FedState.volumes hc.fed

/-! ## Calls that leave the records alone -/

theorem total_fenceEach (legs : List FenceLeg) : (fenceEach legs).Total := by
  induction legs with
  | nil => trivial
  | cons l legs ih =>
    have hone : (fenceOne l.1 l.2.1 l.2.2).Total := by
      unfold fenceOne
      split
      · exact total_attempt _
      · trivial
    refine hone.bind fun r => ih.bind fun _ => ?_
    cases r <;> trivial

theorem spares_fence : (fence name expected).Spares SameRecords := by
  refine Spares.bind_total (Spares.atomic_bind fun _ w => ?_) fun r => ?_
  · split
    · exact .inr trivial
    · exact .inl ⟨rfl, Only.spares trivial⟩
  · exact (total_fenceEach _).bind fun _ => (total_atomic _).bind fun _ => trivial

theorem total_publishAll (names : List String) : (publishAll me names).Total := by
  induction names with
  | nil => trivial
  | cons n names ih => exact Total.bind ((total_attempt _).bind fun _ => trivial) fun _ => ih

theorem total_servePromoted {served : Option String} : (servePromoted me name target served).Total := by
  cases served with
  | none => exact total_atomic _
  | some id => exact (total_attempt _).bind fun _ => (total_atomic _).bind fun _ => total_publishAll _

theorem total_reattachLegs {head : String} {up : List String} (legs : List Leg) :
    (reattachLegs cfg head up legs).Total := by
  induction legs with
  | nil => trivial
  | cons leg rest ih =>
    unfold reattachLegs
    split
    · exact ih.bind fun _ => trivial
    · refine (total_attempt _).bind fun r => ih.bind fun _ => ?_
      cases r <;> trivial

theorem spares_takeOver {array : String} {presented : Nat} {p : Promotable} :
    (takeOver cfg me name target array presented p).Spares SameRecords :=
  Spares.bind (same_calls remote_assembleOn) fun _ =>
    ((total_atomic _).bind fun _ => total_servePromoted).spares

theorem spares_promoteClaimed : (promoteClaimed cfg me name target fencedEpoch).Spares SameRecords := by
  refine Spares.bind ?_ fun p => ?_
  · refine Only.bind (only_atomic fun _ w => ?_) fun x => only_ofExcept x
    split <;> rfl
  · split
    · exact Only.spares trivial
    · split
      · exact ((total_reattachLegs _).bind fun _ => total_atomic _).spares
      · split
        · exact Only.spares trivial
        · exact spares_takeOver

theorem same_claim : (claim me name).Only SameRecords := by
  refine only_atomic fun _ w => ?_
  split <;> rfl

theorem same_letGo : (letGo name).Only SameRecords := only_atomic fun _ _ => rfl

theorem spares_promote : (promote cfg me name target fencedEpoch).Spares SameRecords := by
  refine Spares.bind same_claim fun mine => ?_
  split
  · refine Spares.attempt_bind spares_promoteClaimed (fun _ => (total_atomic _).bind fun _ => trivial) fun _ => ?_
    exact same_letGo.bind fun _ => trivial
  · exact Only.spares trivial

theorem spares_openWindow : (openWindow cfg name target ttlSecs).Spares SameRecords := by
  refine Spares.atomic_bind fun _ w => ?_
  split
  · exact .inr trivial
  · exact .inl ⟨rfl, Only.spares trivial⟩

theorem spares_buildReplacement : (buildReplacement cfg me name «from» «to» reason).Spares SameRecords := by
  refine Spares.bind ?_ fun p => ?_
  · refine Only.bind (only_atomic fun _ w => ?_) fun x => only_ofExcept x
    split
    · dsimp only
      split <;> rfl
    · rfl
  · split
    · exact Only.spares trivial
    · refine Spares.bind (same_calls remote_makeLeg) fun leg => Spares.bind (same_calls remote_wireLeg) fun r => ?_
      split
      · exact Only.spares ((same_calls remote_undoLeg).bind fun _ => trivial)
      · refine Spares.atomic_bind fun _ w => ?_
        -- recorded, the replacement has begun; otherwise there is no record to change
        split
        · exact .inl ⟨rfl, Only.spares ((same_calls remote_undoLeg).bind fun _ => trivial)⟩
        · exact .inr trivial

theorem spares_startReplacement : (startReplacement cfg me name «from» «to» reason).Spares SameRecords := by
  refine Spares.bind same_claim fun mine => ?_
  split
  · refine Spares.attempt_bind spares_buildReplacement (fun _ => (total_atomic _).bind fun _ => trivial) fun _ => ?_
    exact same_letGo.bind fun _ => trivial
  · exact Only.spares trivial

/-! ## The steps of a fence -/

theorem edited_applyFence {vol : DistVolume} (h : (volumeIn w.fed name).bind (applyFence · expected) = .ok vol) :
    Edited name (fun v => { v with epoch := v.epoch + 1, fenced := true }) w
      ((w.noteFence name vol.epoch).revise fun fed => { fed with volumes := fed.volumes.insert name vol }) := by
  obtain ⟨v, hv, hf⟩ := check_bind.mp h
  have hget := volumeIn_eq.mp hv
  obtain rfl : { v with epoch := v.epoch + 1, fenced := true } = vol := by
    unfold applyFence at hf
    split at hf
    · cases hf
    · split at hf
      · cases hf
      · exact Except.ok.inj hf
  intro n
  split
  · subst n
    rw [hget]
    exact KeyMap.get_insert_self _ _ _
  · exact KeyMap.get_insert_ne _ _ (Ne.symm ‹_›)

theorem fence_steps : (fence name expected).Only (FenceStep name) := by
  refine Only.bind ?_ fun r => ?_
  · refine Only.bind (only_atomic fun _ w => ?_) fun x => only_ofExcept x
    split
    · exact .fenced (edited_applyFence ‹_›)
    · exact .same rfl
  · refine ((same_calls (remote_fenceEach _)).mono fun _ _ h => .same h).bind fun done => ?_
    exact (only_atomic fun _ w => .legEpochs done.1 edited_modifyVolume).bind fun _ => trivial

/-! ## What a call that fails has done -/

/-- None of the steps changed a record. -/
def Untouched (tr : List (Moment Reply AppState)) : Prop := ∀ m ∈ tr, SameRecords m.before m.after

/-- The steps of a call on the volume that failed. A prestage that passed its
checks has stored the class in its first; a commit of the window that was open
has closed it in its first, and has fenced the volume or not. -/
def Call.Left (name : String) : Call → List (Moment Reply AppState) → Prop
  | .fence _, tr | .promote _ _, tr | .openWindow _ _, tr | .closeWindow _ .abort, tr => Untouched tr
  | .prestage node «from» class?, tr => ∃ m tr', tr = m :: tr' ∧ Untouched tr' ∧
      match prestageable name node «from» m.before.fed with
      | .ok _ => Edited name (fun v => { v with bandwidthClass := class?.getD v.bandwidthClass }) m.before m.after
      | .error _ => SameRecords m.before m.after
  | .closeWindow epoch .commit, tr => ∃ m tr', tr = m :: tr' ∧
      match closable name epoch m.before.fed with
      | .ok _ => Edited name (fun v => { v with dualAttach := none }) m.before m.after ∧
          (Untouched tr' ∨ ∃ fenced tr₁ tr₂, tr' = tr₁ ++ tr₂ ∧ Among (Head.fence name epoch) tr₁ (ret fenced) ∧
            (∀ x ∈ tr₁, FenceStep name x.before x.after) ∧ Untouched tr₂)
      | .error _ => SameRecords m.before m.after ∧ tr' = []

theorem prestage_left {node : Option String} {class? : Option BandwidthClass}
    (h : Among (prestage cfg me name node «to» class?) tr (fail e)) :
    (Call.prestage node «to» class?).Left name tr := by
  obtain ⟨m, tr', rfl, hm, h⟩ := h.fail_atomic
  refine ⟨m, tr', rfl, ?_⟩
  cases hp : prestageable name node «to» m.before.fed with
  | error e' =>
    simp only [hp] at hm h
    obtain ⟨rfl, -⟩ := among_fail.mp h
    exact ⟨fun x hx => absurd hx List.not_mem_nil, show SameRecords _ _ by rw [hm]; rfl⟩
  | ok f =>
    simp only [hp] at hm h
    exact ⟨spares_startReplacement tr' e h, hm ▸ edited_modifyVolume⟩

/-- What follows a window's close, when it was closed to commit. -/
theorem commit_left (h : Among ((fence name epoch).bind fun fenced => promote cfg me name target fenced.epoch) tr (fail e)) :
    Untouched tr ∨ ∃ fenced tr₁ tr₂, tr = tr₁ ++ tr₂ ∧ Among (fence name epoch) tr₁ (ret fenced) ∧
      (∀ x ∈ tr₁, FenceStep name x.before x.after) ∧ Untouched tr₂ := by
  rcases h.fail_bind with h | ⟨tr₁, tr₂, fenced, rfl, h₁, h₂⟩
  · exact .inl (spares_fence tr e h)
  · exact .inr ⟨fenced, tr₁, tr₂, rfl, h₁, h₁.only fence_steps, spares_promote tr₂ e h₂⟩

theorem closeWindow_left {outcome : Outcome} (h : Among (closeWindow cfg me name epoch outcome) tr (fail e)) :
    (Call.closeWindow epoch outcome).Left name tr := by
  obtain ⟨m, tr', rfl, hm, h⟩ := h.fail_atomic
  cases hc : closable name epoch m.before.fed with
  | error e' =>
    simp only [hc] at hm h
    obtain ⟨rfl, -⟩ := among_fail.mp h
    have hsame : SameRecords m.before m.after := by rw [hm]; rfl
    cases outcome with
    | abort => exact fun x hx => List.mem_singleton.mp hx ▸ hsame
    | commit => exact ⟨m, [], rfl, by rw [hc]; exact ⟨hsame, rfl⟩⟩
  | ok target =>
    simp only [hc] at hm h
    cases outcome with
    | abort => exact absurd h (total_ret ()).not_fail
    | commit =>
      refine ⟨m, tr', rfl, ?_⟩
      rw [hc]
      exact ⟨hm ▸ edited_modifyVolume, commit_left h⟩

/-- A replication call that fails has left the volumes' records as they were at
each of its steps, but for the class of a prestage that passed its checks, and
for the window that a commit found open and the fence that it then did. -/
theorem failed_leaves {c : Call} (h : Among (program cfg me (c.op name)) tr (fail e)) : c.Left name tr := by
  cases c with
  | fence expected => exact Spares.bind_total spares_fence (fun _ => total_ret ()) tr e h
  | promote target fencedEpoch => exact spares_promote tr e h
  | prestage node «from» class? =>
    rcases h.fail_bind with h | ⟨_, _, _, -, -, h⟩
    · exact prestage_left h
    · exact absurd h (total_ret ()).not_fail
  | openWindow target ttlSecs => exact Spares.bind_total spares_openWindow (fun _ => total_ret ()) tr e h
  | closeWindow epoch outcome => exact closeWindow_left h

/-- A volume that was fenced since its window was opened. -/
def fencedSince : DistVolume where
  name := "v"
  sizeBytes := 1
  pool := none
  replicas := 2
  rung := "node"
  legs := []
  assembly := .assembled
  createdAt := 0
  epoch := 2
  dualAttach := some { targetNode := "b", epoch := 1, openedAt := 0, expiresAt := 1 }

theorem failed_leaves_fence :
    ∃ tr e, Among (program plainConfig 0 ((Call.fence 1).op "v")) tr (fail e) ∧ (Call.fence 1).Left "v" tr := by
  let go := program plainConfig 0 ((Call.fence 1).op "v")
  obtain ⟨e, he⟩ := failing_iff.mp
    (show (go.rest [{}] (.having fencedSince)).failing = true by decide +kernel)
  have h := among_moments go [{}] (.having fencedSince)
  rw [he] at h
  exact ⟨_, e, h, failed_leaves h⟩

/-- The commit is refused for its epoch, and the window is gone. -/
theorem closeWindow_shuts :
    ¬ ∀ (cfg : Config) (me : Nat) (name : String) (c : Call) (w w' : AppState) (e : Fault),
      (program cfg me (c.op name)).Ends w (.error e) w' →
        ((∃ n, e = .staleEpoch n) ∨ ∃ m, e = .notFound m ∨ e = .conflict m) →
          w'.fed.volumes[name]? = w.fed.volumes[name]? := by
  intro h
  have hrun : (((program plainConfig 0 ((Call.closeWindow 1 .commit).op "v")).run [{}, {}] (.having fencedSince)).map
      fun r => (r.1, (r.2.fed.volumes["v"]?).map (·.dualAttach))) = some (.error (.staleEpoch 2), some none) := by
    decide +kernel
  obtain ⟨⟨x, w'⟩, hr, hw⟩ := Option.map_eq_some_iff.mp hrun
  obtain ⟨rfl, hgone⟩ := Prod.mk.inj hw
  have he := congrArg (Option.map (·.dualAttach)) (h _ _ _ _ _ _ _ (ends_of_run hr) (.inl ⟨2, rfl⟩))
  exact absurd (he.symm.trans hgone) (by decide +kernel)

end StormStorage.Head
