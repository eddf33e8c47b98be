import StormStorage.Operations
import StormStorage.Proof.Backups
import StormStorage.Proof.Volumes.Change

/-!
# A rule for records holds in every run

The programs of every operation, walked once: each step that writes a record
writes a fresh one or changes one that is there, so what a `Rule` says of
single records holds of all of them (`records_keep`).
-/

namespace StormStorage

open Await Task Orchestrate System

/-- What every record satisfies. -/
def AllRecords (I : DistVolume → Prop) (m : KeyMap DistVolume) : Prop := ∀ (n : String) v, m[n]? = some v → I v

/-- No replacement takes a leg that it may not. -/
def Swaps (A : DistVolume → String → Prop) (log : List Event) : Prop := ∀ v node, .swapped v node ∈ log → A v node

namespace AllRecords

variable {I : DistVolume → Prop} {m : KeyMap DistVolume} {n : String} {v : DistVolume}

theorem insert (h : AllRecords I m) (hv : I v) : AllRecords I (m.insert n v) := by
  intro a x hx
  rw [KeyMap.get_insert] at hx
  split at hx
  · exact Option.some.inj hx ▸ hv
  · exact h a x hx

theorem erase (h : AllRecords I m) : AllRecords I (m.erase n) := by
  intro a x hx
  rw [KeyMap.get_erase] at hx
  split at hx
  · cases hx
  · exact h a x hx

theorem modify (fed : FedState) {f : DistVolume → DistVolume} (h : AllRecords I fed.volumes)
    (hf : ∀ v, I v → I (f v)) : AllRecords I (fed.modifyVolume n f).volumes := by
  unfold FedState.modifyVolume
  split
  · exact h
  · exact h.insert (hf _ (h _ _ ‹_›))

theorem map {f : DistVolume → DistVolume} (h : AllRecords I m) (hf : ∀ v, I v → I (f v)) :
    AllRecords I (m.map fun _ v => f v) := by
  intro a x hx
  rw [Std.ExtTreeMap.getElem?_map] at hx
  obtain ⟨v, hv, rfl⟩ := Option.map_eq_some_iff.mp hx
  exact hf v (h a v hv)

end AllRecords

/-- The program keeps `I` of every record, where replacements take the legs they may. -/
abbrev RecordsKept (A : DistVolume → String → Prop) (I : DistVolume → Prop) {α : Type} (t : Async α)
    (Q : α → Prop := fun _ => True) : Prop :=
  t.Keeps (fun w => AllRecords I w.fed.volumes) (fun _ w' => Swaps A w'.log) Q

section

variable {A : DistVolume → String → Prop} {I : DistVolume → Prop} (hr : Rule A I) {α : Type}

theorem kept_remote {t : Async α} (ht : t.Only Remote) : RecordsKept A I t :=
  Keeps.of_remote (fun w w' h hi => by rw [h.fed]; exact hi) ht

theorem kept_answers {t : Async α} {Q : α → Prop} (ht : t.Only Remote) (hq : t.Answers Q) : RecordsKept A I t Q :=
  Keeps.of_answers (fun w w' hi h => by rw [h.fed]; exact hi) ht hq

theorem kept_backed {t : Async α} (ht : t.Only Backed) : RecordsKept A I t :=
  Keeps.of_only (fun w w' hi h => by rw [h.volumes]; exact hi) ht

theorem kept_release {name : String} : RecordsKept A I (release name) := keeps_modify fun _ hi _ => hi

theorem kept_letGo {name : String} : RecordsKept A I (letGo name) := keeps_modify fun _ hi _ => hi

theorem kept_claim {me : Nat} {name : String} : RecordsKept A I (claim me name) := by
  refine keeps_atomic fun i w hi _ => ⟨?_, trivial⟩
  split <;> exact hi

theorem kept_spawn {s : Spawn} : RecordsKept A I (spawn s) := keeps_modify fun _ hi _ => hi

theorem kept_spawnedBy {me : Nat} {s : Spawn} {name : String} : RecordsKept A I (spawnedBy me s name) :=
  keeps_await fun _ _ hi _ => ⟨hi, trivial⟩

theorem kept_ended {me : Nat} : RecordsKept A I (ended me) := keeps_modify fun _ hi _ => hi

theorem kept_tracked {me : Nat} {t : Async α} (ht : RecordsKept A I t) : RecordsKept A I (tracked me t) :=
  Keeps.ignore ht fun _ => kept_ended

theorem kept_ofExcept {x : Except Fault α} : RecordsKept A I (.ofExcept x) := keeps_ofExcept fun _ _ => trivial

/-- A copy of a record that is there, or of what a check makes of it. -/
theorem kept_takeCopy {name : String} {check : FedState → Except Fault α} {vol : α → DistVolume}
    {onto : α → Option String} {Q : α → Prop} (h : ∀ fed a, AllRecords I fed.volumes → check fed = .ok a → Q a) :
    RecordsKept A I (takeCopy name check vol onto) Q := by
  refine Keeps.bind (Q := fun x => ∀ a, x = .ok a → Q a) ?_ fun x hx => keeps_ofExcept hx
  refine keeps_atomic fun i w hi _ => ?_
  split
  · exact ⟨hi, fun a ha => h _ a hi (Except.ok.inj ha ▸ ‹_›)⟩
  · exact ⟨hi, fun a ha => nomatch ha⟩

theorem kept_enter {check : FedState → Except Fault α} {what : α → Undertaking} {Q : α → Prop}
    (h : ∀ fed a, AllRecords I fed.volumes → check fed = .ok a → Q a) :
    RecordsKept A I (enter check what) Q := by
  refine Keeps.bind (Q := fun x => ∀ a, x = .ok a → Q a) ?_ fun x hx => keeps_ofExcept hx
  refine keeps_atomic fun i w hi _ => ?_
  split
  · exact ⟨hi, fun a ha => h _ a hi (Except.ok.inj ha ▸ ‹_›)⟩
  · exact ⟨hi, fun a ha => nomatch ha⟩

theorem kept_underClaim {me : Nat} {name : String} {busy : Fault} {t : Async α} (ht : RecordsKept A I t) :
    RecordsKept A I (underClaim me name busy t) := by
  refine kept_claim.bind fun mine _ => ?_
  split
  · exact Keeps.ignore ht fun r => kept_letGo.bind fun _ _ => kept_ofExcept
  · trivial

/-- A change of a record where it stands. -/
theorem kept_modify {name : String} {f : DistVolume → DistVolume} (hf : ∀ v, I v → I (f v)) :
    RecordsKept A I (.modify fun w => w.revise (·.modifyVolume name f)) :=
  keeps_modify fun w hi _ => AllRecords.modify w.fed hi hf

theorem kept_modify_setFed {name : String} {f : DistVolume → DistVolume} (hf : ∀ v, I v → I (f v)) :
    RecordsKept A I (.modify (·.setFed (·.modifyVolume name f))) :=
  keeps_modify fun w hi _ => AllRecords.modify w.fed hi hf

include hr

/-- An edit that leaves legs, assembly, head and replacement alone. -/
theorem Rule.same {v v' : DistVolume} (hv : I v) (legs : SameLegs v.legs v'.legs) (assembly : v'.assembly = v.assembly)
    (head : v'.head = v.head) (replacing : v'.replacing = v.replacing) : I v' :=
  hr.change v v' hv (.same legs assembly head (.inl replacing))

/-! ## Serving -/

omit hr in
theorem sameLegs_exportLeg (legs : List Leg) (c : AttachedLeg) : SameLegs legs (exportLeg legs c) := by
  cases legs <;> rfl

theorem Rule.record {s : Served} {name : String} {vol : DistVolume} {place : ServeAt} {now : SystemTime}
    {v : DistVolume} (hv : I v) : I (s.record name vol place now v) := by
  refine hr.same hv ?_ rfl rfl rfl
  unfold Served.record
  dsimp only
  split
  · split
    · exact sameLegs_exportLeg _ _
    · exact .refl _
  · exact .refl _

theorem kept_publish {me : Nat} {name : String} : RecordsKept A I (publish me name) := by
  have hbegin : RecordsKept A I (beginPublish me name) := by
    refine Keeps.bind (Q := fun _ => True) ?_ fun x _ => kept_ofExcept
    refine keeps_atomic fun i w hi _ => ⟨?_, trivial⟩
    split
    · exact hi
    · exact hi
  have hunreachable : ∀ node, RecordsKept A I (unreachable me name node) := by
    intro node
    refine Keeps.bind (Q := fun _ => True) (keeps_modify fun w hi _ => ?_) fun _ _ => trivial
    dsimp only
    split
    · exact AllRecords.modify w.fed hi fun v hv => hr.same hv (.refl _) rfl rfl rfl
    · exact hi
  have hrecord : ∀ vol place s, RecordsKept A I (recordPublish me name vol place s) := by
    intro vol place s
    refine Keeps.bind (Q := fun _ => True) ?_ fun x _ => kept_ofExcept
    refine keeps_atomic fun i w hi _ => ⟨?_, trivial⟩
    dsimp only
    split
    · exact hi
    · rename_i v hv
      exact AllRecords.insert hi (hr.record (hi _ _ hv))
  refine hbegin.bind fun r _ => ?_
  obtain ⟨vol, place, up⟩ := r
  cases up with
  | false => exact hunreachable _
  | true =>
    exact (kept_remote remote_serveShared).bind fun s _ => (kept_remote remote_serveHosts).bind fun s _ => hrecord _ _ _

theorem kept_publishAll {me : Nat} {names : List String} : RecordsKept A I (publishAll me names) :=
  Keeps.forEach fun _ _ => Keeps.ignore (kept_publish hr) fun _ => trivial

theorem kept_publishClonesOf {me : Nat} {parent : String} : RecordsKept A I (publishClonesOf me parent) :=
  (kept_remote (remote_get _)).bind fun _ _ => kept_publishAll hr

theorem kept_recreateExport {me : Nat} {name : String} : RecordsKept A I (recreateExport me name) := by
  refine Keeps.bind (Q := fun _ => True) (keeps_atomic fun i w hi _ => ⟨?_, trivial⟩) fun x _ => ?_
  · split
    · rename_i v hv
      refine AllRecords.insert hi ?_
      obtain ⟨v₀, hv₀, hv⟩ := check_bind.mp hv
      have hi₀ := hi _ _ (findVolume_eq.mp hv₀)
      unfold forgetServed at hv
      split at hv
      · cases hv
      · split at hv
        · cases hv
        · exact Except.ok.inj hv ▸ hr.same hi₀ (.refl _) rfl rfl rfl
    · exact hi
  · refine kept_ofExcept.bind fun _ _ => (kept_publish hr).bind fun _ _ => ?_
    refine Keeps.bind (Q := fun _ => True) (keeps_atomic fun i w hi _ => ⟨?_, trivial⟩) fun x _ => kept_ofExcept
    split
    · exact hi
    · rename_i v hv
      exact AllRecords.insert hi (hr.same (hi _ _ hv) (.refl _) rfl rfl rfl)

theorem kept_serveHost {me : Nat} {name host : String} {dhchap : Bool} :
    RecordsKept A I (serveHost me name host dhchap) := by
  unfold serveHost
  split
  · trivial
  · refine Keeps.bind (Q := fun _ => True) (keeps_atomic fun i w hi _ => ⟨?_, trivial⟩) fun x _ => ?_
    · split
      · rename_i v hv
        exact AllRecords.insert hi (hr.same (hi _ _ (findVolume_eq.mp hv)) (.refl _) rfl rfl rfl)
      · exact hi
    · refine kept_ofExcept.bind fun _ _ => (kept_publish hr).attempt_bind (fun ex _ => ?_) fun e => ?_
      · dsimp only
        split <;> trivial
      · refine (kept_remote (remote_get _)).bind fun why _ => ?_
        split <;> trivial

theorem kept_withdrawHost {name host : String} : RecordsKept A I (withdrawHost name host) := by
  have hdrop : RecordsKept A I (dropHost name host) := by
    refine Keeps.bind (Q := fun _ => True) (keeps_atomic fun i w hi _ => ⟨?_, trivial⟩) fun x _ => kept_ofExcept
    split
    · exact hi
    · rename_i v hv
      exact AllRecords.insert hi (hr.same (hi _ _ (findVolume_eq.mp hv)) (.refl _) rfl rfl rfl)
  refine hdrop.bind fun p _ => ?_
  cases p with
  | none => trivial
  | some p =>
    refine (kept_remote remote_withdrawOnEngine).attempt_bind (fun _ _ => trivial) fun e => ?_
    refine (kept_modify fun v hv => ?_).bind fun _ _ => trivial
    split
    · exact hv
    · exact hr.same hv (.refl _) rfl rfl rfl

theorem kept_withdrawPendingOn {node : String} : RecordsKept A I (withdrawPendingOn node) := by
  refine (kept_remote (remote_get _)).bind fun due _ => Keeps.forEach fun p _ => ?_
  refine (kept_remote remote_withdrawOnEngine).attempt_bind (fun _ _ => ?_) fun e => trivial
  exact kept_modify fun v hv => hr.same hv (.refl _) rfl rfl rfl

theorem kept_republishOn {me : Nat} {node : String} : RecordsKept A I (republishOn me node) :=
  (kept_withdrawPendingOn hr).bind fun _ _ => (kept_remote (remote_get _)).bind fun _ _ => kept_publishAll hr

theorem kept_revoke {vol : DistVolume} : RecordsKept A I (revoke vol) := by
  have hset : ∀ st m, RecordsKept A I (setExportState vol.name st m) := by
    intro st m
    refine keeps_modify fun w hi _ => ?_
    split
    · exact AllRecords.modify w.fed hi fun v hv => hr.same hv (.refl _) rfl rfl rfl
    · exact hi
  unfold revoke
  split
  · split
    · trivial
    · refine (kept_remote remote_healthy).bind fun up _ => ?_
      split
      · refine (hset _ _).bind fun _ _ => ?_
        refine (kept_remote (only_withContext remote_deleteServed)).attempt_bind (fun _ _ => trivial) fun e => ?_
        exact (hset _ _).bind fun _ _ => trivial
      · trivial
  · trivial

/-! ## Assembling -/

omit hr in
theorem assembleReady_ok {name : String} {fed : FedState} {vol : DistVolume} (h : assembleReady name fed = .ok vol) :
    fed.volumes[name]? = some vol ∧ 2 ≤ vol.legs.length ∧ ∀ l ∈ vol.legs, l.state = .created := by
  obtain ⟨v, hv, h⟩ := check_bind.mp h
  split at h
  · cases h
  · split at h
    · cases h
    · rename_i hlen hcreated
      obtain ⟨-, -, h⟩ := check_bind.mp h
      obtain rfl := Except.ok.inj h
      refine ⟨findVolume_eq.mp hv, by omega, fun l hl => ?_⟩
      by_contra hs
      exact hcreated (List.any_eq_true.mpr ⟨l, hl, by simp [hs]⟩)

/-- The copy that an assembly writes back. -/
theorem Rule.assembled {vol vol' : DistVolume} (hv : I vol) (hn : 2 ≤ vol.legs.length)
    (hc : ∀ l ∈ vol.legs, l.state = .created) (h : AssembledFrom ((vol.legs.head?.map (·.node)).getD "") vol vol') :
    I vol' := by
  obtain ⟨legs, hlegs, rfl | ⟨array, rfl⟩⟩ := h
  · exact hr.same hv hlegs rfl rfl rfl
  · cases hl : vol.legs with
    | nil => simp [hl] at hn
    | cons l ls =>
      exact hr.change vol _ hv (.assembled (l := l) (by simp [hl]) hc hlegs rfl rfl rfl)

omit hr in
theorem kept_writeBack {name : String} {vol : DistVolume} {w : AppState} (hi : AllRecords I w.fed.volumes)
    (hv : I vol) : AllRecords I (w.writeBack name vol).fed.volumes := by
  unfold AppState.writeBack
  dsimp only
  split <;> exact AllRecords.insert hi hv

theorem kept_assembleClaimed {cfg : Config} {name : String} : RecordsKept A I (assembleClaimed cfg name) := by
  refine (kept_takeCopy (Q := fun vol => I vol ∧ 2 ≤ vol.legs.length ∧ ∀ l ∈ vol.legs, l.state = .created)
    fun fed vol hi h => ?_).bind fun vol hvol => ?_
  · obtain ⟨hv, hn, hc⟩ := assembleReady_ok h
    exact ⟨hi _ _ hv, hn, hc⟩
  · refine (kept_answers remote_assembleInner answers_assembleInner).bind fun r hq => ?_
    have hvol' := hr.assembled hvol.1 hvol.2.1 hvol.2.2 hq
    refine Keeps.bind (Q := fun _ => True) (keeps_atomic fun i w hi _ => ⟨?_, trivial⟩) fun _ _ => ?_
    · have hback : ∀ x, AllRecords I (w.writeBack name { r.1 with nextAssembleAfter := x }).fed.volumes :=
        fun x => kept_writeBack hi (hr.same hvol' (.refl _) rfl rfl rfl)
      dsimp only
      split <;> exact hback _
    · split <;> trivial

theorem kept_assemble {cfg : Config} {me : Nat} {name : String} : RecordsKept A I (assemble cfg me name) :=
  kept_underClaim (kept_assembleClaimed hr)

theorem kept_assembleVolume {cfg : Config} {me : Nat} {name : String} :
    RecordsKept A I (assembleVolume cfg me name) := by
  refine (kept_remote (remote_get _)).bind fun x _ => kept_ofExcept.bind fun vol _ => ?_
  split
  · trivial
  · split
    · trivial
    · exact (kept_assemble hr).bind fun _ _ => Keeps.ignore (kept_publish hr) fun _ => trivial

theorem kept_retryAssembly {cfg : Config} {me : Nat} {name : String} :
    RecordsKept A I (retryAssembly cfg me name) := by
  refine kept_spawnedBy.bind fun _ _ => Keeps.ignore (kept_assembleClaimed hr) fun r => ?_
  refine kept_letGo.bind fun _ _ => ?_
  split
  · exact Keeps.ignore (kept_publish hr) fun _ => trivial
  · trivial

/-! ## Replacing -/

theorem kept_startReplacement {cfg : Config} {me : Nat} {name «from» reason : String} {«to» : Option String} :
    RecordsKept A I (startReplacement cfg me name «from» «to» reason) := by
  have hrecord : ∀ leg : Leg, leg.state = .created → RecordsKept A I (recordReplacement me name «from» leg reason) := by
    intro leg hleg
    refine keeps_atomic fun i w hi _ => ⟨?_, trivial⟩
    split
    · exact hi
    · rename_i v hv
      exact AllRecords.insert hi (hr.change _ _ (hi _ _ hv) (.replacing hleg))
  have hbuild : RecordsKept A I (buildReplacement cfg me name «from» «to» reason) := by
    refine Keeps.bind (Q := fun _ => True) ?_ fun p _ => ?_
    · refine Keeps.bind (Q := fun _ => True) (keeps_atomic fun i w hi _ => ⟨?_, trivial⟩) fun x _ => kept_ofExcept
      split
      · split <;> exact hi
      · exact hi
    · split
      · trivial
      · refine (kept_answers remote_makeLeg answers_makeLeg).bind fun leg hleg => ?_
        obtain ⟨id, master, hleg⟩ := hleg
        refine (kept_answers remote_wireLeg answers_wireLeg).bind fun r hq => ?_
        split
        · exact (kept_remote remote_undoLeg).bind fun _ _ => trivial
        · refine (hrecord _ (congrArg (fun f => f.2.2.2) (hq.trans hleg))).bind fun ok _ => ?_
          split
          · trivial
          · exact (kept_remote remote_undoLeg).bind fun _ _ => trivial
  refine kept_claim.bind fun mine _ => ?_
  split
  · refine hbuild.attempt_bind (fun target _ => ?_) fun e => ?_
    · exact kept_spawn.bind fun _ _ => trivial
    · exact kept_letGo.bind fun _ _ => trivial
  · trivial

omit hr in
/-- What is finished is the recorded replacement. -/
theorem finishReady_eq {name : String} {fed : FedState} {rep : Replacement} (h : finishReady name fed = some rep) :
    ∃ v, fed.volumes[name]? = some v ∧ v.replacing = some rep := by
  obtain ⟨v, hv, h⟩ := Option.bind_eq_some_iff.mp h
  obtain ⟨rep', hrep, h⟩ := Option.bind_eq_some_iff.mp h
  obtain ⟨_, -, h⟩ := Option.bind_eq_some_iff.mp h
  obtain ⟨_, -, h⟩ := Option.bind_eq_some_iff.mp h
  split at h
  · exact ⟨v, hv, Option.some.inj h ▸ hrep⟩
  · cases h

theorem kept_finishReplacement {cfg : Config} {me : Nat} {name : String} :
    RecordsKept A I (finishReplacement cfg me name) := by
  have hready : ∀ w : AppState, AllRecords I w.fed.volumes → ∀ rep, finishReady name w.fed = some rep →
      rep.leg.state = .created := by
    intro w hi rep h
    obtain ⟨vol, hvol, hrep⟩ := finishReady_eq h
    exact hr.coming vol rep (hi _ _ hvol) hrep
  have hswap : ∀ (rep : Replacement) orphan, rep.leg.state = .created →
      RecordsKept A I (recordSwap name rep orphan) := by
    intro rep orphan hrep
    refine keeps_modify fun w hi hok => ?_
    dsimp only at hok ⊢
    show AllRecords I (FedState.modifyVolume _ name (swapLeg rep)).volumes
    unfold FedState.modifyVolume
    split at hok
    · rename_i v hv
      have hlog : A v rep.from := hok v rep.from (List.mem_append_right _ (List.mem_singleton_self _))
      dsimp only [AppState.note]
      rw [hv]
      exact AllRecords.insert hi (hr.change _ _ (hi _ _ hv) (.swapped hrep hlog))
    · rename_i hv
      dsimp only
      rw [hv]
      exact hi
  have hgiveUp : ∀ owner rep, RecordsKept A I (giveUp cfg owner name rep) := by
    intro owner rep
    refine (kept_remote remote_undoLeg).bind fun _ _ => keeps_atomic fun i w hi _ => ⟨?_, trivial⟩
    exact AllRecords.modify w.fed hi fun v hv => hr.change _ _ hv (.same (.refl _) rfl rfl (.inr rfl))
  refine kept_spawnedBy.bind fun _ _ => Keeps.ignore (Q := fun _ => True) ?_ fun _ => kept_letGo
  refine (keeps_get (Q := fun x => ∀ rep owner, x = some (rep, owner) → rep.leg.state = .created) ?_).bind
    fun begun hbegun => ?_
  · intro w hi rep owner h
    obtain ⟨rep', hrep, he⟩ := Option.map_eq_some_iff.mp h
    exact (Prod.mk.inj he).1 ▸ hready w hi rep' hrep
  · split
    · trivial
    · rename_i rep owner
      refine (kept_remote (remote_ask _)).bind fun done _ => ?_
      split
      · exact (kept_remote remote_retireOld).bind fun orphan _ => hswap rep orphan (hbegun rep owner rfl)
      · exact hgiveUp owner rep

/-! ## Recovery -/

omit hr in
theorem kept_resume {me : Nat} {s : Spawn} {name : String} : RecordsKept A I (Orchestrate.resume me s name) := by
  refine kept_claim.bind fun mine _ => ?_
  split
  · exact kept_spawn
  · trivial

theorem kept_recover {cfg : Config} {me : Nat} {enabled : Bool} : RecordsKept A I (recover cfg me enabled) := by
  refine Keeps.bind (Q := fun _ => True) (keeps_atomic fun i w hi _ => ⟨?_, trivial⟩) fun p _ => ?_
  · exact AllRecords.map hi fun v hv => hr.change _ _ hv (.lost v w.fed)
  · refine (Keeps.forEach fun name _ => kept_resume).bind fun _ _ => ?_
    refine (Keeps.forEach fun x _ => ?_).bind fun _ _ => Keeps.forEach fun name _ => kept_resume
    refine (kept_startReplacement hr).attempt_bind (fun _ _ => trivial) fun e => ?_
    exact kept_modify_setFed fun v hv => hr.same hv (.refl _) rfl rfl rfl

theorem kept_rejoinHeads : RecordsKept A I rejoinHeads := by
  refine (kept_remote (remote_get _)).bind fun due _ => Keeps.forEach fun x _ => ?_
  refine (kept_remote (remote_inquire _)).attempt_bind (fun found _ => ?_) fun e => trivial
  refine keeps_modify fun w hi _ => ?_
  dsimp only
  split
  · exact hi
  · rename_i v changed h
    obtain ⟨v₀, hv₀, h⟩ := Option.bind_eq_some_iff.mp h
    have hv := hr.change _ _ (hi _ _ hv₀) (.rejoined h)
    split <;> exact AllRecords.insert hi hv

omit hr in
theorem kept_reapOrphans : RecordsKept A I reapOrphans := by
  refine (kept_remote (remote_get _)).bind fun due _ => Keeps.forEach fun o _ => ?_
  refine Keeps.ignore (kept_remote Engine.remote_act) fun _ => ?_
  exact (kept_remote Engine.remote_deleteVolume).attempt_bind (fun _ _ => keeps_modify fun _ hi _ => hi) fun e => trivial

/-! ## The head -/

omit hr in
theorem applyFence_ok {vol vol' : DistVolume} {expected : Nat} (h : Head.applyFence vol expected = .ok vol') :
    vol' = { vol with epoch := vol.epoch + 1, fenced := true } := by
  unfold Head.applyFence at h
  split at h
  · cases h
  · split at h
    · cases h
    · exact (Except.ok.inj h).symm

omit hr in
theorem sameLegs_onLeg (node : String) (f : Leg → Leg) (hf : ∀ l, (f l).face = l.face) (legs : List Leg) :
    SameLegs legs (Head.onLeg node f legs) := by
  induction legs with
  | nil => exact .refl []
  | cons l ls ih =>
    unfold Head.onLeg
    split
    · exact SameLegs.cons (hf l) (.refl ls)
    · exact SameLegs.cons rfl ih

omit hr in
theorem sameLegs_withEpochs (legs : List Leg) (epochs : List (String × Nat)) :
    SameLegs legs (Head.withEpochs legs epochs) := by
  unfold Head.withEpochs
  induction epochs generalizing legs with
  | nil => exact .refl legs
  | cons e es ih =>
    rw [List.foldl_cons]
    exact (sameLegs_onLeg e.1 (fun l => { l with epoch := some e.2 }) (fun _ => rfl) legs).trans (ih _)

theorem kept_fence {name : String} {expected : Nat} : RecordsKept A I (Head.fence name expected) := by
  refine Keeps.bind (Q := fun _ => True) ?_ fun r _ => ?_
  · refine Keeps.bind (Q := fun _ => True) (keeps_atomic fun i w hi _ => ⟨?_, trivial⟩) fun x _ => kept_ofExcept
    split
    · rename_i vol h
      obtain ⟨v, hv, h⟩ := check_bind.mp h
      obtain rfl := applyFence_ok h
      exact AllRecords.insert hi (hr.same (hi _ _ (volumeIn_eq.mp hv)) (.refl _) rfl rfl rfl)
    · exact hi
  · refine (kept_remote (Head.remote_fenceEach _)).bind fun r' _ => ?_
    refine (kept_modify (f := Head.recordLegEpochs r'.1) fun v hv => ?_).bind fun _ _ => trivial
    exact hr.same hv (sameLegs_withEpochs _ _) rfl rfl rfl

omit hr in
theorem checkPromote_ok {vol : DistVolume} {target : String} {epoch : Nat} {up : Bool} {old : Option String}
    (h : Head.checkPromote vol target epoch up = .ok old) : ∃ l ∈ vol.legs, l.node = target := by
  unfold Head.checkPromote at h
  iterate 4
    split at h
    · cases h
  split at h
  · cases h
  · rename_i leg hleg
    exact ⟨leg, List.mem_of_find?_eq_some hleg, by simpa using List.find?_some hleg⟩

omit hr in
theorem promotable_ok {name target : String} {epoch : Nat} {fed : FedState} {p : Head.Promotable}
    (h : Head.promotable name target epoch fed = .ok p) :
    fed.volumes[name]? = some p.vol ∧ ∃ l ∈ p.vol.legs, l.node = target := by
  obtain ⟨v, hv, h⟩ := check_bind.mp h
  obtain ⟨old, hold, h⟩ := check_bind.mp h
  obtain rfl := Except.ok.inj h
  exact ⟨volumeIn_eq.mp hv, checkPromote_ok hold⟩

omit hr in
theorem SameLegs.has {legs legs' : List Leg} (h : SameLegs legs legs') {node : String}
    (hl : ∃ l ∈ legs, l.node = node) : ∃ l ∈ legs', l.node = node := by
  have hm : node ∈ legs.map (·.node) := List.mem_map.mpr hl
  rw [← h.nodes] at hm
  exact List.mem_map.mp hm

omit hr in
theorem kept_store {presented : Nat} {vol : DistVolume} (hv : I vol) : RecordsKept A I (Head.store presented vol) :=
  keeps_modify fun w hi _ => kept_writeBack (w := w.note _) hi hv

omit hr in
theorem kept_storeBack {read : Option EngineArray} {served : Option String} {vol : DistVolume} (hv : I vol) :
    RecordsKept A I (Head.storeBack read served vol) :=
  keeps_modify fun w hi _ => kept_writeBack (w := Head.noteBack w _ _ _) hi hv

theorem Rule.relabelled {v v' : DistVolume} (hv : I v) (h : RelabelledFrom v v') : I v' := by
  obtain ⟨legs, hlegs, rfl⟩ := h
  exact hr.same hv hlegs rfl rfl rfl

theorem kept_promote {cfg : Config} {me : Nat} {name target : String} {epoch : Nat} :
    RecordsKept A I (Head.promote cfg me name target epoch) := by
  refine kept_underClaim ?_
  refine (kept_takeCopy (Q := fun p => I p.vol ∧ ∃ l ∈ p.vol.legs, l.node = target) fun fed p hi h => ?_).bind
    fun p hp => ?_
  · obtain ⟨hv, hl⟩ := promotable_ok h
    exact ⟨hi _ _ hv, hl⟩
  · split
    · trivial
    · split
      · refine (kept_answers (Head.remote_reattachLegs _) (answers_reattachLegs _)).bind fun legs hlegs => ?_
        exact kept_store (hr.same hp.1 hlegs rfl rfl rfl)
      · split
        · trivial
        · refine (kept_answers Head.remote_assembleOn answers_assembleOn).bind fun r hq => ?_
          have hv := hr.relabelled hp.1 hq
          obtain ⟨legs, hlegs, he⟩ := hq
          obtain ⟨l, hl, hn⟩ := hlegs.has hp.2
          refine Keeps.bind (Q := fun _ => True) (keeps_atomic fun i w hi _ => ⟨?_, trivial⟩) fun _ _ => ?_
          · exact kept_writeBack (w := (w.note _).revise _) hi
              (hr.change _ _ hv (.promoted _ _ (by rw [he]; exact hl) hn))
          · unfold Head.servePromoted
            split
            · exact Keeps.ignore (kept_publish hr) fun _ => kept_publishClonesOf hr
            · exact keeps_modify fun w hi _ => AllRecords.modify w.fed hi fun v hv => hr.same hv (.refl _) rfl rfl rfl

omit hr in
theorem reassemblable_ok {name : String} {fed : FedState} {p : Head.Reassemblable}
    (h : Head.reassemblable name fed = .ok p) : fed.volumes[name]? = some p.vol ∧ p.vol.head = some p.head := by
  obtain ⟨v, hv, h⟩ := check_bind.mp h
  split at h
  · cases h
  · split at h
    · cases h
    · split at h
      · cases h
      · split at h
        · cases h
        · obtain rfl := Except.ok.inj h
          exact ⟨volumeIn_eq.mp hv, ‹_›⟩

theorem kept_reassemble {cfg : Config} {me : Nat} {name : String} :
    RecordsKept A I (Head.reassemble cfg me name) := by
  refine (kept_takeCopy (Q := fun p => I p.vol ∧ p.vol.head = some p.head) fun fed p hi h => ?_).bind fun p hp => ?_
  · obtain ⟨hv, hh⟩ := reassemblable_ok h
    exact ⟨hi _ _ hv, hh⟩
  · split
    · trivial
    · rename_i array _
      refine (kept_remote (remote_inquire _)).attempt_bind (fun found _ => ?_) fun e => trivial
      cases found with
      | some _ => trivial
      | none =>
        dsimp only [Head.putBack]
        split
        · trivial
        · refine (kept_answers Head.remote_assembleOn answers_assembleOn).bind fun r hq => ?_
          have hv := hr.relabelled hp.1 hq
          obtain ⟨legs, -, he⟩ := hq
          refine (kept_storeBack (hr.change _ _ hv (.reassembled _ _ _ (by rw [he]; exact hp.2)))).bind fun _ _ => ?_
          exact (kept_publishAll hr).bind fun _ _ => kept_publishClonesOf hr

theorem kept_reassembleHeads {cfg : Config} {me : Nat} : RecordsKept A I (Head.reassembleHeads cfg me) := by
  refine Keeps.bind (Q := fun _ => True) (keeps_atomic fun _ _ hi _ => ⟨hi, trivial⟩) fun due _ => ?_
  refine Keeps.forEach fun name _ => kept_claim.bind fun mine _ => ?_
  split
  · refine Keeps.ignore (kept_reassemble hr) fun r => kept_letGo.bind fun _ _ => ?_
    split
    · trivial
    · exact kept_modify_setFed fun v hv => hr.same hv (.refl _) rfl rfl rfl
  · trivial

theorem kept_prestage {cfg : Config} {me : Nat} {name : String} {node «from» : Option String}
    {c : Option BandwidthClass} : RecordsKept A I (Head.prestage cfg me name node «from» c) := by
  refine Keeps.bind (Q := fun _ => True) (keeps_atomic fun i w hi _ => ⟨?_, trivial⟩) fun x _ => ?_
  · split
    · exact AllRecords.modify w.fed hi fun v hv => hr.same hv (.refl _) rfl rfl rfl
    · exact hi
  · exact kept_ofExcept.bind fun _ _ => kept_startReplacement hr

theorem kept_rebalance {cfg : Config} {me : Nat} {active : Bool} :
    RecordsKept A I (Rebalance.run cfg me active) := by
  unfold Rebalance.run
  split
  · refine Keeps.bind (Q := fun _ => True) (keeps_atomic fun _ _ hi _ => ⟨hi, trivial⟩) fun r _ => ?_
    refine Keeps.forEach fun m _ => ?_
    refine (kept_startReplacement hr).attempt_bind (fun _ _ => trivial) fun e => ?_
    exact kept_modify_setFed fun v hv => hr.same hv (.refl _) rfl rfl rfl
  · trivial

/-! ## Heads between requests -/

theorem kept_applyRate {name : String} : RecordsKept A I (Head.applyRate name) := by
  have hset : ∀ p, RecordsKept A I (Head.setRatePending name p) :=
    fun p => kept_modify_setFed fun v hv => hr.same hv (.refl _) rfl rfl rfl
  refine (kept_remote (remote_get _)).bind fun x _ => ?_
  split
  · trivial
  · exact hset _
  · exact (kept_remote Head.remote_capHead).bind fun _ _ => hset _

theorem kept_setBandwidthClass {name : String} {c : BandwidthClass} :
    RecordsKept A I (Head.setBandwidthClass name c) := by
  refine Keeps.bind (Q := fun _ => True) (keeps_atomic fun i w hi _ => ⟨?_, trivial⟩) fun x _ => ?_
  · split
    · dsimp only
      split
      · exact hi
      · exact AllRecords.modify w.fed hi fun v hv => hr.same hv (.refl _) rfl rfl rfl
    · exact hi
  · exact kept_ofExcept.bind fun _ _ => kept_applyRate hr

theorem kept_retryPendingRates : RecordsKept A I Head.retryPendingRates :=
  (kept_remote (remote_get _)).bind fun _ _ => Keeps.forEach fun _ _ => kept_applyRate hr

omit hr in
theorem kept_reapStaleHeads : RecordsKept A I Head.reapStaleHeads := by
  refine (kept_remote (remote_get _)).bind fun due _ => Keeps.forEach fun s _ => Keeps.ignore (Q := fun _ => True) ?_
    fun _ => trivial
  refine (kept_remote (remote_inquire _)).bind fun arrays _ => ?_
  split
  · trivial
  · refine (kept_remote Head.remote_leftoverOn).bind fun leftover _ => ?_
    refine (Keeps.forEach fun _ _ => kept_remote (only_ignore Engine.remote_deleteDrive)).bind fun _ _ => ?_
    exact (Keeps.forEach fun _ _ => kept_remote Engine.remote_deleteVolume).bind fun _ _ => keeps_modify fun _ hi _ => hi

theorem kept_reheadLost {cfg : Config} {me : Nat} {active : Bool} : RecordsKept A I (Head.reheadLost cfg me active) := by
  unfold Head.reheadLost
  split
  · refine Keeps.bind (Q := fun _ => True) (keeps_atomic fun _ _ hi _ => ⟨hi, trivial⟩) fun r _ => ?_
    refine Keeps.forEach fun x _ => (kept_fence hr).attempt_bind (fun fenced _ => ?_) fun e => trivial
    refine (kept_promote hr).attempt_bind (fun _ _ => trivial) fun e => ?_
    exact kept_modify_setFed fun v hv => hr.same hv (.refl _) rfl rfl rfl
  · trivial

theorem kept_openWindow {cfg : Config} {name target : String} {ttl : Nat} :
    RecordsKept A I (Head.openWindow cfg name target ttl) := by
  refine Keeps.bind (Q := fun _ => True) (keeps_atomic fun i w hi _ => ⟨?_, trivial⟩) fun x _ => kept_ofExcept
  split
  · exact AllRecords.modify w.fed hi fun v hv => hr.same hv (.refl _) rfl rfl rfl
  · exact hi

theorem kept_closeWindow {cfg : Config} {me : Nat} {name : String} {epoch : Nat} {outcome : Head.Outcome} :
    RecordsKept A I (Head.closeWindow cfg me name epoch outcome) := by
  refine Keeps.bind (Q := fun _ => True) (keeps_atomic fun i w hi _ => ⟨?_, trivial⟩) fun x _ => ?_
  · split
    · exact AllRecords.modify w.fed hi fun v hv => hr.same hv (.refl _) rfl rfl rfl
    · exact hi
  · refine kept_ofExcept.bind fun target _ => ?_
    cases outcome with
    | abort => trivial
    | commit => exact (kept_fence hr).bind fun fenced _ => kept_promote hr

theorem kept_expireWindows : RecordsKept A I Head.expireWindows := by
  refine keeps_atomic fun i w hi _ => ⟨?_, trivial⟩
  dsimp only
  split
  · refine AllRecords.map hi fun v hv => ?_
    split
    · exact hr.same hv (.refl _) rfl rfl rfl
    · exact hv
  · exact hi

/-! ## Tier migration -/

theorem kept_migrate {cfg : Config} {name «to» : String} : RecordsKept A I (Migrate.start cfg name «to») := by
  refine Keeps.bind (Q := fun _ => True) (keeps_atomic fun i w hi _ => ⟨?_, trivial⟩) fun x _ => kept_ofExcept
  split
  · exact hi
  · exact AllRecords.modify w.fed hi fun v hv => hr.same hv (.refl _) rfl rfl rfl
  · exact hi

theorem kept_cancelMigration {name : String} : RecordsKept A I (Migrate.cancel name) := by
  refine Keeps.bind (Q := fun _ => True) (keeps_atomic fun i w hi _ => ⟨?_, trivial⟩) fun x _ => kept_ofExcept
  split
  · dsimp only
    split
    · exact AllRecords.modify w.fed hi fun v hv => hr.same hv (.refl _) rfl rfl rfl
    · exact hi
  · exact hi

theorem kept_migrations {cfg : Config} {me : Nat} {active : Bool} : RecordsKept A I (Migrate.run cfg me active) := by
  have hset : ∀ name st m, RecordsKept A I (Migrate.set name st m) :=
    fun _ _ _ => kept_modify fun v hv => hr.same hv (.refl _) rfl rfl rfl
  unfold Migrate.run
  split
  · refine Keeps.bind (Q := fun _ => True) (keeps_atomic fun _ _ hi _ => ⟨hi, trivial⟩) fun r _ => ?_
    refine Keeps.forEach fun d _ => ?_
    unfold Migrate.runOne
    split
    · refine Keeps.bind (Q := fun _ => True) ((kept_startReplacement hr).attempt.mono fun _ _ => trivial) fun x _ => ?_
      refine kept_modify fun v hv => ?_
      split <;> exact hr.same hv (.refl _) rfl rfl rfl
    · exact kept_modify fun v hv => hr.same hv (.refl _) rfl rfl rfl
    · split
      · trivial
      · exact hset _ _ _
    · split
      · trivial
      · exact hset _ _ _
  · trivial

/-! ## Expanding -/

theorem kept_expand {me : Nat} {name : String} {«to» : Nat} : RecordsKept A I (Expand.expand me name «to») := by
  have hrecord : ∀ f, RecordsKept A I (Expand.record name f) := by
    intro f
    refine keeps_modify fun w hi _ => ?_
    unfold Expand.modifyExpanding
    split
    · exact hi
    · rename_i v hv
      split
      · exact hi
      · exact AllRecords.insert hi (hr.same (hi _ _ hv) (.refl _) rfl rfl rfl)
  have hfinish : ∀ n, RecordsKept A I (Expand.finish name n) := by
    intro n
    refine Keeps.bind (Q := fun _ => True) (keeps_atomic fun i w hi _ => ⟨?_, trivial⟩) fun x _ => kept_ofExcept
    split
    · exact hi
    · rename_i v hv
      exact AllRecords.insert hi (hr.same (hi _ _ (volumeIn_eq.mp hv)) (.refl _) rfl rfl rfl)
  have hgrow : ∀ node array x, RecordsKept A I (Expand.growHead name node array x) := by
    intro node array x
    refine Keeps.bind (Q := fun _ => True) ?_ fun before _ => ?_
    · unfold Expand.bytesBefore
      split
      · trivial
      · exact (kept_remote (Expand.only_asUpstream Expand.remote_arrayBytes)).bind fun b _ =>
          (hrecord _).bind fun _ _ => trivial
    · refine (kept_remote Expand.remote_growAnswer).bind fun short _ => (hrecord _).bind fun _ _ => ?_
      split <;> trivial
  have hclaimed : RecordsKept A I (Expand.expandClaimed name «to») := by
    refine Keeps.bind (Q := fun _ => True) ?_ fun plan _ => ?_
    · refine Keeps.bind (Q := fun _ => True) (keeps_atomic fun i w hi _ => ⟨?_, trivial⟩) fun x _ => kept_ofExcept
      split
      · exact hi
      · exact hi
      · rename_i p hp
        obtain ⟨v, hv, he, -⟩ := Expand.plan_ok hp
        exact AllRecords.insert hi (he ▸ hr.same (hi _ _ hv) (.refl _) rfl rfl rfl)
    · split
      · trivial
      · split
        · trivial
        · split
          · trivial
          · refine (kept_remote Expand.remote_expandLegs).bind fun _ _ => ?_
            refine Keeps.bind (Q := fun _ => True) ?_ fun _ _ => ?_
            · unfold Expand.growHeads
              split
              · trivial
              · exact Keeps.forEach fun x _ => hgrow _ _ _
            · exact (Keeps.forEach fun s _ => kept_remote Expand.remote_growServed).bind fun _ _ => hfinish _
  refine kept_claim.bind fun mine _ => ?_
  split
  · refine Keeps.ignore hclaimed fun r => kept_release.bind fun _ _ => ?_
    split
    · trivial
    · exact (hrecord _).bind fun _ _ => trivial
  · trivial

/-! ## Creates and deletes -/

omit hr in
theorem kept_recordVolume {me : Nat} {name : String} {vol : SystemTime → DistVolume} (hv : ∀ t, I (vol t)) :
    RecordsKept A I (Api.recordVolume me name vol) :=
  keeps_atomic fun _ _ hi _ => ⟨AllRecords.insert hi (hv _), trivial⟩

theorem kept_createClone {me : Nat} {name : String} {size : Nat} {source : VolumeSource} {hosts : List HostServe} :
    RecordsKept A I (Api.createClone me name size source hosts) := by
  refine (kept_enter (Q := fun _ => True) fun _ _ _ _ => trivial).bind fun c _ => ?_
  refine Keeps.bind (Q := fun _ => True) ?_ fun _ _ => Keeps.ignore (kept_publish hr) fun _ => trivial
  refine (kept_remote Api.remote_healthyHome).bind fun _ _ => ?_
  split
  · trivial
  · refine (kept_remote (only_asUpstream (Engine.remote_createVolume fun _ => rfl))).bind fun r _ => ?_
    split
    · trivial
    · exact kept_recordVolume fun t => hr.fresh _ ⟨by simp [Api.cloneRecord], ⟨nofun, nofun⟩, rfl, rfl⟩

omit hr in
theorem kept_createSnapshot {me : Nat} {name volumeId : String} :
    RecordsKept A I (Api.createSnapshot me name volumeId) := by
  refine (kept_enter (Q := fun _ => True) fun _ _ _ _ => trivial).bind fun place _ => ?_
  split
  · refine (kept_remote Api.remote_healthyHome).bind fun _ _ => (kept_remote (remote_get _)).bind fun _ _ => ?_
    refine (kept_remote (only_asUpstream (Engine.remote_createVolume fun _ => rfl))).bind fun r _ => ?_
    exact (kept_remote (remote_ask _)).bind fun now _ => keeps_modify fun _ hi _ => hi
  · trivial

omit hr in
theorem kept_createGroup {me : Nat} {name : String} {volumeIds : List String} :
    RecordsKept A I (Api.createGroup me name volumeIds) := by
  unfold Api.createGroup
  split
  · trivial
  · split
    · trivial
    · refine (kept_enter (Q := fun _ => True) fun _ _ _ _ => trivial).bind fun ats _ => ?_
      split
      · unfold Api.takeGroup
        dsimp only
        split
        · trivial
        · refine (kept_remote Api.remote_healthyHome).bind fun _ _ => ?_
          refine (kept_remote (only_asUpstream (remote_inquire _))).bind fun r _ => ?_
          refine (kept_remote (remote_ask _)).bind fun now _ => (kept_remote (remote_get _)).bind fun sizes _ => ?_
          exact keeps_modify fun _ hi _ => hi
      · trivial

theorem kept_restore {cfg : Config} {me : Nat} {volume point name : String} :
    RecordsKept A I (Api.restore cfg me volume point name) := by
  refine (kept_enter (Q := fun _ => True) fun _ _ _ _ => trivial).bind fun c _ => ?_
  refine (kept_remote (only_asUpstream (Engine.remote_createVolume fun _ => rfl))).bind fun r _ => ?_
  split
  · trivial
  · refine (kept_recordVolume fun t => ?_).bind fun _ _ => Keeps.ignore (kept_publish hr) fun _ => trivial
    exact hr.fresh _ ⟨by simp [Api.restoredRecord], ⟨nofun, nofun⟩, rfl, rfl⟩

theorem kept_createVolume {cfg : Config} {me : Nat} {req : Api.CreateVolumeRequest} :
    RecordsKept A I (Api.createVolume cfg me req) := by
  refine kept_ofExcept.bind fun hosts _ => ?_
  split
  · exact kept_ofExcept.bind fun _ _ => kept_createClone hr
  · refine kept_ofExcept.bind fun _ _ => ?_
    refine (kept_enter (Q := fun _ => True) fun _ _ _ _ => trivial).bind fun _ _ => ?_
    refine (kept_remote (remote_get _)).bind fun x _ => kept_ofExcept.bind fun r _ => ?_
    refine (kept_answers (Api.remote_createLegs _) (answers_createLegs _)).bind fun made hmade => ?_
    split
    · exact (Keeps.forEach fun _ _ => kept_remote Api.remote_rollbackLeg).bind fun _ _ => trivial
    · refine (kept_recordVolume fun t => ?_).bind fun _ _ => ?_
      · refine hr.fresh _ ⟨hmade.1, ?_, rfl, rfl⟩
        unfold Api.legged
        dsimp only
        split <;> exact ⟨nofun, nofun⟩
      · have hwire : ∀ n, RecordsKept A I (Api.wire cfg me req.name n) := by
          intro n
          unfold Api.wire
          split
          · exact (kept_assemble hr).attempt.mono fun _ _ => trivial
          · trivial
        refine (hwire _).bind fun x _ => ?_
        split
        · exact Keeps.ignore (kept_publish hr) fun _ => trivial
        · trivial

theorem kept_deleteVolume {me : Nat} {name : String} : RecordsKept A I (Api.deleteVolume me name) := by
  refine (kept_enter (Q := fun _ => True) fun _ _ _ _ => trivial).bind fun vol _ => ?_
  refine (kept_backed Api.backed_onVolumeDelete).bind fun _ _ => ?_
  refine (kept_revoke hr).attempt_bind (fun _ _ => ?_) fun e => trivial
  refine (kept_remote remote_teardown).bind fun _ _ => (kept_remote (Api.remote_deleteLegs _)).bind fun r _ => ?_
  split
  · exact keeps_modify fun _ hi _ => AllRecords.erase hi
  · trivial

theorem kept_exportVolume {me : Nat} {name : String} {body : Api.ExportBody} :
    RecordsKept A I (Api.exportVolume me name body) := by
  have hask : ∀ add, RecordsKept A I (Api.askExport name add) := by
    intro add
    refine Keeps.bind (Q := fun _ => True) (keeps_atomic fun i w hi _ => ⟨?_, trivial⟩) fun x _ => kept_ofExcept
    split
    · exact AllRecords.modify w.fed hi fun v hv => hr.same hv (.refl _) rfl rfl rfl
    · exact hi
  refine kept_ofExcept.bind fun add _ => (hask add).bind fun _ _ => ?_
  refine Keeps.attempt_bind (Q := fun _ => True) ?_ (fun _ _ => trivial) fun e => trivial
  split
  · exact kept_recreateExport hr
  · exact kept_publish hr

omit hr in
theorem kept_deleteSnapshot {id : String} : RecordsKept A I (Api.deleteSnapshot id) := by
  refine (kept_remote (remote_get _)).bind fun x _ => kept_ofExcept.bind fun found _ => ?_
  split
  · trivial
  · exact (kept_remote Api.remote_deleteMade).bind fun _ _ => keeps_modify fun _ hi _ => hi

omit hr in
theorem kept_deleteGroup {id : String} : RecordsKept A I (Api.deleteGroup id) := by
  refine (kept_remote (remote_get _)).bind fun x _ => kept_ofExcept.bind fun found _ => ?_
  split
  · trivial
  · exact (Keeps.forEach fun _ _ => kept_remote Api.remote_deleteMade).bind fun _ _ => keeps_modify fun _ hi _ => hi

/-- Every operation's program. -/
theorem kept_program {cfg : Config} {me : Nat} (op : VolumeOp) : RecordsKept A I (program cfg me op) := by
  cases op with
  | create req => exact kept_tracked (kept_createVolume hr)
  | snapshot name volumeId => exact kept_tracked kept_createSnapshot
  | group name volumeIds => exact kept_tracked kept_createGroup
  | restore volume point name => exact kept_tracked (kept_restore hr)
  | policy name body => exact kept_backed Api.backed_putPolicy
  | backups => exact kept_backed Backups.backed_run
  | delete name => exact kept_tracked (kept_deleteVolume hr)
  | assemble name => exact kept_assembleVolume hr
  | retryAssembly name => exact kept_retryAssembly hr
  | publish name => exact (kept_publish hr).bind fun _ _ => trivial
  | recreateExport name => exact (kept_recreateExport hr).bind fun _ _ => trivial
  | serveHost name host dhchap => exact (kept_serveHost hr).bind fun _ _ => trivial
  | withdrawHost name host => exact (kept_withdrawHost hr).bind fun _ _ => trivial
  | republishOn node => exact kept_republishOn hr
  | move name «from» «to» => exact (kept_startReplacement hr).bind fun _ _ => trivial
  | prestage name node «from» c => exact (kept_prestage hr).bind fun _ _ => trivial
  | rebalance active => exact kept_rebalance hr
  | recover enabled => exact kept_recover hr
  | finish name => exact kept_finishReplacement hr
  | rejoinHeads => exact kept_rejoinHeads hr
  | reassembleHeads => exact kept_reassembleHeads hr
  | reapOrphans => exact kept_reapOrphans
  | fence name expected => exact (kept_fence hr).bind fun _ _ => trivial
  | promote name target epoch => exact kept_promote hr
  | «export» name body => exact (kept_exportVolume hr).bind fun _ _ => trivial
  | expand name «to» => exact kept_expand hr
  | deleteSnapshot id => exact kept_deleteSnapshot
  | deleteGroup id => exact kept_deleteGroup
  | stopBackup name purged => exact kept_backed Api.backed_stop
  | deletePoint volume point => exact kept_backed Api.backed_deletePoint
  | bandwidthClass name c => exact kept_setBandwidthClass hr
  | pendingRates => exact kept_retryPendingRates hr
  | openWindow name target ttl => exact (kept_openWindow hr).bind fun _ _ => trivial
  | closeWindow name epoch outcome => exact kept_closeWindow hr
  | expireWindows => exact kept_expireWindows hr
  | reapStaleHeads => exact kept_reapStaleHeads
  | rehead active => exact kept_reheadLost hr
  | migrate name «to» => exact kept_migrate hr
  | cancelMigration name => exact kept_cancelMigration hr
  | migrations active => exact kept_migrations hr

/-- A rule holds of every record in every state that a run reaches. -/
theorem Rule.everywhere {cfg : Config} {ops : VolumeOp → Prop} {w : AppState} {p : Pool Reply AppState Fault}
    (h : (operations cfg ops).Run (fun _ w' => Swaps A w'.log) ⟨w, []⟩ p) (hw : AllRecords I w.fed.volumes) :
    AllRecords I p.state.fed.volumes :=
  Run.keeps (fun _ (op : { op // ops op }) => kept_program hr op.1) (fun _ _ hi _ => hi) hw rfl h

end

end StormStorage
