import StormStorage.Proof.Steps.Heads
import StormStorage.Proof.Steps.Sites

/-!
# Backup nodes away from the legs

A volume's backup node is chosen where it holds no leg, and legs move on. It
keeps holding none so long as no leg comes to it.

* `Away.step`: what a step keeps;
* `backup_away`: every run.
-/

namespace StormStorage

open Await Task Orchestrate

/-- The node that a volume's backups go to. -/
def AppState.backupNode (w : AppState) (name : String) : Option String := (w.fed.backups[name]?).bind (·.node)

/-- A leg is on the node, or is coming to it. -/
def Core.occupies (c : Core) (node : String) : Prop := node ∈ c.sites.1 ∨ ∃ rep, c.sites.2 = some rep ∧ rep.leg.node = node

/-- The same of a volume's record, or of the copy of it that is held. -/
def Occupied (w : AppState) (name node : String) : Prop :=
  ∃ v : DistVolume, (w.fed.volumes[name]? = some v ∨ w.copies[name]? = some v) ∧ v.core.occupies node

/-- No leg comes to a volume's backup node, and none is chosen where one is. -/
structure Keeping (w w' : AppState) : Prop where
  /-- No record is made under a claimed name. -/
  claimed : ∀ c ∈ w'.creations, c.claimed = false
  made : ∀ (name : String) v, Made w w' name → w'.fed.volumes[name]? = some v → ∀ l ∈ v.legs,
    w.backupNode name ≠ some l.node
  replaced : ∀ (name : String) v v' rep, w.fed.volumes[name]? = some v → w'.fed.volumes[name]? = some v' →
    v'.replacing = some rep → v.replacing ≠ some rep → w.backupNode name ≠ some rep.leg.node
  picked : ∀ name node, w'.backupNode name = some node → w.backupNode name ≠ some node → ¬ Occupied w name node

/-- A delete of the volume is under way. -/
def Removing (w : AppState) (name : String) : Prop := ∃ t, (t, [name]) ∈ w.deletes

/-- Backup nodes hold no leg. -/
def Away (w : AppState) : Prop := ∀ name node, w.backupNode name = some node → ¬ Occupied w name node

section

variable {w w' : AppState} {name node : String}

theorem backupNode_seen (w : AppState) (name : String) : w.backupNode name = (w.seen.backups name).bind (·.node) := by
  show _ = ((w.fed.backups[name]?).map Backup.core).bind _
  rw [Option.bind_map]
  rfl

/-- A step leaves the backups, or changes one of them, which it ends only for a
delete that is under way. -/
theorem RecordStep.beside (h : RecordStep w w') :
    w'.seen.backups = w.seen.backups ∨ ∃ name b', w'.seen = w.seen.putBackup name b' ∧ ∀ b, b' = some b →
      b.deleted = true → (∃ b₀, w.seen.backups name = some b₀ ∧ b₀.deleted = true) ∨ Removing w name := by
  cases h with
  | policy _ _ hs => exact .inr ⟨_, _, hs, fun _ he hd => nomatch (Option.some.inj he ▸ hd)⟩
  | picked hb hs => exact .inr ⟨_, _, hs, fun _ he hd => .inl ⟨_, hb, by rwa [← Option.some.inj he] at hd⟩⟩
  | stopped hd _ hs => exact .inr ⟨_, _, hs, fun _ _ _ => .inr ⟨_, hd⟩⟩
  | purged hs => exact .inr ⟨_, _, hs, nofun⟩
  | unseen hs => exact .inl (by rw [hs])
  | lost hs => exact .inl (by rw [hs])
  | fenced _ hs => exact .inl (by rw [hs]; rfl)
  | replacing _ _ _ hs => exact .inl (by rw [hs]; rfl)
  | gaveUp _ hs => exact .inl (by rw [hs]; rfl)
  | swapped _ _ hs => exact .inl (by rw [hs]; rfl)
  | rejoined _ _ _ _ hs => exact .inl (by rw [hs]; rfl)
  | copied _ hs => exact .inl (by rw [hs])
  | letGo hs => exact .inl (by rw [hs])
  | assembled _ _ _ _ _ hs => exact .inl (by rw [hs]; rfl)
  | stayed _ _ _ _ hs => exact .inl (by rw [hs]; rfl)
  | promoted _ _ _ _ _ _ _ _ hs => exact .inl (by rw [hs]; rfl)
  | reassembled _ _ _ _ _ _ hs => exact .inl (by rw [hs]; rfl)
  | made _ _ hs => exact .inl (by rw [hs]; rfl)
  | dropped _ hs => exact .inl (by rw [hs]; rfl)
  | undertook hs => exact .inl (by rw [hs])
  | ended hs => exact .inl (by rw [hs])
  | reaped hs => exact .inl (by rw [hs])

theorem occupies_leg {v : DistVolume} (h : node ∈ v.legs.map (·.node)) : v.core.occupies node :=
  .inl (by rwa [sites_core])

theorem occupies_coming {v : DistVolume} {rep : Replacement} (h : v.replacing = some rep) :
    v.core.occupies rep.leg.node := .inr ⟨rep, by rwa [sites_core], rfl⟩

/-- Where the record's legs are after a step that leaves the backups. -/
theorem Away.record (h : Away w) (hk : Keeping w w') (hun : Unmade w name) (hb : w.backupNode name = some node) {v' : DistVolume}
    (hv' : w'.fed.volumes[name]? = some v') (hw : Whence w w' name v'.core.sites) : ¬ v'.core.occupies node := by
  intro hocc
  cases hw with
  | kept hc hs =>
    obtain ⟨v, hv, rfl⟩ := records_some hc
    exact h name node hb ⟨v, .inl hv, by rwa [Core.occupies, hs] at hocc⟩
  | back hc hs => exact h name node hb ⟨_, .inr hc, by rwa [Core.occupies, hs] at hocc⟩
  | @coming v rep hv _ hs =>
    rw [Core.occupies, hs] at hocc
    rcases hocc with hl | ⟨rep', he, hnode⟩
    · exact h name node hb ⟨v, .inl hv, occupies_leg hl⟩
    · obtain rfl := Option.some.inj he
      by_cases hold : v.replacing = some rep
      · exact h name node hb ⟨v, .inl hv, hnode ▸ occupies_coming hold⟩
      · have hrep : v'.replacing = some rep := (congrArg Prod.snd (sites_core v')).symm.trans (congrArg Prod.snd hs)
        exact hk.replaced name v v' rep hv hv' hrep hold (hnode ▸ hb)
  | @gaveUp v hv hs =>
    rw [Core.occupies, hs] at hocc
    rcases hocc with hl | ⟨_, he, -⟩
    · exact h name node hb ⟨v, .inl hv, occupies_leg hl⟩
    · cases he
  | @swapped v rep hv hrep hs =>
    rw [Core.occupies, hs] at hocc
    rcases hocc with hl | ⟨_, he, -⟩
    · obtain ⟨l, hm, rfl⟩ := List.mem_map.mp (show node ∈ (swapLeg rep v).legs.map (·.node) from hl)
      rcases mem_putLeg hm with rfl | hl
      · exact h name _ hb ⟨v, .inl hv, occupies_coming (hrep hun)⟩
      · exact h name _ hb ⟨v, .inl hv, occupies_leg (List.mem_map_of_mem hl)⟩
    · cases he
  | @made v _ hm hs =>
    have hlegs : v'.legs.map (·.node) = v.legs.map (·.node) :=
      (congrArg Prod.fst (sites_core v')).symm.trans (congrArg Prod.fst hs)
    rw [Core.occupies, hs] at hocc
    rcases hocc with hl | ⟨_, he, -⟩
    · change node ∈ v.legs.map (·.node) at hl
      rw [← hlegs] at hl
      obtain ⟨l, hl', rfl⟩ := List.mem_map.mp hl
      exact hk.made name v' hm hv' l hl' hb
    · cases he

/-- What a step keeps. -/
theorem Away.step (h : Away w) (hk : Keeping w w') (hun : ∀ name, Unmade w name) (hstep : RecordStep w w') : Away w' := by
  intro name node hb' ⟨v', hv', hocc⟩
  by_cases hb : w.backupNode name = some node
  · rcases hv' with hv' | hv'
    · exact h.record hk (hun name) hb hv' (hstep.sites (records_eq hv')) hocc
    · rcases hstep.copies hv' with hc | ⟨hv, -⟩
      · exact h name node hb ⟨v', .inr hc, hocc⟩
      · exact h name node hb ⟨v', .inl hv, hocc⟩
  · -- the node is chosen in this step, which leaves the records
    refine hk.picked name node hb' hb ?_
    rcases hstep.beside with hs | ⟨_, _, hs, -⟩
    · rw [backupNode_seen, hs, ← backupNode_seen] at hb'
      exact (hb hb').elim
    · have hr : w'.seen.records = w.seen.records := by rw [hs]; rfl
      have hc : w'.seen.copies = w.seen.copies := by rw [hs]; rfl
      rcases hv' with hv' | hv'
      · obtain ⟨v, hv, he⟩ := records_some (hr ▸ records_eq hv')
        exact ⟨v, .inl hv, he ▸ hocc⟩
      · exact ⟨v', .inr (show w.seen.copies[name]? = _ from hc ▸ hv'), hocc⟩

end

/-- In every run in which no leg comes to a volume's backup node, and none is
chosen where one is, backup nodes hold no leg. -/
theorem backup_away {cfg : Config} {w : AppState} {p : Pool Reply AppState Fault}
    (h : (operations cfg fun _ => True).Run Keeping ⟨w, []⟩ p) (hidle : Resting w)
    (hw : ∀ (name node : String) v, w.fed.volumes[name]? = some v → w.backupNode name = some node →
      (∀ l ∈ v.legs, l.node ≠ node) ∧ ∀ rep, v.replacing = some rep → rep.leg.node ≠ node) {name node : String}
    {v : DistVolume} (hv : p.state.fed.volumes[name]? = some v)
    (hb : p.state.backupNode name = some node) : ∀ l ∈ v.legs, l.node ≠ node := by
  have h₀ : Away w := by
    intro n k hb ⟨v, hv, hocc⟩
    rcases hv with hv | hv
    · rw [Core.occupies, sites_core] at hocc
      rcases hocc with hl | ⟨rep, hr, hk⟩
      · obtain ⟨l, hl, hk⟩ := List.mem_map.mp hl
        exact (hw n k v hv hb).1 l hl hk
      · exact (hw n k v hv hb).2 rep hr hk
    · rw [hidle.copies] at hv
      simp at hv
  have ha : Away p.state := by
    refine keeps_run (J := Away) hidle.stepInv rfl h₀ (fun w w' u _ hk hg hJ => ?_) h
    exact hJ.step hk (fun _ c hc _ => hk.claimed c (hg.passes.creations hc)) hg.passes.step
  exact fun l hl he => ha name node hb ⟨v, .inl hv, occupies_leg (he ▸ List.mem_map_of_mem hl)⟩

/-! ## A small run -/

/-- Backups are turned on and given a node; then the leg on a is moved. -/
def backupThenMove (target : String) : List (VolumeMove fun _ => True) :=
  .start ⟨.policy "v" {}, trivial⟩ :: .run 0 plainReply ::
    .start ⟨.backups, trivial⟩ :: List.replicate 6 (.run 1 plainReply) ++
    (.start ⟨.move "v" "a" (some target), trivial⟩ :: List.replicate 8 (.run 2 plainReply)) ++
    (.start ⟨.finish "v", trivial⟩ :: List.replicate 10 (.run 3 plainReply))

/-- The volume on a and b, beside two more nodes. -/
def fourNodes : AppState := rackStart [("a", "r1"), ("b", "r2"), ("c", "r3"), ("d", "r4")]

def vacant (w : AppState) (name node : String) : Bool :=
  (w.fed.volumes[name]?.all fun v => v.legs.all (·.node ≠ node) ∧ v.replacing.isNone) ∧ w.copies[name]?.isNone

/-- Nothing is created, no leg comes to a backup node, and none is chosen that is not vacant. -/
def keeping (w w' : AppState) : Bool :=
  w'.creations.isEmpty ∧
    (w'.fed.volumes.toList.all fun (name, v) => v.replacing.all fun rep => w.backupNode name ≠ some rep.leg.node) ∧
    w'.fed.backups.toList.all fun (name, b) => b.node.all fun node => w.backupNode name = some node ∨ vacant w name node

theorem vacant_iff {w : AppState} {name node : String} (h : vacant w name node = true) : ¬ Occupied w name node := by
  obtain ⟨hv, hc⟩ := of_decide_eq_true h
  rintro ⟨v, hv' | hc', hocc⟩
  · rw [hv', Option.all_some] at hv
    obtain ⟨hlegs, hrep⟩ := of_decide_eq_true hv
    rw [Core.occupies, sites_core] at hocc
    rcases hocc with hl | ⟨rep, hr, -⟩
    · obtain ⟨l, hl, he⟩ := List.mem_map.mp hl
      exact of_decide_eq_true (List.all_eq_true.mp hlegs l hl) he
    · rw [show v.replacing = some rep from hr] at hrep
      cases hrep
  · rw [hc'] at hc
    cases hc

theorem keeping_iff {w w' : AppState} (h : keeping w w' = true) : Keeping w w' := by
  obtain ⟨hc, hv, hb⟩ := of_decide_eq_true h
  have hc := List.isEmpty_iff.mp hc
  refine ⟨fun c hm => by simp [hc] at hm, fun name v ⟨_, _, hm⟩ => by simp [hc] at hm, fun name v v' rep _ hv' hrep _ => ?_,
    fun name node hn hne => ?_⟩
  · have := List.all_eq_true.mp hv (name, v') (KeyMap.mem_toList.mpr hv')
    dsimp only at this
    rw [hrep, Option.all_some] at this
    exact of_decide_eq_true this
  · obtain ⟨b, hb', hnode⟩ := Option.bind_eq_some_iff.mp hn
    have := List.all_eq_true.mp hb (name, b) (KeyMap.mem_toList.mpr hb')
    dsimp only at this
    rw [hnode, Option.all_some] at this
    exact vacant_iff ((of_decide_eq_true this).resolve_left hne)

/-- The volume with its backup node. -/
def volumeAndBackup (w : AppState) : Option (DistVolume × String) := do
  some (← w.fed.volumes["v"]?, ← w.backupNode "v")

theorem volumeAndBackup_some {w : AppState} {v : DistVolume} {node : String} (h : volumeAndBackup w = some (v, node)) :
    w.fed.volumes["v"]? = some v ∧ w.backupNode "v" = some node := by
  obtain ⟨v', hv, h⟩ := Option.bind_eq_some_iff.mp h
  obtain ⟨node', hn, h⟩ := Option.bind_eq_some_iff.mp h
  obtain ⟨rfl, rfl⟩ := Prod.mk.inj (Option.some.inj h)
  exact ⟨hv, hn⟩

theorem fourNodes_away {name node : String} {v : DistVolume} (_ : fourNodes.fed.volumes[name]? = some v)
    (hb : fourNodes.backupNode name = some node) :
    (∀ l ∈ v.legs, l.node ≠ node) ∧ ∀ rep, v.replacing = some rep → rep.leg.node ≠ node := by
  simp [AppState.backupNode, fourNodes, rackStart] at hb

theorem backup_away_small : ∃ p v, (operations plainConfig fun _ => True).Run Keeping ⟨fourNodes, []⟩ p ∧
    p.state.fed.volumes["v"]? = some v ∧ v.legs.map (·.node) = ["d", "b"] ∧ p.state.backupNode "v" = some "c" ∧
    ∀ l ∈ v.legs, l.node ≠ "c" := by
  have hr : (operations plainConfig fun _ => True).Run Keeping ⟨fourNodes, []⟩
      ((operations plainConfig fun _ => True).final keeping ⟨fourNodes, []⟩ (backupThenMove "d")) :=
    System.run_final (fun _ _ => keeping_iff) (by decide +kernel)
  obtain ⟨⟨v, node⟩, hvn, hd⟩ := Option.any_eq_true _ _ |>.mp (show (volumeAndBackup ((operations plainConfig fun _ => True).final
    keeping ⟨fourNodes, []⟩ (backupThenMove "d")).state).any
      (fun (v, node) => v.legs.map (·.node) = ["d", "b"] ∧ node = "c") = true by decide +kernel)
  obtain ⟨hv, hn⟩ := volumeAndBackup_some hvn
  obtain ⟨hl, rfl⟩ := of_decide_eq_true hd
  exact ⟨_, v, hr, hv, hl, hn,
    backup_away hr (resting_rackStart _) (fun _ _ _ hv hb => fourNodes_away hv hb) hv hn⟩

/-- The operator moves the leg on a to the node of the backups. -/
theorem not_backup_away : ¬ ∀ (w : AppState) (p : Pool Reply AppState Fault),
    (operations plainConfig fun _ => True).Run (fun _ _ => True) ⟨w, []⟩ p → Resting w →
    (∀ (name node : String) v, w.fed.volumes[name]? = some v → w.backupNode name = some node →
      (∀ l ∈ v.legs, l.node ≠ node) ∧ ∀ rep, v.replacing = some rep → rep.leg.node ≠ node) →
    ∀ (name node : String) v, p.state.fed.volumes[name]? = some v → p.state.backupNode name = some node →
      ∀ l ∈ v.legs, l.node ≠ node := by
  intro h
  have hr : (operations plainConfig fun _ => True).Run (fun _ _ => True) ⟨fourNodes, []⟩
      ((operations plainConfig fun _ => True).final (fun _ _ => true) ⟨fourNodes, []⟩ (backupThenMove "c")) :=
    System.run_final (fun _ _ _ => trivial) (by decide +kernel)
  obtain ⟨⟨v, node⟩, hvn, hd⟩ := Option.any_eq_true _ _ |>.mp (show (volumeAndBackup ((operations plainConfig fun _ => True).final
    (fun _ _ => true) ⟨fourNodes, []⟩ (backupThenMove "c")).state).any
      (fun (v, node) => v.legs.any (·.node = node)) = true by decide +kernel)
  obtain ⟨hv, hn⟩ := volumeAndBackup_some hvn
  obtain ⟨l, hl, he⟩ := List.any_eq_true.mp hd
  exact h _ _ hr (resting_rackStart _) (fun _ _ _ hv hb => fourNodes_away hv hb) "v" node v hv hn l hl
    (of_decide_eq_true he)

end StormStorage
