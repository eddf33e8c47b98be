import StormStorage.Proof.Steps.Away
import StormStorage.Proof.Steps.Written

/-!
# Legs on distinct nodes

An operator may name the node that a leg goes to, and more than one replacement
may be asked for at a time; while one goes on, promotes, reassemblies and fences
ask for the volume too. No node gets a second leg of one volume.

* `Spread.record`: where a record's legs are after a step;
* `legs_distinct`: every run.
-/

namespace StormStorage

open Await Task Orchestrate

/-- Legs on distinct nodes, and none coming to a node that has one. -/
structure Distinct (s : List String × Option Replacement) : Prop where
  legs : s.1.Nodup
  coming : ∀ rep, s.2 = some rep → rep.leg.node ∉ s.1

/-- A create puts legs on distinct nodes, and makes no record under a claimed name. -/
structure Placing (name : String) (w w' : AppState) : Prop where
  claimed : ∀ c ∈ w'.creations, c.name = name → c.claimed = false
  made : Made w w' name → ∀ v, w'.fed.volumes[name]? = some v → (v.legs.map (·.node)).Nodup

/-- So are the legs of a volume's record, and of the copy that is held of it. -/
def Spread (name : String) (w : AppState) : Prop :=
  ∀ v : DistVolume, w.fed.volumes[name]? = some v ∨ w.copies[name]? = some v → Distinct v.core.sites

section

variable {w w' : AppState} {name : String}

theorem distinct_alone {nodes : List String} (h : nodes.Nodup) : Distinct (nodes, none) := ⟨h, fun _ hr => nomatch hr⟩

/-- The leg that was coming takes its place. -/
theorem Distinct.swap {v : DistVolume} {rep : Replacement} (h : Distinct v.core.sites) (hrep : v.replacing = some rep) :
    ((swapLeg rep v).legs.map (·.node)).Nodup := by
  rw [sites_core] at h
  have hnot : rep.leg.node ∉ v.legs.map (·.node) := h.coming rep hrep
  show ((putLeg rep.from { rep.leg with message := none } v.legs).map fun l => id l.node).Nodup
  refine nodup_putLeg h.legs fun l hl _ he => hnot ?_
  exact List.mem_map.mpr ⟨l, hl, he⟩

/-- Where the record's legs are after a step. -/
theorem Spread.record (h : Spread name w) (hp : Placing name w w') (hun : Unmade w name) {v' : DistVolume}
    (hv' : w'.fed.volumes[name]? = some v') (hw : Whence w w' name v'.core.sites) : Distinct v'.core.sites := by
  cases hw with
  | kept hc hs =>
    obtain ⟨v, hv, rfl⟩ := records_some hc
    rw [hs]
    exact h v (.inl hv)
  | back hc hs =>
    rw [hs]
    exact h _ (.inr hc)
  | @coming v rep hv hfree hs =>
    have hlegs := (h v (.inl hv)).legs
    rw [sites_core] at hlegs
    rw [hs]
    refine ⟨hlegs, fun rep' he hm => ?_⟩
    obtain rfl := Option.some.inj he
    obtain ⟨l, hl, hnode⟩ := List.mem_map.mp hm
    exact (hfree hun).2 l hl hnode
  | @gaveUp v hv hs =>
    have hlegs := (h v (.inl hv)).legs
    rw [sites_core] at hlegs
    rw [hs]
    exact distinct_alone hlegs
  | @swapped v rep hv hrep hs =>
    rw [hs]
    exact distinct_alone ((h v (.inl hv)).swap (hrep hun))
  | @made v _ hm hs =>
    have hlegs : v'.legs.map (·.node) = v.legs.map (·.node) :=
      (congrArg Prod.fst (sites_core v')).symm.trans (congrArg Prod.fst hs)
    rw [hs, ← hlegs]
    exact distinct_alone (hp.made hm v' hv')

/-- What a step keeps. -/
theorem Spread.step (h : Spread name w) (hp : Placing name w w') (hun : Unmade w name) (hstep : RecordStep w w') :
    Spread name w' := by
  intro v' hv'
  rcases hv' with hv' | hv'
  · exact h.record hp hun hv' (hstep.sites (records_eq hv'))
  · rcases hstep.copies hv' with hc | ⟨hv, -⟩
    · exact h v' (.inr hc)
    · exact h v' (.inl hv)

end

/-- In every run, wherever operators send the volume's legs, they are on distinct
nodes, and none is coming to a node that has one. -/
theorem legs_distinct {cfg : Config} {ops : VolumeOp → Prop} {w : AppState} {p : Pool Reply AppState Fault}
    {name : String} (h : (operations cfg ops).Run (Placing name) ⟨w, []⟩ p) (hidle : Resting w)
    (hw : ∀ v, w.fed.volumes[name]? = some v → Distinct (v.legs.map (·.node), v.replacing)) {v : DistVolume}
    (hv : p.state.fed.volumes[name]? = some v) : Distinct (v.legs.map (·.node), v.replacing) := by
  have h₀ : Spread name w := by
    intro u hu
    rcases hu with hu | hu
    · rw [sites_core]
      exact hw u hu
    · rw [hidle.copies] at hu
      simp at hu
  have hs : Spread name p.state := by
    refine keeps_run (J := Spread name) hidle.stepInv rfl h₀ (fun w w' u _ hp hg hJ => ?_) h
    exact hJ.step hp (fun c hc hn => hp.claimed c (hg.passes.creations hc) hn) hg.passes.step
  rw [← sites_core]
  exact hs v (.inl hv)

/-- The leg on a is moved to d, and the other one after it to where a's was. -/
def moveAround : List (VolumeMove fun _ => True) :=
  moveTo 0 "a" "d" ++ moveTo 2 "b" "a"
where
  moveTo (task : Nat) («from» target : String) : List (VolumeMove fun _ => True) :=
    .start ⟨.move "v" «from» (some target), trivial⟩ :: List.replicate 8 (.run task plainReply) ++
      (.start ⟨.finish "v", trivial⟩ :: List.replicate 10 (.run (task + 1) plainReply))

theorem legs_distinct_moved : ∃ p v, (operations plainConfig fun _ => True).Run (Placing "v") ⟨fourNodes, []⟩ p ∧
    p.state.fed.volumes["v"]? = some v ∧ v.legs.map (·.node) = ["d", "a"] ∧
    Distinct (v.legs.map (·.node), v.replacing) := by
  have hr : (operations plainConfig fun _ => True).Run (Placing "v") ⟨fourNodes, []⟩
      ((operations plainConfig fun _ => True).final (fun _ w' => w'.creations.isEmpty) ⟨fourNodes, []⟩ moveAround) := by
    refine System.run_final (fun w w' h => ?_) (by decide +kernel)
    have hc := List.isEmpty_iff.mp h
    exact ⟨fun c hm => by simp [hc] at hm, fun hm => absurd hm (not_made hc)⟩
  obtain ⟨v, hv, hd⟩ := Option.any_eq_true _ _ |>.mp (show (((operations plainConfig fun _ => True).final
    (fun _ w' => w'.creations.isEmpty) ⟨fourNodes, []⟩ moveAround).state.fed.volumes["v"]?).any
      (fun v => v.legs.map (·.node) = ["d", "a"]) = true by decide +kernel)
  refine ⟨_, v, hr, hv, of_decide_eq_true hd, legs_distinct hr (resting_rackStart _) (fun u hu => ?_) hv⟩
  rw [rackStart_volume hu]
  exact distinct_alone (by decide)

end StormStorage
