import StormStorage.Proof.Volumes.Walk

/-!
# Degraded, and why

A volume is degraded exactly while one of its legs is lost: assembly, losses,
replacements, rejoins, promotes and reassemblies keep the two together
(`rule_told`), so they go together in every reachable state
(`degraded_iff_lost`).
-/

namespace StormStorage

open Await Orchestrate

/-- The record tells of a lost leg, where it is of an array. -/
structure Told (v : DistVolume) : Prop where
  unfailed : ∀ l ∈ v.legs, l.state ≠ .failed
  coming : ∀ rep, v.replacing = some rep → rep.leg.state = .created
  degraded : v.assembly = .assembled ∨ v.assembly = .degraded → (v.assembly = .degraded ↔ lostLeg v.legs = true)

/-! ## Lost legs -/

theorem lostLeg_iff {legs : List Leg} : lostLeg legs = true ↔ ∃ l ∈ legs, l.state = .lost := by
  simp [lostLeg]

theorem SameLegs.lostLeg {legs legs' : List Leg} (h : SameLegs legs legs') :
    Orchestrate.lostLeg legs' = Orchestrate.lostLeg legs := by
  have hany : ∀ ls : List Leg, Orchestrate.lostLeg ls = (ls.map (·.state)).any (· = .lost) := fun ls => by
    simp [Orchestrate.lostLeg, List.any_map, Function.comp_def]
  rw [hany, hany, h.states]

theorem SameLegs.unfailed {legs legs' : List Leg} (h : SameLegs legs legs') (hu : ∀ l ∈ legs, l.state ≠ .failed) :
    ∀ l ∈ legs', l.state ≠ .failed := by
  intro l hl hs
  have hm : LegState.failed ∈ legs'.map (·.state) := List.mem_map.mpr ⟨l, hl, hs⟩
  rw [h.states] at hm
  obtain ⟨l₀, hl₀, hs₀⟩ := List.mem_map.mp hm
  exact hu l₀ hl₀ hs₀

theorem lostLeg_of_created {legs : List Leg} (h : ∀ l ∈ legs, l.state = .created) : lostLeg legs = false := by
  simp only [lostLeg, List.any_eq_false, decide_eq_true_eq]
  exact fun l hl hs => by simp [h l hl] at hs

theorem allCreated_eq {legs : List Leg} (h : ∀ l ∈ legs, l.state ≠ .failed) :
    Head.allCreated legs = true ↔ ¬ lostLeg legs = true := by
  simp only [Head.allCreated, List.all_eq_true, decide_eq_true_eq, lostLeg_iff, not_exists, not_and]
  refine forall₂_congr fun l hl => ⟨fun hc hs => by simp [hc] at hs, fun hn => ?_⟩
  cases hs : l.state with
  | created => rfl
  | failed => exact absurd hs (h l hl)
  | lost => exact absurd hs hn

/-- A leg put in the place of one that reads the same. -/
theorem map_set_of_eq {β : Type} {f : Leg → β} {legs : List Leg} {i : Nat} {leg l : Leg} (h : legs[i]? = some leg)
    (hf : f l = f leg) : (legs.set i l).map f = legs.map f := by
  refine List.ext_getElem? fun j => ?_
  rw [List.getElem?_map, List.getElem?_map, List.getElem?_set]
  split
  · rename_i he
    subst he
    split
    · rw [h, Option.map_some, Option.map_some, hf]
    · rename_i hlt
      rw [List.getElem?_eq_none (by omega)]
  · rfl

theorem mem_putLeg {node : String} {leg l : Leg} {legs : List Leg} (h : l ∈ putLeg node leg legs) :
    l = leg ∨ l ∈ legs := by
  induction legs with
  | nil => exact .inl (List.mem_singleton.mp h)
  | cons x xs ih =>
    unfold putLeg at h
    split at h
    · exact (List.mem_cons.mp h).imp_right (List.mem_cons_of_mem _)
    · rcases List.mem_cons.mp h with rfl | h
      · exact .inr (List.mem_cons_self ..)
      · exact (ih h).imp_right (List.mem_cons_of_mem _)

theorem loseLeg_lost {fed : FedState} {l : Leg} (h : l.state = .lost) : loseLeg fed l = l := by
  simp [loseLeg, h]

theorem loseLeg_unfailed {fed : FedState} {l : Leg} (h : l.state ≠ .failed) : (loseLeg fed l).state ≠ .failed := by
  unfold loseLeg
  split
  · exact nofun
  · exact h

/-! ## The rule -/

namespace Told

variable {v v' : DistVolume}

theorem same (h : Told v) (legs : SameLegs v.legs v'.legs) (ha : v'.assembly = v.assembly)
    (hrep : v'.replacing = v.replacing ∨ v'.replacing = none) : Told v' where
  unfailed := legs.unfailed h.unfailed
  coming rep hr := by
    rcases hrep with e | e
    · exact h.coming rep (by rwa [e] at hr)
    · rw [e] at hr
      cases hr
  degraded := by
    rw [ha, legs.lostLeg]
    exact h.degraded

/-- A record whose assembly is set by whether a leg is lost. -/
theorem of_set (h : Told v) {legs : List Leg} (hu : ∀ l ∈ legs, l.state ≠ .failed) (hl : v'.legs = legs)
    (hrep : v'.replacing = v.replacing ∨ v'.replacing = none)
    (ha : v'.assembly = if lostLeg legs then .degraded else .assembled) : Told v' where
  unfailed := hl ▸ hu
  coming rep hr := by
    rcases hrep with e | e
    · exact h.coming rep (by rwa [e] at hr)
    · rw [e] at hr
      cases hr
  degraded _ := by
    rw [ha, hl]
    cases lostLeg legs <;> simp

theorem lost (h : Told v) (fed : FedState) : Told (afterLoss fed v) := by
  unfold afterLoss
  split
  · rename_i ha
    have hu : ∀ l ∈ v.legs.map (loseLeg fed), l.state ≠ .failed := by
      intro l hl
      obtain ⟨l₀, hl₀, rfl⟩ := List.mem_map.mp hl
      exact loseLeg_unfailed (h.unfailed l₀ hl₀)
    refine h.of_set hu rfl (.inl rfl) ?_
    dsimp only
    have hstays : lostLeg v.legs = true → lostLeg (v.legs.map (loseLeg fed)) = true := by
      rw [lostLeg_iff, lostLeg_iff]
      rintro ⟨l, hl, hs⟩
      exact ⟨l, List.mem_map.mpr ⟨l, hl, loseLeg_lost hs⟩, hs⟩
    rcases ha with ha | ha
    · simp [ha]
    · have := hstays ((h.degraded (.inr ha)).mp ha)
      simp [ha, this]
  · exact h

theorem rejoined (h : Told v) {r : Option ArrayReading} {b : Bool} (he : applyHeadReading v r = some (v', b)) :
    Told v' := by
  obtain ⟨head, -, he⟩ := Option.bind_eq_some_iff.mp he
  obtain ⟨array, -, he⟩ := Option.bind_eq_some_iff.mp he
  obtain ⟨i, hi, he⟩ := Option.bind_eq_some_iff.mp he
  obtain ⟨leg, hleg, he⟩ := Option.bind_eq_some_iff.mp he
  obtain ⟨hlt, hget⟩ := List.getElem?_eq_some_iff.mp hleg
  have hlost : leg.state = .lost := by
    have := (List.findIdx?_eq_some_iff_getElem.mp hi).2.1
    rw [hget] at this
    exact (of_decide_eq_true this).2
  have hwas : lostLeg v.legs = true := lostLeg_iff.mpr ⟨leg, List.mem_of_getElem? hleg, hlost⟩
  split at he
  · cases he
  · split at he
    · obtain ⟨rfl, -⟩ := Prod.mk.inj (Option.some.inj he)
      have hu : ∀ l ∈ v.legs.set i { leg with state := .created, message := none }, l.state ≠ .failed := by
        intro l hl
        rcases List.mem_or_eq_of_mem_set hl with hl | rfl
        · exact h.unfailed l hl
        · exact nofun
      refine ⟨hu, h.coming, fun ha => ?_⟩
      dsimp only at ha ⊢
      split
      · rename_i hl
        rw [if_pos hl] at ha
        exact iff_of_true ((h.degraded ha).mpr hwas) hl
      · rename_i hl
        exact iff_of_false nofun hl
    · obtain ⟨rfl, -⟩ := Prod.mk.inj (Option.some.inj he)
      refine h.same ?_ rfl (.inl rfl)
      show List.map Leg.face (v.legs.set i _) = _
      exact map_set_of_eq hleg rfl

/-- A record whose assembly is set by whether every leg is created. -/
theorem of_allCreated (h : Told v) {f : Leg → Leg} (hf : ∀ l, l.state ≠ .failed → (f l).state ≠ .failed)
    (hl : v'.legs = v.legs.map f) (hrep : v'.replacing = v.replacing)
    (ha : v'.assembly = if Head.allCreated (v.legs.map f) then .assembled else .degraded) : Told v' := by
  have hu : ∀ l ∈ v.legs.map f, l.state ≠ .failed := by
    intro l hl
    obtain ⟨l₀, hl₀, rfl⟩ := List.mem_map.mp hl
    exact hf l₀ (h.unfailed l₀ hl₀)
  refine h.of_set hu hl (.inl hrep) ?_
  have := allCreated_eq hu
  rw [ha]
  cases hlost : lostLeg (v.legs.map f) <;> simp_all

theorem change {A : DistVolume → String → Prop} (h : Told v) (hc : VolumeChange A v v') : Told v' := by
  cases hc with
  | same legs ha _ hrep => exact h.same legs ha hrep
  | assembled _ hc legs ha _ hrep =>
    refine h.of_set (legs.unfailed h.unfailed) rfl (.inl hrep) ?_
    rw [legs.lostLeg, lostLeg_of_created hc, ha]
    rfl
  | replacing hrep =>
    refine ⟨h.unfailed, fun rep hr => ?_, h.degraded⟩
    exact Option.some.inj hr ▸ hrep
  | @swapped rep hrep _ =>
    refine h.of_set (fun l hl => ?_) rfl (.inr rfl) rfl
    rcases mem_putLeg hl with rfl | hl
    · rw [hrep]
      exact nofun
    · exact h.unfailed l hl
  | lost fed => exact h.lost fed
  | rejoined he => exact h.rejoined he
  | promoted up served _ _ =>
    refine h.of_allCreated (fun l hl => ?_) rfl rfl rfl
    unfold Head.loseAtPromote
    split
    · exact nofun
    · exact hl
  | reassembled array pick served _ =>
    refine h.of_allCreated (fun l hl => ?_) rfl rfl rfl
    split
    · exact nofun
    · exact hl

end Told

theorem rule_told : Rule (fun _ _ => True) Told where
  fresh v h := {
    unfailed := fun l hl hs => by simp [h.created l hl] at hs
    coming := fun rep hr => by simp [h.settled] at hr
    degraded := fun ha => absurd ha (not_or.mpr h.unassembled) }
  change _ _ hv hc := hv.change hc
  coming _ rep hv hr := hv.coming rep hr

/-- A server that has no volumes yet. -/
def AppState.withNodes (nodes : KeyMap Node) : AppState := { fed := { nodes := nodes } }

/-- In every reachable state an assembled volume is degraded exactly if one of
its legs is lost. -/
theorem degraded_iff_lost {cfg : Config} {nodes : KeyMap Node} {p : Pool Reply AppState Fault}
    (h : (operations cfg fun _ => True).Run (fun _ _ => True) ⟨.withNodes nodes, []⟩ p) {name : String}
    {v : DistVolume} (hv : p.state.fed.volumes[name]? = some v) (ha : v.assembly = .assembled ∨ v.assembly = .degraded) :
    v.assembly = .degraded ↔ ∃ l ∈ v.legs, l.state = .lost := by
  have hall := rule_told.everywhere (h.mono fun _ _ _ _ _ _ => trivial) fun n v hn => by
    simp [AppState.withNodes] at hn
  rw [(hall name v hv).degraded ha, lostLeg_iff]

/-! ## A small run -/

def nodeOf (name : String) (up : Bool) : Node :=
  ⟨{ name := name, engineUrl := "" }, { NodeStatus.new .static with healthy := up, freeBytes := 100, totalBytes := 100 }⟩

/-- Nodes of these names, up where the flag says so. -/
def nodesOf (nodes : List (String × Bool)) : KeyMap Node :=
  nodes.foldl (fun m (n, up) => m.insert n (nodeOf n up)) ∅

def plainConfig : Config where
  hostNqnFor n := "nqn." ++ n
  cooldown := 60
  rungs := ["node"]
  ioWeight := 0

/-- An engine that answers every call. -/
def plainReply : Reply where
  id := some "d"
  made := "m"
  item := { id := some "i", name := none }
  attach := some { nqn := "q", traddr := "t", trsvcid := 4420, nsid := 1 }
  array := { id := some "arr" }

abbrev VolumeMove (ops : VolumeOp → Prop) := Move Reply { op : VolumeOp // ops op } (KeyMap Node)

/-- A volume of two legs is made and wired. -/
def createPair : VolumeOp := .create { name := "v", sizeBytes := 10, replicas := some 2 }

/-- Leg b is lost. -/
def loseLegB : List (VolumeMove fun _ => True) :=
  .start ⟨createPair, trivial⟩ :: List.replicate 22 (.run 0 plainReply) ++
    [.env (nodesOf [("a", true), ("b", false)]), .start ⟨.recover true, trivial⟩, .run 1 {}]

/-- A server with these nodes, all up. -/
def startWith (nodes : List String) : Pool Reply AppState Fault := ⟨.withNodes (nodesOf (nodes.map (·, true))), []⟩

theorem degraded_iff_lost_small : ∃ p v, (operations plainConfig fun _ => True).Run (fun _ _ => True) (startWith ["a", "b"]) p ∧
    p.state.fed.volumes["v"]? = some v ∧ v.assembly = .degraded ∧ ∃ l ∈ v.legs, l.state = .lost := by
  have hr : (operations plainConfig fun _ => True).Run (fun _ _ => True) (startWith ["a", "b"])
      ((operations plainConfig fun _ => True).final (fun _ _ => true) (startWith ["a", "b"]) loseLegB) :=
    System.run_final (fun _ _ _ => trivial) (by decide +kernel)
  obtain ⟨v, hv, hd⟩ := Option.any_eq_true _ _ |>.mp (show (((operations plainConfig fun _ => True).final
    (fun _ _ => true) (startWith ["a", "b"]) loseLegB).state.fed.volumes["v"]?).any (·.assembly = .degraded) = true by
      decide +kernel)
  have hd := of_decide_eq_true hd
  exact ⟨_, v, hr, hv, hd, (degraded_iff_lost hr hv (.inr hd)).mp hd⟩

end StormStorage
