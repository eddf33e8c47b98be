import StormStorage.Proof.Volumes.Degraded

/-!
# The head is a leg's node

Assembly puts the head on the first leg's node, a promote on the node of a leg
it is told, and losses and reassemblies leave it there. A replacement takes a
leg out: where that is never the head's own, the head of an assembled volume is
the node of one of its legs in every reachable state (`head_on_leg`).
-/

namespace StormStorage

open Await Orchestrate

/-- The head of a record, with an array or without, is the node of a leg. -/
structure Headed (v : DistVolume) : Prop where
  onLeg : ∀ head, v.head = some head → ∃ l ∈ v.legs, l.node = head
  headed : v.assembly = .assembled ∨ v.assembly = .degraded → v.head.isSome
  coming : ∀ rep, v.replacing = some rep → rep.leg.state = .created

/-- The leg that a replacement takes out is not the one on the record's head. -/
def SparesHead (v : DistVolume) (node : String) : Prop := ∃ head, v.head = some head ∧ head ≠ node

theorem putLeg_keeps {node other : String} {leg : Leg} (hne : other ≠ node) {legs : List Leg}
    (h : ∃ l ∈ legs, l.node = other) : ∃ l ∈ putLeg node leg legs, l.node = other := by
  induction legs with
  | nil =>
    obtain ⟨l, hl, -⟩ := h
    cases hl
  | cons x xs ih =>
    obtain ⟨l, hl, hn⟩ := h
    unfold putLeg
    split
    · rename_i hx
      rcases List.mem_cons.mp hl with rfl | hl
      · exact absurd (hn.symm.trans hx) hne
      · exact ⟨l, List.mem_cons_of_mem _ hl, hn⟩
    · rcases List.mem_cons.mp hl with rfl | hl
      · exact ⟨l, List.mem_cons_self .., hn⟩
      · obtain ⟨l', hl', hn'⟩ := ih ⟨l, hl, hn⟩
        exact ⟨l', List.mem_cons_of_mem _ hl', hn'⟩

theorem map_keeps {f : Leg → Leg} (hf : ∀ l, (f l).node = l.node) {legs : List Leg} {node : String}
    (h : ∃ l ∈ legs, l.node = node) : ∃ l ∈ legs.map f, l.node = node := by
  obtain ⟨l, hl, hn⟩ := h
  exact ⟨f l, List.mem_map_of_mem hl, (hf l).trans hn⟩

theorem node_loseLeg (fed : FedState) (l : Leg) : (loseLeg fed l).node = l.node := by
  unfold loseLeg
  split <;> rfl

theorem node_loseAtPromote (up : List String) (l : Leg) : (Head.loseAtPromote up l).node = l.node := by
  unfold Head.loseAtPromote
  split <;> rfl

/-- What a reading of the head's array leaves of a record. -/
theorem applyHeadReading_keeps {v v' : DistVolume} {r : Option ArrayReading} {b : Bool}
    (h : applyHeadReading v r = some (v', b)) :
    v'.head = v.head ∧ v.head.isSome ∧ v'.replacing = v.replacing ∧ v'.legs.map (·.node) = v.legs.map (·.node) := by
  obtain ⟨head, hhead, h⟩ := Option.bind_eq_some_iff.mp h
  obtain ⟨array, -, h⟩ := Option.bind_eq_some_iff.mp h
  obtain ⟨i, -, h⟩ := Option.bind_eq_some_iff.mp h
  obtain ⟨leg, hleg, h⟩ := Option.bind_eq_some_iff.mp h
  split at h
  · cases h
  · split at h
    · obtain ⟨rfl, -⟩ := Prod.mk.inj (Option.some.inj h)
      exact ⟨rfl, by rw [hhead]; rfl, rfl, map_set_of_eq hleg rfl⟩
    · obtain ⟨rfl, -⟩ := Prod.mk.inj (Option.some.inj h)
      exact ⟨rfl, by rw [hhead]; rfl, rfl, map_set_of_eq hleg rfl⟩

namespace Headed

variable {v v' : DistVolume}

/-- A record whose head stays, over legs of which none on it is gone. -/
theorem stays (h : Headed v) (hhead : v'.head = v.head)
    (hlegs : ∀ head, v.head = some head → (∃ l ∈ v.legs, l.node = head) → ∃ l ∈ v'.legs, l.node = head)
    (hsome : v'.assembly = .assembled ∨ v'.assembly = .degraded → v.head.isSome)
    (hrep : ∀ rep, v'.replacing = some rep → rep.leg.state = .created) : Headed v' where
  onLeg head he := by
    rw [hhead] at he
    exact hlegs head he (h.onLeg head he)
  headed ha := by
    rw [hhead]
    exact hsome ha
  coming := hrep

theorem coming_of (h : Headed v) (hrep : v'.replacing = v.replacing ∨ v'.replacing = none) (rep : Replacement)
    (hr : v'.replacing = some rep) : rep.leg.state = .created := by
  rcases hrep with e | e
  · exact h.coming rep (by rwa [e] at hr)
  · rw [e] at hr
    cases hr

theorem change (h : Headed v) (hc : VolumeChange SparesHead v v') : Headed v' := by
  cases hc with
  | same legs ha hhead hrep =>
    exact h.stays hhead (fun _ _ => legs.has) (fun h' => h.headed (by rwa [ha] at h')) (h.coming_of hrep)
  | @assembled _ l hl _ legs ha hhead hrep =>
    refine ⟨fun head he => ?_, fun _ => by rw [hhead]; rfl, h.coming_of (.inl hrep)⟩
    rw [hhead] at he
    exact legs.has ⟨l, hl, Option.some.inj he⟩
  | replacing hrep =>
    exact h.stays rfl (fun _ _ h => h) h.headed fun rep hr => Option.some.inj hr ▸ hrep
  | swapped _ hspares =>
    obtain ⟨head, hhead, hne⟩ := hspares
    refine h.stays rfl (fun head' he hl => ?_) (fun _ => by rw [hhead]; rfl) (h.coming_of (.inr rfl))
    obtain rfl := Option.some.inj (hhead.symm.trans he)
    exact putLeg_keeps hne hl
  | lost fed =>
    unfold afterLoss
    split
    · rename_i ha
      exact h.stays rfl (fun _ _ => map_keeps (node_loseLeg fed)) (fun _ => h.headed ha) h.coming
    · exact h
  | rejoined he =>
    obtain ⟨hhead, hsome, hrep, hnodes⟩ := applyHeadReading_keeps he
    refine h.stays hhead (fun head _ hl => ?_) (fun _ => hsome) (h.coming_of (.inl hrep))
    have hm : head ∈ v.legs.map (·.node) := List.mem_map.mpr hl
    rw [← hnodes] at hm
    exact List.mem_map.mp hm
  | @promoted target l up served hl hn =>
    refine ⟨fun head he => ?_, fun _ => rfl, h.coming⟩
    exact map_keeps (node_loseAtPromote up) ⟨l, hl, hn.trans (Option.some.inj he)⟩
  | reassembled array pick served hhead =>
    refine h.stays rfl (fun _ _ => map_keeps fun l => ?_) (fun _ => by rw [hhead]; rfl) h.coming
    split <;> rfl

end Headed

theorem rule_headed : Rule SparesHead Headed where
  fresh v h := {
    onLeg := fun head he => by simp [h.headless] at he
    headed := fun ha => absurd ha (not_or.mpr h.unassembled)
    coming := fun rep hr => by simp [h.settled] at hr }
  change _ _ hv hc := hv.change hc
  coming _ rep hv hr := hv.coming rep hr

/-- In every run whose replacements spare the head's own leg, the head of an
assembled volume is the node of one of its legs. -/
theorem head_on_leg {cfg : Config} {nodes : KeyMap Node} {p : Pool Reply AppState Fault}
    (h : (operations cfg fun _ => True).Run (fun _ w => Swaps SparesHead w.log) ⟨.withNodes nodes, []⟩ p)
    {name : String} {v : DistVolume} (hv : p.state.fed.volumes[name]? = some v)
    (ha : v.assembly = .assembled ∨ v.assembly = .degraded) :
    ∃ head, v.head = some head ∧ ∃ l ∈ v.legs, l.node = head := by
  have hall := rule_headed.everywhere h fun n v hn => by simp [AppState.withNodes] at hn
  obtain ⟨head, hhead⟩ := Option.isSome_iff_exists.mp ((hall name v hv).headed ha)
  exact ⟨head, hhead, (hall name v hv).onLeg head hhead⟩

/-! ### A small run -/

/-- The leg on `node` is moved to c. -/
def moveAway (node : String) : List (VolumeMove fun _ => True) :=
  .start ⟨createPair, trivial⟩ :: List.replicate 22 (.run 0 plainReply) ++
    (.start ⟨.move "v" node (some "c"), trivial⟩ :: List.replicate 8 (.run 1 plainReply)) ++
    (.start ⟨.finish "v", trivial⟩ :: List.replicate 11 (.run 2 plainReply))

def sparesHead (log : List Event) : Bool :=
  log.all fun
    | .swapped v node => v.head.any (· ≠ node)
    | _ => true

theorem sparesHead_iff {log : List Event} : sparesHead log = true ↔ Swaps SparesHead log := by
  simp only [sparesHead, List.all_eq_true, Swaps]
  refine ⟨fun h v node hm => ?_, fun h e he => ?_⟩
  · obtain ⟨head, hh, hne⟩ := (Option.any_eq_true _ _).mp (h _ hm)
    exact ⟨head, hh, of_decide_eq_true hne⟩
  · split
    · rename_i v node
      obtain ⟨head, hh, hne⟩ := h v node he
      simp [hh, hne]
    · rfl

theorem head_on_leg_small : ∃ p v, (operations plainConfig fun _ => True).Run (fun _ w => Swaps SparesHead w.log)
    (startWith ["a", "b", "c"]) p ∧ p.state.fed.volumes["v"]? = some v ∧ v.legs.map (·.node) = ["a", "c"] ∧
    ∃ head, v.head = some head ∧ ∃ l ∈ v.legs, l.node = head := by
  have hr : (operations plainConfig fun _ => True).Run (fun _ w => Swaps SparesHead w.log) (startWith ["a", "b", "c"])
      ((operations plainConfig fun _ => True).final (fun _ w => sparesHead w.log) (startWith ["a", "b", "c"])
        (moveAway "b")) :=
    System.run_final (fun _ _ => sparesHead_iff.mp) (by decide +kernel)
  obtain ⟨v, hv, hd⟩ := Option.any_eq_true _ _ |>.mp (show (((operations plainConfig fun _ => True).final
    (fun _ w => sparesHead w.log) (startWith ["a", "b", "c"]) (moveAway "b")).state.fed.volumes["v"]?).any
      (fun v => v.assembly = .assembled ∧ v.legs.map (·.node) = ["a", "c"]) = true by decide +kernel)
  obtain ⟨ha, hl⟩ := of_decide_eq_true hd
  exact ⟨_, v, hr, hv, hl, head_on_leg hr hv (.inl ha)⟩

/-- The operator moves the leg of the head a to c: a is the head still, and
holds no leg. -/
theorem not_head_on_leg : ¬ ∀ (nodes : KeyMap Node) (p : Pool Reply AppState Fault),
    (operations plainConfig fun _ => True).Run (fun _ _ => True) ⟨.withNodes nodes, []⟩ p →
    ∀ (name : String) v, p.state.fed.volumes[name]? = some v → v.assembly = .assembled ∨ v.assembly = .degraded →
      ∃ head, v.head = some head ∧ ∃ l ∈ v.legs, l.node = head := by
  intro h
  have hr : (operations plainConfig fun _ => True).Run (fun _ _ => True) (startWith ["a", "b", "c"])
      ((operations plainConfig fun _ => True).final (fun _ _ => true) (startWith ["a", "b", "c"]) (moveAway "a")) :=
    System.run_final (fun _ _ _ => trivial) (by decide +kernel)
  obtain ⟨v, hv, hd⟩ := Option.any_eq_true _ _ |>.mp (show (((operations plainConfig fun _ => True).final
    (fun _ _ => true) (startWith ["a", "b", "c"]) (moveAway "a")).state.fed.volumes["v"]?).any
      (fun v => v.assembly = .assembled ∧ v.head = some "a" ∧ v.legs.all (·.node ≠ "a")) = true by decide +kernel)
  obtain ⟨ha, hh, hn⟩ := of_decide_eq_true hd
  obtain ⟨head, hhead, l, hl, hnode⟩ := h _ _ hr "v" v hv (.inl ha)
  obtain rfl := Option.some.inj (hh.symm.trans hhead)
  exact of_decide_eq_true (List.all_eq_true.mp hn l hl) hnode

end StormStorage
