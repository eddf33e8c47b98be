import StormStorage.Proof.Steps.Program

/-!
# Where records' legs come from

* `RecordStep.copies`: a copy is of the record, or was held before;
* `RecordStep.sites`: a record's legs are where they were, where a copy has
  them, or where a replacement or a create puts them.
-/

namespace StormStorage

open Await Task Orchestrate

section

variable {w w' : AppState} {name n : String} {c c' : Core}

theorem records_some {c : Core} (h : w.seen.records name = some c) : ∃ v, w.fed.volumes[name]? = some v ∧ v.core = c :=
  Option.map_eq_some_iff.mp h

theorem put_cases {s : View} (h : (s.put name (some c)).records n = some c') :
    name = n ∧ c' = c ∨ s.records n = some c' := by
  simp only [View.put] at h
  split at h
  · exact .inl ⟨‹_›, (Option.some.inj h).symm⟩
  · exact .inr h

/-- A copy was held before, or is of the record, which stays. -/
theorem RecordStep.copies (h : RecordStep w w') {v : DistVolume} (hc : w'.copies[n]? = some v) :
    w.copies[n]? = some v ∨ w.fed.volumes[n]? = some v ∧ w'.seen.records = w.seen.records := by
  have hsame : w'.seen.copies = w.seen.copies → w.copies[n]? = some v := fun he => by
    change w'.seen.copies[n]? = _ at hc
    rwa [he] at hc
  have herase : ∀ name, w'.seen.copies = w.copies.erase name → w.copies[n]? = some v := by
    intro name he
    change w'.seen.copies[n]? = _ at hc
    rw [he, KeyMap.get_erase] at hc
    split at hc
    · cases hc
    · exact hc
  cases h with
  | copied hv hs =>
    change w'.seen.copies[n]? = _ at hc
    rw [hs] at hc
    change (w.copies.insert _ _)[n]? = _ at hc
    rw [KeyMap.get_insert] at hc
    split at hc
    · rename_i he
      exact .inr ⟨he ▸ (Option.some.inj hc ▸ hv), by rw [hs]⟩
    · exact .inl hc
  | letGo hs => exact .inl (herase _ (by rw [hs]))
  | assembled _ _ _ _ _ hs => exact .inl (herase _ (by rw [hs]))
  | stayed _ _ _ _ hs => exact .inl (herase _ (by rw [hs]))
  | promoted _ _ _ _ _ _ _ _ hs => exact .inl (herase _ (by rw [hs]))
  | reassembled _ _ _ _ _ _ hs => exact .inl (herase _ (by rw [hs]))
  | unseen hs => exact .inl (hsame (by rw [hs]))
  | lost hs => exact .inl (hsame (by rw [hs]))
  | fenced _ hs => exact .inl (hsame (by rw [hs]; rfl))
  | replacing _ _ _ hs => exact .inl (hsame (by rw [hs]; rfl))
  | gaveUp _ hs => exact .inl (hsame (by rw [hs]; rfl))
  | swapped _ _ hs => exact .inl (hsame (by rw [hs]; rfl))
  | rejoined _ _ _ _ hs => exact .inl (hsame (by rw [hs]; rfl))
  | made _ _ hs => exact .inl (hsame (by rw [hs]; rfl))
  | dropped _ hs => exact .inl (hsame (by rw [hs]; rfl))
  | undertook hs => exact .inl (hsame (by rw [hs]))
  | ended hs => exact .inl (hsame (by rw [hs]))
  | policy _ _ hs => exact .inl (hsame (by rw [hs]; rfl))
  | picked _ hs => exact .inl (hsame (by rw [hs]; rfl))
  | stopped _ _ hs => exact .inl (hsame (by rw [hs]; rfl))
  | purged hs => exact .inl (hsame (by rw [hs]; rfl))
  | reaped hs => exact .inl (hsame (by rw [hs]))

/-- A record of that name is made in this step. -/
def Made (w w' : AppState) (name : String) : Prop :=
  ∃ taken claimed, w'.creations = w.creations ++ [⟨name, false, taken, claimed⟩]

/-- How a record has come by its sites. -/
inductive Whence (w w' : AppState) (n : String) (s : List String × Option Replacement) : Prop
  | kept {c : Core} : w.seen.records n = some c → s = c.sites → Whence w w' n s
  | back {c : DistVolume} : w.copies[n]? = some c → s = c.core.sites → Whence w w' n s
  | coming {v : DistVolume} {rep : Replacement} : w.fed.volumes[n]? = some v →
      (Unmade w n → v.replacing = none ∧ ∀ l ∈ v.legs, l.node ≠ rep.leg.node) →
      s = (v.legs.map (·.node), some rep) → Whence w w' n s
  | gaveUp {v : DistVolume} : w.fed.volumes[n]? = some v → s = (v.legs.map (·.node), none) → Whence w w' n s
  | swapped {v : DistVolume} {rep : Replacement} : w.fed.volumes[n]? = some v →
      (Unmade w n → v.replacing = some rep) → s = ((swapLeg rep v).legs.map (·.node), none) → Whence w w' n s
  | made {v : DistVolume} : Fresh v → Made w w' n →
      s = (v.legs.map (·.node), none) → Whence w w' n s

theorem sites_eq {v v' : DistVolume} (hn : v'.legs.map (·.node) = v.legs.map (·.node)) (hr : v'.replacing = v.replacing) :
    v'.core.sites = v.core.sites := by
  rw [sites_core, sites_core, hn, hr]

theorem nodes_map {f : Leg → Leg} (hf : ∀ l, (f l).node = l.node) (legs : List Leg) :
    (legs.map f).map (·.node) = legs.map (·.node) := by
  rw [List.map_map]
  exact List.map_congr_left fun l _ => hf l

theorem faces_nodes (v : DistVolume) : v.core.faces.map Prod.fst = v.legs.map (·.node) := congrArg Prod.fst (sites_core v)

/-- What a promote writes back. -/
theorem sites_promoted {c vol : DistVolume} {target : String} {up : List String} {served : Option String}
    (h : RelabelledFrom c vol) : (Head.promoted target up served vol).core.sites = c.core.sites := by
  obtain ⟨legs, hl, rfl⟩ := h
  exact sites_eq ((nodes_map (node_loseAtPromote up) _).trans (hl.nodes)) rfl

/-- What a reassembly writes back. -/
theorem sites_reassembled {c vol : DistVolume} {head array : String} {pick : Leg → Bool} {served : Option String}
    (h : RelabelledFrom c vol) : (Head.reassembled head array pick served vol).core.sites = c.core.sites := by
  obtain ⟨legs, hl, rfl⟩ := h
  refine sites_eq ((nodes_map (fun l => ?_) _).trans (hl.nodes)) rfl
  split <;> rfl

theorem RecordStep.sites (h : RecordStep w w') (hc : w'.seen.records n = some c') : Whence w w' n c'.sites := by
  have hsame : w'.seen.records = w.seen.records → Whence w w' n c'.sites := fun he => .kept (he ▸ hc) rfl
  have hput : ∀ {name : String} {c : Core}, w'.seen.records = (w.seen.put name (some c)).records →
      (name = n → Whence w w' n c.sites) → Whence w w' n c'.sites := by
    intro name c he hw
    rw [he] at hc
    rcases put_cases hc with ⟨hn, rfl⟩ | hc
    · exact hw hn
    · exact .kept hc rfl
  cases h with
  | unseen hs => exact hsame (by rw [hs])
  | lost hs =>
    rw [hs] at hc
    obtain ⟨v, hv, rfl⟩ := Option.map_eq_some_iff.mp hc
    exact .kept (records_eq hv) (core_afterLoss w.fed v).1
  | fenced hv hs =>
    refine hput (by rw [hs]) fun he => ?_
    subst he
    exact .kept (records_eq hv) rfl
  | replacing hv _ hun hs =>
    refine hput (by rw [hs]) fun he => ?_
    subst he
    exact .coming hv hun (congrArg (·, _) (faces_nodes _))
  | gaveUp hv hs =>
    refine hput (by rw [hs]) fun he => ?_
    subst he
    exact .gaveUp hv (congrArg (·, _) (faces_nodes _))
  | swapped hv hun hs =>
    refine hput (by rw [hs]) fun he => ?_
    subst he
    exact .swapped hv hun (sites_core _)
  | rejoined hv hread _ _ hs =>
    refine hput (by rw [hs]) fun he => ?_
    subst he
    obtain ⟨-, -, hrep, hnodes⟩ := applyHeadReading_keeps hread
    exact .kept (records_eq hv) (sites_eq hnodes hrep)
  | copied hv hs => exact hsame (by rw [hs])
  | letGo hs => exact hsame (by rw [hs])
  | assembled hcopy _ _ hv _ hs =>
    refine hput (by rw [hs]) fun he => ?_
    subst he
    obtain ⟨legs, hl, rfl | ⟨array, rfl⟩⟩ := hv
    · exact .back hcopy (sites_eq (hl.nodes) rfl)
    · exact .back hcopy (sites_eq (hl.nodes) rfl)
  | stayed hcopy _ hl _ hs =>
    refine hput (by rw [hs]) fun he => ?_
    subst he
    exact .back hcopy (sites_eq (hl.nodes) rfl)
  | promoted hcopy _ _ _ _ hvol _ _ hs =>
    refine hput (by rw [hs]) fun he => ?_
    subst he
    exact .back hcopy (sites_promoted hvol)
  | reassembled hcopy _ _ hvol _ _ hs =>
    refine hput (by rw [hs]) fun he => ?_
    subst he
    exact .back hcopy (sites_reassembled hvol)
  | made hf hm hs =>
    refine hput (by rw [hs]) fun he => ?_
    subst he
    exact .made hf ⟨_, _, hm⟩ ((sites_core _).trans (by rw [hf.settled]))
  | dropped _ hs =>
    rw [hs] at hc
    simp only [View.put] at hc
    split at hc
    · cases hc
    · exact .kept hc rfl
  | undertook hs => exact hsame (by rw [hs])
  | ended hs => exact hsame (by rw [hs])
  | policy _ _ hs => exact hsame (by rw [hs]; rfl)
  | picked _ hs => exact hsame (by rw [hs]; rfl)
  | stopped _ _ hs => exact hsame (by rw [hs]; rfl)
  | purged hs => exact hsame (by rw [hs]; rfl)
  | reaped hs => exact hsame (by rw [hs])

end

end StormStorage
