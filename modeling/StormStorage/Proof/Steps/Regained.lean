import StormStorage.Proof.Steps.Heads
import StormStorage.Proof.Steps.Sites

/-!
# Lost legs that are created again

A leg that is recorded lost is out of date until the head's array says that it
is a member again: by a reading of the array, or because the array came back
with it. Every other step leaves it lost, so long as copies of records are as
old as the losses (`Vouched`).

* `Remembered.step`: what a step keeps;
* `created_again`: a step that turns a leg back has its evidence.
-/

namespace StormStorage

open Await Task Orchestrate

/-- The legs with this volume on this node, of which there are some, are lost. -/
def Down (faces : List (String × Option String × Option String × LegState)) (node : String) (id : Option String) : Prop :=
  (∃ f ∈ faces, f.1 = node ∧ f.2.1 = id) ∧ ∀ f ∈ faces, f.1 = node → f.2.1 = id → f.2.2.2 = .lost

/-- One of them is created. -/
def Up (faces : List (String × Option String × Option String × LegState)) (node : String) (id : Option String) : Prop :=
  ∃ f ∈ faces, f.1 = node ∧ f.2.1 = id ∧ f.2.2.2 = .created

/-- The volume's leg is recorded lost. -/
def LegDown (w : AppState) (name node : String) (id : Option String) : Prop :=
  ∃ v, w.fed.volumes[name]? = some v ∧ Down v.core.faces node id

/-- The volume's leg is recorded created. -/
def LegUp (w : AppState) (name node : String) (id : Option String) : Prop :=
  ∃ v, w.fed.volumes[name]? = some v ∧ Up v.core.faces node id

/-- The leg's drive is a member of the array. -/
def EngineArray.holds (a : EngineArray) (l : Leg) : Bool :=
  a.members.any fun m => l.export.any (·.driveUri = m.devicePath.getD "")

/-- What a step learnt of the head's array. -/
inductive Evidence (w w' : AppState) (name node : String) (id : Option String) : Prop
  /-- It was read, and the leg's own member was active. -/
  | read {v : DistVolume} {l : Leg} {head array : String} {a : EngineArray} {m : MemberReading} :
      w.fed.volumes[name]? = some v → v.head = some head → v.arrayId = some array → l ∈ v.legs → l.node = node →
      l.volumeId = id → memberOf l (parseArray head array a) = some m → m.state = "active" →
      w'.log = w.log ++ [.headRead name head array (some a)] → Evidence w w' name node id
  /-- It came back, and holds the leg's drive. -/
  | cameBack {v' : DistVolume} {l : Leg} {a : EngineArray} {es : List Event} :
      w'.fed.volumes[name]? = some v' → l ∈ v'.legs → l.node = node → l.volumeId = id → a.holds l = true →
      w'.log = w.log ++ .cameBack name (some a) :: es → Evidence w w' name node id

/-- Losses are recorded where no copy of the record is held, and arrays come
back with the legs that they take back. -/
structure Vouched (w w' : AppState) : Prop where
  /-- No record is made under a claimed name. -/
  claimed : ∀ c ∈ w'.creations, c.claimed = false
  /-- No record is made in the place of one. -/
  anew : ∀ name, Made w w' name → w.fed.volumes[name]? = none
  held : ∀ (name node : String) id, w'.copies.contains name = true → LegDown w' name node id → LegDown w name node id
  back : ∀ (name : String) v' read es, w'.log = w.log ++ .cameBack name read :: es → w'.fed.volumes[name]? = some v' →
    ∀ l ∈ v'.legs, LegDown w name l.node l.volumeId → l.state = .created → ∃ a, read = some a ∧ a.holds l = true

/-- No leg is on the node that the coming one is on. -/
def Core.clear (c : Core) : Prop := ∀ rep, c.sites.2 = some rep → rep.leg.node ∉ c.sites.1

/-- Copies know what is lost. -/
structure Remembered (w : AppState) : Prop where
  records : ∀ (name : String) c, w.seen.records name = some c → c.clear
  copies : ∀ (name : String) (v : DistVolume), w.copies[name]? = some v → v.core.clear
  lost : ∀ (name node : String) id v, w.copies[name]? = some v → LegDown w name node id → Down v.core.faces node id

section

variable {w w' : AppState} {name node : String} {id : Option String}

theorem down_up {faces : List (String × Option String × Option String × LegState)} (h : Down faces node id)
    (h' : Up faces node id) : False := by
  obtain ⟨f, hf, hn, hi, hs⟩ := h'
  rw [h.2 f hf hn hi] at hs
  cases hs

/-- Legs in which no other is created than before. -/
theorem not_up_of_map {v : DistVolume} {f : Leg → Leg} (hd : Down v.core.faces node id)
    (hf : ∀ l, (f l).state = .created → (f l).face = l.face) : ¬ Up ((v.legs.map f).map Leg.face) node id := by
  rintro ⟨x, hx, hn, hi, hs⟩
  obtain ⟨l', hl', rfl⟩ := List.mem_map.mp hx
  obtain ⟨l, hl, rfl⟩ := List.mem_map.mp hl'
  refine down_up hd ⟨l.face, List.mem_map_of_mem hl, ?_⟩
  rw [← hf l hs]
  exact ⟨hn, hi, hs⟩

theorem loseLeg_created {fed : FedState} {l : Leg} (h : (loseLeg fed l).state = .created) : (loseLeg fed l).face = l.face := by
  unfold loseLeg at h ⊢
  split
  · rw [if_pos ‹_›] at h
    cases h
  · rfl

theorem loseAtPromote_created {up : List String} {l : Leg} (h : (Head.loseAtPromote up l).state = .created) :
    (Head.loseAtPromote up l).face = l.face := by
  unfold Head.loseAtPromote at h ⊢
  split
  · rw [if_pos ‹_›] at h
    cases h
  · rfl

/-- What a reading of the head's array turns back. -/
theorem up_applyHeadReading {v v' : DistVolume} {head array : String} {found : Option EngineArray} {changed : Bool}
    (h : applyHeadReading v (found.map (parseArray head array)) = some (v', changed)) (hd : Down v.core.faces node id)
    (hu : Up v'.core.faces node id) :
    ∃ l a m, found = some a ∧ v.head = some head ∧ v.arrayId = some array ∧ l ∈ v.legs ∧ l.node = node ∧
      l.volumeId = id ∧ memberOf l (parseArray head array a) = some m ∧ m.state = "active" := by
  obtain ⟨head', hhead, h⟩ := Option.bind_eq_some_iff.mp h
  obtain ⟨array', harray, h⟩ := Option.bind_eq_some_iff.mp h
  obtain ⟨i, -, h⟩ := Option.bind_eq_some_iff.mp h
  obtain ⟨leg, hleg, h⟩ := Option.bind_eq_some_iff.mp h
  obtain ⟨f, hf, hn, hi, hs⟩ := hu
  split at h
  · cases h
  · rename_i hsame
    split at h
    · rename_i hactive
      obtain ⟨rfl, -⟩ := Prod.mk.inj (Option.some.inj h)
      obtain ⟨l, hl, rfl⟩ := List.mem_map.mp hf
      obtain ⟨r, hr, hm⟩ := (Option.any_eq_true _ _).mp hactive
      obtain ⟨a, rfl, rfl⟩ := Option.map_eq_some_iff.mp hr
      obtain ⟨m, hm, hst⟩ := (Option.any_eq_true _ _).mp hm
      simp only [Option.map_some, Option.any_some, parseArray, decide_eq_true_eq, not_or, Decidable.not_not] at hsame
      obtain ⟨rfl, rfl⟩ := hsame
      rcases List.mem_or_eq_of_mem_set hl with hl | rfl
      · exact (down_up hd ⟨l.face, List.mem_map_of_mem hl, hn, hi, hs⟩).elim
      · exact ⟨leg, a, m, rfl, hhead, harray, List.mem_of_getElem? hleg, hn, hi, hm, of_decide_eq_true hst⟩
    · obtain ⟨rfl, -⟩ := Prod.mk.inj (Option.some.inj h)
      obtain ⟨l, hl, rfl⟩ := List.mem_map.mp hf
      rcases List.mem_or_eq_of_mem_set hl with hl | rfl
      · exact (down_up hd ⟨l.face, List.mem_map_of_mem hl, hn, hi, hs⟩).elim
      · exact (down_up hd ⟨leg.face, List.mem_map_of_mem (List.mem_of_getElem? hleg), hn, hi, hs⟩).elim

/-- A copy is written back: what of it is created is created in the copy, or taken back. -/
theorem not_up_relabelled {c vol : DistVolume} {f : Leg → Leg} (h : RelabelledFrom c vol) (hd : Down c.core.faces node id)
    (hf : ∀ l, (f l).state = .created → (f l).face = l.face) : ¬ Up ((vol.legs.map f).map Leg.face) node id := by
  obtain ⟨legs, hl, rfl⟩ := h
  exact not_up_of_map (v := { c with legs := legs }) (show Down (legs.map Leg.face) node id from hl ▸ hd) hf

/-- Only a leg that comes is new in a record whose leg is swapped. -/
theorem not_up_swapLeg {v : DistVolume} {rep : Replacement} (hd : Down v.core.faces node id) (hrep : v.replacing = some rep)
    (hclear : v.core.clear) : ¬ Up (swapLeg rep v).core.faces node id := by
  rintro ⟨f, hf, hn, hi, hs⟩
  obtain ⟨l, hl, rfl⟩ := List.mem_map.mp hf
  rcases mem_putLeg hl with rfl | hl
  · obtain ⟨⟨x, hx, hxn, -⟩, -⟩ := hd
    rw [Core.clear, sites_core] at hclear
    refine hclear rep hrep ?_
    rw [← faces_nodes, show rep.leg.node = x.1 from hn.trans hxn.symm]
    exact List.mem_map_of_mem hx
  · exact down_up hd ⟨l.face, List.mem_map_of_mem hl, hn, hi, hs⟩

/-- A lost leg that is created again in one step has its evidence. -/
theorem Remembered.evidence (h : Remembered w) (hv : Vouched w w') (hun : Unmade w name) (hstep : RecordStep w w')
    (hd : LegDown w name node id) (hu : LegUp w' name node id) : Evidence w w' name node id := by
  obtain ⟨v, hvol, hdown⟩ := hd
  obtain ⟨v', hvol', hup⟩ := hu
  have hc := records_eq hvol'
  have hkept : w.seen.records name = some v'.core → Evidence w w' name node id := fun he => by
    rw [← Option.some.inj ((records_eq hvol).symm.trans he)] at hup
    exact (down_up hdown hup).elim
  have hsame : w'.seen.records = w.seen.records → Evidence w w' name node id := fun he => hkept (he ▸ hc)
  have hput : ∀ {n : String} {c : Core}, w'.seen.records = (w.seen.put n (some c)).records →
      (n = name → Up c.faces node id → Evidence w w' name node id) → Evidence w w' name node id := by
    intro n c he hw
    rw [he] at hc
    rcases put_cases hc with ⟨hn, rfl⟩ | hc
    · exact hw hn hup
    · exact hkept hc
  -- the copy of a record knows that the leg is lost
  have hcopy : ∀ {c : DistVolume}, w.copies[name]? = some c → Down c.core.faces node id :=
    fun hcopy => h.lost name node id _ hcopy ⟨v, hvol, hdown⟩
  have heq : ∀ {u : DistVolume}, w.fed.volumes[name]? = some u → u = v := fun hu => Option.some.inj (hu.symm.trans hvol)
  cases hstep with
  | unseen hs => exact hsame (by rw [hs])
  | lost hs =>
    rw [hs] at hc
    obtain ⟨u, hu, he⟩ := Option.map_eq_some_iff.mp hc
    obtain rfl := heq hu
    rw [← he] at hup
    unfold afterLoss at hup
    split at hup
    · exact (not_up_of_map hdown (fun _ => loseLeg_created) hup).elim
    · exact (down_up hdown hup).elim
  | fenced hu hs =>
    refine hput (by rw [hs]) fun hn hup => ?_
    subst hn
    exact (down_up (heq hu ▸ hdown) hup).elim
  | replacing hu _ _ hs =>
    refine hput (by rw [hs]) fun hn hup => ?_
    subst hn
    exact (down_up (heq hu ▸ hdown) hup).elim
  | gaveUp hu hs =>
    refine hput (by rw [hs]) fun hn hup => ?_
    subst hn
    exact (down_up (heq hu ▸ hdown) hup).elim
  | swapped hu hrep hs =>
    refine hput (by rw [hs]) fun hn hup => ?_
    subst hn
    obtain rfl := heq hu
    exact (not_up_swapLeg hdown (hrep hun) (h.records _ _ (records_eq hvol)) hup).elim
  | rejoined hu hread hlog _ hs =>
    refine hput (by rw [hs]) fun hn hup => ?_
    subst hn
    obtain rfl := heq hu
    obtain ⟨l, a, m, rfl, hhead, harray, hl, hnode, hid, hm, hst⟩ := up_applyHeadReading hread hdown hup
    exact .read hu hhead harray hl hnode hid hm hst hlog
  | copied _ hs => exact hsame (by rw [hs])
  | letGo hs => exact hsame (by rw [hs])
  | assembled hcopied _ _ hv _ hs =>
    refine hput (by rw [hs]) fun hn hup => ?_
    subst hn
    obtain ⟨legs, hl, rfl | ⟨array, rfl⟩⟩ := hv
    · exact (down_up (show Down (legs.map Leg.face) node id from hl ▸ hcopy hcopied) hup).elim
    · exact (down_up (show Down (legs.map Leg.face) node id from hl ▸ hcopy hcopied) hup).elim
  | @stayed _ _ legs hcopied _ hl _ hs =>
    refine hput (by rw [hs]) fun hn hup => ?_
    subst hn
    exact (down_up (show Down (legs.map Leg.face) node id from hl ▸ hcopy hcopied) hup).elim
  | promoted hcopied _ _ _ _ hlabels _ _ hs =>
    refine hput (by rw [hs]) fun hn hup => ?_
    subst hn
    exact (not_up_relabelled hlabels (hcopy hcopied) (fun _ => loseAtPromote_created) hup).elim
  | reassembled _ _ _ _ hlog hback hs =>
    refine hput (by rw [hs]) fun hn hup => ?_
    subst hn
    obtain ⟨es, hlog⟩ := hlog
    obtain ⟨f, hf, hnode, hid, hst⟩ := hup
    obtain ⟨l, hl, rfl⟩ := List.mem_map.mp hf
    obtain rfl : l.node = node := hnode
    obtain rfl : l.volumeId = id := hid
    obtain ⟨a, rfl, hholds⟩ := hv.back _ _ _ es hlog hback l hl ⟨v, hvol, hdown⟩ hst
    exact .cameBack hback hl rfl rfl hholds hlog
  | made _ hm hs =>
    refine hput (by rw [hs]) fun hn _ => ?_
    subst hn
    rw [hv.anew _ ⟨_, _, hm⟩] at hvol
    cases hvol
  | dropped _ hs =>
    rw [hs] at hc
    simp only [View.put] at hc
    split at hc
    · cases hc
    · exact hkept hc
  | undertook hs => exact hsame (by rw [hs])
  | ended hs => exact hsame (by rw [hs])
  | policy _ _ hs => exact hsame (by rw [hs]; rfl)
  | picked _ hs => exact hsame (by rw [hs]; rfl)
  | stopped _ _ hs => exact hsame (by rw [hs]; rfl)
  | purged hs => exact hsame (by rw [hs]; rfl)
  | reaped hs => exact hsame (by rw [hs])

/-- What a step keeps. -/
theorem Remembered.step (h : Remembered w) (hv : Vouched w w') (hun : ∀ name, Unmade w name) (hstep : RecordStep w w') :
    Remembered w' := by
  refine ⟨fun n c' hc' rep hrep => ?_, fun n v hc => ?_, fun n k i v hc hd => ?_⟩
  · cases hstep.sites hc' with
    | kept hc hs =>
      rw [hs] at hrep ⊢
      exact h.records n _ hc rep hrep
    | back hc hs =>
      rw [hs] at hrep ⊢
      exact h.copies n _ hc rep hrep
    | coming hvol hclear hs =>
      rw [hs] at hrep ⊢
      obtain rfl := Option.some.inj hrep
      intro hm
      obtain ⟨l, hl, he⟩ := List.mem_map.mp hm
      exact (hclear (hun n)).2 l hl he
    | gaveUp _ hs =>
      rw [hs] at hrep
      cases hrep
    | swapped _ _ hs =>
      rw [hs] at hrep
      cases hrep
    | made _ _ hs =>
      rw [hs] at hrep
      cases hrep
  · rcases hstep.copies hc with hc | ⟨hvol, -⟩
    · exact h.copies n v hc
    · exact h.records n _ (records_eq hvol)
  · -- a loss is of a time when no copy was held
    have hd := hv.held n k i (by rw [KeyMap.contains_eq, hc]; rfl) hd
    rcases hstep.copies hc with hc | ⟨hvol, -⟩
    · exact h.lost n k i v hc hd
    · obtain ⟨u, hu, hdown⟩ := hd
      exact Option.some.inj (hvol.symm.trans hu) ▸ hdown

end

/-- A server with one volume, and nothing under way. -/
def AppState.having (v : DistVolume) : AppState := { fed := { volumes := (∅ : KeyMap DistVolume).insert v.name v } }

theorem having_volume {v v' : DistVolume} {name : String} (h : (AppState.having v).fed.volumes[name]? = some v') :
    v' = v ∧ name = v.name := by
  simp only [AppState.having, KeyMap.get_insert] at h
  split at h
  · exact ⟨(Option.some.inj h).symm, Eq.symm ‹_›⟩
  · simp at h

theorem resting_having (v : DistVolume) : Resting (.having v) where
  named _ _ h := by
    obtain ⟨rfl, rfl⟩ := having_volume h
    rfl
  spawned := rfl
  copies := rfl
  undertakings := rfl

/-- A mirror over a and b, whose leg on a is the member m of its array. -/
def memberVolume : DistVolume := { rackVolume with legs := [{ rackLeg "a" with memberUuid := some "m" }, rackLeg "b"] }

/-- The engine reads the array with the member m active. -/
def memberReply : Reply :=
  { plainReply with
    arrays := [{ id := some "arr", members := [{ uuid := some "m", devicePath := none, state := some "active" }] }] }

/-- a is lost and answers again; its array is read. -/
def loseThenRead : List (VolumeMove fun _ => True) :=
  .env (nodesOf [("a", false), ("b", true)]) :: .start ⟨.recover false, trivial⟩ :: .run 0 plainReply ::
    .env (nodesOf [("a", true), ("b", true)]) :: .start ⟨.rejoinHeads, trivial⟩ ::
      List.replicate 2 (.run 1 memberReply)

/-- While the array is put back together b is lost, and that is recorded. -/
def loseWhileBack : List (VolumeMove fun _ => True) :=
  .env (nodesOf [("a", true), ("b", true)]) :: .start ⟨.reassembleHeads, trivial⟩ ::
    List.replicate 4 (.run 0 plainReply) ++
    (.env (nodesOf [("a", true), ("b", false)]) :: .start ⟨.recover true, trivial⟩ :: .run 1 plainReply ::
      List.replicate 7 (.run 0 arrayReply))

/-- No record is made, no copy held, and no array comes back. -/
def vouched (_ w' : AppState) : Bool :=
  w'.creations.isEmpty ∧ w'.copies.isEmpty ∧ w'.log.all fun
    | .cameBack .. => false
    | _ => true

theorem vouched_iff {w w' : AppState} (h : vouched w w' = true) : Vouched w w' := by
  obtain ⟨hc, hcopies, hlog⟩ := of_decide_eq_true h
  have hc := List.isEmpty_iff.mp hc
  refine ⟨fun c hm => by simp [hc] at hm, fun _ ⟨_, _, hm⟩ => by simp [hc] at hm, fun n _ _ hcont => ?_,
    fun _ _ read es he => ?_⟩
  · rw [Std.ExtTreeMap.isEmpty_iff.mp hcopies] at hcont
    simp at hcont
  · have := List.all_eq_true.mp hlog (.cameBack _ read) (he ▸ List.mem_append_right _ List.mem_cons_self)
    cases this

instance {faces : List (String × Option String × Option String × LegState)} {node : String} {id : Option String} :
    Decidable (Down faces node id) :=
  inferInstanceAs (Decidable ((∃ f ∈ faces, f.1 = node ∧ f.2.1 = id) ∧
    ∀ f ∈ faces, f.1 = node → f.2.1 = id → f.2.2.2 = .lost))

instance {faces : List (String × Option String × Option String × LegState)} {node : String} {id : Option String} :
    Decidable (Up faces node id) :=
  inferInstanceAs (Decidable (∃ f ∈ faces, f.1 = node ∧ f.2.1 = id ∧ f.2.2.2 = .created))

/-- From one state to the next the volume's leg on the node is lost and created again. -/
def regained (node : String) (w w' : AppState) : Bool :=
  (w.fed.volumes["v"]?.any fun v => Down v.core.faces node (some "d")) &&
    w'.fed.volumes["v"]?.any fun v => Up v.core.faces node (some "d")

theorem regained_iff {node : String} {w w' : AppState} (h : regained node w w' = true) :
    LegDown w "v" node (some "d") ∧ LegUp w' "v" node (some "d") := by
  obtain ⟨hd, hu⟩ := Bool.and_eq_true_iff.mp h
  obtain ⟨v, hv, hd⟩ := (Option.any_eq_true _ _).mp hd
  obtain ⟨v', hv', hu⟩ := (Option.any_eq_true _ _).mp hu
  exact ⟨⟨v, hv, of_decide_eq_true hd⟩, v', hv', of_decide_eq_true hu⟩

end StormStorage
