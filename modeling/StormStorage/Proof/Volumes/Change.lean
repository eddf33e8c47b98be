import StormStorage.Proof.Remote

/-!
# What an operation does to a volume's record

Every record that an operation writes is new (`Fresh`), or comes from one that
was there by the ways of `VolumeChange`. A property of single records that the new
ones have and the changes keep is a `Rule`; it needs no more to hold in every
reachable state.

* `answers_assembleInner`, `answers_assembleOn`, `answers_createLegs`: what the
  phases that call engines hand back;
* `VolumeChange.same`: the edits that leave nodes, states, head and assembly alone.
-/

namespace StormStorage

open Await Task Orchestrate

/-- What of a leg matters here: where it is, its volume, and its state. -/
def Leg.face (l : Leg) : String × Option String × Option String × LegState := (l.node, l.volumeId, l.masterNode, l.state)

/-- The same legs, in the same states. -/
def SameLegs (legs legs' : List Leg) : Prop := legs'.map Leg.face = legs.map Leg.face

namespace SameLegs

variable {legs legs' legs'' : List Leg}

theorem refl (legs : List Leg) : SameLegs legs legs := rfl

theorem trans (h : SameLegs legs legs') (h' : SameLegs legs' legs'') : SameLegs legs legs'' := Eq.trans h' h

theorem cons {l l' : Leg} (hl : l'.face = l.face) (h : SameLegs legs legs') : SameLegs (l :: legs) (l' :: legs') := by
  simp only [SameLegs, List.map_cons, hl]
  rw [h]

theorem nodes (h : SameLegs legs legs') : legs'.map (·.node) = legs.map (·.node) := by
  have := congrArg (List.map Prod.fst) h
  simpa [List.map_map, Function.comp_def, Leg.face] using this

theorem states (h : SameLegs legs legs') : legs'.map (·.state) = legs.map (·.state) := by
  have := congrArg (List.map fun f => f.2.2.2) h
  simpa [List.map_map, Function.comp_def, Leg.face] using this

theorem volumes (h : SameLegs legs legs') :
    (legs'.map fun l => (l.node, l.volumeId)) = legs.map fun l => (l.node, l.volumeId) := by
  have := congrArg (List.map fun f => (f.1, f.2.1)) h
  simpa [List.map_map, Function.comp_def, Leg.face] using this

theorem map (f : Leg → Leg) (hf : ∀ l, (f l).face = l.face) : SameLegs legs (legs.map f) := by
  simp only [SameLegs, List.map_map]
  exact List.map_congr_left fun l _ => hf l

theorem modify (i : Nat) (f : Leg → Leg) (hf : ∀ l, (f l).face = l.face) : SameLegs legs (legs.modify i f) := by
  induction legs generalizing i with
  | nil => cases i <;> rfl
  | cons l ls ih =>
    cases i with
    | zero => exact cons (hf l) (refl ls)
    | succ i => exact cons rfl (ih i)

end SameLegs

/-! ## What phases answer -/

theorem answers_attachLegs {host : String} (legs : List Leg) :
    (attachLegs host legs).Answers fun r => SameLegs legs r.1 := by
  induction legs with
  | nil => exact .refl []
  | cons leg rest ih =>
    unfold attachLegs
    split
    · exact ih.bind fun r hr => SameLegs.cons rfl hr
    · refine (answers_true _).attempt_bind (fun att _ => ?_) fun e => ?_
      · exact ih.bind fun r hr => SameLegs.cons rfl hr
      · exact .refl _

theorem answers_openLegs {head : String} (legs : List Leg) :
    (openLegs head legs).Answers fun r => SameLegs legs r.1 := by
  induction legs with
  | nil => exact .refl []
  | cons leg rest ih =>
    refine (answers_true _).attempt_bind (fun uuid _ => ?_) fun e => ?_
    · exact ih.bind fun r hr => SameLegs.cons rfl hr
    · exact .refl _

theorem sameLegs_nameMembers (uris : List String) (legs : List Leg) (members : List ArrayMember) :
    SameLegs legs (nameMembers uris legs members) := by
  unfold nameMembers
  generalize members.zipIdx = ms
  induction ms generalizing legs with
  | nil => exact .refl legs
  | cons m ms ih =>
    rw [List.foldl_cons]
    refine SameLegs.trans ?_ (ih _)
    obtain ⟨m, i⟩ := m
    dsimp only
    split
    · exact .refl legs
    · exact SameLegs.modify _ _ fun _ => rfl

/-- The copy that an assembly on `head` hands back. -/
def AssembledFrom (head : String) (vol vol' : DistVolume) : Prop :=
  ∃ legs, SameLegs vol.legs legs ∧ (vol' = { vol with legs := legs } ∨
    ∃ array, vol' = { vol with legs := legs, head := some head, arrayId := some array, assembly := .assembled })

theorem answers_assembleInner {cfg : Config} {head : String} {vol : DistVolume} :
    (assembleInner cfg head vol).Answers fun r => AssembledFrom head vol r.1 := by
  refine (answers_attachLegs _).bind fun r hr => ?_
  split
  · exact ⟨_, hr, .inl rfl⟩
  · refine (answers_openLegs _).bind fun r' hr' => ?_
    have hlegs := hr.trans hr'
    split
    · exact ⟨_, hlegs, .inl rfl⟩
    · refine (answers_true _).attempt_bind (fun array _ => ?_) fun e => ?_
      · dsimp only
        split
        · exact ⟨_, hlegs, .inl rfl⟩
        · exact ⟨_, hlegs.trans (sameLegs_nameMembers _ _ _), .inr ⟨_, rfl⟩⟩
      · exact ⟨_, hlegs, .inl rfl⟩

theorem answers_makeLeg {me : Nat} {name target : String} :
    (makeLeg me name target).Answers fun leg => ∃ id node, leg.face = (target, some id, some node, .created) := by
  refine (answers_true _).bind fun created _ => ?_
  split
  · trivial
  · exact ⟨_, _, rfl⟩

theorem answers_wireLeg {cfg : Config} {head : String} {leg : Leg} :
    (wireLeg cfg head leg).Answers fun r => r.1.face = leg.face := by
  refine (answers_true _).attempt_bind (fun att _ => ?_) fun e => rfl
  refine (answers_true _).attempt_bind (fun drive _ => ?_) fun e => rfl
  exact (answers_true _).attempt_bind (fun member _ => rfl) fun e => rfl

section

variable {cfg : Config} {target : String} {up : List String} {pick : Leg → Bool}

theorem answers_openLeg {leg : Leg} : (Head.openLeg cfg target up leg).Answers fun l => l.face = leg.face := by
  unfold Head.openLeg
  split
  · trivial
  · split
    · trivial
    · exact (answers_true _).bind fun _ _ => (answers_true _).bind fun _ _ => rfl

theorem answers_openPicked (legs : List Leg) :
    (Head.openPicked cfg target up pick legs).Answers fun legs' => SameLegs legs legs' := by
  induction legs with
  | nil => exact .refl []
  | cons leg rest ih =>
    unfold Head.openPicked
    split
    · exact answers_openLeg.bind fun l hl => ih.bind fun _ hr => SameLegs.cons hl hr
    · exact ih.bind fun _ hr => SameLegs.cons rfl hr

theorem face_renumber (r : ArrayReading) (l : Leg) : (Head.renumber pick r l).face = l.face := by
  unfold Head.renumber
  split
  · split <;> rfl
  · rfl

/-- The copy that goes with an array put together again. -/
def RelabelledFrom (vol vol' : DistVolume) : Prop := ∃ legs, SameLegs vol.legs legs ∧ vol' = { vol with legs := legs }

theorem answers_assembleOn {vol : DistVolume} :
    (Head.assembleOn cfg target up pick vol).Answers fun r => RelabelledFrom vol r.1 := by
  unfold Head.assembleOn
  split
  · trivial
  · refine (answers_openPicked _).bind fun legs hlegs => (answers_true _).bind fun made _ => ?_
    split
    · trivial
    · refine Keeps.bind (Q := fun r => SameLegs legs r.1) ?_ fun r hlegs' => ?_
      · refine (answers_true _).attempt_bind (fun a _ => ?_) fun e => ?_
        · exact SameLegs.map _ (face_renumber _)
        · exact .refl legs
      · have hq := hlegs.trans hlegs'
        exact (answers_true _).attempt_bind (fun vs _ => ⟨_, hq, rfl⟩) fun e => ⟨_, hq, rfl⟩

theorem answers_reattachLegs {head : String} (legs : List Leg) :
    (Head.reattachLegs cfg head up legs).Answers fun legs' => SameLegs legs legs' := by
  induction legs with
  | nil => exact .refl []
  | cons leg rest ih =>
    unfold Head.reattachLegs
    split
    · exact ih.bind fun _ hr => SameLegs.cons rfl hr
    · exact (answers_true _).attempt_bind (fun att _ => ih.bind fun _ hr => SameLegs.cons rfl hr)
        fun e => ih.bind fun _ hr => SameLegs.cons rfl hr

end

/-- Legs that a create made: all of them created. -/
theorem answers_createLegs {me : Nat} {name : String} (nodes : List String) :
    (Api.createLegs me name nodes).Answers fun r =>
      (∀ l ∈ r.1, l.state = .created) ∧ (r.2 = none → r.1.map (·.node) = nodes) := by
  induction nodes with
  | nil => exact ⟨fun _ h => absurd h List.not_mem_nil, fun _ => rfl⟩
  | cons node rest ih =>
    refine (answers_true _).bind fun _ _ => (answers_true _).attempt_bind (fun v _ => ih.bind fun r hr => ?_) fun e => ?_
    · refine ⟨fun l hl => ?_, fun h => ?_⟩
      · rcases List.mem_cons.mp hl with rfl | hl
        · rfl
        · exact hr.1 l hl
      · exact congrArg (node :: ·) (hr.2 h)
    · exact ⟨fun _ h => absurd h List.not_mem_nil, fun h => nomatch h⟩

/-! ## The ways a record changes -/

/-- A record that a create makes. -/
structure Fresh (v : DistVolume) : Prop where
  created : ∀ l ∈ v.legs, l.state = .created
  unassembled : v.assembly ≠ .assembled ∧ v.assembly ≠ .degraded
  headless : v.head = none
  settled : v.replacing = none

/-- One change of a record; `A` says of which records a replacement may take
which leg. -/
inductive VolumeChange (A : DistVolume → String → Prop) : DistVolume → DistVolume → Prop
  | same {v v' : DistVolume} : SameLegs v.legs v'.legs → v'.assembly = v.assembly → v'.head = v.head →
      v'.replacing = v.replacing ∨ v'.replacing = none → VolumeChange A v v'
  | assembled {v v' : DistVolume} {l : Leg} : l ∈ v.legs → (∀ l ∈ v.legs, l.state = .created) →
      SameLegs v.legs v'.legs → v'.assembly = .assembled → v'.head = some l.node → v'.replacing = v.replacing →
      VolumeChange A v v'
  | replacing {v : DistVolume} {rep : Replacement} : rep.leg.state = .created →
      VolumeChange A v { v with replacing := some rep }
  | swapped {v : DistVolume} {rep : Replacement} : rep.leg.state = .created → A v rep.from →
      VolumeChange A v (swapLeg rep v)
  | lost (v : DistVolume) (fed : FedState) : VolumeChange A v (afterLoss fed v)
  | rejoined {v v' : DistVolume} {r : Option ArrayReading} {b : Bool} : applyHeadReading v r = some (v', b) →
      VolumeChange A v v'
  | promoted {v : DistVolume} {target : String} {l : Leg} (up : List String) (served : Option String) :
      l ∈ v.legs → l.node = target → VolumeChange A v (Head.promoted target up served v)
  | reassembled {v : DistVolume} {head : String} (array : String) (pick : Leg → Bool) (served : Option String) :
      v.head = some head → VolumeChange A v (Head.reassembled head array pick served v)

/-- A property of single records that new ones have and changes keep. -/
structure Rule (A : DistVolume → String → Prop) (I : DistVolume → Prop) : Prop where
  fresh : ∀ v, Fresh v → I v
  change : ∀ v v', I v → VolumeChange A v v' → I v'
  /-- A leg that is coming is there. -/
  coming : ∀ v rep, I v → v.replacing = some rep → rep.leg.state = .created

end StormStorage
