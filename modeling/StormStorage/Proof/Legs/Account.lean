import StormStorage.Proof.Serves
import StormStorage.Proof.Volumes.Apart

/-!
# What becomes of the legs that are made

A leg is made by the task that creates its volume, or by the one that holds the
volume's claim (`Mine`). Until a record refers to it (`Refers`) the task has it
in hand (`Hand`); the others neither make legs under that name nor drop what a
record says of one that is still there (`LegsGuar`).

* `LegsInv.beside`, `LegsInv.rewritten`, `LegsInv.claimed`: what steps keep;
* `Hand.kept`: the others leave what a task has in hand.
-/

namespace StormStorage

open Await Task Orchestrate

/-! ## What records say of legs -/

/-- The engine volumes of a record's legs, and its replacement. -/
structure Holding where
  name : String
  legs : List (String × Option String)
  replacing : Option Replacement

def DistVolume.holding (v : DistVolume) : Holding where
  name := v.name
  legs := v.legs.map fun l => (l.node, l.volumeId)
  replacing := v.replacing

/-- The volumes of its legs, with the one that is coming. -/
def Holding.spots (h : Holding) : List (String × Option String) :=
  h.legs ++ (h.replacing.map fun r => (r.leg.node, r.leg.volumeId)).toList

def FedState.holdingAt (fed : FedState) (name : String) : Option Holding := (fed.volumes[name]?).map (·.holding)

/-- A record refers to this volume of a node's engine: as a leg, as a coming
leg or as an orphan. -/
def Refers (fed : FedState) (node id : String) : Prop :=
  (∃ n h, fed.holdingAt n = some h ∧ (node, some id) ∈ h.spots) ∨ ∃ o ∈ fed.orphans, o.node = node ∧ o.volumeId = id

/-- A leg that is there. -/
def EngineVolume.Live (e : EngineVolume) : Prop := e.leg = true ∧ e.deleted = false

/-- The id was given, and no leg that is there has it. -/
def Gone (node id : String) (w : AppState) : Prop :=
  w.given node id = true ∧ ∀ e ∈ w.engines, e.Live → ¬ (e.node = node ∧ e.id = id)

/-! ## Who makes legs -/

/-- The names that a task's undertakings create. -/
def AppState.creating (w : AppState) (t : Nat) : List String :=
  (w.undertakings.filter (·.task = t)).flatMap (·.creates)

def AppState.deleting (w : AppState) (t : Nat) : List String :=
  (w.undertakings.filter (·.task = t)).flatMap (·.deletes)

/-- Task `t` may make legs under this name. -/
def Mine (t : Nat) (n : String) (w : AppState) : Prop := n ∈ w.creating t ∨ Holds t n w

/-- No leg was left behind, no replacement was recorded under a delete, and a
volume that is being created has no other operation. -/
structure Orderly (w : AppState) : Prop where
  answered : ∀ why e, .left why e ∉ w.log
  clear : ∀ n, .replacing n true ∉ w.log
  alone : ∀ a ∈ w.undertakings, ∀ n ∈ a.creates,
    (∀ b ∈ w.undertakings, (n ∈ b.creates → b.task = a.task) ∧ n ∉ b.deletes) ∧
    (∀ c, w.replacing[n]? = some c → c.task = a.task) ∧ ∀ s ∈ w.spawned, s.name ≠ n

section

variable {w w' : AppState} {t u : Nat} {n : String}

theorem mem_creating : n ∈ w.creating t ↔ ∃ a ∈ w.undertakings, a.task = t ∧ n ∈ a.creates := by
  simp [AppState.creating, and_assoc]

theorem mem_deleting : n ∈ w.deleting t ↔ ∃ a ∈ w.undertakings, a.task = t ∧ n ∈ a.deletes := by
  simp [AppState.deleting, and_assoc]

theorem Orderly.not_deleting (ho : Orderly w) (h : n ∈ w.creating t) : n ∉ w.deleting u := by
  intro hd
  obtain ⟨a, ha, -, hn⟩ := mem_creating.mp h
  obtain ⟨b, hb, -, hd⟩ := mem_deleting.mp hd
  exact ((ho.alone a ha n hn).1 b hb).2 hd

theorem Orderly.not_spawned (ho : Orderly w) (h : n ∈ w.creating t) : ∀ s ∈ w.spawned, s.name ≠ n := by
  obtain ⟨a, ha, -, hn⟩ := mem_creating.mp h
  exact (ho.alone a ha n hn).2.2

theorem Orderly.claim_eq (ho : Orderly w) (h : n ∈ w.creating t) {c : Claim} (hc : w.replacing[n]? = some c) :
    c.task = t := by
  obtain ⟨a, ha, rfl, hn⟩ := mem_creating.mp h
  exact (ho.alone a ha n hn).2.1 c hc

/-- One task at a time makes the legs of a volume. -/
theorem Mine.unique (ho : Orderly w) (h : Mine t n w) (h' : Mine u n w) : u = t := by
  rcases h with h | h
  · rcases h' with h' | h'
    · obtain ⟨a, ha, rfl, hn⟩ := mem_creating.mp h
      obtain ⟨b, hb, rfl, hn'⟩ := mem_creating.mp h'
      exact ((ho.alone a ha n hn).1 b hb).1 hn'
    · exact ho.claim_eq h h'.1
  · rcases h' with h' | h'
    · exact (ho.claim_eq h' h.1).symm
    · exact (Claim.mk.inj (Option.some.inj (h'.1.symm.trans h.1)))

end

/-! ## What holds at every moment -/

/-- Every leg of this name that is there is referred to. -/
def Referred (n : String) (w : AppState) : Prop := ∀ e ∈ w.engines, e.Live → e.name = n → Refers w.fed e.node e.id

structure LegsInv (w : AppState) : Prop where
  /-- A leg is referred to, or an operation on its volume is under way. -/
  kept : ∀ e ∈ w.engines, e.Live →
    Refers w.fed e.node e.id ∨ (∃ t, e.name ∈ w.creating t) ∨ w.replacing.contains e.name = true
  /-- What was handed to the background is claimed. -/
  handed : ∀ s ∈ w.spawned, w.replacing.contains s.name = true ∧ Referred s.name w
  once : (w.spawned.map Spawn.name).Nodup
  named : ∀ n h, w.fed.holdingAt n = some h → h.name = n
  given : ∀ n h node id, w.fed.holdingAt n = some h → (node, some id) ∈ h.spots → w.given node id = true
  /-- A coming leg can be taken back. -/
  coming : ∀ n h rep, w.fed.holdingAt n = some h → h.replacing = some rep →
    rep.leg.volumeId.isSome = true ∧ rep.leg.masterNode.isSome = true
  orderly : Orderly w

/-- While a delete of the volume is under way, its record takes no more legs on. -/
def Narrowed (n : String) (w w' : AppState) : Prop :=
  ∀ h', w'.fed.holdingAt n = some h' → ∃ h, w.fed.holdingAt n = some h ∧
    ((∃ t, n ∈ w.deleting t) → h'.spots ⊆ h.spots)

/-- What a task's steps, or the environment's, do. -/
structure LegsGuar (u : Option Nat) (w w' : AppState) : Prop where
  refers : ∀ node id, Refers w.fed node id → Refers w'.fed node id ∨ Gone node id w'
  legs : ∀ e' ∈ w'.engines, e'.Live → (∃ e ∈ w.engines, e.Later e') ∨
    (w.given e'.node e'.id = false ∧ ∃ v, u = some v ∧ e'.maker = u ∧ Mine v e'.name w)
  given : ∀ node id, w.given node id = true → w'.given node id = true
  undertakes : ∀ t, u ≠ some t → w'.creating t = w.creating t ∧ w'.deleting t = w.deleting t
  holds : ∀ t n, u ≠ some t → Holds t n w → Holds t n w'
  claims : ∀ t (n : String), u ≠ some t → w'.replacing[n]? = some ⟨t⟩ → w.replacing[n]? = some ⟨t⟩
  holding : ∀ n, w'.fed.holdingAt n = w.fed.holdingAt n ∨ ∃ v, u = some v ∧
    (n ∈ w.creating v ∨ (Holds v n w ∧ Narrowed n w w') ∨ (n ∈ w.deleting v ∧ w'.fed.holdingAt n = none))

@[reducible] def legsDiscipline : Discipline AppState where
  inv := LegsInv
  ok _ w' := Orderly w'
  guar := LegsGuar

/-! ## What is left alone -/

theorem EngineVolume.Later.live {e e' : EngineVolume} (h : e.Later e') (hl : e'.Live) : e.Live := by
  refine ⟨h.leg.symm.trans hl.1, ?_⟩
  by_contra hd
  rw [Bool.not_eq_false] at hd
  exact Bool.false_ne_true (hl.2.symm.trans (h.deleted hd))

section

variable {w w' : AppState} {t : Nat} {u : Option Nat} {n node id : String}

theorem Gone.kept (hg : LegsGuar u w w') (h : Gone node id w) : Gone node id w' := by
  refine ⟨hg.given _ _ h.1, fun e' he' hl ⟨hn, hi⟩ => ?_⟩
  rcases hg.legs e' he' hl with ⟨e, he, hlater⟩ | ⟨hnew, -⟩
  · exact h.2 e he (hlater.live hl) ⟨hlater.node.symm.trans hn, hlater.id.symm.trans hi⟩
  · rw [hn, hi, h.1] at hnew
    cases hnew

/-- What a record said of a leg that is still there, one says. -/
theorem LegsGuar.stays (hg : LegsGuar u w w') {e e' : EngineVolume} (he' : e' ∈ w'.engines) (hl : e'.Live)
    (hlater : e.Later e') (h : Refers w.fed e.node e.id) : Refers w'.fed e'.node e'.id := by
  rcases hg.refers _ _ h with h | h
  · rwa [hlater.node, hlater.id]
  · exact absurd ⟨hlater.node, hlater.id⟩ (h.2 e' he' hl)

/-- Records, claims, undertakings and what was handed over stay, and no leg is made. -/
structure Beside (w w' : AppState) : Prop where
  engines : EnginesLater false w w'
  holding : ∀ n, w'.fed.holdingAt n = w.fed.holdingAt n
  orphans : w'.fed.orphans = w.fed.orphans
  undertakings : w'.undertakings = w.undertakings
  replacing : w'.replacing = w.replacing
  spawned : w'.spawned = w.spawned

theorem Beside.refl (w : AppState) : Beside w w := ⟨enginesLater_of_eq rfl, fun _ => rfl, rfl, rfl, rfl, rfl⟩

theorem beside_of_serves (h : Serves w w') : Beside w w' := by
  refine ⟨h.engines, fun n => ?_, by rw [h.eq], by rw [h.eq], by rw [h.eq], by rw [h.eq]⟩
  have hold : ∀ fed : FedState, fed.holdingAt n = ((fed.volumes[n]?).map DistVolume.bare).map DistVolume.holding := by
    intro fed
    rw [Option.map_map]
    refine congrArg (Option.map · _) (funext fun v => ?_)
    simp [DistVolume.holding, DistVolume.bare, Function.comp_def]
  rw [hold, hold, h.records]

theorem beside_of_calls (h : Calls false w w') : Beside w w' := beside_of_serves (serves_of_calls h)

theorem Beside.refers (h : Beside w w') : Refers w'.fed node id ↔ Refers w.fed node id := by
  simp only [Refers, h.holding, h.orphans]

theorem Beside.holds (h : Beside w w') (hh : Holds t n w) : Holds t n w' := by
  rwa [Holds, h.replacing, h.spawned]

theorem Beside.guar (h : Beside w w') : LegsGuar u w w' where
  refers _ _ hr := .inl (h.refers.mpr hr)
  legs e' he' hl := by
    rcases h.engines.back e' he' with hold | ⟨-, hnew⟩
    · exact .inl hold
    · exact absurd (hnew hl.1) Bool.false_ne_true
  given _ _ := h.engines.given
  undertakes t _ := by rw [AppState.creating, AppState.deleting, h.undertakings]; exact ⟨rfl, rfl⟩
  holds _ _ _ := h.holds
  claims _ _ _ hc := h.replacing ▸ hc
  holding n := .inl (h.holding n)

/-- A leg is referred to where it was, if what is said of it was said of all of that name. -/
theorem LegsGuar.referred (hg : LegsGuar u w w') (hnot : ∀ v, u = some v → ¬ Mine v n w) (h : Referred n w) :
    Referred n w' := by
  intro e' he' hl hn
  rcases hg.legs e' he' hl with ⟨e, he, hlater⟩ | ⟨-, v, hu, -, hmine⟩
  · exact hg.stays he' hl hlater (h e he (hlater.live hl) (hlater.name.symm.trans hn))
  · exact absurd (hn ▸ hmine) (hnot v hu)

/-- The records are in order. -/
def Recorded (w : AppState) : Prop := ∀ n h, w.fed.holdingAt n = some h → h.name = n ∧
  (∀ node id, (node, some id) ∈ h.spots → w.given node id = true) ∧
  ∀ rep, h.replacing = some rep → rep.leg.volumeId.isSome = true ∧ rep.leg.masterNode.isSome = true

theorem LegsInv.recorded (hi : LegsInv w) : Recorded w := fun n h hh =>
  ⟨hi.named n h hh, fun node id => hi.given n h node id hh, fun rep => hi.coming n h rep hh⟩

/-- A step after which a volume's legs are referred to, or the operations on it are under way still. -/
theorem LegsInv.of_guar (hi : LegsInv w) (hg : LegsGuar u w w') (hok : Orderly w')
    (hown : ∀ n, Referred n w' ∨ (∃ t, n ∈ w'.creating t) ∨ ((∀ t, n ∈ w.creating t → n ∈ w'.creating t) ∧
      (w.replacing.contains n = true → w'.replacing.contains n = true)))
    (hs : ∀ s ∈ w'.spawned, w'.replacing.contains s.name = true ∧ (s ∈ w.spawned ∨ Referred s.name w'))
    (hone : (w'.spawned.map Spawn.name).Nodup) (hrecords : Recorded w') : LegsInv w' where
  kept e' he' hl := by
    rcases hown e'.name with href | hcreating | ⟨hc, hr⟩
    · exact .inl (href e' he' hl rfl)
    · exact .inr (.inl hcreating)
    rcases hg.legs e' he' hl with ⟨e, he, hlater⟩ | ⟨-, v, -, -, hmine | hmine⟩
    · rcases hi.kept e he (hlater.live hl) with h | ⟨t, h⟩ | h
      · exact .inl (hg.stays he' hl hlater h)
      · exact .inr (.inl ⟨t, hc t (hlater.name ▸ h)⟩)
      · exact .inr (.inr (hr (hlater.name ▸ h)))
    · exact .inr (.inl ⟨v, hc v hmine⟩)
    · refine .inr (.inr (hr ?_))
      rw [KeyMap.contains_eq, hmine.1]
      rfl
  handed s hs' := by
    obtain ⟨hclaim, hold | href⟩ := hs s hs'
    · refine ⟨hclaim, hg.referred (fun v _ hmine => ?_) (hi.handed s hold).2⟩
      rcases hmine with h | h
      · exact hi.orderly.not_spawned h s hold rfl
      · exact h.2 s hold rfl
    · exact ⟨hclaim, href⟩
  once := hone
  named n h hh := (hrecords n h hh).1
  given n h node id hh hm := (hrecords n h hh).2.1 node id hm
  coming n h rep hh hr := (hrecords n h hh).2.2 rep hr
  orderly := hok

/-- The same of a step that leaves undertakings, claims and what was handed over. -/
theorem LegsInv.of_quiet (hi : LegsInv w) (hg : LegsGuar u w w') (hok : Orderly w')
    (hc : ∀ t, w'.creating t = w.creating t) (hr : w'.replacing = w.replacing) (hs : w'.spawned = w.spawned)
    (hrecords : Recorded w') : LegsInv w' := by
  refine hi.of_guar hg hok (fun n => .inr (.inr ⟨fun t h => by rwa [hc], fun h => hr ▸ h⟩)) (fun s h => ?_) (hs ▸ hi.once) hrecords
  rw [hs] at h
  exact ⟨hr ▸ (hi.handed s h).1, .inl h⟩

theorem Recorded.same (h : Recorded w) (hold : ∀ n, w'.fed.holdingAt n = w.fed.holdingAt n)
    (hgiven : ∀ node id, w.given node id = true → w'.given node id = true) : Recorded w' := by
  intro n k hk
  rw [hold] at hk
  obtain ⟨hn, hg, hc⟩ := h n k hk
  exact ⟨hn, fun node id hm => hgiven node id (hg node id hm), hc⟩

theorem LegsInv.beside (hi : LegsInv w) (h : Beside w w') (hok : Orderly w') : LegsInv w' :=
  hi.of_quiet (u := none) h.guar hok (fun t => by rw [AppState.creating, h.undertakings, AppState.creating]) h.replacing
    h.spawned (hi.recorded.same h.holding fun _ _ => h.engines.given)

end

/-! ## What a task has in hand -/

/-- A task makes legs under this name: those that no record refers to are its
own and listed in `X`, and `A` says what of the record. The task creates `cs`;
`claimed` says that it holds the claim. -/
structure Hand (t : Nat) (n : String) (cs : List String) (claimed : Bool) (X : List (String × String))
    (A : Option Holding → Prop) (w : AppState) : Prop where
  own : n ∈ cs ∨ claimed = true
  creating : w.creating t = cs
  holds : claimed = true → Holds t n w
  hand : ∀ e ∈ w.engines, e.Live → e.name = n →
    Refers w.fed e.node e.id ∨ (e.maker = some t ∧ (e.node, e.id) ∈ X)
  given : ∀ node id, (node, id) ∈ X → w.given node id = true
  record : A (w.fed.holdingAt n)
  erased : A none

section

variable {w w' : AppState} {t : Nat} {u : Option Nat} {n node id : String} {cs : List String} {c : Bool}
  {X X' : List (String × String)} {A A' : Option Holding → Prop}

theorem Hand.mine (h : Hand t n cs c X A w) : Mine t n w := by
  rcases h.own with hn | hc
  · exact .inl (h.creating ▸ hn)
  · exact .inr (h.holds hc)

/-- The others leave it alone. -/
theorem Hand.kept (ho : Orderly w) (hg : LegsGuar u w w') (hu : u ≠ some t) (h : Hand t n cs c X A w) :
    Hand t n cs c X A w' := by
  have hnot : ∀ v, u = some v → ¬ Mine v n w := fun v hv hmine => hu (hv.trans (congrArg some (h.mine.unique ho hmine)))
  refine ⟨h.own, (hg.undertakes t hu).1.trans h.creating, fun hc => hg.holds t n hu (h.holds hc), fun e' he' hl hn => ?_,
    fun node id hm => hg.given _ _ (h.given node id hm), ?_, h.erased⟩
  · rcases hg.legs e' he' hl with ⟨e, he, hlater⟩ | ⟨-, v, hv, -, hmine⟩
    · rcases h.hand e he (hlater.live hl) (hlater.name.symm.trans hn) with h | ⟨hm, hx⟩
      · exact .inl (hg.stays he' hl hlater h)
      · exact .inr ⟨hlater.maker.trans hm, by rwa [hlater.node, hlater.id]⟩
    · exact absurd (hn ▸ hmine) (hnot v hv)
  · rcases hg.holding n with he | ⟨v, hv, hcr | ⟨hh, -⟩ | ⟨-, he⟩⟩
    · rw [he]
      exact h.record
    · exact absurd (.inl hcr) (hnot v hv)
    · exact absurd (.inr hh) (hnot v hv)
    · rw [he]
      exact h.erased

theorem stable_hand : legsDiscipline.Stable t (Hand t n cs c X A) := fun _ _ _ hu hi _ hg h => h.kept hi.orderly hg hu

theorem stable_gone : legsDiscipline.Stable t (Gone node id) := fun _ _ _ _ _ _ hg h => h.kept hg

/-- What is referred to or gone need not be in hand. -/
theorem Hand.drop (h : Hand t n cs c X A w)
    (hx : ∀ node id, (node, id) ∈ X → (node, id) ∈ X' ∨ Refers w.fed node id ∨ Gone node id w)
    (hx' : ∀ node id, (node, id) ∈ X' → (node, id) ∈ X) : Hand t n cs c X' A w := by
  refine ⟨h.own, h.creating, h.holds, fun e he hl hn => ?_, fun node id hm => h.given _ _ (hx' _ _ hm), h.record, h.erased⟩
  rcases h.hand e he hl hn with h | ⟨hm, hin⟩
  · exact .inl h
  · rcases hx _ _ hin with hin | hr | hgone
    · exact .inr ⟨hm, hin⟩
    · exact .inl hr
    · exact absurd ⟨rfl, rfl⟩ (hgone.2 e he hl)

theorem Hand.referred (h : Hand t n cs c [] A w) : Referred n w := fun e he hl hn =>
  (h.hand e he hl hn).resolve_right fun hx => absurd hx.2 List.not_mem_nil

theorem Hand.beside (hb : Beside w w') (h : Hand t n cs c X A w) : Hand t n cs c X A w' := by
  refine ⟨h.own, ?_, fun hc => hb.holds (h.holds hc), fun e' he' hl hn => ?_, fun node id hm =>
    hb.engines.given (h.given _ _ hm), ?_, h.erased⟩
  · rw [AppState.creating, hb.undertakings]
    exact h.creating
  · rcases hb.engines.back e' he' with ⟨e, he, hlater⟩ | ⟨-, hnew⟩
    · rcases h.hand e he (hlater.live hl) (hlater.name.symm.trans hn) with h | ⟨hm, hx⟩
      · refine .inl (hb.refers.mpr ?_)
        rwa [hlater.node, hlater.id]
      · exact .inr ⟨hlater.maker.trans hm, by rwa [hlater.node, hlater.id]⟩
    · exact absurd (hnew hl.1) Bool.false_ne_true
  · rw [hb.holding]
    exact h.record

end

/-! ## Making a leg -/

section

variable {w w' : AppState} {t : Nat} {n node made : String} {cs : List String} {c : Bool} {X : List (String × String)}
  {A : Option Holding → Prop}

/-- A create answers with what is there, or makes a volume of a new id. -/
theorem mem_createOn {leg : Bool} {e' : EngineVolume} (he' : e' ∈ (w.createOn t node n leg made).engines) :
    (∃ e ∈ w.engines, e.Later e') ∨ (w.given node made = false ∧ w.createdId node n made = some made ∧
      e' = { node := node, name := n, id := made, leg := leg, maker := some t }) := by
  unfold AppState.createOn at he'
  unfold AppState.createdId
  split at he'
  · obtain ⟨e, he, rfl⟩ := List.mem_map.mp he'
    refine .inl ⟨e, he, ?_⟩
    split
    · exact ⟨rfl, rfl, rfl, rfl, rfl, fun h => h, fun h => by simp at h⟩
    · exact .refl e
  · split at he'
    · exact .inl ⟨e', he', .refl e'⟩
    · rename_i hgiven
      rcases List.mem_append.mp he' with he' | he'
      · exact .inl ⟨e', he', .refl e'⟩
      · exact .inr ⟨by simpa using hgiven, if_neg hgiven, List.mem_singleton.mp he'⟩

theorem given_createOn {leg : Bool} {id : String} (h : w.createdId node n made = some id) :
    (w.createOn t node n leg made).given node id = true := by
  unfold AppState.createdId at h
  split at h
  · rename_i e hon
    obtain rfl := Option.some.inj h
    have hm := List.find?_some hon
    simp only [decide_eq_true_eq] at hm
    have hcalls : Calls true w (w.createOn t node n leg made) := remote_createOn w t node n (fun _ => rfl) made
    exact hcalls.engines.given
      (AppState.given_iff.mpr ⟨e, List.mem_of_find?_eq_some hon, hm.1, rfl⟩)
  · rename_i hon
    split at h
    · cases h
    · obtain rfl := Option.some.inj h
      rename_i hgiven
      unfold AppState.createOn
      rw [hon]
      dsimp only
      rw [if_neg hgiven]
      exact AppState.given_iff.mpr ⟨_, List.mem_append_right _ (List.mem_singleton_self _), rfl, rfl⟩

/-- Who has a volume in hand makes a leg of it. -/
theorem LegsInv.createOn (hi : LegsInv w) (hh : Hand t n cs c X A w) (hok : Orderly (w.createOn t node n true made)) :
    LegsInv (w.createOn t node n true made) ∧ LegsGuar (some t) w (w.createOn t node n true made) := by
  have hcalls : Calls true w (w.createOn t node n true made) := remote_createOn w t node n (fun _ => rfl) made
  have hu := hcalls.undertakings
  have hhold : ∀ m, (w.createOn t node n true made).fed.holdingAt m = w.fed.holdingAt m := fun m => by rw [hcalls.fed]
  have hg : LegsGuar (some t) w (w.createOn t node n true made) := by
    refine ⟨fun node id h => .inl (by rwa [hcalls.fed]), fun e' he' hl => ?_, fun _ _ => hcalls.engines.given,
      fun u _ => ?_, fun u m _ h => ?_, fun _ _ _ h => hcalls.replacing ▸ h, fun m => .inl (hhold m)⟩
    · rcases mem_createOn he' with h | ⟨hnew, -, rfl⟩
      · exact .inl h
      · exact .inr ⟨hnew, t, rfl, rfl, hh.mine⟩
    · rw [AppState.creating, AppState.deleting, hu]
      exact ⟨rfl, rfl⟩
    · rwa [Holds, hcalls.replacing, hcalls.spawned]
  exact ⟨hi.of_quiet hg hok (fun u => by rw [AppState.creating, hu, AppState.creating]) hcalls.replacing hcalls.spawned
    (hi.recorded.same hhold fun _ _ => hcalls.engines.given), hg⟩

/-- It has the leg in hand that the answer names. -/
theorem Hand.createOn (hh : Hand t n cs c X A w) {X' : List (String × String)} (hx : X ⊆ X')
    (hgiven : ∀ node' id, (node', id) ∈ X' → (w.createOn t node n true made).given node' id = true)
    (hnew : ∀ e ∈ (w.createOn t node n true made).engines, e.Live → e.node = node → w.given node e.id = false →
      w.createdId node n made = some e.id → (node, e.id) ∈ X') :
    Hand t n cs c X' A (w.createOn t node n true made) := by
  have hcalls : Calls true w (w.createOn t node n true made) := remote_createOn w t node n (fun _ => rfl) made
  refine ⟨hh.own, ?_, fun hc => ?_, fun e' he' hl hn => ?_, hgiven, ?_, hh.erased⟩
  · rw [AppState.creating, hcalls.undertakings]
    exact hh.creating
  · rw [Holds, hcalls.replacing, hcalls.spawned]
    exact hh.holds hc
  · rw [hcalls.fed]
    have hmade := he'
    rcases mem_createOn he' with ⟨e, he, hlater⟩ | ⟨hgiven, hid, rfl⟩
    · rw [hlater.node, hlater.id]
      rcases hh.hand e he (hlater.live hl) (hlater.name.symm.trans hn) with h | ⟨hm, hin⟩
      · exact .inl h
      · exact .inr ⟨hlater.maker.trans hm, hx hin⟩
    · exact .inr ⟨rfl, hnew _ hmade hl rfl hgiven hid⟩
  · rw [hcalls.fed]
    exact hh.record

/-- What would be left behind is not there. -/
theorem noteLeft_orderly {why : Left} {p : EngineVolume → Bool} (ho : Orderly (w.noteLeft why p)) :
    w.noteLeft why p = w ∧ ∀ e ∈ w.engines, p e = true → ¬ e.Live := by
  unfold AppState.noteLeft at ho ⊢
  split
  · rename_i e he
    rw [he] at ho
    exact absurd (List.mem_append_right _ (List.mem_singleton_self _)) (ho.answered why e)
  · rename_i hnone
    refine ⟨rfl, fun e he hp hl => ?_⟩
    have := List.find?_eq_none.mp hnone e he
    simp [hp, hl.1, hl.2] at this

end

/-! ## Writing a record -/

section

variable {w w' : AppState} {t : Nat} {n : String} {cs : List String} {c : Bool} {X : List (String × String)}
  {A A' : Option Holding → Prop}

/-- The record under one name is written; what it no longer says of legs is
said elsewhere, or they are gone. -/
structure Rewrites (n : String) (w w' : AppState) : Prop where
  engines : w'.engines = w.engines
  others : ∀ m, m ≠ n → w'.fed.holdingAt m = w.fed.holdingAt m
  orphans : ∀ o ∈ w.fed.orphans, o ∈ w'.fed.orphans
  creating : ∀ t, w'.creating t = w.creating t
  deleting : ∀ t, w'.deleting t = w.deleting t
  replacing : w'.replacing = w.replacing
  spawned : w'.spawned = w.spawned
  kept : ∀ h node id, w.fed.holdingAt n = some h → (node, some id) ∈ h.spots → Refers w'.fed node id ∨ Gone node id w

theorem Rewrites.given (hr : Rewrites n w w') (node id : String) : w'.given node id = w.given node id := by
  rw [AppState.given, hr.engines, AppState.given]

theorem Rewrites.gone (hr : Rewrites n w w') {node id : String} (h : Gone node id w) : Gone node id w' := by
  rwa [Gone, hr.given, hr.engines]

theorem Rewrites.refers (hr : Rewrites n w w') {node id : String} (h : Refers w.fed node id) :
    Refers w'.fed node id ∨ Gone node id w := by
  rcases h with ⟨m, k, hk, hm⟩ | ⟨o, ho, h⟩
  · by_cases hmn : m = n
    · subst hmn
      exact hr.kept k node id hk hm
    · exact .inl (.inl ⟨m, k, (hr.others m hmn).trans hk, hm⟩)
  · exact .inl (.inr ⟨o, hr.orphans o ho, h⟩)

theorem LegsInv.rewritten (hi : LegsInv w) (hr : Rewrites n w w') (hok : Orderly w')
    (hown : n ∈ w.creating t ∨ (Holds t n w ∧ Narrowed n w w') ∨ (n ∈ w.deleting t ∧ w'.fed.holdingAt n = none))
    (hnew : ∀ h, w'.fed.holdingAt n = some h → h.name = n ∧
      (∀ node id, (node, some id) ∈ h.spots → w.given node id = true) ∧
      ∀ rep, h.replacing = some rep → rep.leg.volumeId.isSome = true ∧ rep.leg.masterNode.isSome = true) :
    LegsInv w' ∧ LegsGuar (some t) w w' := by
  have hg : LegsGuar (some t) w w' := by
    refine ⟨fun node id h => (hr.refers h).imp_right hr.gone, fun e he _ => .inl ⟨e, hr.engines ▸ he, .refl e⟩,
      fun node id h => (hr.given node id).trans h, fun u _ => ⟨hr.creating u, hr.deleting u⟩, fun u m _ h => ?_,
      fun _ _ _ h => hr.replacing ▸ h, fun m => ?_⟩
    · rwa [Holds, hr.replacing, hr.spawned]
    · by_cases hm : m = n
      · subst hm
        exact .inr ⟨t, rfl, hown⟩
      · exact .inl (hr.others m hm)
  refine ⟨hi.of_quiet hg hok hr.creating hr.replacing hr.spawned fun m k hk => ?_, hg⟩
  by_cases hm : m = n
  · subst hm
    obtain ⟨hname, hgiven, hcoming⟩ := hnew k hk
    exact ⟨hname, fun node id h => (hr.given node id).trans (hgiven node id h), hcoming⟩
  · rw [hr.others m hm] at hk
    obtain ⟨hname, hgiven, hcoming⟩ := hi.recorded m k hk
    exact ⟨hname, fun node id h => (hr.given node id).trans (hgiven node id h), hcoming⟩

theorem Hand.rewritten {P : Option Holding → Prop} (hh : Hand t n cs c X A w) (hr : Rewrites n w w') (hrec : P (w'.fed.holdingAt n))
    (hnone : P none) : Hand t n cs c X P w' := by
  refine ⟨hh.own, (hr.creating t).trans hh.creating, fun hc => ?_, fun e he hl hn => ?_, fun node id hm => ?_, hrec, hnone⟩
  · rw [Holds, hr.replacing, hr.spawned]
    exact hh.holds hc
  · rw [hr.engines] at he
    rcases hh.hand e he hl hn with h | h
    · exact .inl ((hr.refers h).resolve_right fun hgone => hgone.2 e he hl ⟨rfl, rfl⟩)
    · exact .inr h
  · exact (hr.given node id).trans (hh.given node id hm)

end

/-! ## Claims -/

section

variable {w w' : AppState} {t : Nat} {n : String} {cs : List String} {X : List (String × String)}
  {A : Option Holding → Prop}

/-- A step that changes claims and what was handed over alone. -/
theorem guar_claims (hf : w'.fed = w.fed) (he : w'.engines = w.engines) (hu : w'.undertakings = w.undertakings)
    (hh : ∀ u m, some t ≠ some u → Holds u m w → Holds u m w')
    (hc : ∀ u (m : String), some t ≠ some u → w'.replacing[m]? = some ⟨u⟩ → w.replacing[m]? = some ⟨u⟩) :
    LegsGuar (some t) w w' where
  refers node id h := .inl (by rwa [hf])
  legs e h _ := .inl ⟨e, he ▸ h, .refl e⟩
  given node id h := by rwa [AppState.given, he]
  undertakes u _ := by rw [AppState.creating, AppState.deleting, hu]; exact ⟨rfl, rfl⟩
  holds u m hne := hh u m hne
  claims u m hne := hc u m hne
  holding m := .inl (by rw [hf])

theorem referred_same (hf : w'.fed = w.fed) (he : w'.engines = w.engines) (h : Referred n w) : Referred n w' := by
  rwa [Referred, hf, he]

/-- A claim that another task has now, it had before. -/
theorem claims_insert {u : Nat} {m : String} (hne : some t ≠ some u)
    (h : (w.replacing.insert n ⟨t⟩)[m]? = some ⟨u⟩) : w.replacing[m]? = some ⟨u⟩ := by
  rw [KeyMap.get_insert] at h
  split at h
  · exact absurd (congrArg some (Claim.mk.inj (Option.some.inj h))) hne
  · exact h

/-- A claim that was free is taken. -/
theorem LegsInv.claimed (hi : LegsInv w) (hfree : w.replacing.contains n = false)
    (hok : Orderly { w with replacing := w.replacing.insert n ⟨t⟩ }) :
    LegsInv { w with replacing := w.replacing.insert n ⟨t⟩ } ∧
      LegsGuar (some t) w { w with replacing := w.replacing.insert n ⟨t⟩ } ∧
      Holds t n { w with replacing := w.replacing.insert n ⟨t⟩ } := by
  have hg : LegsGuar (some t) w { w with replacing := w.replacing.insert n ⟨t⟩ } :=
    guar_claims rfl rfl rfl (fun _ _ _ h => h.claimed hfree) fun _ _ hne h => claims_insert hne h
  refine ⟨hi.of_guar hg hok (fun m => .inr (.inr ⟨fun _ h => h, contains_claimed t⟩)) (fun s hs => ?_) hi.once hi.recorded, hg, ?_⟩
  · exact ⟨contains_claimed t (hi.handed s hs).1, .inl hs⟩
  · exact holds_claimed hfree fun s hs => (hi.handed s hs).1

/-- Nothing is in hand at first. -/
theorem hand_claimed (hi : LegsInv w) (hfree : w.replacing.contains n = false) (hc : w.creating t = [])
    (hok : Orderly { w with replacing := w.replacing.insert n ⟨t⟩ }) :
    Hand t n [] true [] (fun _ => True) { w with replacing := w.replacing.insert n ⟨t⟩ } := by
  refine ⟨.inr rfl, hc, fun _ => (hi.claimed hfree hok).2.2, fun e he hl hn => .inl ?_, fun _ _ h => absurd h List.not_mem_nil,
    trivial, trivial⟩
  rcases hi.kept e he hl with h | ⟨u, h⟩ | h
  · exact h
  · rw [hn] at h
    have hclaim := hok.claim_eq (t := u) h (KeyMap.get_insert_self ..)
    dsimp only at hclaim
    subst hclaim
    rw [hc] at h
    exact absurd h List.not_mem_nil
  · rw [hn, hfree] at h
    cases h

/-- The holder lets go, with nothing in hand or still creating. -/
theorem LegsInv.letGo (hi : LegsInv w) (hh : Hand t n cs true X A w) (hx : X = [] ∨ n ∈ cs)
    (hok : Orderly { w.release n with copies := w.copies.erase n }) :
    LegsInv { w.release n with copies := w.copies.erase n } ∧
      LegsGuar (some t) w { w.release n with copies := w.copies.erase n } := by
  have hholds := hh.holds rfl
  have hg : LegsGuar (some t) w { w.release n with copies := w.copies.erase n } :=
    guar_claims rfl rfl rfl (fun _ _ hne h => hholds.letGo hne rfl rfl h) fun u m _ h => by
      change (w.replacing.erase n)[m]? = _ at h
      rw [KeyMap.get_erase] at h
      split at h
      · cases h
      · exact h
  refine ⟨hi.of_guar hg hok (fun m => ?_) (fun s hs => ⟨contains_letGo hholds hs (hi.handed s hs).1, .inl hs⟩) hi.once
    hi.recorded, hg⟩
  by_cases hm : m = n
  · subst hm
    rcases hx with rfl | hin
    · exact .inl (referred_same rfl rfl hh.referred)
    · exact .inr (.inl ⟨t, hh.creating ▸ hin⟩)
  · refine .inr (.inr ⟨fun _ h => h, fun h => ?_⟩)
    show (w.replacing.erase n).contains m = true
    rwa [KeyMap.contains_eq, KeyMap.get_erase, if_neg (Ne.symm hm), ← KeyMap.contains_eq]

/-- The holder hands its claim over, with nothing in hand. -/
theorem LegsInv.spawn {s : Spawn} (hi : LegsInv w) (hh : Hand t s.name cs true [] A w)
    (hok : Orderly { w with spawned := w.spawned ++ [s] }) :
    LegsInv { w with spawned := w.spawned ++ [s] } ∧ LegsGuar (some t) w { w with spawned := w.spawned ++ [s] } := by
  have hholds := hh.holds rfl
  have hg : LegsGuar (some t) w { w with spawned := w.spawned ++ [s] } :=
    guar_claims rfl rfl rfl (fun _ _ hne h => hholds.spawn hne h) fun _ _ _ h => h
  refine ⟨hi.of_guar hg hok (fun m => .inr (.inr ⟨fun _ h => h, fun h => h⟩)) (fun x hx => ?_) (once_spawn hholds hi.once)
    hi.recorded, hg⟩
  rcases List.mem_append.mp hx with hx | hx
  · exact ⟨(hi.handed x hx).1, .inl hx⟩
  · rw [List.mem_singleton.mp hx]
    refine ⟨?_, .inr (referred_same rfl rfl hh.referred)⟩
    rw [KeyMap.contains_eq, hholds.1]
    rfl

/-- A background operation takes the claim it was handed, with nothing in hand. -/
theorem LegsInv.spawnedBy {s : Spawn} (hi : LegsInv w) (hs : s ∈ w.spawned) (hc : w.creating t = [])
    (hok : Orderly { w with spawned := w.spawned.erase s, replacing := w.replacing.insert s.name ⟨t⟩ }) :
    LegsInv { w with spawned := w.spawned.erase s, replacing := w.replacing.insert s.name ⟨t⟩ } ∧
      LegsGuar (some t) w { w with spawned := w.spawned.erase s, replacing := w.replacing.insert s.name ⟨t⟩ } ∧
      Hand t s.name [] true [] (fun _ => True)
        { w with spawned := w.spawned.erase s, replacing := w.replacing.insert s.name ⟨t⟩ } := by
  have hg : LegsGuar (some t) w { w with spawned := w.spawned.erase s, replacing := w.replacing.insert s.name ⟨t⟩ } :=
    guar_claims rfl rfl rfl (fun _ _ _ h => h.spawnedBy hs) fun _ _ hne h => claims_insert hne h
  refine ⟨hi.of_guar hg hok (fun m => .inr (.inr ⟨fun _ h => h, contains_claimed t⟩)) (fun x hx => ?_)
    (hi.once.sublist ((List.erase_sublist ..).map _)) hi.recorded, hg, ?_⟩
  · have hx := List.mem_of_mem_erase hx
    exact ⟨contains_claimed t (hi.handed x hx).1, .inl hx⟩
  · exact ⟨.inr rfl, hc, fun _ => holds_spawnedBy hi.once hs, fun e he hl hn => .inl ((hi.handed s hs).2 e he hl hn),
      fun _ _ h => absurd h List.not_mem_nil, trivial, trivial⟩

end

/-! ## Undertakings -/

section

variable {w : AppState} {t : Nat} {n : String} {a : Undertaking}

/-- What the task creates has its legs referred to. -/
def Accounted (t : Nat) (w : AppState) : Prop := ∀ n ∈ w.creating t, Referred n w

theorem stable_accounted : legsDiscipline.Stable t (Accounted t) := by
  intro w w' u hu hi _ hg h n hn
  rw [(hg.undertakes t hu).1] at hn
  refine hg.referred (fun v hv hmine => ?_) (h n hn)
  exact hu (hv.trans (congrArg some (Mine.unique hi.orderly (.inl hn) hmine)))

theorem creating_enter (u : Nat) : ({ w with undertakings := w.undertakings ++ [a] } : AppState).creating u =
    w.creating u ++ if a.task = u then a.creates else [] := by
  simp only [AppState.creating, List.filter_append, List.flatMap_append]
  split <;> simp [*]

theorem deleting_enter (u : Nat) : ({ w with undertakings := w.undertakings ++ [a] } : AppState).deleting u =
    w.deleting u ++ if a.task = u then a.deletes else [] := by
  simp only [AppState.deleting, List.filter_append, List.flatMap_append]
  split <;> simp [*]

theorem creating_ended (u : Nat) :
    ({ w with undertakings := w.undertakings.filter (·.task ≠ t) } : AppState).creating u =
      if u = t then [] else w.creating u := by
  simp only [AppState.creating, List.filter_filter]
  split
  · simp [*]
  · rename_i hne
    refine congrArg (List.flatMap _) (List.filter_congr fun x _ => ?_)
    by_cases hx : x.task = u
    · simp [hx, hne]
    · simp [hx]

theorem deleting_ended (u : Nat) (hne : u ≠ t) :
    ({ w with undertakings := w.undertakings.filter (·.task ≠ t) } : AppState).deleting u = w.deleting u := by
  simp only [AppState.deleting, List.filter_filter]
  refine congrArg (List.flatMap _) (List.filter_congr fun x _ => ?_)
  by_cases hx : x.task = u
  · simp [hx, hne]
  · simp [hx]

/-- A step that changes undertakings of the task alone. -/
theorem guar_undertakings {us : List Undertaking}
    (h : ∀ u, u ≠ t → ({ w with undertakings := us } : AppState).creating u = w.creating u ∧
      ({ w with undertakings := us } : AppState).deleting u = w.deleting u) :
    LegsGuar (some t) w { w with undertakings := us } where
  refers _ _ h := .inl h
  legs e h _ := .inl ⟨e, h, .refl e⟩
  given _ _ h := h
  undertakes u hu := h u fun he => hu (congrArg some he.symm)
  holds _ _ _ h := h
  claims _ _ _ h := h
  holding _ := .inl rfl

theorem LegsInv.enter (hi : LegsInv w) (ha : a.task = t) (hok : Orderly { w with undertakings := w.undertakings ++ [a] }) :
    LegsInv { w with undertakings := w.undertakings ++ [a] } ∧
      LegsGuar (some t) w { w with undertakings := w.undertakings ++ [a] } := by
  have hg : LegsGuar (some t) w { w with undertakings := w.undertakings ++ [a] } := by
    refine guar_undertakings fun u hu => ?_
    rw [creating_enter, deleting_enter, if_neg fun he => hu (he.symm.trans ha), if_neg fun he => hu (he.symm.trans ha)]
    exact ⟨List.append_nil _, List.append_nil _⟩
  refine ⟨hi.of_guar hg hok (fun m => .inr (.inr ⟨fun u h => ?_, fun h => h⟩)) (fun s hs => ⟨(hi.handed s hs).1, .inl hs⟩)
    hi.once hi.recorded, hg⟩
  rw [creating_enter]
  exact List.mem_append_left _ h

/-- The task has done nothing yet. -/
def Untouched (t : Nat) (w : AppState) : Prop := w.creating t = [] ∧ ∀ n : String, w.replacing[n]? ≠ some ⟨t⟩

theorem stable_untouched : legsDiscipline.Stable t (Untouched t) := fun _ _ _ hu _ _ hg h =>
  ⟨(hg.undertakes t hu).1.trans h.1, fun n hc => h.2 n (hg.claims t n hu hc)⟩

/-- A create is let in with nothing in hand, and no record there. -/
theorem hand_enter (hi : LegsInv w) (hs : Untouched t w) (ha : a.task = t) (hc : a.creates = [n])
    (hnone : w.fed.holdingAt n = none) (hok : Orderly { w with undertakings := w.undertakings ++ [a] }) :
    Hand t n [n] false [] (· = none) { w with undertakings := w.undertakings ++ [a] } := by
  have hcreating : ({ w with undertakings := w.undertakings ++ [a] } : AppState).creating t = [n] := by
    rw [creating_enter, if_pos ha, hs.1, hc]
    rfl
  have hmine : Mine t n { w with undertakings := w.undertakings ++ [a] } := .inl (hcreating ▸ List.mem_singleton_self n)
  refine ⟨.inl (List.mem_singleton_self n), hcreating, nofun, fun e he hl hn => .inl ?_,
    fun _ _ h => absurd h List.not_mem_nil, hnone, rfl⟩
  rcases hi.kept e he hl with h | ⟨u, h⟩ | h
  · exact h
  · rw [hn] at h
    have hu : u = t := by
      refine hmine.unique hok (.inl ?_)
      rw [creating_enter]
      exact List.mem_append_left _ h
    rw [hu, hs.1] at h
    exact absurd h List.not_mem_nil
  · rw [hn, KeyMap.contains_eq] at h
    obtain ⟨c, hclaim⟩ := Option.isSome_iff_exists.mp h
    obtain rfl := hok.claim_eq (t := t) (hcreating ▸ List.mem_singleton_self n) hclaim
    exact absurd hclaim (hs.2 n)

/-- What a task's undertakings create and delete is the same once it has recorded. -/
theorem creating_recorded (names groups : List String) (u : Nat) :
    (w.recorded t names groups).creating u = w.creating u ∧ (w.recorded t names groups).deleting u = w.deleting u := by
  simp only [AppState.creating, AppState.deleting, AppState.recorded]
  induction w.undertakings with
  | nil => exact ⟨rfl, rfl⟩
  | cons a as ih =>
    by_cases ha : a.task = t <;> by_cases hu : a.task = u <;> simp_all

theorem LegsInv.ended (hi : LegsInv w) (hs : Accounted t w)
    (hok : Orderly { w with undertakings := w.undertakings.filter (·.task ≠ t) }) :
    LegsInv { w with undertakings := w.undertakings.filter (·.task ≠ t) } ∧
      LegsGuar (some t) w { w with undertakings := w.undertakings.filter (·.task ≠ t) } := by
  have hg : LegsGuar (some t) w { w with undertakings := w.undertakings.filter (·.task ≠ t) } := by
    refine guar_undertakings fun u hu => ⟨?_, deleting_ended u hu⟩
    rw [creating_ended, if_neg hu]
  refine ⟨hi.of_guar hg hok (fun m => ?_) (fun s hs => ⟨(hi.handed s hs).1, .inl hs⟩) hi.once hi.recorded, hg⟩
  by_cases hm : m ∈ w.creating t
  · exact .inl (referred_same rfl rfl (hs m hm))
  · refine .inr (.inr ⟨fun u h => ?_, fun h => h⟩)
    rw [creating_ended, if_neg]
    · exact h
    · rintro rfl
      exact hm h

end

end StormStorage
