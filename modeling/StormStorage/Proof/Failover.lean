import StormStorage.Proof.Refused
import StormStorage.Proof.Removed
import StormStorage.Proof.Steps.Walk
import StormStorage.Proof.Volumes.Walk

/-!
# A promote that is answered

What a failover comes to: a fenced volume whose head is down, promoted onto a
node that holds a leg, with every call answered and the array put together there,
has its head on that node, its epoch as it was and no fence, with the legs of nodes
that are down lost and all others open there; the head that was left is
remembered (`promote_completes`).

* `prompt_servePromoted`: serving what came across is never held up;
* `comes_assembleOn`: the array is put together on the new head.
-/

namespace StormStorage

open Await Task

/-! ## Serving never waits -/

section

variable {good : Reply → AppState → Prop} {me : Nat} {name node id host : String} {α : Type}

theorem prompt_callOr {eff : Reply → AppState → AppState} {refused : AppState → AppState}
    {answer : Reply → AppState → Except Fault α} : (callOr eff refused answer).Prompt := by
  refine ⟨fun _ => rfl, fun i w => ?_⟩
  dsimp only
  split
  · exact prompt_ofExcept _
  · trivial
  · trivial

theorem prompt_localVolumeId : (Engine.localVolumeId node name).Prompt := by
  refine ⟨fun _ => rfl, fun i w => ?_⟩
  dsimp only
  split
  · split
    · trivial
    · exact prompt_ofExcept _
  · trivial
  · trivial

theorem prompt_withContext {what : String} {t : Async α} (h : t.Prompt) : (withContext what t).Prompt := by
  refine h.attempt.bind fun x => ?_
  cases x <;> trivial

end

namespace Orchestrate

variable {me : Nat} {name node : String} {single recorded : Bool} {s : Serving} {vol : DistVolume} {place : ServeAt}

theorem prompt_attachAdopted : (attachAdopted name node single s).Prompt := by
  unfold attachAdopted
  split
  · trivial
  · split
    · trivial
    · refine Prompt.bind (prompt_callOr.attempt) fun x => ?_
      cases x <;> trivial

theorem prompt_attachServed : (attachServed name node single recorded s).Prompt := by
  unfold attachServed
  split
  · trivial
  · refine Prompt.bind (prompt_callOr.attempt) fun x => ?_
    cases x <;> trivial

theorem prompt_makeServed : (makeServed me name vol node single s).Prompt := by
  have hpinned : (Engine.createPinned me node (name ++ mirrorSuffix)).Prompt :=
    (prompt_atomic _).bind fun _ => prompt_callOr
  refine Prompt.bind hpinned.attempt fun x => ?_
  cases x with
  | error e => trivial
  | ok created =>
    dsimp only
    split
    · trivial
    · split
      · trivial
      · exact prompt_attachServed

theorem prompt_serveShared : (serveShared me name vol place).Prompt := by
  unfold serveShared
  dsimp only
  split
  · refine Prompt.bind prompt_localVolumeId.attempt fun x => ?_
    cases x with
    | error e => trivial
    | ok id => exact prompt_attachAdopted
  · split
    · exact prompt_attachAdopted
    · split
      · exact prompt_attachServed
      · exact prompt_makeServed

theorem prompt_serveEach {served : String} (hosts : List HostServe) :
    (serveEach name node served recorded hosts).Prompt := by
  induction hosts with
  | nil => trivial
  | cons h hs ih =>
    refine Prompt.bind prompt_callOr.attempt fun r => (prompt_atomic _).bind fun now => ih.bind fun _ => ?_
    cases r <;> trivial

theorem prompt_serveHosts : (serveHosts vol place s).Prompt := by
  have hlocal : ∀ vid, (servedLocalId place vol vid s.adopted).Prompt := by
    intro vid
    unfold servedLocalId
    split
    · trivial
    · split
      · trivial
      · exact prompt_withContext prompt_localVolumeId
  unfold serveHosts
  split
  · split
    · trivial
    · refine (hlocal _).attempt.bind fun x => ?_
      cases x with
      | error e => trivial
      | ok lid => exact (prompt_serveEach _).bind fun _ => trivial
  · trivial

theorem prompt_publish : (publish me name).Prompt := by
  refine Prompt.bind ((prompt_atomic _).bind fun x => prompt_ofExcept x) fun r => ?_
  obtain ⟨vol, place, up⟩ := r
  dsimp only
  split
  · refine prompt_serveShared.bind fun s => prompt_serveHosts.bind fun s => ?_
    exact (prompt_atomic _).bind fun x => prompt_ofExcept x
  · exact (prompt_atomic _).bind fun _ => trivial

end Orchestrate

namespace Head

open Orchestrate

variable {cfg : Config} {me : Nat} {name target : String} {served : Option String}

theorem prompt_servePromoted : (servePromoted me name target served).Prompt := by
  cases served with
  | none => exact prompt_atomic _
  | some id =>
    refine prompt_publish.attempt.bind fun _ => (prompt_atomic _).bind fun names => ?_
    exact prompt_forEach fun _ => prompt_publish.attempt.bind fun _ => trivial

theorem serves_failServed : (failServed name target).Only Serves := by
  refine only_atomic fun _ w => ?_
  unfold AppState.setFed FedState.modifyVolume
  dsimp only
  split
  · exact ⟨rfl, enginesLater_of_eq rfl, fun _ => rfl⟩
  · rename_i v hv
    refine ⟨rfl, enginesLater_of_eq rfl, fun n => ?_⟩
    dsimp only
    rw [KeyMap.get_insert]
    split
    · rename_i he
      rw [← he, show w.fed.volumes[name]? = some v from hv]
      rfl
    · rfl

theorem serves_servePromoted : (servePromoted me name target served).Only Serves := by
  cases served with
  | none => exact serves_failServed
  | some id =>
    refine serves_publish.attempt.bind fun _ => Only.bind (C := Serves) (only_atomic fun _ w => .refl w) fun names => ?_
    refine only_forEach (fun n => ?_) _
    exact Only.bind serves_publish.attempt fun _ => trivial

/-! ## The array on the new head -/

/-- A call is answered; an attach with coordinates, an opened drive with its id,
and the array is among those that the new head puts together. -/
structure Assembles (array : String) (i : Reply) (w : AppState) : Prop where
  wire : i.wire = .answered
  attach : i.attach.isSome
  id : i.id.isSome
  array : ∃ a ∈ i.arrays, a.id = some array

theorem answering_assembles {array : String} : Answering (Assembles array) := fun _ _ h => h.wire

/-- Which leg it is, and in which state. -/
def seat (l : Leg) : String × Option String × LegState := (l.node, l.volumeId, l.state)

variable {array : String} {up : List String} {pick : Leg → Bool} {w : AppState} {vol : DistVolume}

theorem comes_openLeg {leg : Leg} (hup : leg.node ∈ up) (hvid : leg.volumeId.isSome) :
    (openLeg cfg target up leg).Comes (Assembles array) (fun l _ => seat l = seat leg ∧ l.driveUuid.isSome) w := by
  obtain ⟨vid, hvid⟩ := Option.isSome_iff_exists.mp hvid
  have hattach : ∀ id host, (Engine.attachLeg leg.node id host).Comes (Assembles array) (fun _ _ => True) w := fun id host => by
    refine comes_callOr answering_assembles fun i hi => ?_
    obtain ⟨a, ha⟩ := Option.isSome_iff_exists.mp hi.attach
    exact ⟨_, by rw [Engine.attached, ha], trivial⟩
  have hdrive : ∀ uri w, (Engine.addDrive uri).Comes (Assembles array) (fun _ _ => True) w := fun uri w => by
    refine comes_inquire answering_assembles fun i hi => ?_
    obtain ⟨id, hid⟩ := Option.isSome_iff_exists.mp hi.id
    exact ⟨id, by rw [hid], trivial⟩
  unfold openLeg
  rw [if_neg (by simpa using hup), hvid]
  refine (comes_withContext (hattach _ _)).bind fun att w _ => (comes_withContext (hdrive _ w)).bind fun uuid w _ => ?_
  exact ⟨by simp [seat, hvid], rfl⟩

/-- The picked legs are open there; none is another than it was. -/
theorem comes_openPicked {legs : List Leg} (hpick : ∀ l ∈ legs, pick l = true → l.node ∈ up ∧ l.volumeId.isSome) :
    (openPicked cfg target up pick legs).Comes (Assembles array)
      (fun ls _ => ls.map seat = legs.map seat ∧ ∀ l ∈ ls, pick l = true → l.driveUuid.isSome) w := by
  induction legs generalizing w with
  | nil => exact ⟨rfl, by simp⟩
  | cons leg rest ih =>
    have hrest := fun w => ih (w := w) fun l hl => hpick l (List.mem_cons_of_mem _ hl)
    unfold openPicked
    split
    · rename_i hp
      obtain ⟨hup, hvid⟩ := hpick leg List.mem_cons_self hp
      refine (comes_openLeg hup hvid).bind fun l w hl => (hrest w).bind fun ls _ hls => ⟨?_, fun x hx hpx => ?_⟩
      · rw [List.map_cons, List.map_cons, hl.1, hls.1]
      · rcases List.mem_cons.mp hx with rfl | hx
        · exact hl.2
        · exact hls.2 x hx hpx
    · rename_i hp
      refine (hrest w).bind fun ls _ hls => ⟨?_, fun x hx hpx => ?_⟩
      · rw [List.map_cons, List.map_cons, hls.1]
      · rcases List.mem_cons.mp hx with rfl | hx
        · exact absurd hpx hp
        · exact hls.2 x hx hpx

theorem seat_renumber {r : ArrayReading} {l : Leg} :
    seat (renumber pick r l) = seat l ∧ (renumber pick r l).driveUuid = l.driveUuid := by
  unfold renumber
  split
  · split <;> exact ⟨rfl, rfl⟩
  · exact ⟨rfl, rfl⟩

theorem comes_assembleOn (harray : vol.arrayId = some array)
    (hpick : ∀ l ∈ vol.legs, pick l = true → l.node ∈ up ∧ l.volumeId.isSome)
    (hseat : ∀ l l', seat l = seat l' → pick l = pick l') :
    (assembleOn cfg target up pick vol).Comes (Assembles array)
      (fun r _ => ∃ legs, r.1 = { vol with legs := legs } ∧ legs.map seat = vol.legs.map seat ∧
        ∀ l ∈ legs, pick l = true → l.driveUuid.isSome) w := by
  have hmade : ∀ w, Engine.assembleArrays.Comes (Assembles array)
      (fun made _ => (made.any fun a => a.id.any (·.toLower = array.toLower)) = true) w := fun w => by
    refine comes_inquire answering_assembles fun i hi => ?_
    obtain ⟨a, ha, hid⟩ := hi.array
    exact ⟨i.arrays, rfl, List.any_eq_true.mpr ⟨a, ha, by simp [hid]⟩⟩
  have hread : ∀ w, Engine.getArray.Comes (Assembles array) (fun _ _ => True) w := fun w =>
    comes_inquire answering_assembles fun i _ => ⟨i.array, rfl, trivial⟩
  have hlist : ∀ w, (Engine.listEngineVolumes target).Comes (Assembles array) (fun _ _ => True) w := fun w =>
    comes_callOr answering_assembles fun i _ => ⟨i.items, rfl, trivial⟩
  unfold assembleOn
  rw [harray]
  refine (comes_openPicked hpick).bind fun legs w hlegs => (comes_withContext (hmade w)).bind fun made w hm => ?_
  rw [if_neg (by simpa using hm)]
  refine Comes.bind (Q := fun r _ => r.1.map seat = vol.legs.map seat ∧ ∀ l ∈ r.1, pick l = true → l.driveUuid.isSome)
    ((hread w).attempt_bind fun a w _ => ?_) fun r w hr => ?_
  · refine ⟨?_, fun l hl hp => ?_⟩
    · rw [List.map_map, ← hlegs.1]
      exact List.map_congr_left fun l _ => seat_renumber.1
    · obtain ⟨l', hl', rfl⟩ := List.mem_map.mp hl
      rw [seat_renumber.2]
      exact hlegs.2 l' hl' ((hseat _ _ seat_renumber.1).symm.trans hp)
  · obtain ⟨ls, read⟩ := r
    exact (hlist w).attempt_bind fun vs w _ => ⟨ls, rfl, hr⟩

/-! ## The promote -/

/-- A created leg whose node is down is lost. -/
def afterPromote (up : List String) (s : String × Option String × LegState) : String × Option String × LegState :=
  if s.2.2 = .created ∧ s.1 ∉ up then (s.1, s.2.1, .lost) else s

/-- The head is on `target`, at the epoch of the fence and not fenced any more:
legs that were created are lost, or open there; the head that was left is kept in
mind. The other records are as they were, but for what they export. -/
structure Moved (name target array : String) (p : Promotable) (w w' : AppState) : Prop where
  record : ∃ v, w'.fed.volumes[name]? = some v ∧ v.head = some target ∧ v.fenced = false ∧ v.epoch = p.vol.epoch ∧
    v.legs.map seat = p.vol.legs.map (fun l => afterPromote p.up (seat l)) ∧
    (∀ l ∈ v.legs, l.state = .created → l.driveUuid.isSome) ∧
    (v.assembly = if allCreated v.legs then .assembled else .degraded)
  others : ∀ n : String, n ≠ name → (w'.fed.volumes[n]?).map DistVolume.bare = (w.fed.volumes[n]?).map DistVolume.bare
  left : ∀ old ∈ p.oldHead, old ≠ "" → ∃ s ∈ w'.fed.staleHeads,
    s.node = old ∧ s.ofVolume = p.vol.name ∧ s.arrayId = array ∧ s.epoch = p.vol.epoch
  nodes : w'.fed.nodes = w.fed.nodes

theorem seat_loseAtPromote {l : Leg} : seat (loseAtPromote up l) = afterPromote up (seat l) := by
  unfold loseAtPromote afterPromote
  split
  · next h => exact (if_pos h).symm
  · next h => exact (if_neg h).symm

theorem loseAtPromote_created {l : Leg} (h : (loseAtPromote up l).state = .created) :
    l.state = .created ∧ l.node ∈ up ∧ loseAtPromote up l = l := by
  unfold loseAtPromote at h ⊢
  split
  · next hl => rw [if_pos hl] at h; cases h
  · next hl =>
    rw [if_neg hl] at h
    exact ⟨h, by simpa using fun hn => hl ⟨h, hn⟩, rfl⟩

/-- What a record without its exports says of its legs. -/
theorem map_bare {β : Type} (f : Leg → β) (hf : ∀ l : Leg, f { l with «export» := none } = f l) (v : DistVolume) :
    v.bare.legs.map f = v.legs.map f := by
  show (v.legs.map _).map f = _
  rw [List.map_map]
  exact List.map_congr_left fun l _ => hf l

theorem allCreated_eq (legs : List Leg) : allCreated legs = (legs.map seat).all (·.2.2 = .created) := by
  rw [List.all_map]
  rfl

theorem record_of_bare {v : DistVolume} {legs : List Leg} (hb : v.bare = (promoted target up served { vol with legs := legs }).bare)
    (hseats : legs.map seat = vol.legs.map seat)
    (hdrives : ∀ l ∈ legs, decide (l.state = .created ∧ l.node ∈ up) = true → l.driveUuid.isSome) :
    v.head = some target ∧ v.fenced = false ∧ v.epoch = vol.epoch ∧
      v.legs.map seat = vol.legs.map (fun l => afterPromote up (seat l)) ∧
      (∀ l ∈ v.legs, l.state = .created → l.driveUuid.isSome) ∧
      (v.assembly = if allCreated v.legs then .assembled else .degraded) := by
  have hlegs : ∀ {β : Type} (f : Leg → β), (∀ l : Leg, f { l with «export» := none } = f l) →
      v.legs.map f = (legs.map (loseAtPromote up)).map f := fun f hf => by
    rw [← map_bare f hf, hb, map_bare f hf]
    rfl
  have hseat := hlegs seat fun _ => rfl
  have hepoch : v.bare.epoch = vol.epoch := by rw [hb]; rfl
  refine ⟨congrArg DistVolume.head hb, congrArg DistVolume.fenced hb, hepoch, ?_, fun l hl hc => ?_, ?_⟩
  · calc v.legs.map seat = (legs.map (loseAtPromote up)).map seat := hseat
      _ = (legs.map seat).map (afterPromote up) := by
        rw [List.map_map, List.map_map]
        exact List.map_congr_left fun l _ => seat_loseAtPromote
      _ = vol.legs.map fun l => afterPromote up (seat l) := by
        rw [hseats, List.map_map]
        rfl
  · have hm := List.mem_map_of_mem (f := fun l : Leg => (l.state, l.driveUuid)) hl
    rw [hlegs _ fun _ => rfl, List.map_map] at hm
    obtain ⟨l', hl', he⟩ := List.mem_map.mp hm
    obtain ⟨hstate, hdrive⟩ := Prod.mk.inj he
    rw [← hdrive]
    rw [hc] at hstate
    obtain ⟨hcreated, hup, heq⟩ := loseAtPromote_created hstate
    rw [heq]
    exact hdrives l' hl' (decide_eq_true ⟨hcreated, hup⟩)
  · rw [allCreated_eq, hseat, ← allCreated_eq]
    exact congrArg DistVolume.assembly hb

theorem comes_takeOver {presented : Nat} {p : Promotable} (harray : p.vol.arrayId = some array)
    (hmade : ∀ l ∈ p.vol.legs, l.state = .created → l.volumeId.isSome) :
    (takeOver cfg me name target array presented p).Comes (Assembles array) (fun _ w' => Moved name target array p w w') w := by
  have hpick : ∀ l ∈ p.vol.legs, decide (l.state = .created ∧ l.node ∈ p.up) = true → l.node ∈ p.up ∧ l.volumeId.isSome :=
    fun l hl h => ⟨(of_decide_eq_true h).2, hmade l hl (of_decide_eq_true h).1⟩
  have hseat : ∀ l l', seat l = seat l' →
      decide (l.state = .created ∧ l.node ∈ p.up) = decide (l'.state = .created ∧ l'.node ∈ p.up) := fun l l' h => by
    obtain ⟨hn, hs⟩ := Prod.mk.inj h
    rw [hn, (Prod.mk.inj hs).2]
  refine (Comes.calls (remote_assembleOn (b := false)) (comes_assembleOn harray hpick hseat)).bind fun r w₁ h₁ => ?_
  obtain ⟨vol, served, read⟩ := r
  obtain ⟨⟨legs, hvol, hseats, hdrives⟩, hcalls⟩ := h₁
  obtain rfl : vol = { p.vol with legs := legs } := hvol
  refine Comes.bind (comes_atomic (Q := fun _ w' =>
    w'.fed.volumes = w₁.fed.volumes.insert name (promoted target p.up served { p.vol with legs := legs }) ∧
    w'.fed.nodes = w₁.fed.nodes ∧
    ∃ now, w'.fed.staleHeads = w₁.fed.staleHeads ++ staleHead { p.vol with legs := legs } (p.oldHead.getD "") array now)
    fun i _ => ?_) fun _ w₂ h₂ => ?_
  · obtain ⟨es, h⟩ := writeBack_eq ((w₁.note (.cleared name presented)).revise fun fed => { fed with
      staleHeads := fed.staleHeads ++ staleHead { p.vol with legs := legs } (p.oldHead.getD "") array i.now }) name
      (promoted target p.up served { p.vol with legs := legs })
    dsimp only
    rw [h]
    exact ⟨rfl, rfl, i.now, rfl⟩
  · obtain ⟨hvolumes, hnodes, now, hstale⟩ := h₂
    refine (Comes.serves serves_servePromoted (prompt_servePromoted.comes total_servePromoted)).mono fun _ w₃ h₃ => ?_
    obtain ⟨-, hserves⟩ := h₃
    have hfed : w₁.fed = w.fed := hcalls.fed
    refine ⟨?_, fun n hn => ?_, fun old hold hne => ?_, ?_⟩
    · have hbare := hserves.records name
      rw [hvolumes, KeyMap.get_insert_self] at hbare
      obtain ⟨v, hv, hb⟩ := Option.map_eq_some_iff.mp hbare
      exact ⟨v, hv, record_of_bare hb hseats hdrives⟩
    · rw [hserves.records, hvolumes, KeyMap.get_insert_ne _ _ (Ne.symm hn), hfed]
    · have hstale₃ : w₃.fed.staleHeads = w₂.fed.staleHeads := by rw [hserves.eq]
      rw [hstale₃, hstale, show p.oldHead = some old from hold, Option.getD_some, staleHead, if_neg hne]
      exact ⟨_, List.mem_append_right _ (List.mem_singleton_self _), rfl, rfl, rfl, rfl⟩
    · rw [hserves.nodes, hnodes, hfed]

/-- A promote that is answered, of a volume whose head is down. -/
theorem promote_completes {presented : Nat} {p : Promotable} (hp : promotable name target presented w.fed = .ok p)
    (harray : p.vol.arrayId = some array) (hmade : ∀ l ∈ p.vol.legs, l.state = .created → l.volumeId.isSome)
    (hother : p.oldHead ≠ some target) (hdown : p.oldHeadAlive = false) (hfree : w.replacing.contains name = false) :
    (promote cfg me name target presented).Comes (Assembles array)
      (fun _ w' => Moved name target array p w w' ∧ w'.replacing.contains name = false) w := by
  refine (comes_claim hfree).bind fun ok w₁ h₁ => ?_
  obtain ⟨rfl, hfed₁⟩ := h₁
  have hmoved : (promoteClaimed cfg me name target presented).Comes (Assembles array)
      (fun _ w' => Moved name target array p w₁ w') w₁ := by
    refine Comes.bind (Comes.bind (comes_atomic (Q := fun x w' => x = .ok p ∧ w'.fed = w₁.fed) fun _ _ => ?_)
      fun x w₂ hx => comes_ofExcept (Q := fun p' (w' : AppState) => p' = p ∧ w'.fed = w₁.fed) hx.1 ⟨rfl, hx.2⟩) fun p' w₂ h₂ => ?_
    · dsimp only
      rw [hfed₁, hp]
      exact ⟨rfl, hfed₁⟩
    · obtain ⟨rfl, hfed₂⟩ := h₂
      rw [harray]
      dsimp only
      rw [if_neg hother, hdown, if_neg (by decide)]
      refine (comes_takeOver harray hmade).mono fun _ w₃ h => ?_
      exact ⟨h.record, fun n hn => by rw [h.others n hn, hfed₂], h.left, by rw [h.nodes, hfed₂]⟩
  refine Comes.attempt_bind hmoved fun _ w₂ h => Comes.bind (comes_modify (Q := fun _ w' =>
    Moved name target array p w₁ w' ∧ w'.replacing.contains name = false) ⟨?_, ?_⟩) fun _ w₃ h₃ => ?_
  · exact ⟨h.record, h.others, h.left, h.nodes⟩
  · simp [AppState.release]
  · obtain ⟨h, hreleased⟩ := h₃
    exact ⟨⟨h.record, fun n hn => by rw [h.others n hn, hfed₁], h.left, by rw [h.nodes, hfed₁]⟩, hreleased⟩

/-- There is always an answer that puts the array together. -/
theorem exists_assembles (w : AppState) : ∃ i, Assembles array i w :=
  ⟨{ attach := some default, id := some "", arrays := [{ (default : EngineArray) with id := some array }] },
    rfl, rfl, rfl, _, List.mem_singleton_self _, rfl⟩

/-- The head `h` of the volume `v` is down, and `v` is fenced. -/
def headDown : FedState :=
  { Rebalance.fullNodes with
    nodes := Rebalance.fullNodes.nodes.modify "h" fun n => { n with status := NodeStatus.new .static } }.modifyVolume "v"
    fun v => { v with fenced := true }

theorem promote_completes_pair : ∃ w', Ends (promote (Rebalance.configOf []) 0 "v" "a" 1) { fed := headDown } (.ok ()) w' ∧
    w'.fed.volumes["v"]?.bind (·.head) = some "a" := by
  have hok : (promotable "v" "a" 1 headDown).toOption.any (fun p => p.vol.arrayId = some "r" ∧
      (p.vol.legs.all (·.volumeId.isSome)) = true ∧ p.oldHead ≠ some "a" ∧ p.oldHeadAlive = false) = true := by
    decide +kernel
  cases hp : promotable "v" "a" 1 headDown with
  | error e =>
    rw [hp] at hok
    cases hok
  | ok p =>
    rw [hp] at hok
    obtain ⟨harray, hmade, hother, hdown⟩ := of_decide_eq_true hok
    have hcomes : (promote (Rebalance.configOf []) 0 "v" "a" 1).Comes (Assembles "r") _ { fed := headDown } :=
      promote_completes hp harray (fun l hl _ => List.all_eq_true.mp hmade l hl) hother hdown rfl
    obtain ⟨_, w', hend, hmoved, -⟩ := hcomes.ends exists_assembles
    obtain ⟨v, hv, hhead, -⟩ := hmoved.record
    refine ⟨w', hend, ?_⟩
    rw [hv]
    exact hhead

end Head

end StormStorage
