import StormStorage.Await.Keeps
import StormStorage.Api.Volumes
import StormStorage.Expand
import StormStorage.Head.Upkeep

/-!
# Phases that only call engines

A call to an engine leaves every record alone, with the claims and what else
the programs read: it is `Remote`. So are the phases of the programs that are
made of calls.

* `remote_call`: a call whose effect is remote is;
* `Keeps.of_remote`: a remote phase keeps what does not read the engines.
-/

namespace StormStorage

open Await Task

/-! ## What calls change -/

/-- What has become of an engine volume: its id and its making stay. -/
structure EngineVolume.Later (e e' : EngineVolume) : Prop where
  node : e'.node = e.node
  id : e'.id = e.id
  name : e'.name = e.name
  leg : e'.leg = e.leg
  maker : e'.maker = e.maker
  deleted : e.deleted = true → e'.deleted = true
  adopters : e'.adopters = [] → e.adopters = []

/-- What has become of the engines: volumes stay listed and new ones have new
ids; `legs` says whether legs may be among them. -/
structure EnginesLater (legs : Bool) (w w' : AppState) : Prop where
  forth : ∀ e ∈ w.engines, ∃ e' ∈ w'.engines, e.Later e'
  back : ∀ e' ∈ w'.engines, (∃ e ∈ w.engines, e.Later e') ∨
    (w.given e'.node e'.id = false ∧ (e'.leg = true → legs = true))

/-- Nothing but the log and what engines hold, serve and answer is changed. -/
structure Calls (legs : Bool) (w w' : AppState) : Prop where
  eq : w' = { w with
    engines := w'.engines
    access := w'.access
    log := w'.log
    answered := w'.answered
    sizes := w'.sizes
    capacity := w'.capacity
    grows := w'.grows
    servedSizes := w'.servedSizes }
  engines : EnginesLater legs w w'
  answered : w.answered ⊆ w'.answered
  log : w.log ⊆ w'.log

/-- The same, of any calls. -/
abbrev Remote := Calls true

theorem EngineVolume.Later.refl (e : EngineVolume) : e.Later e := ⟨rfl, rfl, rfl, rfl, rfl, fun h => h, fun h => h⟩

theorem EngineVolume.Later.trans {e e' e'' : EngineVolume} (h : e.Later e') (h' : e'.Later e'') : e.Later e'' :=
  ⟨h'.node.trans h.node, h'.id.trans h.id, h'.name.trans h.name, h'.leg.trans h.leg, h'.maker.trans h.maker,
    fun hd => h'.deleted (h.deleted hd), fun ha => h.adopters (h'.adopters ha)⟩

theorem AppState.given_iff {w : AppState} {node id : String} :
    w.given node id = true ↔ ∃ e ∈ w.engines, e.node = node ∧ e.id = id := by
  simp [given, List.any_eq_true]

section

variable {b : Bool} {w w' w'' : AppState}

theorem EnginesLater.given (h : EnginesLater b w w') {node id : String} (hg : w.given node id = true) :
    w'.given node id = true := by
  obtain ⟨e, he, hn, hi⟩ := AppState.given_iff.mp hg
  obtain ⟨e', he', hl⟩ := h.forth e he
  exact AppState.given_iff.mpr ⟨e', he', hl.node.trans hn, hl.id.trans hi⟩

theorem enginesLater_of_eq (h : w'.engines = w.engines) : EnginesLater b w w' := by
  refine ⟨fun e he => ⟨e, h ▸ he, .refl e⟩, fun e he => .inl ⟨e, h ▸ he, .refl e⟩⟩

theorem EnginesLater.trans (h : EnginesLater b w w') (h' : EnginesLater b w' w'') : EnginesLater b w w'' := by
  refine ⟨fun e he => ?_, fun e'' he'' => ?_⟩
  · obtain ⟨e', he', hl⟩ := h.forth e he
    obtain ⟨e'', he'', hl'⟩ := h'.forth e' he'
    exact ⟨e'', he'', hl.trans hl'⟩
  · rcases h'.back e'' he'' with ⟨e', he', hl'⟩ | ⟨hg, hleg⟩
    · rcases h.back e' he' with ⟨e, he, hl⟩ | ⟨hg, hleg⟩
      · exact .inl ⟨e, he, hl.trans hl'⟩
      · exact .inr ⟨by rwa [hl'.node, hl'.id], fun h => hleg (hl'.leg ▸ h)⟩
    · refine .inr ⟨?_, hleg⟩
      by_contra hne
      rw [h.given (by simpa using hne)] at hg
      cases hg

end

namespace Calls

variable {b : Bool} {w w' w'' : AppState}

theorem fed (h : Calls b w w') : w'.fed = w.fed := by rw [h.eq]

theorem replacing (h : Calls b w w') : w'.replacing = w.replacing := by rw [h.eq]

theorem spawned (h : Calls b w w') : w'.spawned = w.spawned := by rw [h.eq]

theorem undertakings (h : Calls b w w') : w'.undertakings = w.undertakings := by rw [h.eq]

theorem copies (h : Calls b w w') : w'.copies = w.copies := by rw [h.eq]

theorem trans (h : Calls b w w') (h' : Calls b w' w'') : Calls b w w'' :=
  ⟨by rw [h'.eq, h.eq], h.engines.trans h'.engines, List.Subset.trans h.answered h'.answered,
    List.Subset.trans h.log h'.log⟩

/-- Where engines are left alone. -/
theorem of_eq (h : w' = { w with access := w'.access, log := w'.log }) (hl : w.log ⊆ w'.log) : Calls b w w' :=
  ⟨by rw [h], enginesLater_of_eq (by rw [h]), by rw [h]; exact List.Subset.refl _, hl⟩

theorem refl (w : AppState) : Calls b w w := of_eq rfl (List.Subset.refl _)

end Calls

section

variable {b : Bool}

theorem remote_note (w : AppState) (e : Event) : Calls b w (w.note e) := .of_eq rfl (List.subset_append_left _ _)

theorem remote_mapVolume (w : AppState) (node id : String) {f : EngineVolume → EngineVolume}
    (hf : ∀ e : EngineVolume, e.Later (f e)) :
    Calls b w (w.mapVolume node id f) := by
  have hmap : ∀ e : EngineVolume, e.Later (if e.node = node ∧ e.id = id then f e else e) := by
    intro e
    split
    · exact hf e
    · exact .refl e
  refine ⟨rfl, ⟨fun e he => ⟨_, List.mem_map_of_mem he, hmap e⟩, fun e' he' => ?_⟩, List.Subset.refl _, List.Subset.refl _⟩
  obtain ⟨e, he, rfl⟩ := List.mem_map.mp he'
  exact .inl ⟨e, he, hmap e⟩

theorem remote_createOn (w : AppState) (me : Nat) (node name : String) {leg : Bool} (hb : leg = true → b = true)
    (made : String) : Calls b w (w.createOn me node name leg made) := by
  unfold AppState.createOn
  split
  · exact remote_mapVolume w _ _ fun e => ⟨rfl, rfl, rfl, rfl, rfl, id, fun h => by simp at h⟩
  · split
    · exact .refl w
    · rename_i hgiven
      refine ⟨rfl, ⟨fun e he => ⟨e, List.mem_append_left _ he, .refl e⟩, fun e' he' => ?_⟩, List.Subset.refl _,
        List.Subset.refl _⟩
      rcases List.mem_append.mp he' with he' | he'
      · exact .inl ⟨e', he', .refl e'⟩
      · obtain rfl := List.mem_singleton.mp he'
        exact .inr ⟨by simpa using hgiven, hb⟩

theorem remote_destroyOn (w : AppState) (node id : String) : Calls b w (w.destroyOn node id) :=
  remote_mapVolume w node id fun _ => ⟨rfl, rfl, rfl, rfl, rfl, fun _ => rfl, fun h => h⟩

theorem remote_told (w : AppState) (node name : String) (id : Option String) : Calls b w (w.told node name id) :=
  ⟨rfl, enginesLater_of_eq rfl, List.subset_append_left _ _, List.Subset.refl _⟩

theorem remote_heard (w : AppState) (node : String) (i : Reply) : Calls b w (w.heard node i) := by
  unfold AppState.heard
  split
  · exact ⟨rfl, enginesLater_of_eq rfl, List.subset_append_left _ _, List.Subset.refl _⟩
  · exact .refl w
  · exact .refl w

theorem remote_noteUnlisted (w : AppState) (node name : String) (i : Reply) :
    Calls b w (w.noteUnlisted node name i) := by
  unfold AppState.noteUnlisted
  split
  · split
    · exact .refl w
    · exact remote_note w _
  · exact .refl w
  · exact .refl w

theorem remote_noteUndo (w : AppState) (me : Nat) (node id : String) : Calls b w (w.noteUndo me node id) := by
  unfold AppState.noteUndo
  split
  · exact remote_note w _
  · exact .refl w

theorem remote_noteLeft (w : AppState) (why : Left) (p : EngineVolume → Bool) : Calls b w (w.noteLeft why p) := by
  unfold AppState.noteLeft
  split
  · exact remote_note w _
  · exact .refl w

end

/-- A phase that is remote answers what it does from any state. -/
theorem Keeps.of_remote {α : Type} {b : Bool} {inv : AppState → Prop} {ok : AppState → AppState → Prop}
    (hinv : ∀ w w', Calls b w w' → inv w → inv w') {t : Async α} (ht : t.Only (Calls b)) :
    t.Keeps inv ok fun _ => True :=
  Keeps.of_only (fun w w' hi hr => hinv w w' hr hi) ht

/-! ## Calls -/

section

variable {α : Type} {b : Bool}

/-- A call is of the kind of its effects. -/
theorem only_callOr {C : AppState → AppState → Prop} {eff : Reply → AppState → AppState}
    {refused : AppState → AppState} {answer : Reply → AppState → Except Fault α} (h : ∀ i w, C w (eff i w))
    (hr : ∀ w, C w (refused w)) : (callOr eff refused answer).Only C := by
  intro i w
  refine ⟨?_, ?_⟩
  · show C w (i.wire.effect (eff i w) (refused w))
    cases i.wire with
    | answered => exact h i w
    | refused => exact hr w
    | lost => exact h i w
  · dsimp only
    split
    · exact only_ofExcept _
    · trivial
    · trivial

theorem only_withContext {C : AppState → AppState → Prop} {what : String} {t : Async α} (h : t.Only C) :
    (withContext what t).Only C := by
  refine h.attempt.bind fun x => ?_
  cases x <;> trivial

theorem only_asUpstream {C : AppState → AppState → Prop} {what : String} {t : Async α} (h : t.Only C) :
    (Api.asUpstream what t).Only C := by
  refine (only_withContext h).attempt.bind fun x => ?_
  cases x <;> trivial

/-- A phase whose outcome is not looked at. -/
theorem only_ignore {C : AppState → AppState → Prop} {t : Async α} (h : t.Only C) :
    (t.attempt.bind fun _ => .ret () : Async Unit).Only C :=
  h.attempt.bind fun _ => trivial

/-- A list of an engine's volumes is of the kind of what it lets be noted. -/
theorem only_localVolumeId {C : AppState → AppState → Prop} {node name : String}
    (h : ∀ i w, C w ((w.heard node i).noteUnlisted node name i)) : (Engine.localVolumeId node name).Only C := by
  refine fun i w => ⟨h i w, ?_⟩
  dsimp only
  split
  · split
    · trivial
    · exact only_ofExcept _
  · trivial
  · trivial

theorem only_dropSnapshot {C : AppState → AppState → Prop} {node name : String} {eid : Option String}
    (hd : ∀ id, (Engine.deleteVolume node id).Only C) (hl : (Engine.localVolumeId node name).Only C) :
    (Backups.dropSnapshot node name eid).Only C := by
  refine Only.bind (C := C) ?_ fun _ => hl.attempt.bind fun x => ?_
  · cases eid with
    | none => trivial
    | some id => exact hd id
  · cases x with
    | ok found => exact hd found
    | error e =>
      dsimp only
      split <;> trivial

/-- What comes back of a call, whose engine would answer `x`. -/
def Wire.outcome (wire : Wire) (x : Except Fault α) : Except Fault α :=
  match wire with
  | .answered => x
  | .refused status why => .error { message := why, status := status }
  | .lost why => .error { message := why }

/-- A call beside the others, from an assertion that they keep to one that they keep. -/
theorem safe_callOr {d : Discipline AppState} {t : Nat} {P : AppState → Prop} {Q : Except Fault α → AppState → Prop}
    {w : AppState} {eff : Reply → AppState → AppState} {refused : AppState → AppState}
    {answer : Reply → AppState → Except Fault α} (hP : d.Stable t P) (hQ : ∀ x, d.Stable t (Q x))
    (h : ∀ s (i : Reply), d.inv s → P s → d.ok s (i.wire.effect (eff i s) (refused s)) →
      (d.inv (i.wire.effect (eff i s) (refused s)) ∧ d.guar (some t) s (i.wire.effect (eff i s) (refused s))) ∧
        Q (i.wire.outcome (answer i s)) (i.wire.effect (eff i s) (refused s)))
    (hi : d.inv w) (hs : P w) : (callOr eff refused answer).Safe d t Q w := by
  refine Safe.step hP (fun s i hi hs _ hok => ?_) hi hs
  obtain ⟨⟨hi', hg⟩, hq⟩ := h s i hi hs hok
  refine ⟨hi', hg, ?_⟩
  have hret : (.ofExcept (i.wire.outcome (answer i s)) : Async α).Safe d t Q (i.wire.effect (eff i s) (refused s)) := by
    cases hx : i.wire.outcome (answer i s) with
    | ok a => exact Safe.ret (hQ (.ok a)) (fun _ _ h => h) hi' (hx ▸ hq)
    | error e => exact Safe.fail (hQ (.error e)) (fun _ _ h => h) hi' (hx ▸ hq)
  unfold Wire.outcome at hret
  cases hw : i.wire with
  | answered => simpa [hw] using hret
  | refused status why => simpa [hw, Task.ofExcept] using hret
  | lost why => simpa [hw, Task.ofExcept] using hret

theorem remote_callOr {eff : Reply → AppState → AppState} {refused : AppState → AppState}
    {answer : Reply → AppState → Except Fault α} (h : ∀ i w, Calls b w (eff i w)) (hr : ∀ w, Calls b w (refused w)) :
    (callOr eff refused answer).Only (Calls b) := only_callOr h hr

theorem remote_call {eff : Reply → AppState → AppState} {answer : Reply → AppState → Except Fault α}
    (h : ∀ i w, Calls b w (eff i w)) : (call eff answer).Only (Calls b) := remote_callOr h .refl

theorem remote_inquire (answer : Reply → Except Fault α) : (inquire answer).Only (Calls b) :=
  remote_call fun _ => .refl

theorem remote_get (f : AppState → α) : (Await.Task.get f : Async α).Only (Calls b) := only_atomic fun _ => .refl

theorem remote_ask (f : Reply → α) : (Await.Task.ask f : Async α).Only (Calls b) := only_atomic fun _ => .refl

end

section

variable {b : Bool} {me : Nat} {node name id host : String}

theorem remote_healthy : (healthy node).Only (Calls b) := remote_get _

theorem remote_engine : (engine node).Only (Calls b) := (remote_get _).bind fun _ => only_ofExcept _

namespace Engine

theorem remote_createVolume {leg : Bool} (hb : leg = true → b = true) :
    (createVolume me node name leg).Only (Calls b) :=
  remote_call fun i w => by
    have h := remote_createOn w me node name hb i.made
    dsimp only
    split
    · exact h.trans (remote_told _ _ _ _)
    · exact h.trans (remote_noteLeft _ _ _)

theorem remote_createPinned : (createPinned me node name).Only (Calls b) :=
  (only_atomic fun _ w => remote_note w _).bind fun _ => remote_createVolume nofun

theorem remote_deleteVolume : (deleteVolume node id).Only (Calls b) := remote_call fun _ w => remote_destroyOn w node id

theorem remote_undoVolume : (undoVolume me node id).Only (Calls b) :=
  remote_callOr (fun _ w => (remote_noteUndo w me node id).trans (remote_destroyOn _ node id)) fun w => remote_noteLeft w _ _

theorem remote_act : act.Only (Calls b) := remote_inquire _

theorem remote_attachVolume : (attachVolume name).Only (Calls b) := remote_call fun _ w => remote_note w _

theorem remote_attachLeg : (attachLeg node id host).Only (Calls b) := remote_call fun _ w => remote_note w _

theorem remote_deleteDrive {uri : String} : (deleteDrive node uri).Only (Calls b) := by
  refine fun i w => ⟨remote_note w _, ?_⟩
  dsimp only
  split
  · trivial
  · split <;> trivial
  · trivial

theorem remote_addDrive {uri : String} : (addDrive uri).Only (Calls b) := remote_inquire _

theorem remote_fenceLeg : (fenceLeg node id).Only (Calls b) := remote_call fun _ w => remote_note w _

theorem remote_listEngineVolumes : (listEngineVolumes node).Only (Calls b) := remote_call fun i w => remote_heard w node i

theorem remote_localVolumeId : (localVolumeId node name).Only (Calls b) :=
  only_localVolumeId fun i w => (remote_heard w node i).trans (remote_noteUnlisted _ node name i)

theorem remote_attachForHost {volume : String} : (attachForHost volume node name host).Only (Calls b) :=
  remote_call fun _ _ => .of_eq rfl (List.subset_append_left _ _)

theorem remote_withdrawHost : (withdrawHost node name host).Only (Calls b) := remote_call fun _ _ => .of_eq rfl (List.Subset.refl _)

end Engine

end

/-! ## Serving -/

namespace Orchestrate

open Engine

section

variable {b : Bool} {me : Nat} {node name : String} {single recorded : Bool} {s : Serving} {vol : DistVolume} {place : ServeAt}

theorem remote_attachAdopted : (attachAdopted name node single s).Only (Calls b) := by
  unfold attachAdopted
  split
  · trivial
  · split
    · trivial
    · refine remote_attachVolume.attempt.bind fun x => ?_
      cases x <;> trivial

theorem remote_attachServed : (attachServed name node single recorded s).Only (Calls b) := by
  unfold attachServed
  split
  · trivial
  · refine remote_attachVolume.attempt.bind fun x => ?_
    cases x <;> trivial

theorem remote_makeServed : (makeServed me name vol node single s).Only (Calls b) := by
  refine remote_createPinned.attempt.bind fun x => ?_
  cases x with
  | error e => trivial
  | ok created =>
    dsimp only
    split
    · trivial
    · split
      · trivial
      · exact remote_attachServed

theorem remote_serveShared : (serveShared me name vol place).Only (Calls b) := by
  unfold serveShared
  dsimp only
  split
  · refine remote_localVolumeId.attempt.bind fun x => ?_
    cases x with
    | error e => trivial
    | ok id => exact remote_attachAdopted
  · split
    · exact remote_attachAdopted
    · split
      · exact remote_attachServed
      · exact remote_makeServed

theorem remote_servedLocalId {volumeId : String} {adopted : Bool} :
    (servedLocalId place vol volumeId adopted).Only (Calls b) := by
  unfold servedLocalId
  split
  · trivial
  · split
    · trivial
    · exact only_withContext remote_localVolumeId

theorem remote_serveEach {served : String} (hosts : List HostServe) :
    (serveEach name node served recorded hosts).Only (Calls b) := by
  induction hosts with
  | nil => trivial
  | cons h hs ih =>
    refine remote_attachForHost.attempt.bind fun r => (remote_ask _).bind fun now => ih.bind fun _ => ?_
    cases r <;> trivial

theorem remote_serveHosts : (serveHosts vol place s).Only (Calls b) := by
  unfold serveHosts
  split
  · split
    · trivial
    · refine remote_servedLocalId.attempt.bind fun x => ?_
      cases x with
      | error e => trivial
      | ok lid => exact (remote_serveEach _).bind fun _ => trivial
  · trivial

theorem remote_withdrawOnEngine {p : PendingWithdraw} : (withdrawOnEngine p).Only (Calls b) := by
  refine remote_healthy.bind fun up => ?_
  split
  · trivial
  · split
    · exact remote_withdrawHost
    · refine remote_localVolumeId.attempt.bind fun x => ?_
      cases x with
      | ok _ => exact remote_withdrawHost
      | error e =>
        dsimp only
        split <;> trivial

theorem remote_deleteServed {vid : String} : (deleteServed vol node vid).Only (Calls b) := by
  refine remote_act.attempt.bind fun _ => ?_
  split
  · exact remote_act
  · exact remote_deleteVolume

/-! ## Assembling -/

theorem remote_readopt {head : String} {uris : List String} {e : Fault} : (readopt head uris e).Only (Calls b) := by
  refine (only_withContext (remote_inquire _)).bind fun made => ?_
  split
  · refine (only_withContext (remote_inquire _)).bind fun array => ?_
    split <;> trivial
  · trivial

theorem remote_arrayOver {head : String} {uris : List String} : (arrayOver head uris).Only (Calls b) := by
  refine (only_withContext (remote_inquire _)).bind fun existing => ?_
  split
  · trivial
  · trivial
  · refine (remote_inquire _).attempt.bind fun x => ?_
    cases x with
    | ok _ => trivial
    | error e =>
      dsimp only
      split
      · exact remote_readopt
      · trivial

theorem remote_attachLegs {host : String} (legs : List Leg) : (attachLegs host legs).Only (Calls b) := by
  induction legs with
  | nil => trivial
  | cons leg rest ih =>
    unfold attachLegs
    split
    · exact ih.bind fun _ => trivial
    · refine remote_attachLeg.attempt.bind fun x => ?_
      cases x with
      | error e => trivial
      | ok att => exact ih.bind fun _ => trivial

theorem remote_openLegs {head : String} (legs : List Leg) : (openLegs head legs).Only (Calls b) := by
  induction legs with
  | nil => trivial
  | cons leg rest ih =>
    refine remote_addDrive.attempt.bind fun x => ?_
    cases x with
    | error e => trivial
    | ok uuid => exact ih.bind fun _ => trivial

theorem remote_buildArray {head : String} : (buildArray head vol).Only (Calls b) := by
  refine remote_arrayOver.attempt.bind fun x => ?_
  cases x with
  | error e => trivial
  | ok array =>
    dsimp only
    split <;> trivial

theorem remote_assembleInner {cfg : Config} {head : String} : (assembleInner cfg head vol).Only (Calls b) := by
  refine (remote_attachLegs _).bind fun r => ?_
  split
  · trivial
  · refine (remote_openLegs _).bind fun r => ?_
    split
    · trivial
    · exact remote_buildArray

theorem remote_actIf {there : Bool} : (actIf there).Only (Calls b) := by
  unfold actIf
  split
  · exact only_ignore remote_act
  · trivial

theorem remote_teardown : (teardown vol).Only (Calls b) := by
  have hact : ∀ xs : List (Leg × Bool), (Task.forEach xs fun _ => do
      let _ ← act.attempt : Async Unit).Only (Calls b) := only_forEach fun _ => only_ignore remote_act
  refine (remote_get _).bind fun up => (remote_get _).bind fun there => ?_
  split
  · refine remote_act.attempt.bind fun _ => (only_forEach (fun _ => only_ignore remote_act) _).bind fun _ => ?_
    exact hact _
  · exact hact _

/-! ## Replacing -/

theorem remote_makeLeg {target : String} : (makeLeg me name target).Only Remote := by
  refine (only_withContext (remote_createVolume fun _ => rfl)).bind fun created => ?_
  split <;> trivial

theorem remote_wireLeg {cfg : Config} {head : String} {leg : Leg} : (wireLeg cfg head leg).Only (Calls b) := by
  refine remote_attachLeg.attempt.bind fun x => ?_
  cases x with
  | error e => trivial
  | ok att =>
    refine remote_addDrive.attempt.bind fun x => ?_
    cases x with
    | error e => trivial
    | ok drive =>
      refine (remote_inquire _).attempt.bind fun x => ?_
      cases x <;> trivial

theorem remote_undoLeg {leg : Leg} : (undoLeg me leg).Only (Calls b) := by
  refine remote_actIf.bind fun _ => remote_actIf.bind fun _ => ?_
  split
  · exact remote_actIf.bind fun _ => only_ignore remote_undoVolume
  · trivial

theorem remote_deleteOld {vid : String} : (deleteOld node vid).Only (Calls b) := by
  refine remote_healthy.bind fun up => ?_
  split
  · refine remote_act.attempt.bind fun _ => remote_deleteVolume.attempt.bind fun x => ?_
    cases x <;> trivial
  · trivial

theorem remote_retire {rep : Replacement} {old : Leg} : (retire name rep old).Only (Calls b) := by
  refine remote_actIf.bind fun _ => remote_actIf.bind fun _ => ?_
  split
  · trivial
  · exact remote_deleteOld.bind fun _ => (remote_ask _).bind fun _ => trivial

theorem remote_retireOld {rep : Replacement} : (retireOld name rep).Only (Calls b) := by
  refine (remote_get _).bind fun old => ?_
  split
  · trivial
  · exact remote_retire

end

end Orchestrate

/-! ## The head -/

namespace Head

open Engine Orchestrate

section

variable {b : Bool} {cfg : Config} {target : String} {up : List String} {pick : Leg → Bool}

theorem remote_fenceOne {node vid : String} {up : Bool} : (fenceOne node vid up).Only (Calls b) := by
  unfold fenceOne
  split
  · exact remote_fenceLeg.attempt
  · trivial

theorem remote_fenceEach (legs : List FenceLeg) : (fenceEach legs).Only (Calls b) := by
  induction legs with
  | nil => trivial
  | cons l legs ih =>
    refine remote_fenceOne.bind fun r => ih.bind fun _ => ?_
    cases r <;> trivial

theorem remote_openLeg {leg : Leg} : (openLeg cfg target up leg).Only (Calls b) := by
  unfold openLeg
  split
  · trivial
  · split
    · trivial
    · exact (only_withContext remote_attachLeg).bind fun _ => (only_withContext remote_addDrive).bind fun _ => trivial

theorem remote_openPicked (legs : List Leg) : (openPicked cfg target up pick legs).Only (Calls b) := by
  induction legs with
  | nil => trivial
  | cons leg rest ih =>
    unfold openPicked
    split
    · exact remote_openLeg.bind fun _ => ih.bind fun _ => trivial
    · exact ih.bind fun _ => trivial

theorem remote_renumbered {array : String} {legs : List Leg} : (renumbered target array pick legs).Only (Calls b) := by
  refine (remote_inquire _).attempt.bind fun x => ?_
  cases x <;> trivial

theorem remote_assembleOn {vol : DistVolume} : (assembleOn cfg target up pick vol).Only (Calls b) := by
  unfold assembleOn
  split
  · trivial
  · refine (remote_openPicked _).bind fun legs => (only_withContext (remote_inquire _)).bind fun made => ?_
    split
    · trivial
    · refine remote_renumbered.bind fun r => remote_listEngineVolumes.attempt.bind fun x => ?_
      cases x <;> trivial

theorem remote_reattachLegs {head : String} (legs : List Leg) : (reattachLegs cfg head up legs).Only (Calls b) := by
  induction legs with
  | nil => trivial
  | cons leg rest ih =>
    unfold reattachLegs
    split
    · exact ih.bind fun _ => trivial
    · refine remote_attachLeg.attempt.bind fun r => ih.bind fun _ => ?_
      cases r <;> trivial

end

end Head

namespace Head

open Engine Orchestrate

section

variable {b : Bool}

theorem remote_capHead {up : Bool} : (capHead up).Only (Calls b) := by
  unfold capHead
  split
  · refine remote_act.attempt.bind fun x => ?_
    cases x <;> trivial
  · trivial

theorem remote_leftoverOn {s : StaleHead} : (leftoverOn s).Only (Calls b) := by
  unfold leftoverOn
  split
  · trivial
  · exact (remote_inquire _).bind fun _ => remote_listEngineVolumes.bind fun _ => trivial

end

end Head

/-! ## Expanding -/

namespace Expand

section

variable {α : Type} {b : Bool} {name node array : String} {«to» : Nat}

theorem remote_grown {w w' : AppState} (h : w' = { w with
    sizes := w'.sizes, capacity := w'.capacity, grows := w'.grows, servedSizes := w'.servedSizes }) : Calls b w w' :=
  ⟨by rw [h], enginesLater_of_eq (by rw [h]), by rw [h]; exact List.Subset.refl _, by rw [h]; exact List.Subset.refl _⟩

theorem only_asUpstream {C : AppState → AppState → Prop} {what : String} {t : Async α} (h : t.Only C) :
    (asUpstream what t).Only C := by
  refine h.attempt.bind fun x => ?_
  cases x <;> trivial

theorem remote_expandVolume {id : String} {size : Nat} : (Engine.expandVolume node id size).Only (Calls b) :=
  remote_call fun _ _ => remote_grown rfl

theorem remote_expandLegs {legs : List (String × String)} : (expandLegs name «to» legs).Only (Calls b) :=
  only_forEach (fun _ => only_asUpstream remote_expandVolume) _

theorem remote_arrayBytes : (Engine.arrayBytes node array).Only (Calls b) := remote_call fun _ w => .refl w

theorem remote_growAnswer {before : Nat} : (growAnswer name node array before).Only (Calls b) := by
  refine Only.bind (Only.attempt (remote_call fun _ _ => remote_grown rfl)) fun x => ?_
  split
  · trivial
  · split
    · refine remote_arrayBytes.attempt.bind fun now => ?_
      split <;> trivial
    · trivial

theorem remote_growServed {s : Served} : (growServed name «to» s).Only (Calls b) := by
  refine (only_asUpstream remote_expandVolume).bind fun _ => ?_
  refine (only_asUpstream (remote_call fun i w => ?_)).bind fun size => ?_
  · split
    · exact remote_grown rfl
    · exact .refl w
  · dsimp only
    split <;> trivial

end

end Expand

/-! ## Creates and deletes -/

namespace Api

open Engine Orchestrate

section

variable {b : Bool} {me : Nat} {name : String} {leg : Leg}

theorem remote_healthyHome {node : String} : (healthyHome node).Only (Calls b) := by
  refine remote_healthy.bind fun up => ?_
  split <;> trivial

theorem remote_knownNode {node : String} : (knownNode me name node).Only (Calls b) := by
  refine Only.bind (only_atomic fun _ w => ?_) fun x => only_ofExcept x
  split
  · exact .refl w
  · exact remote_noteLeft w _ _

theorem remote_createLegs (nodes : List String) : (createLegs me name nodes).Only Remote := by
  induction nodes with
  | nil => trivial
  | cons node rest ih =>
    refine remote_knownNode.bind fun _ => (remote_createVolume fun _ => rfl).attempt.bind fun x => ?_
    cases x with
    | error e => trivial
    | ok v => exact ih.bind fun _ => trivial

theorem remote_rollbackLeg : (rollbackLeg me leg).Only (Calls b) := by
  unfold rollbackLeg
  split
  · trivial
  · refine Only.bind (only_atomic fun _ w => ?_) fun known => ?_
    · split
      · exact .refl w
      · exact remote_noteLeft w _ _
    · split
      · exact only_ignore remote_undoVolume
      · trivial

theorem remote_dropSnapshot {node id : String} {eid : Option String} :
    (Backups.dropSnapshot node id eid).Only (Calls b) :=
  only_dropSnapshot (fun _ => remote_deleteVolume) remote_localVolumeId

theorem remote_dropHeld {up : Bool} {snap : ShipSnapshot} : (dropHeld name up snap).Only (Calls b) := by
  unfold dropHeld
  split
  · exact only_asUpstream remote_dropSnapshot
  · trivial

theorem remote_deleteMade {home : DataAt} {node : String} {id : Option String} {names : List String} :
    (deleteMade home node id names).Only (Calls b) := by
  refine remote_healthyHome.bind fun _ => ?_
  split
  · exact only_asUpstream remote_deleteVolume
  · refine only_forEach (fun name => remote_localVolumeId.attempt.bind fun x => ?_) _
    cases x with
    | ok id => exact only_asUpstream remote_deleteVolume
    | error e =>
      dsimp only
      split <;> trivial

theorem remote_deleteLeg : (deleteLeg name leg).Only (Calls b) := by
  unfold deleteLeg
  split
  · trivial
  · refine Only.bind (C := Calls b) (only_atomic fun _ w => .refl w) fun r => ?_
    split
    · trivial
    · refine remote_deleteVolume.attempt.bind fun x => ?_
      cases x <;> trivial
    · trivial

theorem remote_deleteLegs (legs : List Leg) : (deleteLegs name legs).Only (Calls b) := by
  induction legs with
  | nil => trivial
  | cons leg rest ih =>
    refine remote_deleteLeg.bind fun gone => ih.bind fun _ => ?_
    cases gone <;> trivial

end

end Api

end StormStorage
