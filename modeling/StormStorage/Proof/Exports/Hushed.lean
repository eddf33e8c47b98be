import StormStorage.Proof.Remote
import StormStorage.Proof.Exports.Seen

/-!
# Calls that serve nobody

A call is `Hushed` when it leaves alone which hosts engines serve, and notes
nothing of serving. The phases of the operations that serve volumes are such
calls, but for those that attach, make or withdraw a served volume.

* `exposed_of_hushed`: a hushed call changes nothing that is exposed.
-/

namespace StormStorage

open Await Task

/-- Who is served stays, and nothing of serving is noted. -/
structure Hushed (w w' : AppState) : Prop where
  access : w'.access = w.access
  noted : w'.log.filter Event.serving = w.log.filter Event.serving

section

variable {b : Bool} {w w' w'' : AppState} {α : Type}

theorem Hushed.refl (w : AppState) : Hushed w w := ⟨rfl, rfl⟩

theorem Hushed.trans (h : Hushed w w') (h' : Hushed w' w'') : Hushed w w'' :=
  ⟨h'.access.trans h.access, h'.noted.trans h.noted⟩

theorem hushed_of_eq (ha : w'.access = w.access) (hl : w'.log = w.log) : Hushed w w' := ⟨ha, by rw [hl]⟩

theorem exposed_of_hushed (hc : Calls b w w') (h : Hushed w w') : w'.exposed = w.exposed := by
  unfold AppState.exposed
  rw [hc.fed, hc.copies, h.access, h.noted, show w'.publishes = w.publishes by rw [hc.eq]]

theorem hushed_note (w : AppState) {e : Event} (h : e.serving = false) : Hushed w (w.note e) :=
  ⟨rfl, by simp [AppState.note, h]⟩

theorem hushed_told (w : AppState) (node name : String) (id : Option String) : Hushed w (w.told node name id) :=
  hushed_of_eq rfl rfl

theorem hushed_heard (w : AppState) (node : String) (i : Reply) : Hushed w (w.heard node i) := by
  unfold AppState.heard
  split <;> exact hushed_of_eq rfl rfl

theorem hushed_noteUnlisted (w : AppState) (node name : String) (i : Reply) : Hushed w (w.noteUnlisted node name i) := by
  unfold AppState.noteUnlisted
  split
  · split
    · exact .refl w
    · exact hushed_note w rfl
  · exact .refl w
  · exact .refl w

theorem hushed_createOn (w : AppState) (me : Nat) (node name : String) (leg : Bool) (made : String) :
    Hushed w (w.createOn me node name leg made) := by
  unfold AppState.createOn
  split
  · exact hushed_of_eq rfl rfl
  · split <;> exact hushed_of_eq rfl rfl

theorem hushed_noteLeft (w : AppState) (why : Left) (p : EngineVolume → Bool) : Hushed w (w.noteLeft why p) := by
  unfold AppState.noteLeft
  split
  · exact hushed_note w rfl
  · exact .refl w

/-! ## Calls -/

theorem hushed_call {eff : Reply → AppState → AppState} {answer : Reply → AppState → Except Fault α}
    (h : ∀ i w, Hushed w (eff i w)) : (call eff answer).Only Hushed := only_callOr h .refl

theorem hushed_inquire (answer : Reply → Except Fault α) : (inquire answer).Only Hushed := hushed_call fun _ => .refl

theorem hushed_get (f : AppState → α) : (Await.Task.get f : Async α).Only Hushed := only_atomic fun _ => .refl

end

section

variable {me : Nat} {node name id host : String} {vol : DistVolume}

namespace Engine

theorem hushed_deleteVolume : (deleteVolume node id).Only Hushed := hushed_call fun _ _ => hushed_of_eq rfl rfl

theorem hushed_act : act.Only Hushed := hushed_inquire _

theorem hushed_attachLeg : (attachLeg node id host).Only Hushed := hushed_call fun _ w => hushed_note w rfl

theorem hushed_addDrive {uri : String} : (addDrive uri).Only Hushed := hushed_inquire _

theorem hushed_fenceLeg : (fenceLeg node id).Only Hushed := hushed_call fun _ w => hushed_note w rfl

theorem hushed_localVolumeId : (localVolumeId node name).Only Hushed :=
  only_localVolumeId fun i w => (hushed_heard w node i).trans (hushed_noteUnlisted _ node name i)

end Engine

open Engine

/-! ## Deleting -/

theorem hushed_dropSnapshot {eid : Option String} : (Backups.dropSnapshot node id eid).Only Hushed :=
  only_dropSnapshot (fun _ => hushed_deleteVolume) hushed_localVolumeId

theorem hushed_dropHeld {up : Bool} {snap : ShipSnapshot} : (Api.dropHeld name up snap).Only Hushed := by
  unfold Api.dropHeld
  split
  · refine (only_withContext hushed_dropSnapshot).attempt.bind fun x => ?_
    cases x <;> trivial
  · trivial

theorem hushed_deleteServed {vid : String} : (Orchestrate.deleteServed vol node vid).Only Hushed := by
  refine hushed_act.attempt.bind fun _ => ?_
  split
  · exact hushed_act
  · exact hushed_deleteVolume

theorem hushed_teardown : (Orchestrate.teardown vol).Only Hushed := by
  have hacts : ∀ xs : List (Leg × Bool), (Task.forEach xs fun _ => do
      let _ ← act.attempt : Async Unit).Only Hushed := only_forEach fun _ => only_ignore hushed_act
  refine (hushed_get _).bind fun up => (hushed_get _).bind fun there => ?_
  split
  · refine hushed_act.attempt.bind fun _ => (only_forEach (fun _ => only_ignore hushed_act) _).bind fun _ => ?_
    exact hacts _
  · exact hacts _

theorem hushed_deleteLegs (legs : List Leg) : (Api.deleteLegs name legs).Only Hushed := by
  induction legs with
  | nil => trivial
  | cons leg rest ih =>
    refine Only.bind (C := Hushed) ?_ fun gone => ih.bind fun _ => ?_
    · unfold Api.deleteLeg
      split
      · trivial
      · refine Only.bind (C := Hushed) (only_atomic fun _ w => .refl w) fun r => ?_
        split
        · trivial
        · refine hushed_deleteVolume.attempt.bind fun x => ?_
          cases x <;> trivial
        · trivial
    · cases gone <;> trivial

/-! ## Heads -/

namespace Head

variable {cfg : Config} {target : String} {up : List String} {pick : Leg → Bool}

theorem hushed_fenceEach (legs : List FenceLeg) : (fenceEach legs).Only Hushed := by
  induction legs with
  | nil => trivial
  | cons l legs ih =>
    refine Only.bind (C := Hushed) ?_ fun r => ih.bind fun _ => ?_
    · unfold fenceOne
      split
      · exact hushed_fenceLeg.attempt
      · trivial
    · cases r <;> trivial

theorem hushed_openPicked (legs : List Leg) : (openPicked cfg target up pick legs).Only Hushed := by
  induction legs with
  | nil => trivial
  | cons leg rest ih =>
    unfold openPicked
    split
    · refine Only.bind (C := Hushed) ?_ fun _ => ih.bind fun _ => trivial
      unfold openLeg
      split
      · trivial
      · split
        · trivial
        · exact (only_withContext hushed_attachLeg).bind fun _ =>
            (only_withContext hushed_addDrive).bind fun _ => trivial
    · exact ih.bind fun _ => trivial

theorem hushed_renumbered {array : String} {legs : List Leg} : (renumbered target array pick legs).Only Hushed := by
  refine (hushed_inquire _).attempt.bind fun x => ?_
  cases x <;> trivial

theorem hushed_reattachLegs {head : String} (legs : List Leg) : (reattachLegs cfg head up legs).Only Hushed := by
  induction legs with
  | nil => trivial
  | cons leg rest ih =>
    unfold reattachLegs
    split
    · exact ih.bind fun _ => trivial
    · refine hushed_attachLeg.attempt.bind fun r => ih.bind fun _ => ?_
      cases r <;> trivial

end Head

end

end StormStorage
