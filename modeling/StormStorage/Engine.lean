import Mathlib.Algebra.GroupWithZero.Nat
import StormStorage.Server

/-!
# Calls to an engine

The calls of `engine.rs` that the volume operations make. A create is
idempotent by name: a volume of that name that is there already is the
answer. A delete of what is gone is done. What the other calls do on an
engine is left to what engines answer.

An engine volume has one id here; the source's `/v1` and engine-local ids are
two names for it.
-/

namespace StormStorage

open Await

namespace AppState

/-- The volume of that name on a node's engine. -/
def volumeOn (w : AppState) (node name : String) : Option EngineVolume :=
  w.engines.find? fun e => e.node = node ∧ e.name = name ∧ e.deleted = false

/-- The node's engine has given this id. -/
def given (w : AppState) (node id : String) : Bool := w.engines.any fun e => e.node = node ∧ e.id = id

/-- The id a create of that name is answered with; none if the one offered was
given before. -/
def createdId (w : AppState) (node name made : String) : Option String :=
  match w.volumeOn node name with
  | some e => some e.id
  | none => if w.given node made then none else some made

def mapVolume (w : AppState) (node id : String) (f : EngineVolume → EngineVolume) : AppState :=
  { w with engines := w.engines.map fun e => if e.node = node ∧ e.id = id then f e else e }

def createOn (w : AppState) (me : Nat) (node name : String) (leg : Bool) (made : String) : AppState :=
  match w.volumeOn node name with
  | some e => w.mapVolume node e.id fun e => { e with adopters := e.adopters ++ [me] }
  | none =>
    if w.given node made then w
    else { w with engines := w.engines ++ [{ node := node, name := name, id := made, leg := leg, maker := some me }] }

def destroyOn (w : AppState) (node id : String) : AppState :=
  w.mapVolume node id fun e => { e with deleted := true }

def serveOn (w : AppState) (node name host : String) : AppState :=
  { w with access := ⟨node, name, host⟩ :: w.access.filter (· ≠ ⟨node, name, host⟩) }

def withdrawOn (w : AppState) (node name host : String) : AppState :=
  { w with access := w.access.filter (· ≠ ⟨node, name, host⟩) }

/-- The undo of a create reaches this volume, if it is there. -/
def noteUndo (w : AppState) (me : Nat) (node id : String) : AppState :=
  match w.engines.find? fun e => e.node = node ∧ e.id = id ∧ e.deleted = false with
  | some e => w.note (.undone me e (w.fed.uses node id))
  | none => w

/-- The engine answered a create of that name with its id. -/
def told (w : AppState) (node name : String) (id : Option String) : AppState :=
  { w with answered := w.answered ++ id.toList.map fun id => ⟨node, name, id⟩ }

/-- The engine answered with a list of its volumes. -/
def heard (w : AppState) (node : String) (i : Reply) : AppState :=
  match i.wire with
  | .answered => { w with answered := w.answered ++ i.items.filterMap fun v => do
      some ⟨node, ← v.name, ← v.id⟩ }
  | .refused _ _ | .lost _ => w

/-- The engine's list has no volume of this name. -/
def noteUnlisted (w : AppState) (node name : String) (i : Reply) : AppState :=
  match i.wire with
  | .answered => if i.items.any fun v => v.name = some name ∧ v.id.isSome then w else w.note (.unlisted node name)
  | .refused _ _ | .lost _ => w

@[simp] theorem noteUnlisted_answered (w : AppState) (node name : String) (i : Reply) :
    (w.noteUnlisted node name i).answered = w.answered := by
  unfold noteUnlisted
  split
  · split <;> rfl
  · rfl
  · rfl

/-- A leg that `p` says is made and there stays behind. -/
def noteLeft (w : AppState) (why : Left) (p : EngineVolume → Bool) : AppState :=
  match w.engines.find? fun e => p e ∧ e.leg ∧ e.deleted = false with
  | some e => w.note (.left why e)
  | none => w

end AppState

/-- The answer names what was made. -/
def Reply.names (i : Reply) : Bool :=
  match i.wire with
  | .answered => i.item.id.isSome
  | _ => false

namespace Engine

/-- `POST /v1/volumes`. -/
def createVolume (me : Nat) (node name : String) (leg : Bool) : Async EngineItem :=
  call (fun i w =>
    let w' := w.createOn me node name leg i.made
    if i.names then w'.told node name (w.createdId node name i.made)
    else w'.noteLeft .unanswered fun e => e.node = node ∧ w.given node e.id = false) fun i w =>
    match w.createdId node name i.made with
    | some id => .ok { i.item with id := i.item.id.map fun _ => id }
    | none => .error { message := s!"create {name}: no message" }

/-- The same, with a source: a copy-on-write clone of it. -/
def createClone (me : Nat) (node name : String) : Async EngineItem := createVolume me node name false

/-- `POST /v1/snapshots`: a snapshot is an engine volume of its name. -/
def createSnapshot (me : Nat) (node name : String) : Async EngineItem := createVolume me node name false

/-- `POST /v1/group-snapshots`: the group and its members. -/
def createGroupSnapshot : Async (EngineItem × List EngineItem) := inquire fun i => .ok (i.item, i.items)

/-- The same, on an array. -/
def createPinned (me : Nat) (node name : String) : Async EngineItem := do
  .modify fun w => w.note (.pinned name)
  createVolume me node name false

/-- `DELETE /v1/volumes/{id}`. -/
def deleteVolume (node id : String) : Async Unit := call (fun _ w => w.destroyOn node id) fun _ _ => .ok ()

/-- The same, to undo a create. -/
def undoVolume (me : Nat) (node id : String) : Async Unit :=
  callOr (fun _ w => (w.noteUndo me node id).destroyOn node id)
    (·.noteLeft .refused fun e => e.node = node ∧ e.id = id) fun _ _ => .ok ()

/-- A call whose answer says no more than that it was done. -/
def act : Async Unit := inquire fun _ => .ok ()

def attached (host : Option String) (i : Reply) : Except Fault AttachedLeg :=
  match i.attach with
  | some a => .ok { a with hostNqn := host }
  | none => .error { message := "attach: engine returned no nsid" }

/-- Serve a volume on the shared subsystem. -/
def attachVolume (ofVolume : String) : Async AttachedLeg :=
  call (fun _ w => w.note (.served ofVolume none)) fun i _ => attached none i

/-- Serve a leg to one host, the head that opens it. -/
def attachLeg (node id host : String) : Async AttachedLeg :=
  call (fun _ w => w.note (.attached node id host)) fun i _ => attached (some host) i

/-- Close a drive; one that is not open is closed. -/
def deleteDrive (node uri : String) : Async Unit :=
  .step (fun _ => true) (fun i w => w.note (.closing node uri i.wire.gone)) fun i _ =>
    match i.wire with
    | .answered => .ret ()
    | .refused status why => if i.wire.gone then .ret () else .fail { message := why, status := status }
    | .lost why => .fail { message := why }

/-- Open a drive, or find it open. -/
def addDrive (uri : String) : Async String :=
  inquire fun i =>
    match i.id with
    | some uuid => .ok uuid
    | none => .error { message := s!"open {uri}: no uuid" }

def listArrays : Async (List EngineArray) := inquire fun i => .ok i.arrays

def getArray : Async EngineArray := inquire fun i => .ok i.array

/-- The array, or none when the engine no longer holds it. -/
def findArray : Async (Option EngineArray) := inquire fun i => .ok i.arrays.head?

/-- Put arrays together from the superblocks of drives: those it made. -/
def assembleArrays : Async (List EngineArray) := inquire fun i => .ok i.arrays

/-- `GET /v1/volumes`. -/
def listVolumes : Async (List EngineItem) := inquire fun i => .ok i.items

/-- `/api/v1/volumes`. -/
def listEngineVolumes (node : String) : Async (List EngineItem) :=
  call (fun i w => w.heard node i) fun i _ => .ok i.items

def createRaid1 : Async EngineArray := inquire fun i => .ok i.array

def addMember : Async String :=
  inquire fun i =>
    match i.id with
    | some uuid => .ok uuid
    | none => .error { message := "add member: no member_uuid" }

/-- Start to copy a snapshot's extents to a remote volume: the job's id. -/
def shipSnapshot : Async (Option String × Option ShipReading) := inquire fun i => .ok (i.id, i.ship)

/-- The job, or none when the engine lost it. -/
def shipJob : Async (Option ShipReading) := inquire fun i => .ok i.ship

def validExtentSize (bytes : Nat) : Bool := 4096 ≤ bytes ∧ 2 ^ bytes.log2 = bytes

/-- The leg volume's own epoch after it was fenced. -/
def fenceLeg (node id : String) : Async Nat :=
  call (fun _ w => w.note (.fencedLeg node id)) fun i _ => .ok i.epoch

/-- The one of these ids. -/
def oneNamed (name : String) : List String → Except Fault String
  | [id] => .ok id
  | [] => .error {
      message := s!"/api/v1/volumes: 404 Not Found: no engine volume named {repr name}", status := some 404 }
  | ids => .error { message := s!"{ids.length} engine volumes named {repr name}" }

/-- `/api/v1/volumes`, by name: exactly one match. A volume that is served is
listed. A list that is refused says nothing of the volume. -/
def localVolumeId (node name : String) : Async String :=
  .step (fun _ => true) (fun i w => (w.heard node i).noteUnlisted node name i) fun i w =>
    match i.wire with
    | .answered =>
      let ids := i.items.filterMap fun v => if v.name = some name then v.id else none
      if ids = [] ∧ w.access.any fun a => a.node = node ∧ a.name = name then
        .fail { message := "/api/v1/volumes: no answer" }
      else .ofExcept (oneNamed name ids)
    | .refused _ why | .lost why => .fail { message := why }

/-- Serve the volume of that name to one host. -/
def attachForHost (ofVolume node name host : String) : Async AttachedLeg :=
  call (fun _ w => (w.serveOn node name host).note (.served ofVolume (some host))) fun i _ => attached (some host) i

/-- Stop serving it to that host; a volume that is gone is served to none. -/
def withdrawHost (node name host : String) : Async Unit :=
  call (fun _ w => w.withdrawOn node name host) fun _ _ => .ok ()

end Engine

end StormStorage
