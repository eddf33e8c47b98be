import StormStorage.Api.Snapshots
import StormStorage.Await.Amid
import StormStorage.Head

/-!
# Snapshots on a moving head

A snapshot lies on the slab of its parent's array, and is deleted through the
engine that serves it: under `/v1` by the id it was made with, or under
`/api/v1/volumes` by its engine volume's id. The two are kept apart here. When a
promote or a reassembly brings an array back, the volumes on its slab come back
by name, and have no `/v1` record.

`deleteSnapshot` is the API's (`api/snapshots.rs`), `dropSnapshot` the backups'
(`backup.rs`), both with what they do to the engines' volumes.
-/

namespace StormStorage.Slabs

open Await

/-! ## Engines -/

/-- An engine volume on the slab of a volume's array. -/
structure SlabVolume where
  node : String
  name : String
  /-- The engine's own id. -/
  id : String
  /-- The id of its `/v1` record, if it has one. -/
  record : Option String
  parent : String
deriving DecidableEq, Repr

/-- The records, and what the engines list. -/
structure Site where
  fed : FedState
  slabs : List SlabVolume

abbrev Run (α : Type) := Task Wire Site Fault α

/-- A call to an engine: what it does there, and what it answers. -/
def call {α : Type} (eff : List SlabVolume → List SlabVolume) (answer : List SlabVolume → Except Fault α) : Run α :=
  .step (fun _ => true)
    (fun wire s => match wire with
      | .refused _ _ => s
      | .answered | .lost _ => { s with slabs := eff s.slabs })
    fun wire s => match wire with
      | .answered => .ofExcept (answer s.slabs)
      | .refused status why => .fail { message := why, status := status }
      | .lost why => .fail { message := why }

/-- `DELETE /v1/snapshots/{id}`; a record that is not there is gone. -/
def deleteV1 (node id : String) : Run Unit :=
  call (·.filter fun e => ¬ (e.node = node ∧ e.record = some id)) fun _ => .ok ()

/-- `DELETE /api/v1/volumes/{id}`: any engine volume. -/
def deleteAnyVolume (node id : String) : Run Unit :=
  call (·.filter fun e => ¬ (e.node = node ∧ e.id = id)) fun _ => .ok ()

/-- The engine's own ids of its volumes of that name. -/
def idsNamed (node name : String) (slabs : List SlabVolume) : List String :=
  (slabs.filter fun e => e.node = node ∧ e.name = name).map (·.id)

/-- `GET /api/v1/volumes`, by name. The list itself is always there. -/
def localVolumeId (node name : String) : Run String :=
  .step (fun _ => true) (fun _ s => s) fun wire s => match wire with
    | .answered => .ofExcept (Engine.oneNamed name (idsNamed node name s.slabs))
    | .refused _ why | .lost why => .fail { message := why }

/-! ## Deleting a snapshot -/

/-- A failed call to an engine. -/
def upstream {α : Type} (what : String) (t : Run α) : Run α := do
  match ← t.attempt with
  | .ok a => return a
  | .error e => .fail (.upstream (e.context what).message)

def deleteByName (node name : String) : Run Unit := do
  match ← (localVolumeId node name).attempt with
  | .ok id => upstream s!"{node}: delete {name}" (deleteAnyVolume node id)
  | .error e => if e.isNotFound then return () else .fail (.upstream (e.context node).message)

def healthyHome (node : String) : Run Unit := do
  if ← .get fun s => healthyIn s.fed node then return ()
  else .fail (.conflict s!"{node} is unreachable — it holds the data; try again when it answers")

/-- On the node that it was made on by its id there, elsewhere by name. -/
def deleteFrom (node : String) (snap : Snapshot) : Run Unit :=
  match snap.engineId.filter fun _ => node = snap.node with
  | some id => upstream node (deleteV1 node id)
  | none => deleteByName node snap.engineName

def forget (id : String) (s : Site) : Site :=
  { s with fed := { s.fed with snapshots := s.fed.snapshots.erase id, revision := s.fed.revision + 1 } }

/-- `DELETE /api/v1/snapshots/{id}`. -/
def deleteSnapshot (id : String) : Run Unit := do
  match ← .ofExcept (← .get fun s => Api.snapshotToDelete id s.fed) with
  | none => return ()
  | some (snap, place) => do
    healthyHome place.node
    deleteFrom place.node snap
    .modify (forget id)

/-- What backups delete a snapshot with: by its id when known, and by name. -/
def dropSnapshot (node name : String) (id : Option String) : Run Unit := do
  .forEach id.toList (deleteV1 node)
  match ← (localVolumeId node name).attempt with
  | .ok id => deleteAnyVolume node id
  | .error e => if e.isNotFound then return () else .fail e

/-! ## The head -/

/-- What happens to a volume with an array while its snapshots stay. -/
inductive Event where
  /-- Its head moves to this node. -/
  | promote (target : String) (up : List String) (served : Option String) (ids : String → String)
  /-- Its head's engine forgot the array, and it is put back together there. -/
  | reassemble (array : String) (pick : Leg → Bool) (served : Option String) (ids : String → String)
  /-- The registry changes. -/
  | nodes (nodes : KeyMap Node)

/-- The node of the head, of a volume with an array. -/
def headOf (v : DistVolume) : Option String :=
  match v.assembly with
  | .assembled | .degraded => v.head
  | _ => none

/-- The node that serves a volume with legs. -/
def servedFrom (v : DistVolume) : Option String :=
  match v.assembly with
  | .assembled | .degraded => v.head
  | .singleLeg => v.legs.head?.map (·.node)
  | _ => none

/-- The volumes on the slab come back on `node` by name. -/
def comeBack (parent node : String) (ids : String → String) (e : SlabVolume) : SlabVolume :=
  if e.parent = parent then { e with node := node, id := ids e.name, record := none } else e

/-- A volume without an array is neither promoted nor reassembled, and the head
that it already has keeps the array. -/
def event (parent : String) : Event → Site → Site
  | .promote target up served ids, s =>
    match s.fed.volumes[parent]?.bind headOf with
    | none => s
    | some head =>
      if head = target then { s with fed := s.fed.modifyVolume parent fun v => { v with fenced := false } }
      else {
        fed := s.fed.modifyVolume parent (Head.promoted target up served)
        slabs := s.slabs.map (comeBack parent target ids) }
  | .reassemble array pick served ids, s =>
    match s.fed.volumes[parent]?.bind headOf with
    | none => s
    | some head => {
        fed := s.fed.modifyVolume parent (Head.reassembled head array pick served)
        slabs := s.slabs.map (comeBack parent head ids) }
  | .nodes nodes, s => { s with fed := { s.fed with nodes := nodes } }

/-- The event brings the array back. -/
def moves (parent : String) (s : Site) : Event → Bool
  | .promote target _ _ _ => (s.fed.volumes[parent]?.bind headOf).any (· ≠ target)
  | .reassemble .. => (s.fed.volumes[parent]?.bind headOf).isSome
  | .nodes _ => false

/-- One of these events brings the array back. -/
def moved (parent : String) (s : Site) : List Event → Bool
  | [] => false
  | e :: es => moves parent s e || moved parent (event parent e s) es

end StormStorage.Slabs
