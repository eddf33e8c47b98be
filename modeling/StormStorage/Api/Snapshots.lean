import StormStorage.Orchestrate.Export

/-!
# Snapshots, group snapshots and clones

What runs on the node that serves a volume's data (`api/snapshots.rs`).
Volumes and snapshots share one namespace (`nameFree`). Each create checks its
names and its source in one step, calls the engine, and then records what was
made.
-/

namespace StormStorage.Api

open Await Orchestrate

def nameFree (fed : FedState) (name : String) : Except Fault Unit := do
  require (name ≠ "") (.badRequest "name required")
  require (¬ mirrorSuffix.toList <:+ name.toList)
    (.badRequest s!"names ending in {repr mirrorSuffix} are reserved for served mirrors")
  require (¬ fed.volumes.contains name) (.conflict s!"{repr name} is a volume")
  require (¬ fed.snapshots.contains name) (.conflict s!"{repr name} is a snapshot")
  require (¬ (fed.backups[name]?).any (·.sourceDeleted))
    (.conflict s!"{repr name} names a deleted volume's backups (#46)")

def healthyHome (node : String) : Async Unit := do
  if ← healthy node then return ()
  else .fail (.conflict s!"{node} is unreachable — it holds the data; try again when it answers")

/-- A failure that the caller is told of as a conflict. -/
def asConflict {α : Type} (x : Except Fault α) : Except Fault α := x.mapError fun e => .conflict e.message

def asUpstream {α : Type} (what : String) (t : Async α) : Async α := do
  match ← (withContext what t).attempt with
  | .ok a => return a
  | .error e => .fail (.upstream e.message)

/-- The end of a create: what it made is in the records. -/
def commit (me : Nat) (names groups : List String) (f : FedState → FedState) : Async Unit :=
  .modify fun w => (w.recorded me names groups).revise f

def sizeOf (fed : FedState) (volume : String) : Nat := (fed.volumes[volume]?.map (·.sizeBytes)).getD 0

/-! ## Snapshots -/

/-- Where the snapshot is to be taken; none when it is there already. -/
def snapshotReady (name volumeId : String) (fed : FedState) : Except Fault (Option DataAt) :=
  match fed.snapshots[name]? with
  | some existing =>
    if existing.sourceVolumeId = volumeId then .ok none
    else
      let other := existing.sourceVolumeId
      .error (.conflict s!"snapshot {repr name} exists for volume {repr other}")
  | none => do
    nameFree fed name
    let vol ← volumeIn fed volumeId
    let place ← asConflict (dataAt fed vol)
    .ok (some place)

def takeSnapshot (me : Nat) (name volumeId : String) (place : DataAt) : Async Unit := do
  healthyHome place.node
  let size ← .get fun w => sizeOf w.fed volumeId
  let r ← asUpstream s!"{place.node}: snapshot" (Engine.createSnapshot me place.node name)
  let now ← .ask (·.now)
  commit me [name] [] fun fed => { fed with snapshots := fed.snapshots.insert name {
    id := name
    name := name
    sourceVolumeId := volumeId
    sizeBytes := r.sizeBytes.getD size
    ready := r.ready.getD true
    createdAtMs := r.createdAtMs.getD now
    groupSnapshotId := none
    parent := place.parent
    node := place.node
    engineName := name
    engineId := r.id } }

/-- `POST /api/v1/snapshots`: idempotent on `name` for the same volume. -/
def createSnapshot (me : Nat) (name volumeId : String) : Async Unit := do
  match ← enter (snapshotReady name volumeId) (fun
    | some place => { task := me, creates := [name], needs := [place.parent] }
    | none => { task := me }) with
  | some place => takeSnapshot me name volumeId place
  | none => return ()

/-! ## Group snapshots -/

def memberName (group volume : String) : String := group ++ "-" ++ volume

/-- Where each volume's data is; none when the group is there already. -/
def groupReady (name : String) (volumeIds : List String) (fed : FedState) : Except Fault (Option (List DataAt)) :=
  match fed.groupSnapshots[name]? with
  | some g =>
    if (volumeIds.map (memberName name)).isPerm g.members then .ok none
    else .error (.conflict s!"group snapshot {repr name} exists for other volumes")
  | none => do
    let ats ← volumeIds.mapM fun v => do
      nameFree fed (memberName name v)
      let vol ← volumeIn fed v
      asConflict (dataAt fed vol)
    .ok (some ats)

def memberSnapshot (name node : String) (created : Int) (sizes : List Nat) (made : List EngineItem)
    (m : (String × DataAt) × Nat) : Snapshot where
  id := memberName name m.1.1
  name := memberName name m.1.1
  sourceVolumeId := m.1.1
  sizeBytes := ((made[m.2]?).bind (·.sizeBytes)).getD ((sizes[m.2]?).getD 0)
  ready := ((made[m.2]?).bind (·.ready)).getD true
  createdAtMs := created
  groupSnapshotId := some name
  parent := m.1.2.parent
  node := node
  -- the engine names each member after the volume it was given
  engineName := memberName name m.1.2.engineName
  engineId := (made[m.2]?).bind (·.id)

def putSnapshots (members : List Snapshot) (fed : FedState) : FedState :=
  { fed with snapshots := members.foldl (fun m s => m.insert s.name s) fed.snapshots }

def takeGroup (me : Nat) (name : String) (volumeIds : List String) (ats : List DataAt) : Async Unit := do
  let node := (ats.head?.map (·.node)).getD ""
  if ats.any (·.node ≠ node) then
    let places := ", ".intercalate ((volumeIds.zip ats).map fun (v, a) => v ++ " on " ++ a.node)
    .fail (.conflict (s!"a group snapshot is one point in time on one node; these are served from different " ++
      s!"nodes: {places}"))
  else
    healthyHome node
    let (r, made) ← asUpstream s!"{node}: group snapshot" Engine.createGroupSnapshot
    let now ← .ask (·.now)
    let sizes ← .get fun w => volumeIds.map (sizeOf w.fed)
    let created := r.createdAtMs.getD now
    let members := (volumeIds.zip ats).zipIdx.map (memberSnapshot name node created sizes made)
    commit me (members.map (·.name)) [name] fun fed => { putSnapshots members fed with
      groupSnapshots := fed.groupSnapshots.insert name {
        id := name
        name := name
        members := members.map (·.name)
        ready := members.all (·.ready)
        createdAtMs := created
        node := node
        engineId := r.id } }

/-- `POST /api/v1/group-snapshots`: one point in time across volumes that are
served from one node. -/
def createGroup (me : Nat) (name : String) (volumeIds : List String) : Async Unit := do
  if volumeIds = [] then .fail (.badRequest "volume_ids required")
  else if ¬ volumeIds.Nodup then .fail (.badRequest "volume_ids repeats a volume")
  else
    match ← enter (groupReady name volumeIds) (fun
      | some ats => {
        task := me
        creates := volumeIds.map (memberName name)
        groups := [name]
        needs := ats.map (·.parent) }
      | none => { task := me }) with
    | some ats => takeGroup me name volumeIds ats
    | none => return ()

/-! ## Deleting them -/

/-- Where a snapshot's data is now: the node that serves its parent. -/
def snapshotHome (fed : FedState) (snap : Snapshot) : Except Fault DataAt :=
  match fed.volumes[snap.parent]? with
  | none => .error (.conflict s!"{snap.name}: its volume {snap.parent} is gone")
  | some parent => asConflict (dataAt fed parent)

/-- Delete engine volumes by name; those that are gone are done. -/
def deleteByName (node : String) (names : List String) : Async Unit :=
  .forEach names fun name => do
    match ← (Engine.localVolumeId node name).attempt with
    | .ok id => asUpstream s!"{node}: delete {name}" (Engine.deleteVolume node id)
    | .error e => if e.isNotFound then return () else .fail (.upstream s!"{node}: {e.message}")

/-- By the id it was given there, or by the names that came across. -/
def deleteMade (home : DataAt) (node : String) (id : Option String) (names : List String) : Async Unit := do
  healthyHome home.node
  match id.filter fun _ => home.node = node with
  | some id => asUpstream s!"{home.node}" (Engine.deleteVolume node id)
  | none => deleteByName home.node names

/-- The snapshot to delete and where it is; none when there is none. -/
def snapshotToDelete (id : String) (fed : FedState) : Except Fault (Option (Snapshot × DataAt)) :=
  match fed.snapshots[id]? with
  | none => .ok none
  | some snap =>
    match snap.groupSnapshotId with
    | some g => .error (.conflict s!"snapshot {repr id} belongs to group snapshot {repr g}; delete the group")
    | none => (snapshotHome fed snap).map fun place => some (snap, place)

/-- `DELETE /api/v1/snapshots/{id}`. -/
def deleteSnapshot (id : String) : Async Unit := do
  match ← .ofExcept (← .get fun w => snapshotToDelete id w.fed) with
  | none => return ()
  | some (snap, place) => do
    deleteMade place snap.node snap.engineId [snap.engineName]
    .modify (·.revise fun fed => { fed with snapshots := fed.snapshots.erase id })

/-- The group to delete, its members, and where they are. -/
def groupToDelete (id : String) (fed : FedState) :
    Except Fault (Option (GroupSnapshot × List Snapshot × Option DataAt)) :=
  match fed.groupSnapshots[id]? with
  | none => .ok none
  | some g =>
    let members := g.members.filterMap fun m => fed.snapshots[m]?
    match members.head? with
    | none => .ok (some (g, members, none))
    | some m => (snapshotHome fed m).map fun place => some (g, members, some place)

/-- `DELETE /api/v1/group-snapshots/{id}`. -/
def deleteGroup (id : String) : Async Unit := do
  match ← .ofExcept (← .get fun w => groupToDelete id w.fed) with
  | none => return ()
  | some (g, members, place) => do
    .forEach place.toList fun place => deleteMade place g.node g.engineId (members.map (·.engineName))
    .modify (·.revise fun fed => { fed with
      snapshots := g.members.foldl (·.erase ·) fed.snapshots
      groupSnapshots := fed.groupSnapshots.erase id })

/-! ## Clones -/

/-- The volume whose data a clone is of, the size it has at least, and the
snapshot it is of. -/
def cloneSource (fed : FedState) : VolumeSource → Except Fault (DistVolume × Nat)
  | .volume id => do
    let v ← volumeIn fed id
    .ok (v, v.sizeBytes)
  | .snapshot id =>
    match fed.snapshots[id]? with
    | none => .error (.notFound s!"snapshot {repr id}")
    | some sn =>
      match fed.volumes[sn.parent]? with
      | none =>
        let parent := sn.parent
        .error (.conflict s!"snapshot {repr id}: its volume {parent} is gone")
      | some v => .ok (v, sn.sizeBytes)

structure Cloneable where
  place : DataAt
  parent : DistVolume

def cloneReady (name : String) (sizeBytes : Nat) (source : VolumeSource) (fed : FedState) :
    Except Fault Cloneable := do
  nameFree fed name
  let (vol, least) ← cloneSource fed source
  require (least ≤ sizeBytes)
    (.badRequest s!"a clone is at least its source's size ({least} bytes), not {sizeBytes}")
  let place ← asConflict (dataAt fed vol)
  let parent ← volumeIn fed place.parent
  .ok { place := place, parent := parent }

def cloneRecord (name : String) (sizeBytes : Nat) (source : VolumeSource) (hosts : List HostServe) (c : Cloneable)
    (id : String) (master : String) (r : EngineItem) (now : SystemTime) : DistVolume :=
  { c.parent with
    name := name
    sizeBytes := sizeBytes
    legs := []
    assembly := .clone
    head := none
    arrayId := none
    createdAt := now
    replacing := none
    nextRelegAfter := none
    nextAssembleAfter := none
    «export» := {
      node := some c.place.node
      volumeId := some id
      masterNode := r.master.or (some master)
      hosts := hosts
      perHost := hosts ≠ [] }
    epoch := firstEpoch
    fenced := false
    ratePending := false
    dualAttach := none
    migration := none
    cloneOf := some { source := source, parent := c.parent.name }
    expanding := none }

def recordVolume (me : Nat) (name : String) (vol : SystemTime → DistVolume) : Async Unit :=
  .atomic fun i w =>
    ((), (w.recorded me [name] []).revise fun fed => { fed with volumes := fed.volumes.insert name (vol i.now) })

def makeClone (me : Nat) (name : String) (sizeBytes : Nat) (source : VolumeSource) (hosts : List HostServe)
    (c : Cloneable) : Async Unit := do
  healthyHome c.place.node
  match c.place.masterNode with
  | none =>
    let node := c.place.node
    .fail (.conflict s!"{c.parent.name}: no /v1 node name known for {node} — cannot place a clone there")
  | some master => do
    let r ← asUpstream s!"{c.place.node}: clone" (Engine.createClone me c.place.node name)
    match r.id with
    | none => .fail (.upstream s!"{c.place.node}: clone answered without an id")
    | some id => recordVolume me name (cloneRecord name sizeBytes source hosts c id master r)

/-- `POST /api/v1/volumes` with a source: a copy-on-write clone on the node
that holds the source's data, served as itself. -/
def createClone (me : Nat) (name : String) (sizeBytes : Nat) (source : VolumeSource) (hosts : List HostServe) :
    Async Unit := do
  let c ← enter (cloneReady name sizeBytes source)
    fun c => { task := me, creates := [name], needs := [c.place.parent] }
  makeClone me name sizeBytes source hosts c
  let _ ← (publish me name).attempt

end StormStorage.Api
