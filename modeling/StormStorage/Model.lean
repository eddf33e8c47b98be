import StormStorage.KeyMap

/-!
# Federation state

The records of `model.rs`: nodes, distributed volumes with their legs, head
and export, orphans and stale heads, snapshots, backups and live migrations.
A `SystemTime` is a count of milliseconds.
-/

namespace StormStorage

abbrev SystemTime := Nat

/-- Where a leg's namespace answers. -/
structure AttachedLeg where
  nqn : String
  traddr : String
  trsvcid : Nat
  nsid : Nat
  /-- The host the namespace is served to; none is the shared subsystem. -/
  hostNqn : Option String := none
deriving DecidableEq, Repr, Inhabited

def AttachedLeg.driveUri (a : AttachedLeg) : String :=
  let u := s!"nvme-tcp://{a.traddr}:{a.trsvcid}/{a.nqn}?nsid={a.nsid}"
  match a.hostNqn with
  | some h => u ++ "&hostnqn=" ++ h
  | none => u

/-! ## Nodes -/

structure NodeConfig where
  name : String
  engineUrl : String
  apiToken : Option String := none
  tokenFile : Option String := none
  caFile : Option String := none
  /-- Failure-domain labels, rung to value. -/
  labels : KeyMap String := ∅
  tier : Option String := none
deriving DecidableEq

inductive NodeSource where
  | static
  | registered
  | local
  | member
deriving DecidableEq, Repr

/-- A node's load between two polls. -/
structure IoLoad where
  /-- The mean number of I/Os in flight. -/
  busy : Rat
deriving DecidableEq

structure NodeStatus where
  healthy : Bool
  lastOk : Option SystemTime
  consecutiveFailures : Nat
  totalBytes : Nat
  freeBytes : Nat
  engineTopology : KeyMap String
  volumes : Nat
  source : NodeSource
  io : Option IoLoad := none
deriving DecidableEq

def NodeStatus.new (source : NodeSource) : NodeStatus where
  healthy := false
  lastOk := none
  consecutiveFailures := 0
  totalBytes := 0
  freeBytes := 0
  engineTopology := ∅
  volumes := 0
  source := source

structure Node where
  config : NodeConfig
  status : NodeStatus
deriving DecidableEq

/-! ## Distributed volumes -/

inductive LegState where
  | created
  | failed
  | lost
deriving DecidableEq, Repr

structure Leg where
  node : String
  volumeId : Option String
  state : LegState
  message : Option String := none
  /-- The engine's own node name: the attach is asked as it. -/
  masterNode : Option String := none
  «export» : Option AttachedLeg := none
  driveUuid : Option String := none
  memberUuid : Option String := none
  /-- The leg volume's own epoch on its engine after the last fence. -/
  epoch : Option Nat := none
deriving DecidableEq, Repr

inductive AssemblyState where
  | singleLeg
  | pendingEngineSupport
  | assembled
  | degraded
  | clone
deriving DecidableEq, Repr

def AssemblyState.debug : AssemblyState → String
  | .singleLeg => "SingleLeg"
  | .pendingEngineSupport => "PendingEngineSupport"
  | .assembled => "Assembled"
  | .degraded => "Degraded"
  | .clone => "Clone"

def LegState.debug : LegState → String
  | .created => "Created"
  | .failed => "Failed"
  | .lost => "Lost"

/-- The drive a leg is opened as. -/
def Leg.uri (l : Leg) : String := (l.export.map (·.driveUri)).getD ""

/-- A leg being replaced: the new leg rebuilds, the old one leaves when the
new one reports active. -/
structure Replacement where
  «from» : String
  leg : Leg
  reason : String
  startedAt : SystemTime
deriving DecidableEq, Repr

/-- A leg volume left on a node that could not be reached to delete it. -/
structure Orphan where
  node : String
  volumeId : String
  masterNode : Option String
  ofVolume : String
  reason : String
  since : SystemTime
deriving DecidableEq, Repr

inductive ExportState where
  | none
  | published
  | failed
  /-- A delete began taking the served volume down. -/
  | revoking
deriving DecidableEq, Repr

structure HostServe where
  hostNqn : String
  dhchap : Bool := false
  coordinates : Option AttachedLeg := none
  coordinatesChanged : Bool := false
  servedAt : Option SystemTime := none
  message : Option String := none
deriving DecidableEq, Repr

structure PendingWithdraw where
  node : String
  localId : Option String
  name : String
  hostNqn : String
deriving DecidableEq, Repr

/-- What a consumer attaches: the mirror, never one side of it. -/
structure Export where
  state : ExportState := .none
  volumeId : Option String := none
  node : Option String := none
  masterNode : Option String := none
  coordinates : Option AttachedLeg := none
  publishedAt : Option SystemTime := none
  coordinatesChanged : Bool := false
  message : Option String := none
  /-- The served volume came across with the array when the head moved. -/
  adopted : Bool := false
  hosts : List HostServe := []
  perHost : Bool := false
  localId : Option String := none
  withdrawing : List PendingWithdraw := []
  /-- The recorded served volume is gone from its engine. -/
  gone : Bool := false
deriving DecidableEq, Repr, Inhabited

inductive BandwidthClass where
  | low
  | normal
  | high
  | unthrottled
deriving DecidableEq, Repr

structure DualAttach where
  targetNode : String
  epoch : Nat
  openedAt : SystemTime
  expiresAt : SystemTime
deriving DecidableEq, Repr

/-- A head that lost its role and still holds the array, as far as we know. -/
structure StaleHead where
  node : String
  arrayId : String
  driveUris : List String
  ofVolume : String
  epoch : Nat
  since : SystemTime
  servedV1 : Option String
deriving DecidableEq, Repr

structure Expansion where
  toBytes : Nat
  startedAt : SystemTime
  arrayBytesBefore : Option Nat := none
  arrayGrown : Bool := false
  slabShort : Option String := none
  message : Option String := none
deriving DecidableEq, Repr

inductive VolumeSource where
  | snapshot (id : String)
  | volume (id : String)
deriving DecidableEq, Repr

structure CloneOf where
  source : VolumeSource
  /-- The volume with legs that holds the clone. -/
  parent : String
deriving DecidableEq, Repr

inductive MigrationState where
  | moving
  | waitingHandover
deriving DecidableEq, Repr

structure Migration where
  toPool : String
  fromPool : Option String
  startedAt : SystemTime
  state : MigrationState
  message : Option String
deriving DecidableEq, Repr

def firstEpoch : Nat := 1

structure DistVolume where
  name : String
  sizeBytes : Nat
  pool : Option String
  replicas : Nat
  rung : String
  legs : List Leg
  assembly : AssemblyState
  /-- Node whose engine holds the assembled array. -/
  head : Option String := none
  arrayId : Option String := none
  createdAt : SystemTime
  replacing : Option Replacement := none
  nextRelegAfter : Option SystemTime := none
  nextAssembleAfter : Option SystemTime := none
  «export» : Export := {}
  /-- Fencing epoch: bumped by every fence; a promote presents it. -/
  epoch : Nat := firstEpoch
  /-- Set by a fence and cleared by the promote that follows it. -/
  fenced : Bool := false
  bandwidthClass : BandwidthClass := .normal
  extentSizeBytes : Option Nat := none
  ratePending : Bool := false
  dualAttach : Option DualAttach := none
  migration : Option Migration := none
  cloneOf : Option CloneOf := none
  expanding : Option Expansion := none
deriving DecidableEq, Repr

/-- The size a leg or served volume is made at: an expand's target while one
is in flight. -/
def DistVolume.legBytes (v : DistVolume) : Nat :=
  match v.expanding with
  | none => v.sizeBytes
  | some x => max x.toBytes v.sizeBytes

/-! ## Snapshots, backups and live migrations -/

structure Snapshot where
  id : String
  name : String
  sourceVolumeId : String
  sizeBytes : Nat
  ready : Bool
  createdAtMs : Int
  groupSnapshotId : Option String
  parent : String
  node : String
  engineName : String
  engineId : Option String
deriving DecidableEq, Repr

structure GroupSnapshot where
  id : String
  name : String
  members : List String
  ready : Bool
  createdAtMs : Int
  node : String
  engineId : Option String
deriving DecidableEq, Repr

structure BackupPolicy where
  pool : Option String
  tier : Option String
  node : Option String
  intervalSecs : Nat
  keep : Nat
deriving DecidableEq, Repr

inductive BackupState where
  | idle
  | shipping
  | waitingEngine
  | failed
deriving DecidableEq, Repr

structure ShipSnapshot where
  node : String
  engineName : String
  engineId : Option String
  takenAtMs : Int
deriving DecidableEq, Repr

structure ShipJob where
  id : String
  snapshot : ShipSnapshot
  bytesTotal : Nat
  bytesDone : Nat
deriving DecidableEq, Repr

structure BackupPoint where
  name : String
  takenAtMs : Int
  engineId : Option String
deriving DecidableEq, Repr

structure Backup where
  volume : String
  sizeBytes : Nat
  policy : Option BackupPolicy
  node : Option String
  targetVolumeId : Option String
  targetMaster : Option String
  targetAttach : Option AttachedLeg
  attachedFor : Option String
  base : Option ShipSnapshot
  job : Option ShipJob
  points : List BackupPoint
  state : BackupState
  message : Option String
  nextAtMs : Int
  sourceDeleted : Bool
deriving DecidableEq, Repr

structure TargetPlacement where
  kind : String
  name : String
  id : String
deriving DecidableEq, Repr

inductive VmMigrationState where
  | starting
  | copying
  | synced
  | cutOver
  | completed
  | aborted
  | failed
deriving DecidableEq, Repr

def VmMigrationState.terminal : VmMigrationState → Bool
  | .completed | .aborted => true
  | _ => false

/-- A live migration of an in-use node volume from one engine to another. -/
structure VmMigration where
  id : String
  sourceNode : String
  sourceVolumeId : String
  sourceName : String
  sizeBytes : Nat
  targetNode : String
  targetName : String
  targetVolumeId : Option String := none
  targetLocalId : Option String := none
  targetAttach : Option AttachedLeg := none
  placement : Option TargetPlacement := none
  mirrorTarget : Option String := none
  state : VmMigrationState := .starting
  bytesTotal : Nat := 0
  bytesRemaining : Nat := 0
  message : Option String := none
  /-- An abort asked and not finished yet. -/
  aborting : Bool := false
  startedAtMs : Int
  updatedAtMs : Int
deriving DecidableEq, Repr

/-! ## The whole -/

structure FedState where
  /-- Bumped on every durable-intent mutation. -/
  revision : Nat := 0
  nodes : KeyMap Node := ∅
  volumes : KeyMap DistVolume := ∅
  orphans : List Orphan := []
  staleHeads : List StaleHead := []
  snapshots : KeyMap Snapshot := ∅
  groupSnapshots : KeyMap GroupSnapshot := ∅
  backups : KeyMap Backup := ∅
  vmMigrations : KeyMap VmMigration := ∅
deriving DecidableEq

namespace FedState

/-- The volume with legs that holds `vol`'s data: itself, or a clone's parent. -/
def parentOf (fed : FedState) (vol : DistVolume) : Option DistVolume :=
  match vol.cloneOf with
  | none => some vol
  | some c => fed.volumes[c.parent]?

/-- Clones and snapshots that live on `name`'s array or leg. -/
def dependentsOf (fed : FedState) (name : String) : List String :=
  ((fed.volumes.toList.map Prod.snd).filter fun v => v.cloneOf.any (·.parent = name)).map (s!"clone {·.name}") ++
  ((fed.snapshots.toList.map Prod.snd).filter fun s => s.parent = name ∨ s.sourceVolumeId = name).map
    (s!"snapshot {·.name}")

/-- A change of a volume's record where it stands. -/
def modifyVolume (fed : FedState) (name : String) (f : DistVolume → DistVolume) : FedState :=
  match fed.volumes[name]? with
  | none => fed
  | some v => { fed with volumes := fed.volumes.insert name (f v) }

end FedState

end StormStorage
