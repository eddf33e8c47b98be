import StormStorage.Api.Snapshots
import StormStorage.Backups

/-!
# The backup API

Policies, restores, and what a volume's delete does to its backups
(`api/backups.rs`).
-/

namespace StormStorage.Api

open Await Orchestrate Backups

/-! ## Policies -/

structure PolicyBody where
  pool : Option String := none
  tier : Option String := none
  node : Option String := none
  intervalSecs : Option Nat := none
  keep : Option Nat := none

def PolicyBody.policy (body : PolicyBody) : BackupPolicy where
  pool := body.pool
  tier := body.tier
  node := body.node
  intervalSecs := body.intervalSecs.getD 3600
  keep := body.keep.getD 7

def freshBackup (name : String) (size : Nat) : Backup where
  volume := name
  sizeBytes := size
  policy := none
  node := none
  targetVolumeId := none
  targetMaster := none
  targetAttach := none
  attachedFor := none
  base := none
  job := none
  points := []
  state := .idle
  message := none
  nextAtMs := 0
  sourceDeleted := false

/-- The record with the policy asked for; a destination in use is not changed. -/
def withPolicy (fed : FedState) (name : String) (policy : BackupPolicy) (now : SystemTime) : Except Fault Backup := do
  let asked := policy.node.getD ""
  require (policy.node.all fed.nodes.contains) (.notFound s!"node {repr asked}")
  let vol ← volumeIn fed name
  require (vol.assembly ≠ .clone) (.conflict s!"{name} is a clone on its parent's data; back up the parent")
  let b := (fed.backups[name]?).getD (freshBackup name vol.sizeBytes)
  let place := b.node.getD "?"
  require (¬ (b.node.isSome ∧ b.policy.any fun old =>
      (old.pool, old.tier, old.node) ≠ (policy.pool, policy.tier, policy.node)))
    (.conflict s!"{name}: its backups are on {place}; purge them (DELETE …/backup?purge=true) to move them")
  .ok { b with nextAtMs := if b.policy.isNone then nowMs now else b.nextAtMs, policy := some policy }

/-- `PUT /api/v1/volumes/{name}/backup`. -/
def putPolicy (cfg : Config) (name : String) (body : PolicyBody) : Async Unit :=
  let policy := body.policy
  if policy.intervalSecs < 60 then .fail (.badRequest "interval_secs: at least 60")
  else if policy.keep = 0 then .fail (.badRequest "keep: at least 1")
  else if policy.pool.any fun p => (cfg.pool p).isNone then
    let pool := policy.pool.getD ""
    .fail (.notFound s!"pool {repr pool}")
  else do
    .ofExcept (← .atomic fun i w =>
      match withPolicy w.fed name policy i.now with
      | .ok b => (.ok (), w.revise fun fed => { fed with backups := fed.backups.insert name b })
      | .error e => (.error e, w))

/-! ## Stopping -/

/-- A record without its policy. -/
def stopped (b : Backup) : Backup := { b with policy := none, state := .idle, message := none }

/-- The policy is gone; answers the record as it is left. -/
def stopBackup (name : String) : Async (Option Backup) :=
  .atomic fun _ w =>
    match w.fed.backups[name]? with
    | none => (none, w)
    | some b => (some (stopped b), w.revise fun fed => { fed with backups := fed.backups.insert name (stopped b) })

def reachable (fed : FedState) (node : String) : Except Fault Unit := do
  require (fed.nodes.contains node) (.conflict s!"node {repr node} not in registry")
  require (healthyIn fed node) (.conflict s!"{node} is unreachable; purge when it answers")

/-- The snapshots on the serving node that a backup holds. -/
def heldSnapshots (b : Backup) : List ShipSnapshot := b.base.toList ++ (b.job.map (·.snapshot)).toList

/-- What a purge works on: whether the backup node is there to be asked, and
what is held on serving nodes that answer. -/
def purgeable (b : Backup) (fed : FedState) : Except Fault (List ShipSnapshot) := do
  match b.node with
  | some node => reachable fed node
  | none => .ok ()
  .ok ((heldSnapshots b).filter fun s => healthyIn fed s.node)

def detachTarget : Option String → Async Unit
  | some _ => do
    let _ ← Engine.act.attempt
  | none => return ()

def purgePoints (node : String) (b : Backup) : Async Unit := do
  .forEach b.points fun p => asUpstream s!"point {p.name}" (dropSnapshot node p.name p.engineId)
  match b.targetVolumeId with
  | none => return ()
  | some target => do
    detachTarget b.targetMaster
    asUpstream "backup volume" (Engine.deleteVolume node target)

/-- Delete what a backup holds. -/
def purge (b : Backup) : Async Unit := do
  let held ← .ofExcept (← .get fun w => purgeable b w.fed)
  .forEach held fun s => do
    let _ ← (dropSnapshot s.node s.engineName s.engineId).attempt
  match b.node with
  | none => return ()
  | some node => purgePoints node b

/-- `DELETE /api/v1/volumes/{name}/backup`: the points stay, unless purged. -/
def stop (name : String) (purged : Bool) : Async Unit := do
  match ← stopBackup name with
  | none => return ()
  | some b =>
    if purged then do
      purge b
      .modify fun w => (w.note (.purged name (pointNames b.points))).revise fun fed =>
        { fed with backups := fed.backups.erase name }
    else return ()

/-- The point to delete, and the backup node. -/
def pointToDelete (volume point : String) (fed : FedState) : Except Fault (Option (String × BackupPoint)) :=
  match (fed.backups[volume]?).bind fun b => (b.points.find? (·.name = point)).map fun p => (b, p) with
  | none => .ok none
  | some (b, p) => do
    let node := b.node.getD ""
    require (healthyIn fed node) (.conflict s!"{node} holds the backups and is unreachable")
    .ok (some (node, p))

/-- `DELETE /api/v1/volumes/{name}/backup/points/{point}`. -/
def deletePoint (volume point : String) : Async Unit := do
  match ← .ofExcept (← .get fun w => pointToDelete volume point w.fed) with
  | none => return ()
  | some (node, p) => do
    asUpstream node (dropSnapshot node p.name p.engineId)
    .modify fun w => (w.note (.pointDeleted volume point)).revise fun fed =>
      match fed.backups[volume]? with
      | none => fed
      | some b => { fed with
          backups := fed.backups.insert volume { b with points := b.points.filter (·.name ≠ point) } }

/-! ## Restores -/

structure Restorable where
  backup : Backup
  node : String

def restoreReady (volume point name : String) (fed : FedState) : Except Fault Restorable := do
  match fed.backups[volume]? with
  | none => .error (.notFound s!"no backups of {repr volume}")
  | some b => do
    require (b.points.any (·.name = point)) (.notFound s!"point {repr point} of {repr volume}")
    require (name ≠ "" ∧ ¬ mirrorSuffix.toList <:+ name.toList) (.badRequest "a name, not ending in -mirror")
    require (¬ fed.taken name) (.conflict s!"{repr name} exists")
    require (¬ (fed.backups[name]?).any (·.sourceDeleted)) (.conflict s!"{repr name} names a deleted volume's backups")
    match b.node with
    | none => .error (.conflict "no backup node")
    | some node => do
      require (healthyIn fed node) (.conflict s!"{node} holds the backups and is unreachable")
      .ok { backup := b, node := node }

def restoredRecord (cfg : Config) (name : String) (b : Backup) (node id : String) (master : Option String)
    (now : SystemTime) : DistVolume where
  name := name
  sizeBytes := b.sizeBytes
  pool := none
  replicas := 1
  rung := cfg.rungs.head?.getD "node"
  legs := [{ node := node, volumeId := some id, state := .created, masterNode := master }]
  assembly := .singleLeg
  createdAt := now

/-- `POST /api/v1/volumes/{name}/backup/points/{point}/restore`: a clone of the
point on the backup node, served as a single-leg volume. -/
def restore (cfg : Config) (me : Nat) (volume point name : String) : Async Unit := do
  let p ← enter (restoreReady volume point name) fun _ => { task := me, creates := [name] }
  let r ← asUpstream s!"{p.node}: restore" (Engine.createClone me p.node name)
  match r.id with
  | none => .fail (.upstream s!"{p.node}: no id")
  | some id =>
    recordVolume me name (restoredRecord cfg name p.backup p.node id
      (r.master.or (some (p.backup.targetMaster.getD p.node))))
    let _ ← (publish me name).attempt

/-! ## A volume's delete -/

def dropHeld (name : String) (up : Bool) (snap : ShipSnapshot) : Async Unit :=
  if up then
    asUpstream s!"{name}: backup base {snap.engineName}" (dropSnapshot snap.node snap.engineName snap.engineId)
  else
    let node := snap.node
    .fail (.conflict s!"{node} holds {name}'s backup base and is unreachable")

/-- Stop the backups of a volume that is deleted; its points stay. -/
def onVolumeDelete (name : String) : Async Unit := do
  match ← .get fun w => (w.fed.backups[name]?).map fun b =>
    (heldSnapshots b).map fun s => (s, healthyIn w.fed s.node) with
  | none => return ()
  | some held => do
    .forEach held fun (snap, up) => dropHeld name up snap
    .modify fun w => w.revise fun fed =>
      match fed.backups[name]? with
      | none => fed
      | some b => { fed with backups := fed.backups.insert name { b with
          policy := none
          base := none
          job := none
          state := .idle
          sourceDeleted := true
          message := some "the volume was deleted; its points are kept until purged" } }

end StormStorage.Api
