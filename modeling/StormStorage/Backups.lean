import StormStorage.Orchestrate.Export

/-!
# Point-in-time backups

The served volume is snapshotted on the node that serves it, the engine ships
what changed to a thin volume on a backup node, and that volume is snapshotted
there: a point (`backup.rs`). `step` does at most one thing for a volume and
records it.
-/

namespace StormStorage.Backups

open Await Orchestrate

/-! ## Time -/

/-- A signed 64-bit number, as a conversion and each operation of a release
build leave it. -/
def i64 (x : Int) : Int := x.bmod (2 ^ 64)

def nowMs (t : SystemTime) : Int := i64 t

/-- `t + (interval as i64) * 1000` -/
def dueAfter (t : Int) (intervalSecs : Nat) : Int := i64 (t + i64 (i64 intervalSecs * 1000))

/-! ## What a backup is kept on, and its points -/

def backupTargetName (volume : String) : String := volume ++ "-backup"

/-- The snapshot that is shipped, by the time it is taken. -/
def shipName (volume : String) (taken : Int) : String := volume ++ "-ship-" ++ toString taken

def pointName (volume : String) (taken : Int) : String := volume ++ "-bk-" ++ toString taken

/-- The nodes a backup may go to: never one that holds a leg of the volume. -/
def candidates (cfg : Config) (fed : FedState) (b : Backup) (p : BackupPolicy) : List Candidate :=
  let legs := ((fed.volumes[b.volume]?).map fun v => v.legs.map (·.node)).getD []
  let pool := p.pool.bind cfg.pool
  ((fed.nodes.toList.map Prod.snd).filter fun n =>
    n.status.healthy ∧ n.config.name ∉ legs ∧ (pool.all fun pc => pc.selector.matches n.config) ∧
      (p.tier.all fun t => n.config.tier = some t) ∧ (p.node.all fun x => n.config.name = x)).map Node.candidate

/-- Points beyond `keep`, oldest first. -/
def prune (points : List BackupPoint) (keep : Nat) : List BackupPoint :=
  (points.insertionSort fun a b => a.takenAtMs ≤ b.takenAtMs).take (points.length - max keep 1)

/-- Apply `f` to the backup's record, if it is there. -/
def update (name : String) (f : Backup → Backup) : Async Unit :=
  .modify fun w =>
    match w.fed.backups[name]? with
    | none => w
    | some b => w.revise fun fed => { fed with backups := fed.backups.insert name (f b) }

def deleteById (node : String) : Option String → Async Unit
  | some id => Engine.deleteVolume node id
  | none => return ()

/-- Delete a snapshot by its id, when that is known, and by its name. -/
def dropSnapshot (node name : String) (id : Option String) : Async Unit := do
  deleteById node id
  match ← (Engine.localVolumeId node name).attempt with
  | .ok found => Engine.deleteVolume node found
  | .error e => if e.isNotFound then return () else .fail e

/-! ## One step -/

/-- What a step reads. -/
structure Reading where
  backup : Backup
  policy : BackupPolicy
  place : DataAt
  volBytes : Nat

def readBackup (name : String) (fed : FedState) : Except Fault (Option Reading) :=
  match fed.backups[name]? with
  | none => .ok none
  | some b => do
    let vol ← match fed.volumes[name]? with
      | some v => .ok v
      | none => .error { message := s!"{name}: volume gone" }
    let place ← dataAt fed vol
    match b.policy with
    | some p => .ok (some { backup := b, policy := p, place := place, volBytes := vol.sizeBytes })
    | none => .error { message := "filtered" }

/-- Record the node that was picked under the policy. -/
def recordNode (name node : String) (p : BackupPolicy) : Async Unit :=
  .modify fun w =>
    match w.fed.backups[name]? with
    | none => w
    | some b => { w with choices := ⟨name, p⟩ :: w.choices }.revise fun fed =>
        { fed with backups := fed.backups.insert name { b with node := some node } }

def pickNode (cfg : Config) (name : String) (r : Reading) : Async Unit := do
  let picks ← .get fun w =>
    plan cfg.ioWeight cfg.rungs "node" (candidates cfg w.fed r.backup r.policy) 1 r.backup.sizeBytes
  match picks with
  | .ok picks => recordNode name (picks.head?.getD "") r.policy
  | .error e => .fail { message := s!"no backup node: {e}" }

def makeTarget (me : Nat) (name node : String) : Async Unit := do
  let v ← withContext s!"{node}: backup volume" (Engine.createVolume me node (backupTargetName name) false)
  match v.id with
  | none => .fail { message := s!"{node}: no id" }
  | some id => update name fun b => { b with targetVolumeId := some id, targetMaster := v.master }

def attachTarget (cfg : Config) (name node target : String) (r : Reading) : Async Unit := do
  let a ← withContext s!"{node}: attach backup volume" (Engine.attachLeg node target (cfg.hostNqnFor r.place.node))
  update name fun b => { b with targetAttach := some a, attachedFor := some r.place.node }

def growTarget (name node : String) (r : Reading) : Async Unit := do
  withContext s!"{node}: expand backup volume" Engine.act
  update name fun b => { b with sizeBytes := r.volBytes }

/-- Drop points; those that could not be. -/
def dropAll (node : String) : List BackupPoint → Async (List String)
  | [] => return []
  | p :: ps => do
    let r ← (dropSnapshot node p.name p.engineId).attempt
    let failed ← dropAll node ps
    match r with
    | .ok _ => return failed
    | .error _ => return p.name :: failed

def dropBase (servingNode : String) : Option ShipSnapshot → Async Unit
  | none => return ()
  | some old => do
    let _ ← (dropSnapshot servingNode old.engineName old.engineId).attempt

def pointNames (points : List BackupPoint) : List String := points.map (·.name)

/-- What is left of the points that were to be dropped, where these could not be. -/
def keepPoints (points dropped : List BackupPoint) (failed : List String) : List BackupPoint :=
  points.filter fun p => (¬ dropped.any (·.name = p.name)) ∨ p.name ∈ failed

/-- Write the points: those that were read and the one that was taken, without
the dropped ones. -/
def recordPoints (name : String) (read : List BackupPoint) (point : BackupPoint) (dropped : List BackupPoint)
    (failed : List String) (f : Backup → Backup) : Async Unit :=
  .modify fun w =>
    let w := w.note (.pointed name (pointNames read) (pointNames dropped) failed point.name)
    match w.fed.backups[name]? with
    | none => w
    | some b => w.revise fun fed => { fed with
        backups := fed.backups.insert name { f b with points := keepPoints (read ++ [point]) dropped failed } }

/-- A ship is done: snapshot the backup volume, and drop what is not kept. -/
def finish (me : Nat) (name node : String) (r : Reading) (job : ShipJob) (nowMs : Int) : Async Unit := do
  let taken := job.snapshot.takenAtMs
  .modify fun w => w.note (.taking name (pointName name taken))
  let p ← withContext s!"{node}: point" (Engine.createSnapshot me node (pointName name taken))
  let point : BackupPoint := { name := pointName name taken, takenAtMs := taken, engineId := p.id }
  let dropped := prune (r.backup.points ++ [point]) r.policy.keep
  let failed ← dropAll node dropped
  dropBase r.place.node r.backup.base
  recordPoints name r.backup.points point dropped failed fun b => { b with
    base := some job.snapshot
    job := none
    state := .idle
    message := none
    nextAtMs := max nowMs (dueAfter taken r.policy.intervalSecs) }

/-- A job in flight. -/
def followJob (me : Nat) (name node : String) (r : Reading) (job : ShipJob) (nowMs : Int) : Async Unit := do
  if job.snapshot.node ≠ r.place.node then do
    update name fun b => { b with job := none, state := .idle, nextAtMs := nowMs }
    let was := job.snapshot.node
    .fail { message := s!"serving node changed from {was} to {r.place.node} during a ship" }
  else
    let read ← Engine.shipJob
    let st := (read.getD {}).state
    if st = "copying" then
      let j := read.getD {}
      update name fun b => { b with
        job := b.job.map fun jj => { jj with bytesTotal := j.bytesTotal, bytesDone := j.bytesDone } }
    else if st = "done" then finish me name node r job nowMs
    else
      let why := (read.bind (·.message)).getD "the engine lost the job"
      let _ ← (dropSnapshot r.place.node job.snapshot.engineName job.snapshot.engineId).attempt
      update name fun b => { b with job := none }
      .fail { message := s!"ship {job.id} {st}: {why}" }

/-- Ship the snapshot that was taken. -/
def ship (name : String) (r : Reading) (snapshot : ShipSnapshot) : Async Unit := do
  match ← Engine.shipSnapshot.attempt with
  | .ok (none, _) => .fail { message := "ship answered without a job id" }
  | .ok (some id, read) =>
    update name fun b => { b with
      job := some { id := id, snapshot := snapshot
                    bytesTotal := (read.getD {}).bytesTotal, bytesDone := (read.getD {}).bytesDone }
      state := .shipping
      message := none }
  | .error e => do
    let _ ← (dropSnapshot r.place.node snapshot.engineName snapshot.engineId).attempt
    if e.isNotFound then
      let place := r.place.node
      update name fun b => { b with
        state := .waitingEngine
        message := some s!"{place} cannot ship snapshots yet (stormblock#400); retried every interval"
        nextAtMs := dueAfter snapshot.takenAtMs r.policy.intervalSecs }
    else .fail (e.context s!"{r.place.node}: ship")

/-- Due: snapshot the served volume and ship it. -/
def shipDue (me : Nat) (name : String) (r : Reading) (nowMs : Int) : Async Unit := do
  let snap ← withContext s!"{r.place.node}: snapshot"
    (Engine.createSnapshot me r.place.node (shipName name nowMs))
  ship name r { node := r.place.node, engineName := shipName name nowMs, engineId := snap.id, takenAtMs := nowMs }

/-- What is to do on the backup node that was picked. -/
def stepOn (cfg : Config) (me : Nat) (name node : String) (r : Reading) (nowMs : Int) : Async Unit := do
  engine node
  match r.backup.targetVolumeId with
  | none => makeTarget me name node
  | some target =>
    if r.backup.attachedFor ≠ some r.place.node ∨ r.backup.targetAttach.isNone then attachTarget cfg name node target r
    else if r.backup.job.isNone ∧ r.backup.sizeBytes < r.volBytes then growTarget name node r
    else
      match r.backup.job with
      | some job => followJob me name node r job nowMs
      | none => if nowMs < r.backup.nextAtMs then return () else shipDue me name r nowMs

def step (cfg : Config) (me : Nat) (name : String) (nowMs : Int) : Async Unit := do
  match ← .ofExcept (← .get fun w => readBackup name w.fed) with
  | none => return ()
  | some r =>
    match r.backup.node with
    | none => pickNode cfg name r
    | some node => stepOn cfg me name node r nowMs

/-- A step that failed is tried again after the interval. -/
def recordFailure (name : String) (nowMs : Int) (e : Fault) : Async Unit := do
  let interval ← .get fun w => (((w.fed.backups[name]?).bind (·.policy)).map (·.intervalSecs)).getD 3600
  update name fun b => { b with
    state := .failed, message := some e.message, nextAtMs := dueAfter nowMs interval }

def claimKey (volume : String) : String := "backup:" ++ volume

def runOne (cfg : Config) (me : Nat) (nowMs : Int) (name : String) : Async Unit := do
  if ← claim me (claimKey name) then
    let r ← (step cfg me name nowMs).attempt
    release (claimKey name)
    match r with
    | .ok _ => return ()
    | .error e => recordFailure name nowMs e
  else return ()

/-- One step for every volume with a policy. -/
def run (cfg : Config) (me : Nat) : Async Unit := do
  let (names, now) ← .atomic fun i w =>
    ((((w.fed.backups.toList.map Prod.snd).filter fun b => b.policy.isSome ∧ ¬ b.sourceDeleted).map (·.volume), i.now), w)
  .forEach names (runOne cfg me (nowMs now))

end StormStorage.Backups
