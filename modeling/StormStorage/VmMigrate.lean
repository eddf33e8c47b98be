import StormStorage.Engine

/-!
# Live migration of a volume to another node

The steps of `vmmigrate.rs`: the target's volume is made and served to the
source's host, the source's engine mirrors onto it (`advance`), the mirror is
stopped at the switch-over (`cutover`), and then `complete` retires the
source's volume or `abort` deletes the target's. `migrations` is the system of
these steps, each under its migration's claim, with the reconciler
(`runMigrations`) among them.
-/

namespace StormStorage

open Await

namespace VmMigration

def claimKey (id : String) : String := "vmmig:" ++ id

/-- The id of the migration numbered `seq`. -/
def newId (ms : SystemTime) (seq : Nat) : String := s!"vm-{ms}-{seq}"

/-- Terminal records are dropped after this long. -/
def keepTerminalMs : Int := 24 * 3600 * 1000

end VmMigration

def VmMigrationState.debug : VmMigrationState → String
  | .starting => "Starting"
  | .copying => "Copying"
  | .synced => "Synced"
  | .cutOver => "CutOver"
  | .completed => "Completed"
  | .aborted => "Aborted"
  | .failed => "Failed"

namespace VmMigrate

def refuse {α : Type} (m : String) : Async α := .fail { message := m, refused := true }

/-- Apply `f` to the record and answer it; none when it is gone. -/
def update (id : String) (f : VmMigration → VmMigration) : Async (Option VmMigration) :=
  .atomic fun i w =>
    match w.fed.vmMigrations[id]? with
    | none => (none, w)
    | some m =>
      (some (f m), w.revise fun fed =>
        { fed with vmMigrations := fed.vmMigrations.insert id { f m with updatedAtMs := i.now } })

def noSuchMigration (id : String) : Fault :=
  { message := s!"migration {id}: 404 Not Found: no such migration", status := some 404 }

def getMigration (id : String) : Async VmMigration := do
  match ← .get fun w => w.fed.vmMigrations[id]? with
  | some m => return m
  | none => .fail (noSuchMigration id)

/-! ## Places -/

/-- What a named place on the target turned out to be. -/
inductive PlaceLookup where
  | found (id : String) (freeBytes : Nat)
  | missing
  | noSlab (id : String)
deriving DecidableEq, Repr

def findArray (arrays : List EngineArray) (name : String) : PlaceLookup :=
  match arrays.find? fun a => a.id = some name ∨ (name ≠ "" ∧ a.name = some name) with
  | none => .missing
  | some a =>
    let id := a.id.getD name
    match a.slab with
    | none => .noSlab id
    | some free => .found id (free.getD 0)

def findSlab (slabs : List Slab) (name : String) : PlaceLookup :=
  match slabs.find? fun s => s.id = name with
  | some s => .found s.id s.freeBytes
  | none => .missing

def describe (d : DriveRef) : String :=
  ([d.serial, d.wwn, d.path].find? (· ≠ "")).getD "?"

def findDrive (slabs : List Slab) (name : String) : PlaceLookup :=
  let on := slabs.filter fun s => s.drive.any fun d => [d.serial, d.wwn, d.path].any fun x => x ≠ "" ∧ x = name
  match on.head?.bind (·.drive) with
  | none => .missing
  | some d => .found (describe d) (on.map (·.freeBytes)).sum

/-- Why a named placement is refused before anything is made. -/
inductive PlaceRefusal where
  | missing (m : String)
  | noRoom (m : String)
  | notYet (m : String)
deriving DecidableEq, Repr

def slabDrivePlacementIssue : String := "stormblock#426"

def checkPlacement (target kind name : String) (size : Nat) (lookup : PlaceLookup) :
    Except PlaceRefusal TargetPlacement :=
  let what := if kind = "array" then "RAID set (array)" else kind
  match lookup with
  | .missing => .error (.missing s!"{target} has no {what} {repr name}")
  | .noSlab id => .error (.noRoom s!"{target}: array {repr name} ({id}) carries no slab: nothing can be carved on it")
  | .found id free =>
    if free < size then
      .error (.noRoom s!"{target}: {what} {repr name} has {free} bytes free, the volume is {size}")
    else if kind ≠ "array" then
      .error (.notYet <| s!"{target}: {what} {repr name} is there with room, but its engine takes no {kind} " ++
        s!"placement on a create yet ({slabDrivePlacementIssue}); name a RAID set (\"array\") or leave placement out")
    else .ok { kind := kind, name := name, id := id }

/-! ## The source's mirror -/

/-- Fold a reading of S's mirror into a copying or synced record; the new
state when it changed. -/
def applyReading (m : VmMigration) (reading : Option MirrorReading) : VmMigration × Option VmMigrationState :=
  if ¬(m.state = .copying ∨ m.state = .synced) ∨ m.aborting then (m, none)
  else
    let next : VmMigration :=
      match reading with
      | none => { m with
          state := .failed
          message := some s!"{m.sourceNode} holds no mirror of {m.sourceName} any more" }
      | some r =>
        if some r.target ≠ m.mirrorTarget then { m with
          state := .failed
          message := some s!"{m.sourceNode} mirrors {m.sourceName} to another target ({r.target})" }
        else
          let m := { m with bytesTotal := r.bytesTotal, bytesRemaining := r.bytesRemaining }
          if r.state = "synced" then { m with state := .synced, message := none }
          else if r.state = "copying" then { m with state := .copying, message := none }
          else { m with state := .failed, message := some (r.message.getD ("mirror " ++ r.state)) }
    (next, if next.state ≠ m.state then some next.state else none)

/-- `GET /api/v1/volumes/{id}` on a node's engine. -/
def getAnyVolume : Async EngineItem := inquire fun i => .ok i.item

def readMirror (m : VmMigration) : Async (Option MirrorReading) := do
  engine m.sourceNode
  return (← getAnyVolume).mirror

/-- The record with a live reading of S's mirror folded in, not recorded. -/
def live (m : VmMigration) : Async VmMigration := do
  if (m.state = .copying ∨ m.state = .synced) ∧ ¬ m.aborting then
    match ← (readMirror m).attempt with
    | .ok r => return (applyReading m r).1
    | .error _ => return m
  else return m

/-- Stop S's mirror; none when it holds none. -/
def stopMirror (node volume : String) : Async (Option MirrorStop) := do
  match ← (call (fun _ w => w.note (.mirrorStopped node volume)) fun i _ => .ok i.stopped).attempt with
  | .ok v => return some v
  | .error e => if e.isNotFound then return none else .fail e

/-! ## Starting -/

variable (hostNqnFor : String → String)

/-- The engine-local id of the volume named `name`: exactly one match. -/
def localVolumeId (node name : String) : Async String :=
  call (fun _ w => w) fun _ w =>
    match (w.engines.filter fun e => e.node = node ∧ e.name = name ∧ e.deleted = false).map (·.id) with
    | [id] => .ok id
    | [] => .error {
        message := s!"/api/v1/volumes: 404 Not Found: no engine volume named {repr name}", status := some 404 }
    | ids => .error { message := s!"{ids.length} engine volumes named {repr name}" }

def attachForHost (host : String) : Async AttachedLeg :=
  inquire fun i =>
    match i.attach with
    | some a => .ok { a with hostNqn := some host }
    | none => .error { message := "attach: no coordinates in the answer" }

/-- T's volume, unless it is recorded. One of that name that is there already
is taken for it. -/
def makeTarget (me : Nat) (m : VmMigration) : Async Unit :=
  if m.targetVolumeId.isSome then return ()
  else do
    let v ← withContext s!"{m.targetNode}: create {m.targetName}"
      (Engine.createVolume me m.targetNode m.targetName false)
    match v.id with
    | none => .fail { message := s!"{m.targetNode}: create answered no id" }
    | some vid => do
      let _ ← update m.id fun r => { r with targetVolumeId := some vid }

/-- T's volume under its engine id. -/
def findLocal (m : VmMigration) : Async String :=
  match m.targetLocalId with
  | some l => return l
  | none => do
    let l ← withContext s!"{m.targetNode}: find {m.targetName}" (localVolumeId m.targetNode m.targetName)
    let _ ← update m.id fun r => { r with targetLocalId := some l }
    return l

/-- T's volume served to S's host. -/
def serveTarget (m : VmMigration) : Async AttachedLeg :=
  match m.targetAttach with
  | some a => return a
  | none => do
    let a ← withContext s!"{m.targetNode}: serve {m.targetName} to {m.sourceNode}"
      (attachForHost (hostNqnFor m.sourceNode))
    let _ ← update m.id fun r => { r with targetAttach := some a }
    return a

/-- S's mirror to `uri`; one started before a restart and not recorded is
taken as it is. -/
def startMirror (m : VmMigration) (uri : String) : Async MirrorReading := do
  engine m.sourceNode
  let current ← getAnyVolume.attempt
  match (current.toOption.bind (·.mirror)).filter fun r => r.target = uri ∧ r.state ≠ "failed" with
  | some r => return r
  | none => do
    let v ← withContext s!"{m.sourceNode}: mirror {m.sourceName} to {m.targetNode}"
      (call (fun _ w => w.note (.mirroring m.sourceNode m.sourceVolumeId uri)) fun i _ => .ok i.mirror)
    return v.getD {
      target := uri
      state := "copying"
      bytesTotal := m.sizeBytes
      bytesRemaining := m.sizeBytes
      message := none }

/-- Take the starting steps not yet recorded; each is recorded. -/
def advance (me : Nat) (id : String) : Async Unit := do
  let m ← getMigration id
  if m.state ≠ .starting ∨ m.aborting then return ()
  else
    engine m.targetNode
    makeTarget me m
    let _ ← findLocal m
    let attach ← serveTarget hostNqnFor m
    let reading ← startMirror m attach.driveUri
    let _ ← update id fun r =>
      (applyReading { r with mirrorTarget := some attach.driveUri, state := .copying, message := none }
        (some reading)).1

/-- Record S's mirror as it is now. -/
def refresh (id : String) : Async Unit := do
  let m ← getMigration id
  let reading ← readMirror m
  let next := (applyReading m reading).1
  if next ≠ m then
    let _ ← update id fun r => { r with
      state := next.state
      bytesTotal := next.bytesTotal
      bytesRemaining := next.bytesRemaining
      message := next.message }
  else return ()

/-! ## The switch-over -/

def withdrawHost : Async Unit := unlessGone (inquire fun _ => .ok ())

/-- Stop serving T's volume to S. -/
def withdraw (m : VmMigration) : Async Unit := do
  if m.targetAttach.isSome ∧ m.targetLocalId.isSome then
    engine m.targetNode
    withdrawHost
    let _ ← update m.id fun r => { r with targetAttach := none }
  else return ()

/-- The mirror stopped as a switch-over needs it. -/
def MirrorStop.exact (v : MirrorStop) : Bool := v.state = some "synced" ∧ v.flushed

def notExact (m : VmMigration) (stopped : Option MirrorStop) : String :=
  let why := match stopped with
    | none => "S held no mirror at the switch-over"
    | some v => "the mirror stopped " ++ v.state.getD "?" ++ s!" (flushed: {v.flushed})" ++
        (v.message.map (": " ++ ·)).getD ""
  s!"switch-over: {why}; {m.targetNode} is not exact — resume on {m.sourceNode} and abort or retry"

/-- T's volume is T's own from here on. -/
def handOver (id : String) : Async VmMigration := do
  match ← update id fun r => { r with state := .cutOver, bytesRemaining := 0, message := none } with
  | none => .fail { message := s!"{id} gone" }
  | some rec => do
    match ← (withdraw rec).attempt with
    | .ok _ => getMigration id
    | .error e => do
      let msg := s!"{rec.targetName} still served to {rec.sourceNode}: {e.message} (retried)"
      let _ ← update id fun r => { r with message := some msg }
      getMigration id

/-- Stop S's mirror, which must be synced and flushed, or T is not exact. -/
def switchOver (m : VmMigration) : Async VmMigration := do
  engine m.sourceNode
  let now ← live m
  if now.state ≠ .synced then
    refuse (s!"{m.id} is not synced yet ({now.state.debug}, {now.bytesRemaining} of " ++
      s!"{now.bytesTotal} bytes to go)")
  else
    let stopped ← withContext s!"{m.sourceNode}: stop the mirror of {m.sourceName}"
      (stopMirror m.sourceNode m.sourceVolumeId)
    if stopped.any MirrorStop.exact then handOver m.id
    else
      let _ ← update m.id fun r => { r with state := .failed, message := some (notExact m stopped) }
      refuse (notExact m stopped)

/-- The switch-over, with the guest paused: needs `synced`. -/
def cutover (id : String) : Async VmMigration := do
  let m ← getMigration id
  if m.aborting then refuse s!"{id} is being aborted"
  else
    match m.state with
    | .cutOver | .completed => do
      let _ ← (withdraw m).attempt
      getMigration id
    | .starting | .aborted | .failed => refuse s!"{id} is {m.state.debug}, not synced"
    | .copying | .synced => switchOver m

/-! ## Complete and abort -/

/-- Delete an engine volume, which is a copy of the migrated one; one that is
gone already is deleted. -/
def deleteCopy (id : String) (copy : Copy) (node volume : String) : Async Unit :=
  unlessGone (call (fun _ w => (w.destroyOn node volume).note (.copyDeleted id copy node volume)) fun _ _ => .ok ())

/-- After a cut-over: retire S's volume. -/
def complete (id : String) : Async VmMigration := do
  let m ← getMigration id
  match m.state with
  | .completed => return m
  | .cutOver =>
    if m.aborting then refuse s!"{id} is being aborted"
    else do
      engine m.sourceNode
      match ← (deleteCopy id .source m.sourceNode m.sourceVolumeId).attempt with
      | .error e => do
        let msg := s!"{m.sourceNode}: retire {m.sourceName}: {e.message}"
        let _ ← update id fun r => { r with message := some msg }
        .fail { message := s!"/api/v1/volumes/{m.sourceVolumeId}: {msg}", status := some (e.status.getD 502) }
      | .ok _ => do
        let _ ← (withdraw m).attempt
        match ← update id fun r => { r with state := .completed, message := none } with
        | none => .fail { message := s!"{id} gone" }
        | some rec => return rec
  | other => refuse s!"{id} is {other.debug}: cut over first"

/-- Delete T's volume under one of its ids, if it has it. -/
def deleteTarget (m : VmMigration) (volume : Option String) : Async Unit :=
  match volume with
  | some v => deleteCopy m.id .target m.targetNode v
  | none => return ()

def withdrawTarget (m : VmMigration) : Async Unit :=
  if m.targetAttach.isSome ∧ m.targetLocalId.isSome then withdrawHost else return ()

/-- Withdraw and delete T's volume. -/
def undoTarget (m : VmMigration) : Async Unit :=
  if m.targetVolumeId.isNone ∧ m.targetLocalId.isNone then return ()
  else do
    engine m.targetNode
    withdrawTarget m
    deleteTarget m m.targetVolumeId
    deleteTarget m m.targetLocalId

/-- The mirror of this migration is stopped, when S answers. -/
def stopOurs (m : VmMigration) : Async Unit := do
  if m.state ≠ .cutOver ∧ (← healthy m.sourceNode) then
    engine m.sourceNode
    let ours := m.mirrorTarget.or (m.targetAttach.map (·.driveUri))
    match (← getAnyVolume.attempt).toOption.bind (·.mirror), ours with
    | some r, some ours =>
      if r.target = ours then
        let _ ← withContext s!"{m.sourceNode}: stop the mirror" (stopMirror m.sourceNode m.sourceVolumeId)
      else return ()
    | _, _ => return ()
  else return ()

/-- This copy was deleted by this migration. -/
def deleted (w : AppState) (id : String) (copy : Copy) : Bool :=
  w.log.any fun
    | .copyDeleted i c _ _ => i = id ∧ c = copy
    | _ => false

/-- Set `aborting`. -/
def markAborting (id : String) : Async Unit :=
  .modify fun w =>
    match w.fed.vmMigrations[id]? with
    | none => w
    | some m =>
      (w.revise fun fed =>
        { fed with vmMigrations := fed.vmMigrations.insert id { m with aborting := true } }).note
        (.aborting id (deleted w id .source))

/-- The steps of an abort; one that fails leaves `aborting` set. -/
def abortSteps (m : VmMigration) : Async Unit := do
  stopOurs m
  undoTarget m

def finishAbort (m : VmMigration) : Async VmMigration := do
  match ← (abortSteps m).attempt with
  | .error e => do
    let _ ← update m.id fun r => { r with message := some s!"abort: {e.message} (retried)" }
    .fail e
  | .ok _ => do
    match ← update m.id fun r =>
      { r with state := .aborted, aborting := false, message := none, targetAttach := none } with
    | none => .fail { message := s!"{m.id} gone" }
    | some rec => return rec

def setAborting (m : VmMigration) : Async Unit := if m.aborting then return () else markAborting m.id

/-- The mirror is stopped, T's volume withdrawn and deleted. -/
def abort (id : String) : Async VmMigration := do
  let m ← getMigration id
  match m.state with
  | .aborted => return m
  | .completed => refuse s!"{id} is completed: {m.sourceName} is retired, {m.targetNode} holds the disk"
  | _ => do
    setAborting m
    finishAbort m

/-- Record a failed step. -/
def fail (id : String) (e : Fault) : Async Unit := do
  let _ ← update id fun r => { r with state := .failed, message := some e.message }

/-- Take the starting steps again. -/
def restart (me : Nat) (id : String) : Async VmMigration := do
  let _ ← update id fun r => { r with state := .starting, message := none, mirrorTarget := none }
  match ← (advance hostNqnFor me id).attempt with
  | .error e => do
    fail id e
    .fail e
  | .ok _ => getMigration id

/-- A failed migration, before the cut-over: forget S's stale mirror and start
it again. -/
def retry (me : Nat) (id : String) : Async VmMigration := do
  let m ← getMigration id
  if m.aborting then refuse s!"{id} is being aborted"
  else if m.state ≠ .failed then refuse s!"{id} is {m.state.debug}: only a failed migration is retried"
  else
    engine m.sourceNode
    match (← getAnyVolume).mirror with
    | some r =>
      if some r.target = m.mirrorTarget ∨ r.state = "failed" then
        let _ ← stopMirror m.sourceNode m.sourceVolumeId
        restart hostNqnFor me id
      else refuse s!"{m.sourceNode} mirrors {m.sourceName} to {r.target} now: not ours"
    | none => restart hostNqnFor me id

/-! ## The API -/

def apiError (status : Nat) (m : String) : Fault := { message := m, status := some status }

/-- A step's error as the API answers it. -/
def answer (e : Fault) : Fault :=
  if e.refused ∨ e.status = some 409 then apiError 409 e.message
  else if e.isNotFound ∧ "migration ".toList.isPrefixOf e.message.toList then apiError 404 e.message
  else apiError 502 e.message

/-- Run `f` holding the migration's claim. -/
def claimed (me : Nat) (id : String) (f : Async VmMigration) : Async VmMigration := do
  if ¬ (← .get fun w => w.fed.vmMigrations.contains id) then .fail (apiError 404 s!"migration {repr id}")
  else if ¬ (← claim me (VmMigration.claimKey id)) then .fail (apiError 409 s!"{id}: another step is running")
  else
    let r ← f.attempt
    release (VmMigration.claimKey id)
    .ofExcept (r.mapError answer)

structure PlacementBody where
  array : Option String := none
  slab : Option String := none
  drive : Option String := none
deriving DecidableEq, Repr

/-- The one place named. -/
def PlacementBody.one (b : PlacementBody) : Except Fault (String × String) :=
  match [("array", b.array), ("slab", b.slab), ("drive", b.drive)].filterMap fun p =>
    (p.2.filter (· ≠ "")).map fun v => (p.1, v) with
  | [one] => .ok one
  | _ => .error (apiError 400 "placement: exactly one of \"array\", \"slab\" or \"drive\"")

def PlaceRefusal.answer : PlaceRefusal → Fault
  | .missing m => apiError 404 m
  | .noRoom m => apiError 409 m
  | .notYet m => apiError 501 m

/-- An error of the engine of `node`, as the API answers it. -/
def upstream {α : Type} (node : String) (t : Async α) : Async α := do
  match ← t.attempt with
  | .ok a => return a
  | .error e => .fail (apiError 502 s!"{node}: {e.message}")

def lookUp (target kind name : String) : Async PlaceLookup := do
  if kind = "array" then
    return findArray (← upstream target (inquire fun i => .ok i.arrays)) name
  else
    let slabs ← upstream target (inquire fun i => .ok i.slabs)
    return if kind = "slab" then findSlab slabs name else findDrive slabs name

/-- Find the named place and check that it has room. -/
def resolvePlacement (target : String) (body : PlacementBody) (size : Nat) : Async TargetPlacement := do
  let (kind, name) ← .ofExcept body.one
  let lookup ← lookUp target kind name
  .ofExcept ((checkPlacement target kind name size lookup).mapError PlaceRefusal.answer)

structure MigrateBody where
  «to» : String
  name : Option String := none
  placement : Option PlacementBody := none
deriving DecidableEq, Repr

/-- The two engines, which must be known and answer. -/
def bothEngines (node target : String) (fed : FedState) : Except Fault Unit := do
  match [node, target].find? fun n => ¬ fed.nodes.contains n with
  | some n => .error (apiError 404 s!"node {repr n}")
  | none => pure ()
  match engineOn fed node, engineOn fed target with
  | .ok _, .ok _ => pure ()
  | .error e, _ | _, .error e => .error (apiError 409 e.message)

/-- What is to be moved, as the engines answered. -/
structure Planned where
  sourceVolumeId : String
  sourceName : String
  sizeBytes : Nat
  targetName : String
  placement : Option TargetPlacement
deriving DecidableEq, Repr

def Planned.migration (p : Planned) (node target : String) (id : String) (now : SystemTime) : VmMigration where
  id := id
  sourceNode := node
  sourceVolumeId := p.sourceVolumeId
  sourceName := p.sourceName
  sizeBytes := p.sizeBytes
  targetNode := target
  targetName := p.targetName
  placement := p.placement
  startedAtMs := now
  updatedAtMs := now

/-- The migration under the next id, recorded and claimed, unless the volume
is in another one. -/
def openMigration (me : Nat) (node target : String) (p : Planned) : Async VmMigration := do
  .ofExcept (← .atomic fun i w =>
    let id := VmMigration.newId i.now w.seq
    match w.fed.vmMigrations.toList.find? fun (_, o) =>
      o.sourceNode = node ∧ o.sourceVolumeId = p.sourceVolumeId ∧ ¬ o.state.terminal with
    | some (_, o) =>
      (.error (apiError 409 s!"{p.sourceName} on {node} is in migration {o.id} ({o.state.debug})"),
        { w with seq := w.seq + 1 })
    | none =>
      let m := p.migration node target id i.now
      (.ok m, { w.revise fun fed => { fed with vmMigrations := fed.vmMigrations.insert id m } with
        seq := w.seq + 1
        replacing := w.replacing.insertIfNew (VmMigration.claimKey id) { task := me } }))

/-- S's volume, by engine id or name. -/
def sourceVolume (node vol : String) : Async EngineItem := do
  match ← getAnyVolume.attempt with
  | .ok v => return v
  | .error e =>
    if e.isNotFound then .fail (apiError 404 s!"{node} holds no volume {repr vol}")
    else .fail (apiError 502 s!"{node}: {e.message}")

/-- No volume on the target has this name. -/
def targetFree (target name : String) : Async Unit := do
  match ← (localVolumeId target name).attempt with
  | .ok _ => .fail (apiError 409 s!"{target} already holds a volume named {repr name}; name another with \"name\"")
  | .error e => if e.isNotFound then return () else .fail (apiError 502 s!"{target}: {e.message}")

def placed (target : String) (placement : Option PlacementBody) (size : Nat) : Async (Option TargetPlacement) :=
  match placement with
  | none => return none
  | some p => some <$> resolvePlacement target p size

def undoMade (id : String) : Async Unit := do
  match ← .atomic fun _ w => (w.fed.vmMigrations[id]?, w.note (.undoing id)) with
  | some m => do
    let _ ← (undoTarget m).attempt
  | none => return ()

/-- T's volume undone, and the record dropped with its claim. -/
def undoStart (id : String) (e : Fault) : Async VmMigration := do
  undoMade id
  .modify fun w =>
    (w.revise fun fed => { fed with vmMigrations := fed.vmMigrations.erase id }).release (VmMigration.claimKey id)
  .fail (answer e)

/-- A migration opened: its first steps. -/
def begin (me : Nat) (m : VmMigration) : Async VmMigration := do
  match ← (advance hostNqnFor me m.id).attempt with
  | .ok _ => do
    release (VmMigration.claimKey m.id)
    return (← .get fun w => w.fed.vmMigrations[m.id]?).getD m
  | .error e => undoStart m.id e

/-- What is to be moved, where to: checked before anything is made. -/
def planMigration (node vol : String) (body : MigrateBody) : Async Planned := do
  if body.to = node then .fail (apiError 400 "to: another node than the volume's")
  else
    .ofExcept (← .get fun w => bothEngines node body.to w.fed)
    let v ← sourceVolume node vol
    match v.id, v.name, v.sizeBytes, v.mirror with
    | some sid, some sname, some size, none => do
      let targetName := body.name.getD sname
      targetFree body.to targetName
      let placement ← placed body.to body.placement size
      return {
        sourceVolumeId := sid
        sourceName := sname
        sizeBytes := size
        targetName := targetName
        placement := placement }
    | some _, some sname, some _, some m =>
      .fail (apiError 409 s!"{node}: {sname} is already mirrored to {m.target} ({m.state})")
    | some _, some _, none, _ => .fail (apiError 502 s!"{node}: volume {repr vol} answered no size")
    | _, _, _, _ => .fail (apiError 502 s!"{node}: volume {repr vol} answered no id or name")

/-- Mirror S's volume to a new one on another node. All or nothing: a step
that fails undoes T's volume and keeps no record. -/
def start (me : Nat) (node vol : String) (body : MigrateBody) : Async VmMigration := do
  let planned ← planMigration node vol body
  let m ← openMigration me node body.to planned
  begin hostNqnFor me m

/-! ## The reconciler -/

/-- Forget a terminal record. -/
def forget (m : VmMigration) : Async Unit :=
  .modify fun w => w.revise fun fed => { fed with vmMigrations := fed.vmMigrations.erase m.id }

/-- What the reconciler does for a record it read, holding its claim. -/
def resume (me : Nat) (m : VmMigration) (sOk tOk : Bool) : Async Unit :=
  if m.aborting then do
    let _ ← abort m.id
  else
    match m.state with
    | .starting => do
      match ← (advance hostNqnFor me m.id).attempt with
      | .ok _ => return ()
      | .error e => do
        fail m.id e
        .fail e
    | .copying | .synced => if sOk then refresh m.id else return ()
    | .cutOver | .completed => if m.targetAttach.isSome ∧ tOk then withdraw m else return ()
    | .aborted | .failed => return ()

def reconcileOne (me : Nat) (now : SystemTime) (m : VmMigration) : Async Unit := do
  if m.state.terminal ∧ m.targetAttach.isNone ∧ (now : Int) - m.updatedAtMs > VmMigration.keepTerminalMs then
    forget m
  else if ← claim me (VmMigration.claimKey m.id) then
    let sOk ← healthy m.sourceNode
    let tOk ← healthy m.targetNode
    let _ ← (resume hostNqnFor me m sOk tOk).attempt
    release (VmMigration.claimKey m.id)
  else return ()

/-- The reconciler's part, from the records as it read them. -/
def runMigrations (me : Nat) : Async Unit := do
  let (all, now) ← .atomic fun i w => ((w.fed.vmMigrations.toList.map Prod.snd, i.now), w)
  .forEach all (reconcileOne hostNqnFor me now)

/-! ## The system -/

inductive Op where
  | start (node vol : String) (body : MigrateBody)
  | cutover (id : String)
  | complete (id : String)
  | abort (id : String)
  | retry (id : String)
  | run

def prog (me : Nat) : Op → Async Unit
  | .start node vol body => do let _ ← start hostNqnFor me node vol body
  | .cutover id => do let _ ← claimed me id (cutover id)
  | .complete id => do let _ ← claimed me id (complete id)
  | .abort id => do let _ ← claimed me id (abort id)
  | .retry id => do let _ ← claimed me id (retry hostNqnFor me id)
  | .run => runMigrations hostNqnFor me

/-- The steps of every migration, with nodes coming and going. -/
def migrations : System Reply AppState Fault where
  Op := Op
  Env := KeyMap Node
  prog := prog hostNqnFor
  env nodes w := w.setFed fun fed => { fed with nodes := nodes }

/-- A volume to be moved, and where to. -/
structure StartOp where
  node : String
  vol : String
  body : MigrateBody

/-- What happens elsewhere: nodes come and go, and so do volumes of theirs. -/
inductive Elsewhere where
  | nodes (nodes : KeyMap Node)
  | made (volume : EngineVolume)
  | gone (node id : String)

/-- Starts beside one another. -/
def starts : System Reply AppState Fault where
  Op := StartOp
  Env := Elsewhere
  prog me op := do let _ ← start hostNqnFor me op.node op.vol op.body
  env
    | .nodes nodes, w => w.setFed fun fed => { fed with nodes := nodes }
    | .made e, w => if w.given e.node e.id then w else { w with engines := w.engines ++ [e] }
    | .gone node id, w => w.destroyOn node id

end VmMigrate

end StormStorage
