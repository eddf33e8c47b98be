import StormStorage.Api.Backups
import StormStorage.Orchestrate.Replacement

/-!
# Creating and deleting volumes

A create checks its name, places the legs, makes one engine volume for each,
and records the volume, which is then assembled and served; a leg that cannot
be made takes the others back (`api/mod.rs`). A delete checks that nothing
lives on the volume's data, takes it down leg by leg, and drops the record.
-/

namespace StormStorage.Api

open Await Orchestrate

/-! ## Requests -/

inductive RaidProfile where
  | none
  | mirror
  | parity1
  | parity2
deriving DecidableEq, Repr

/-- The leg count of a profile, from what was asked and the pool's default. -/
def RaidProfile.replicas (asked poolDefault : Option Nat) : RaidProfile → Except Fault Nat
  | .none =>
    match asked with
    | Option.none => .ok 1
    | some n =>
      if n = 1 then .ok 1
      else .error (.badRequest s!"raid \"none\" is one leg; replicas {n} asks for a mirror")
  | .mirror =>
    match asked with
    | some n =>
      if n < 2 then .error (.badRequest s!"raid \"mirror\" needs at least 2 replicas, not {n}") else .ok n
    | Option.none => .ok (max (poolDefault.getD 2) 2)
  | .parity1 | .parity2 => .error (.notImplemented
      ("parity volumes are not built yet (stormstorage#72: a parity engine on the head and " ++
        "replace-member for parity arrays come first); use \"mirror\" or \"none\""))

structure HostRequest where
  hostNqn : String
  dhchap : Bool := false

structure CreateVolumeRequest where
  name : String
  sizeBytes : Nat
  pool : Option String := none
  replicas : Option Nat := none
  rung : Option String := none
  tier : Option String := none
  bandwidthClass : Option BandwidthClass := none
  preferNode : Option String := none
  hosts : List HostRequest := []
  extentSizeBytes : Option Nat := none
  raid : Option RaidProfile := none
  source : Option VolumeSource := none
  encrypted : Bool := false
  qosClass : Option String := none

/-- One more host of a request: one asked for twice is served once. -/
def addHost (h : HostRequest) (out : List HostServe) : List HostServe :=
  if out.any (·.hostNqn = h.hostNqn) then
    out.map fun x => if x.hostNqn = h.hostNqn then { x with dhchap := x.dhchap || h.dhchap } else x
  else out ++ [{ hostNqn := h.hostNqn, dhchap := h.dhchap }]

def hostRecords (hosts : List HostRequest) : Except Fault (List HostServe) :=
  hosts.foldlM (fun out h => do
    require (validHostNqn h.hostNqn)
      (.badRequest s!"{repr h.hostNqn} is not a host NQN (nqn.…, at most 223 bytes)")
    .ok (addHost h out)) []

/-- What is refused of any create: its hosts otherwise. -/
def checkRequest (req : CreateVolumeRequest) : Except Fault (List HostServe) := do
  require (req.name ≠ "" ∧ req.sizeBytes ≠ 0) (.badRequest "name and size_bytes required")
  let hosts ← hostRecords req.hosts
  require (¬ req.encrypted ∧ req.qosClass.isNone) (.notImplemented
    ("encrypted and qos_class are not applied by the engine yet (stormblock#319): refused rather than " ++
      "recorded, so no volume claims an encryption or a QoS class it does not have"))
  .ok hosts

def checkMirrorName (name : String) : Except Fault Unit :=
  require (¬ mirrorSuffix.toList <:+ name.toList)
    (.badRequest s!"names ending in {repr mirrorSuffix} are reserved for served mirrors")

def checkClone (req : CreateVolumeRequest) : Except Fault Unit := do
  require (req.raid.isNone ∧ req.replicas.isNone ∧ req.pool.isNone ∧ req.extentSizeBytes.isNone ∧ req.rung.isNone ∧
      req.tier.isNone ∧ req.preferNode.isNone) (.badRequest
    ("a clone lives on its source's array (or leg): raid, replicas, pool, rung, tier, prefer_node " ++
      "and extent_size_bytes are its source's"))
  checkMirrorName req.name

def checkLegged (req : CreateVolumeRequest) : Except Fault Unit := do
  require (req.extentSizeBytes.all Engine.validExtentSize)
    (.badRequest s!"extent_size_bytes {req.extentSizeBytes.getD 0}: a power of two of 4096 or more")
  checkMirrorName req.name

/-! ## Placing -/

structure ResolvedPlan where
  replicas : Nat
  rung : String
  candidates : List Candidate

def resolvePool (cfg : Config) : Option String → Except Fault (Option PoolConfig)
  | none => .ok none
  | some name =>
    match cfg.pool name with
    | some p => .ok (some p)
    | none => .error (.notFound s!"pool {repr name}")

def resolvePlan (cfg : Config) (req : CreateVolumeRequest) (fed : FedState) : Except Fault ResolvedPlan := do
  let pool ← resolvePool cfg req.pool
  let replicas ← match req.raid with
    | some r => r.replicas req.replicas (pool.map (·.replicas))
    | none => .ok (max ((req.replicas.or (pool.map (·.replicas))).getD 1) 1)
  let rung := (req.rung.or (pool.map (·.rung))).getD "node"
  require (rung ∈ cfg.rungs) (.badRequest s!"rung {repr rung} not in federation.rungs")
  .ok {
    replicas := replicas
    rung := rung
    candidates := ((fed.nodes.toList.map Prod.snd).filter fun n =>
      n.status.healthy ∧ (pool.all fun p => p.selector.matches n.config) ∧
        req.tier.all fun t => n.config.tier = some t).map Node.candidate }

/-- The nodes of the legs. -/
def placeLegs (cfg : Config) (req : CreateVolumeRequest) (fed : FedState) : Except Fault (ResolvedPlan × List String) := do
  let rp ← resolvePlan cfg req fed
  match planPreferring cfg.ioWeight cfg.rungs rp.rung rp.candidates rp.replicas req.sizeBytes req.preferNode with
  | .ok (picks, _) => .ok (rp, picks)
  | .error e => .error (.conflict e)

/-! ## Creating -/

def legNameFree (name : String) (fed : FedState) : Except Fault Unit := do
  require (¬ fed.volumes.contains name) (.conflict s!"volume {repr name} exists")
  require (¬ fed.snapshots.contains name) (.conflict s!"{repr name} is a snapshot")
  require (¬ (fed.backups[name]?).any (·.sourceDeleted))
    (.conflict (s!"{repr name}: backups of a deleted volume of that name exist — restore from them or purge them " ++
      s!"(DELETE /api/v1/volumes/{name}/backup?purge=true)"))

/-- The create stops at a node that is not known; what it made stays. -/
def knownNode (me : Nat) (name node : String) : Async Unit := do
  .ofExcept (← .atomic fun _ w =>
    if w.fed.nodes.contains node then (.ok (), w)
    else (.error (.notFound s!"node {repr node}"),
      w.noteLeft .unknown fun e => e.maker = some me ∧ e.name = name))

/-- One engine volume on each node, until one cannot be made. -/
def createLegs (me : Nat) (name : String) : List String → Async (List Leg × Option String)
  | [] => return ([], none)
  | node :: rest => do
    knownNode me name node
    match ← (Engine.createVolume me node name true).attempt with
    | .error e => return ([], some s!"{node}: {e.message}")
    | .ok v => do
      let (legs, failure) ← createLegs me name rest
      return ({ node := node, volumeId := v.id, state := .created, masterNode := v.master } :: legs, failure)

/-- Take back a leg of a create that failed. -/
def rollbackLeg (me : Nat) (leg : Leg) : Async Unit :=
  match leg.volumeId with
  | none => return ()
  | some id => do
    if ← .atomic fun _ w =>
        if w.fed.nodes.contains leg.node then (true, w)
        else (false, w.noteLeft .unknown fun e => e.node = leg.node ∧ e.id = id) then
      let _ ← (Engine.undoVolume me leg.node id).attempt
    else return ()

def legged (req : CreateVolumeRequest) (rp : ResolvedPlan) (hosts : List HostServe) (legs : List Leg)
    (now : SystemTime) : DistVolume where
  name := req.name
  sizeBytes := req.sizeBytes
  pool := req.pool
  replicas := rp.replicas
  rung := rp.rung
  legs := legs
  assembly := if legs.length ≤ 1 then .singleLeg else .pendingEngineSupport
  createdAt := now
  «export» := { perHost := hosts ≠ [], hosts := hosts }
  bandwidthClass := req.bandwidthClass.getD .normal
  extentSizeBytes := req.extentSizeBytes

/-- The mirror is wired; a failure leaves the volume pending. -/
def wire (cfg : Config) (me : Nat) (name : String) (legs : Nat) : Async (Except Fault Unit) :=
  if 1 < legs then (assemble cfg me name).attempt else return .ok ()

def serveCreated (cfg : Config) (me : Nat) (name : String) (legs : Nat) : Async Unit := do
  match ← wire cfg me name legs with
  | .ok _ => do
    let _ ← (publish me name).attempt
  | .error _ => return ()

def createLegged (cfg : Config) (me : Nat) (req : CreateVolumeRequest) (hosts : List HostServe) : Async Unit := do
  enter (legNameFree req.name) fun _ => { task := me, creates := [req.name] }
  let (rp, picks) ← .ofExcept (← .get fun w => placeLegs cfg req w.fed)
  match ← createLegs me req.name picks with
  | (legs, some why) => do
    .forEach legs (rollbackLeg me)
    .fail (.upstream s!"leg create failed: {why}")
  | (legs, none) => do
    recordVolume me req.name (legged req rp hosts legs)
    serveCreated cfg me req.name legs.length

/-- `POST /api/v1/volumes`. -/
def createVolume (cfg : Config) (me : Nat) (req : CreateVolumeRequest) : Async Unit := do
  let hosts ← .ofExcept (checkRequest req)
  match req.source with
  | some source => do
    .ofExcept (checkClone req)
    createClone me req.name req.sizeBytes source hosts
  | none => do
    .ofExcept (checkLegged req)
    createLegged cfg me req hosts

/-! ## Exporting -/

structure ExportBody where
  hosts : List HostRequest := []
  recreate : Bool := false

/-- The hosts of a request, beside those that are there. -/
def addHosts (add : List HostServe) (ex : Export) : Export :=
  { ex with
    perHost := ex.perHost ∨ add ≠ []
    hosts := add.foldl (fun hosts h =>
      if hosts.any (·.hostNqn = h.hostNqn) then
        hosts.map fun x => if x.hostNqn = h.hostNqn then { x with dhchap := x.dhchap || h.dhchap } else x
      else hosts ++ [h]) ex.hosts }

/-- The hosts are in the record before they are served to. -/
def askExport (name : String) (add : List HostServe) : Async Unit := do
  .ofExcept (← .atomic fun _ w =>
    match volumeIn w.fed name with
    | .ok _ => (.ok (), w.setFed (·.modifyVolume name fun v => { v with «export» := addHosts add v.export }))
    | .error e => (.error e, w))

/-- `POST /api/v1/volumes/{name}/export`. -/
def exportVolume (me : Nat) (name : String) (body : ExportBody) : Async Export := do
  let add ← .ofExcept (hostRecords body.hosts)
  askExport name add
  match ← (if body.recreate then recreateExport me name else publish me name).attempt with
  | .ok ex => return ex
  | .error e => .fail (.conflict e.message)

/-! ## Deleting -/

def deletable (name : String) (fed : FedState) : Except Fault DistVolume := do
  let vol ← volumeIn fed name
  let deps := fed.dependentsOf name
  let on := ", ".intercalate deps
  require (deps = []) (.conflict s!"{name}: {on} still on its data — delete them first")
  let node := vol.export.node.getD ""
  require (vol.cloneOf.isNone ∨ healthyIn fed node) (.conflict s!"{name}: {node} holds the clone and is unreachable")
  .ok vol

def abandoned (name : String) (leg : Leg) (id : String) (now : SystemTime) : Orphan where
  node := leg.node
  volumeId := id
  masterNode := leg.masterNode
  ofVolume := name
  reason := "volume deleted while its node was unreachable"
  since := now

/-- What became of a leg of a deleted volume. -/
inductive Gone where
  | deleted
  | orphaned (o : Orphan)
  | failed (why : String)

def deleteLeg (name : String) (leg : Leg) : Async Gone :=
  match leg.volumeId with
  | none => return .deleted
  | some id => do
    match ← .atomic fun i w => ((w.fed.nodes[leg.node]?.map (·.status.healthy), i.now), w) with
    | (some false, now) => return .orphaned (abandoned name leg id now)
    | (some true, _) =>
      match ← (Engine.deleteVolume leg.node id).attempt with
      | .ok _ => return .deleted
      | .error e => return .failed s!"{leg.node}: {e.message}"
    | (none, _) => return .failed s!"{leg.node}: node no longer known"

/-- Every leg in turn: what is left to reap, and what failed. -/
def deleteLegs (name : String) : List Leg → Async (List Orphan × List String)
  | [] => return ([], [])
  | leg :: rest => do
    let gone ← deleteLeg name leg
    let (orphans, errors) ← deleteLegs name rest
    match gone with
    | .deleted => return (orphans, errors)
    | .orphaned o => return (o :: orphans, errors)
    | .failed why => return (orphans, why :: errors)

def dropVolume (name : String) (orphans : List Orphan) : Async Unit :=
  .modify fun w => w.revise fun fed =>
    { fed with volumes := fed.volumes.erase name, orphans := fed.orphans ++ orphans }

def takeDown (name : String) (vol : DistVolume) : Async Unit := do
  onVolumeDelete name
  match ← (revoke vol).attempt with
  | .error e => .fail (.upstream s!"export not revoked: {e.message} — volume record kept")
  | .ok _ => do
    teardown vol
    match ← deleteLegs name (vol.legs ++ (vol.replacing.map (·.leg)).toList) with
    | (orphans, []) => dropVolume name orphans
    | (_, errors) => do
      let why := "; ".intercalate errors
      .fail (.upstream s!"legs not deleted: {why} — volume record kept")

/-- `DELETE /api/v1/volumes/{name}`. -/
def deleteVolume (me : Nat) (name : String) : Async Unit := do
  let vol ← enter (deletable name) fun _ => { task := me, deletes := [name] }
  takeDown name vol

end StormStorage.Api
