import StormStorage.Await.Pool
import StormStorage.Model

/-!
# The server's state and its calls to engines

`AppState` is what the handlers and the reconciler share: the federation
state, the operation claims, and the engines that the calls reach. A call may
be answered, refused, or take effect while its answer is lost.

`AppState.log`, the undertakings, the copies, the publishes, the grows, the
served sizes, the ids answered, the fences, the nodes picked for backups and what
a `Claim` holds are history that no program reads. An operation registers what it makes, needs or deletes
(`Undertaking`) in the step that lets it in, and is `tracked` to its end.
-/

namespace StormStorage

open Await

/-- How a call to an engine goes. -/
inductive Wire where
  | answered
  /-- It did not happen: not sent, or the engine answered with an error. -/
  | refused (status : Option Nat) (why : String)
  /-- It happened, and its answer was lost. -/
  | lost (why : String)
deriving DecidableEq, Repr

/-- Why a step failed. -/
structure Fault where
  message : String
  /-- The error status an engine answered with. -/
  status : Option Nat := none
  /-- Refused for a reason the caller can act on. -/
  refused : Bool := false
deriving DecidableEq, Repr

def Fault.context (what : String) (f : Fault) : Fault := { f with message := what ++ ": " ++ f.message }

def Fault.isNotFound (f : Fault) : Bool := f.status = some 404

/-! Refusals, by the status they are answered with. -/

def Fault.badRequest (m : String) : Fault := { message := m, status := some 400 }

def Fault.notFound (m : String) : Fault := { message := m, status := some 404 }

def Fault.conflict (m : String) : Fault := { message := m, status := some 409 }

def Fault.staleEpoch (current : Nat) : Fault :=
  { message := s!"stale epoch; current is {current}", status := some 412 }

def Fault.notImplemented (m : String) : Fault := { message := m, status := some 501 }

/-- An engine call failed. -/
def Fault.upstream (m : String) : Fault := { message := m, status := some 502 }

/-- S's mirror of a volume as its engine reports it. -/
structure MirrorReading where
  target : String
  state : String
  bytesTotal : Nat
  bytesRemaining : Nat
  message : Option String
deriving DecidableEq, Repr

/-- What a stopped mirror answered. -/
structure MirrorStop where
  state : Option String
  flushed : Bool
  message : Option String
deriving DecidableEq, Repr, Inhabited

/-- A volume or a snapshot as an engine answers it. -/
structure EngineItem where
  id : Option String
  name : Option String
  sizeBytes : Option Nat := none
  mirror : Option MirrorReading := none
  /-- The engine's own node name. -/
  master : Option String := none
  ready : Option Bool := none
  createdAtMs : Option Int := none
deriving DecidableEq, Repr, Inhabited

structure ArrayMember where
  uuid : Option String
  devicePath : Option String
  state : Option String := none
  rebuiltBytes : Option Nat := none
deriving DecidableEq, Repr

/-- An array as an engine lists it; `slab` its slab, with the room on it. -/
structure EngineArray where
  id : Option String
  name : Option String := none
  slab : Option (Option Nat) := none
  members : List ArrayMember := []
  memberDataBytes : Option Nat := none
  events : Option Nat := none
deriving DecidableEq, Repr, Inhabited

structure DriveRef where
  serial : String
  wwn : String
  path : String
deriving DecidableEq, Repr

structure Slab where
  id : String
  drive : Option DriveRef
  freeBytes : Nat
deriving DecidableEq, Repr

/-- A ship job as its engine reports it. -/
structure ShipReading where
  state : String := "lost"
  bytesTotal : Nat := 0
  bytesDone : Nat := 0
  message : Option String := none
deriving DecidableEq, Repr

/-- What the environment decides of one step: how a call goes, and what it
answers; the time. -/
structure Reply where
  wire : Wire := .answered
  now : SystemTime := 0
  /-- The id of what was made. -/
  id : Option String := none
  /-- The id an engine gives a new volume. -/
  made : String := ""
  item : EngineItem := default
  items : List EngineItem := []
  attach : Option AttachedLeg := none
  mirror : Option MirrorReading := none
  stopped : MirrorStop := default
  arrays : List EngineArray := []
  slabs : List Slab := []
  array : EngineArray := default
  /-- Whether a rebuild ended with the member active. -/
  active : Bool := true
  epoch : Nat := 0
  /-- The volumes whose head's array the last poll read. -/
  read : List String := []
  /-- The legs that read in sync, by volume and node. -/
  inSync : List (String × String) := []
  ship : Option ShipReading := none
  /-- What a volume or an array has grown to. -/
  bytes : Nat := 0
  slabShort : Option String := none
deriving Repr

/-- A claimed name: who claimed it. -/
structure Claim where
  task : Nat
deriving DecidableEq, Repr

/-- Which copy of a migrated volume. -/
inductive Copy where
  | source
  | target
deriving DecidableEq, Repr

/-- A volume on a node's engine. A deleted one stays listed: its id is not
given again. -/
structure EngineVolume where
  node : String
  name : String
  id : String
  /-- Made as a leg of the volume it is named after. -/
  leg : Bool := false
  deleted : Bool := false
  /-- The task whose create made it; none was there before. -/
  maker : Option Nat := none
  /-- The tasks whose creates were answered with it, there already. -/
  adopters : List Nat := []
deriving DecidableEq, Repr

/-- A volume that a node's engine serves to one host. -/
structure HostAccess where
  node : String
  name : String
  host : String
deriving DecidableEq, Repr

/-- A publish under way: the record it read, where that is served from, and
whether that node answers. -/
structure Publish where
  task : Nat
  volume : DistVolume
  node : String
  volumeId : Option String
  up : Bool
deriving DecidableEq, Repr

/-- A record's use of an engine volume. -/
inductive Use where
  | leg (volume : String)
  /-- The new leg of a replacement in flight. -/
  | replacement (volume : String)
  | served (volume : String)
  | orphan (ofVolume : String)
  | source (migration : String)
  | target (migration : String)
  | backup (volume : String)
deriving DecidableEq, Repr

def Leg.uses (l : Leg) (node id : String) : Bool := l.node = node ∧ l.volumeId = some id

/-- Which records use this volume of a node's engine. -/
def FedState.uses (fed : FedState) (node id : String) : List Use :=
  (fed.volumes.toList.flatMap fun (n, v) =>
    (if v.legs.any (·.uses node id) then [.leg n] else []) ++
    (if v.replacing.any (·.leg.uses node id) then [.replacement n] else []) ++
    (if v.export.node = some node ∧ v.export.volumeId = some id then [.served n] else [])) ++
  (fed.orphans.filter fun o => o.node = node ∧ o.volumeId = id).map (fun o => .orphan o.ofVolume) ++
  (fed.vmMigrations.toList.flatMap fun (i, m) =>
    (if m.sourceNode = node ∧ m.sourceVolumeId = id then [.source i] else []) ++
    (if m.targetNode = node ∧ (m.targetVolumeId = some id ∨ m.targetLocalId = some id) then [.target i] else [])) ++
  ((fed.backups.toList.filter fun (_, b) => b.node = some node ∧ b.targetVolumeId = some id).map
    fun (n, _) => .backup n)

/-- Why an operation leaves a leg behind that was made for it. -/
inductive Left where
  /-- The create's answer was lost, or named no id. -/
  | unanswered
  /-- The delete that was to undo the create was refused. -/
  | refused
  /-- Its node, or one of a leg still to be made, is not in the registry. -/
  | unknown
deriving DecidableEq, Repr

inductive Event where
  /-- A migration's delete of a copy took effect. -/
  | copyDeleted (migration : String) (copy : Copy) (node volume : String)
  /-- An abort was recorded; whether a complete had deleted the source of
  what was cut over. -/
  | aborting (migration : String) (retired : Bool)
  /-- A leg replacement to a target that was asked for, of this record, which
  had legs in the domain of the target that stay. -/
  | asked (volume : DistVolume) («from» target : String) (crowded : Bool)
  /-- A replacement is recorded on a volume; whether a delete of it is under way. -/
  | replacing (name : String) (deleting : Bool)
  /-- A replacement took its old leg out of this record. -/
  | swapped (was : DistVolume) («from» : String)
  /-- A leg volume is served to a head. -/
  | attached (node volume host : String)
  | fencedLeg (node volume : String)
  /-- A served volume of this name is asked to be made. -/
  | pinned (name : String)
  /-- A copy was written back under a name that had no record. -/
  | restored (name : String)
  /-- An undo's delete took effect on a volume in use by these records. -/
  | undone (task : Nat) (volume : EngineVolume) (uses : List Use)
  /-- A leg that was made is left behind. -/
  | left (why : Left) (volume : EngineVolume)
  /-- A node is to become a volume's head; whether an entry of the volume's
  stale heads names it. -/
  | heading (name node : String) (stale : Bool)
  /-- The head's array was read for its lost leg; none when it is not there. -/
  | headRead (name head arrayId : String) (array : Option EngineArray)
  /-- An array came back on its head, as it read there then. -/
  | cameBack (name : String) (array : Option EngineArray)
  /-- A promote that presented this epoch wrote its volume's record. -/
  | cleared (name : String) (presented : Nat)
  /-- A node's engine was asked to close a drive; whether it is closed there. -/
  | closing (node uri : String) (closed : Bool)
  /-- A node's engine mirrors a volume to a drive; it stopped that. -/
  | mirroring (node volume target : String)
  | mirrorStopped (node volume : String)
  /-- A start that failed is undone from here on. -/
  | undoing (migration : String)
  /-- A publish attached a volume, on the shared subsystem or for a host. -/
  | served (name : String) (host : Option String)
  /-- A volume's served volume did not come across with its array. -/
  | missed (name : String)
  /-- An engine answered that it has no volume of this name. -/
  | unlisted (node name : String)
  /-- A ship is done: its point is to be taken, under this name. -/
  | taking (volume point : String)
  /-- The points of a backup were written: those that were read and the one that
was taken, without the dropped ones, but for those that could not be. -/
  | pointed (volume : String) (read dropped failed : List String) (point : String)
  /-- A point was deleted, and is to be answered so. -/
  | pointDeleted (volume point : String)
  /-- A purge is done, of these points. -/
  | purged (volume : String) (points : List String)
deriving DecidableEq, Repr

/-- An operation handed to the background. -/
inductive Spawn where
  /-- Wait for a volume's replacement and finish it. -/
  | finish (name : String)
  /-- Retry a volume's assembly. -/
  | assemble (name : String)
deriving DecidableEq, Repr

/-- The volume it is about. -/
def Spawn.name : Spawn → String
  | finish name | assemble name => name

/-- What an operation under way makes, needs to stay, and deletes. -/
structure Undertaking where
  task : Nat
  creates : List String := []
  /-- Group snapshots that it creates; they have names of their own. -/
  groups : List String := []
  needs : List String := []
  deletes : List String := []
  /-- What it creates is recorded. -/
  recorded : Bool := false
deriving DecidableEq, Repr

/-- A create recorded what it made. -/
structure Creation where
  name : String
  /-- Of a group snapshot; the others share one namespace. -/
  group : Bool
  /-- A record of that name was there. -/
  taken : Bool
  /-- An operation holds the name's claim. -/
  claimed : Bool
deriving DecidableEq, Repr

/-- What each volume of an engine was expanded to, by node and id. -/
abbrev Sizes := String → String → Nat

/-- A grow of a node's array that took effect, and the sizes it found. -/
structure Grow where
  node : String
  array : String
  sizes : Sizes

/-- An id that a node's engine answered for the volume of that name. -/
structure IdAnswer where
  node : String
  name : String
  id : String
deriving DecidableEq, Repr

/-- A fence of a volume's record, and the epoch that it answered. -/
structure Fence where
  name : String
  epoch : Nat
deriving DecidableEq, Repr

/-- A size that an engine answered for a volume it serves. -/
structure ServedSize where
  node : String
  name : String
  bytes : Nat
deriving DecidableEq, Repr

/-- A backup's node, picked under this policy of the volume's. -/
structure NodeChoice where
  volume : String
  policy : BackupPolicy
deriving DecidableEq, Repr

structure AppState where
  fed : FedState := {}
  /-- Names with an operation in flight. -/
  replacing : KeyMap Claim := ∅
  /-- The next number of a migration's id. -/
  seq : Nat := 0
  engines : List EngineVolume := []
  /-- Which hosts the engines serve. -/
  access : List HostAccess := []
  spawned : List Spawn := []
  undertakings : List Undertaking := []
  creations : List Creation := []
  /-- The copies of records that operations hold and write back. -/
  copies : KeyMap DistVolume := ∅
  /-- Which task began the replacement that is recorded on a volume. -/
  begun : KeyMap Nat := ∅
  publishes : List Publish := []
  log : List Event := []
  sizes : Sizes := fun _ _ => 0
  /-- The capacity of each engine's arrays, by node and id. -/
  capacity : Sizes := fun _ _ => 0
  grows : List Grow := []
  servedSizes : List ServedSize := []
  answered : List IdAnswer := []
  fences : List Fence := []
  /-- The nodes that backups were given, the last one first. -/
  choices : List NodeChoice := []

abbrev Async (α : Type) := Task Reply AppState Fault α

namespace AppState

def note (w : AppState) (e : Event) : AppState := { w with log := w.log ++ [e] }

def setFed (w : AppState) (f : FedState → FedState) : AppState := { w with fed := f w.fed }

/-- A change of durable intent. -/
def revise (w : AppState) (f : FedState → FedState) : AppState :=
  w.setFed fun fed => { f fed with revision := fed.revision + 1 }

end AppState

/-! ## Operations in flight -/

/-- A volume's record, as one step reads it. -/
def findVolume (fed : FedState) (name : String) : Except Fault DistVolume :=
  match fed.volumes[name]? with
  | some v => .ok v
  | none => .error { message := s!"volume {repr name} not found", status := some 404 }

/-- The same, for a caller of the API. -/
def volumeIn (fed : FedState) (name : String) : Except Fault DistVolume :=
  match fed.volumes[name]? with
  | some v => .ok v
  | none => .error (.notFound s!"volume {repr name}")

theorem findVolume_eq {fed : FedState} {name : String} {v : DistVolume} :
    findVolume fed name = .ok v ↔ fed.volumes[name]? = some v := by
  unfold findVolume
  split <;> simp [*]

theorem volumeIn_eq {fed : FedState} {name : String} {v : DistVolume} :
    volumeIn fed name = .ok v ↔ fed.volumes[name]? = some v := by
  unfold volumeIn
  split <;> simp [*]

/-- Checks one after another. -/
theorem check_bind {α β : Type} {x : Except Fault α} {f : α → Except Fault β} {b : β} :
    x.bind f = .ok b ↔ ∃ a, x = .ok a ∧ f a = .ok b := by
  cases x <;> simp [Except.bind]

/-- An operation is let in by what it checks in one step, which registers what
it is about to do. -/
def enter {α : Type} (check : FedState → Except Fault α) (what : α → Undertaking) : Async α := do
  .ofExcept (← .atomic fun _ w =>
    match check w.fed with
    | .ok a => (.ok a, { w with undertakings := w.undertakings ++ [what a] })
    | .error e => (.error e, w))

/-- The operation has come to its end. -/
def ended (me : Nat) : Async Unit :=
  .modify fun w => { w with undertakings := w.undertakings.filter (·.task ≠ me) }

def tracked {α : Type} (me : Nat) (t : Async α) : Async Unit := do
  let _ ← t.attempt
  ended me

/-- A volume or a snapshot has this name. -/
def FedState.taken (fed : FedState) (name : String) : Bool := fed.volumes.contains name || fed.snapshots.contains name

/-- What the task creates is recorded, under these names. -/
def AppState.recorded (w : AppState) (me : Nat) (names groups : List String) : AppState :=
  { w with
    creations := w.creations ++ (names.map fun n => ⟨n, false, w.fed.taken n, w.replacing.contains n⟩) ++
      groups.map fun g => ⟨g, true, w.fed.groupSnapshots.contains g, w.replacing.contains g⟩
    undertakings := w.undertakings.map fun i => if i.task = me then { i with recorded := true } else i }

/-! ## Claims -/

def claim (me : Nat) (name : String) : Async Bool :=
  .atomic fun _ w =>
    if w.replacing.contains name then (false, w)
    else (true, { w with replacing := w.replacing.insert name { task := me } })

def AppState.release (w : AppState) (name : String) : AppState :=
  { w with replacing := w.replacing.erase name }

def release (name : String) : Async Unit := .modify fun w => w.release name

/-- A node is to become the volume's head. -/
def AppState.noteHeading (w : AppState) (name : String) (onto : Option String) : AppState :=
  { w with log := w.log ++ onto.toList.map fun node =>
      .heading name node (w.fed.staleHeads.any fun s => s.ofVolume = name ∧ s.node = node) }

/-- A fence is answered. -/
def AppState.noteFence (w : AppState) (name : String) (epoch : Nat) : AppState :=
  { w with fences := w.fences ++ [⟨name, epoch⟩] }

/-- A publish has come to its end. -/
def AppState.endPublish (w : AppState) (me : Nat) : AppState :=
  { w with publishes := w.publishes.filter (·.task ≠ me) }

/-- Take a copy of a record, to be written back; its head is to be `onto`. -/
def takeCopy {α : Type} (name : String) (check : FedState → Except Fault α) (vol : α → DistVolume)
    (onto : α → Option String := fun _ => none) : Async α := do
  .ofExcept (← .atomic fun _ w =>
    match check w.fed with
    | .ok a => (.ok a, { w.noteHeading name (onto a) with copies := w.copies.insert name (vol a) })
    | .error e => (.error e, w))

/-- Write a copy back. -/
def AppState.writeBack (w : AppState) (name : String) (vol : DistVolume) : AppState :=
  let w := if w.fed.volumes.contains name then w else w.note (.restored name)
  { w with
    fed := { w.fed with volumes := w.fed.volumes.insert name vol }
    copies := w.copies.erase name }

/-- Let a volume's claim go, with the copy taken under it. -/
def letGo (name : String) : Async Unit :=
  .modify fun w => { w.release name with copies := w.copies.erase name }

/-- Run `t` holding the volume's claim. -/
def underClaim {α : Type} (me : Nat) (name : String) (busy : Fault) (t : Async α) : Async α := do
  if ← claim me name then
    let r ← t.attempt
    letGo name
    .ofExcept r
  else .fail busy

/-- Hand an operation to the background, with the claim it runs under. -/
def spawn (s : Spawn) : Async Unit := .modify fun w => { w with spawned := w.spawned ++ [s] }

/-- A background operation starts once it was handed over. -/
def spawnedBy (me : Nat) (s : Spawn) (name : String) : Async Unit :=
  .await (fun w => s ∈ w.spawned) fun _ w =>
    ((), { w with spawned := w.spawned.erase s, replacing := w.replacing.insert name { task := me } })

/-! ## Calls -/

/-- What a call leaves, as the wire lets it happen. -/
def Wire.effect (wire : Wire) (did w : AppState) : AppState :=
  match wire with
  | .refused _ _ => w
  | .answered | .lost _ => did

/-- What was to be taken away is not there any more. -/
def Wire.gone : Wire → Bool
  | .refused status _ => status = some 404
  | .answered | .lost _ => true

/-- A call to an engine: `eff` is what it does there, `refused` what is noted if
it does nothing, `answer` what it answers. -/
def callOr {α : Type} (eff : Reply → AppState → AppState) (refused : AppState → AppState)
    (answer : Reply → AppState → Except Fault α) : Async α :=
  .step (fun _ => true) (fun i w => i.wire.effect (eff i w) (refused w)) fun i w =>
    match i.wire with
    | .answered => .ofExcept (answer i w)
    | .refused status why => .fail { message := why, status := status }
    | .lost why => .fail { message := why }

def call {α : Type} (eff : Reply → AppState → AppState) (answer : Reply → AppState → Except Fault α) : Async α :=
  callOr eff id answer

/-- A call whose effects on the engine are left to what engines answer. -/
def inquire {α : Type} (answer : Reply → Except Fault α) : Async α :=
  call (fun _ w => w) fun i _ => answer i

/-- A failure says what was being done. -/
def withContext {α : Type} (what : String) (t : Async α) : Async α := do
  match ← t.attempt with
  | .ok a => return a
  | .error e => .fail (e.context what)

/-- What is gone already is done. -/
def unlessGone (t : Async Unit) : Async Unit := do
  match ← t.attempt with
  | .ok _ => return ()
  | .error e => if e.isNotFound then return () else .fail e

/-- Go on only where `p`. -/
def require (p : Bool) (e : Fault) : Except Fault Unit := if p then .ok () else .error e

theorem require_ok {p : Bool} {e : Fault} {u : Unit} : require p e = .ok u ↔ p = true := by
  cases p <;> simp [require]

def healthyIn (fed : FedState) (node : String) : Bool := fed.nodes[node]?.any (·.status.healthy)

def healthy (node : String) : Async Bool := .get fun w => healthyIn w.fed node

/-- A node's engine, whether it answers or not. -/
def engineOf (fed : FedState) (node : String) : Except Fault Unit :=
  if fed.nodes.contains node then .ok () else .error { message := s!"node {repr node} not in registry" }

/-- A node's engine, while it answers. -/
def engineOn (fed : FedState) (node : String) : Except Fault Unit :=
  match fed.nodes[node]? with
  | none => .error { message := s!"node {repr node} not in registry" }
  | some n => if n.status.healthy then .ok () else .error { message := s!"{node} is unreachable" }

def engine (node : String) : Async Unit := do
  .ofExcept (← .get fun w => engineOn w.fed node)

end StormStorage
