import Mathlib.Data.List.Sort
import StormStorage.Orchestrate.Export

/-!
# Assembling a volume's legs

Every leg is attached to the head and opened there, and the head's RAID1 over
them is made, or taken as it is when the head holds it already. The work is
done on a copy of the record, which is written back with what was reached.
-/

namespace StormStorage.Orchestrate

open Await

/-! ## The array -/

/-- What the head already holds over a volume's leg drives. -/
inductive ArrayMatch where
  /-- No array uses any of them. -/
  | none
  /-- An array whose members are exactly these drives. -/
  | exact (array : EngineArray)
  /-- An array holds one of them among other members. -/
  | conflict (array uri : String)
deriving DecidableEq, Repr

def matchArray : List EngineArray → List String → ArrayMatch
  | [], _ => .none
  | a :: rest, uris =>
    let paths := a.members.filterMap (·.devicePath)
    if paths ⊆ uris ∧ uris ⊆ paths then .exact a
    else
      match ((paths.filter (· ∈ uris)).insertionSort (· ≤ ·)).head? with
      | some uri => .conflict (a.id.getD "?") uri
      | Option.none => matchArray rest uris

/-- The legs carry the array of an earlier create: put it back together. -/
def readopt (head : String) (uris : List String) (refused : Fault) : Async EngineArray := do
  let made ← withContext s!"{head}: assemble after create refused" Engine.assembleArrays
  match made.filterMap (·.id) with
  | [id] => do
    let array ← withContext s!"{head}: read assembled array {id}" Engine.getArray
    match matchArray [array] uris with
    | .exact _ => return array
    | _ => .fail { message := s!"{head}: array {id} assembled from these legs has other members too; not adopting it" }
  | ids =>
    let n := ids.length
    .fail { message :=
      s!"{head}: create refused ({refused.message}) and the legs assembled into {n} arrays, not one" }

/-- The head's array over the legs' drives, made unless it is there. -/
def arrayOver (head : String) (uris : List String) : Async EngineArray := do
  let existing ← withContext s!"{head}: list arrays" Engine.listArrays
  match matchArray existing uris with
  | .exact array => return array
  | .conflict array uri => .fail { message :=
      s!"{head}: {uri} is already a member of array {array}, which is not this volume's; " ++
        "not building a second array over it" }
  | .none => do
    match ← Engine.createRaid1.attempt with
    | .ok array => return array
    | .error e =>
      if e.status = some 409 then readopt head uris e
      else .fail (e.context s!"{head}: create raid1")

/-! ## Assembling -/

/-- Serve every leg to the head alone; one served to it already is kept. -/
def attachLegs (host : String) : List Leg → Async (List Leg × Option Fault)
  | [] => return ([], none)
  | leg :: rest =>
    if leg.export.any fun x => x.hostNqn.all (· = host) then do
      let (rest, e) ← attachLegs host rest
      return (leg :: rest, e)
    else do
      match ← (Engine.attachLeg leg.node (leg.volumeId.getD "") host).attempt with
      | .error e => return (leg :: rest, some (e.context s!"{leg.node}: attach"))
      | .ok att => do
        let (rest, e) ← attachLegs host rest
        return ({ leg with «export» := some att } :: rest, e)

/-- The head opens each export as a drive. -/
def openLegs (head : String) : List Leg → Async (List Leg × Option Fault)
  | [] => return ([], none)
  | leg :: rest => do
    let uri := leg.uri
    match ← (Engine.addDrive uri).attempt with
    | .error e => return (leg :: rest, some (e.context s!"{head}: open {uri}"))
    | .ok uuid => do
      let (rest, e) ← openLegs head rest
      return ({ leg with driveUuid := some uuid } :: rest, e)

/-- Match the array's members to the legs, by drive path, else by order. -/
def nameMembers (uris : List String) (legs : List Leg) (members : List ArrayMember) : List Leg :=
  members.zipIdx.foldl (fun legs (m, i) =>
    match m.uuid with
    | none => legs
    | some uuid =>
      legs.modify ((m.devicePath.bind fun p => uris.idxOf? p).getD i) fun l => { l with memberUuid := some uuid })
    legs

/-- The array over opened legs, recorded on the copy. -/
def buildArray (head : String) (vol : DistVolume) : Async (DistVolume × Option Fault) := do
  let uris := vol.legs.map (·.uri)
  match ← (arrayOver head uris).attempt with
  | .error e => return (vol, some e)
  | .ok array =>
    match array.id with
    | none => return (vol, some { message := s!"{head}: array response without id" })
    | some id => return ({ vol with
        legs := nameMembers uris vol.legs array.members
        head := some head
        arrayId := some id
        assembly := .assembled }, none)

/-- The copy as far as the assembly got, and why it stopped there. -/
def assembleInner (cfg : Config) (head : String) (vol : DistVolume) : Async (DistVolume × Option Fault) := do
  match ← attachLegs (cfg.hostNqnFor head) vol.legs with
  | (legs, some e) => return ({ vol with legs := legs }, some e)
  | (legs, none) => do
    match ← openLegs head legs with
    | (legs, some e) => return ({ vol with legs := legs }, some e)
    | (legs, none) => buildArray head { vol with legs := legs }

def assembleReady (name : String) (fed : FedState) : Except Fault DistVolume := do
  let vol ← findVolume fed name
  if vol.legs.length < 2 then .error { message := s!"{name}: single leg — nothing to assemble" }
  else if vol.legs.any fun l => l.state ≠ .created ∨ l.volumeId.isNone then
    .error { message := s!"{name}: not every leg is created" }
  else
    vol.legs.forM fun l => engineOf fed l.node
    .ok vol

def assembleClaimed (cfg : Config) (name : String) : Async Unit := do
  let vol ← takeCopy name (assembleReady name) id fun vol => vol.legs.head?.map (·.node)
  let head := (vol.legs.head?.map (·.node)).getD ""
  let (vol, stopped) ← assembleInner cfg head vol
  .atomic fun i w =>
    let w := w.writeBack name { vol with
      nextAssembleAfter := if stopped.isNone then none else some (i.now + cfg.cooldown) }
    ((), if stopped.isNone then w.revise id else w)
  match stopped with
  | none => return ()
  | some e => .fail e

/-- Assemble a volume's legs, under its claim. -/
def assemble (cfg : Config) (me : Nat) (name : String) : Async Unit :=
  underClaim me name { message := s!"{name}: busy — an assembly or leg move is in flight" } (assembleClaimed cfg name)

/-- `POST /api/v1/volumes/{name}/assemble`. -/
def assembleVolume (cfg : Config) (me : Nat) (name : String) : Async Unit := do
  let vol ← .ofExcept (← .get fun w => findVolume w.fed name)
  if vol.assembly ≠ .pendingEngineSupport then
    .fail { message := s!"{name}: not pending — nothing to assemble", status := some 409 }
  else if vol.legs.length < 2 then
    .fail { message := s!"{name}: single leg — nothing to assemble", status := some 409 }
  else
    assemble cfg me name
    let _ ← (publish me name).attempt

/-- A retry handed to the background: the volume is served once it is
assembled. -/
def retryAssembly (cfg : Config) (me : Nat) (name : String) : Async Unit := do
  spawnedBy me (.assemble name) name
  let r ← (assembleClaimed cfg name).attempt
  letGo name
  match r with
  | .ok _ => do
    let _ ← (publish me name).attempt
  | .error _ => return ()

/-- Take the head's array and drives and the legs' exports down; best effort. -/
def teardown (vol : DistVolume) : Async Unit := do
  let legs := vol.legs ++ (vol.replacing.map (·.leg)).toList
  let up ← .get fun w => legs.map fun l => healthyIn w.fed l.node
  if (← .get fun w => vol.head.any fun h => w.fed.nodes.contains h) ∧ vol.arrayId.isSome then
    let _ ← Engine.act.attempt
    .forEach (legs.filter (·.export.isSome)) fun _ => do
      let _ ← Engine.act.attempt
  .forEach ((legs.zip up).filter fun (l, up) => l.volumeId.isSome ∧ l.export.isSome ∧ up) fun _ => do
    let _ ← Engine.act.attempt

end StormStorage.Orchestrate
