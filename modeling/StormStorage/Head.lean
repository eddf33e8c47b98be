import StormStorage.Orchestrate.Replacement

/-!
# The head of a volume

A fence is a compare-and-set of a volume's epoch, then of every reachable leg
on its engine (`fence`). A promote moves the head onto a node that holds a
leg (`promote`): the surviving legs are opened there and the array is put back
together from their superblocks. `reassemble` does the same on the head that
forgot its array, and `prestage` replaces a leg that is not the head's.
-/

namespace StormStorage.Head

open Await Orchestrate

/-! ## Fencing -/

/-- The compare-and-set of a fence: a mirrored volume at `expected` goes one
epoch up, fenced. -/
def applyFence (vol : DistVolume) (expected : Nat) : Except Fault DistVolume :=
  if vol.epoch ≠ expected then .error (.staleEpoch vol.epoch)
  else if vol.assembly ≠ .assembled ∧ vol.assembly ≠ .degraded then
    .error (.conflict (s!"{vol.name}: not a mirrored volume (assembly {vol.assembly.debug}) — " ++
      "no other copy to promote"))
  else .ok { vol with epoch := vol.epoch + 1, fenced := true }

structure Fenced where
  epoch : Nat
  /-- Legs fenced on their engines, with the leg's new epoch. -/
  legs : List (String × Nat)
  notFenced : List (String × String)
deriving DecidableEq, Repr

/-- A leg to fence: its node, its volume, and whether the node answers. -/
abbrev FenceLeg := String × String × Bool

def legsToFence (fed : FedState) (vol : DistVolume) : List FenceLeg :=
  (vol.legs.filter (·.state = .created)).filterMap fun l => l.volumeId.map fun vid => (l.node, vid, healthyIn fed l.node)

def beginFence (name : String) (expected : Nat) : Async (Nat × List FenceLeg) := do
  .ofExcept (← .atomic fun _ w =>
    match (volumeIn w.fed name).bind (applyFence · expected) with
    | .ok vol =>
      (.ok (vol.epoch, legsToFence w.fed vol),
        (w.noteFence name vol.epoch).revise fun fed => { fed with volumes := fed.volumes.insert name vol })
    | .error e => (.error e, w))

def fenceOne (node vid : String) (up : Bool) : Async (Except Fault Nat) :=
  if up then (Engine.fenceLeg node vid).attempt else return .error { message := "unreachable" }

def fenceEach : List FenceLeg → Async (List (String × Nat) × List (String × String))
  | [] => return ([], [])
  | (node, vid, up) :: rest => do
    let r ← fenceOne node vid up
    let (legs, notFenced) ← fenceEach rest
    match r with
    | .ok epoch => return ((node, epoch) :: legs, notFenced)
    | .error e => return (legs, (node, e.message) :: notFenced)

/-- A change of the first leg on `node`. -/
def onLeg (node : String) (f : Leg → Leg) : List Leg → List Leg
  | [] => []
  | l :: ls => if l.node = node then f l :: ls else l :: onLeg node f ls

/-- The epochs that legs answered. -/
def withEpochs (legs : List Leg) (epochs : List (String × Nat)) : List Leg :=
  epochs.foldl (fun legs (node, epoch) => onLeg node (fun l => { l with epoch := some epoch }) legs) legs

def recordLegEpochs (epochs : List (String × Nat)) (v : DistVolume) : DistVolume :=
  { v with legs := withEpochs v.legs epochs }

/-- `POST /api/v1/volumes/{name}/fence`. -/
def fence (name : String) (expected : Nat) : Async Fenced := do
  let (epoch, legs) ← beginFence name expected
  let (done, notFenced) ← fenceEach legs
  .modify fun w => w.revise (·.modifyVolume name (recordLegEpochs done))
  return { epoch := epoch, legs := done, notFenced := notFenced }

/-! ## The array on a head -/

/-- Served volumes that are listed with an id and a name. -/
def servedListed (mirror : String) (vs : List EngineItem) : Option String :=
  (vs.find? fun v => v.name = some mirror ∧ v.id.isSome).bind (·.id)

def openLeg (cfg : Config) (target : String) (up : List String) (leg : Leg) : Async Leg :=
  if leg.node ∉ up then .fail (.upstream s!"{leg.node}: unreachable")
  else
    match leg.volumeId with
    | none => .fail (.conflict s!"{leg.node}: leg has no volume")
    | some vid => do
      let att ← withContext s!"{leg.node}: attach leg" (Engine.attachLeg leg.node vid (cfg.hostNqnFor target))
      let leg := { leg with «export» := some att }
      let uri := leg.uri
      let uuid ← withContext s!"{target}: open {uri}" (Engine.addDrive uri)
      return { leg with driveUuid := some uuid }

/-- Open the legs that `pick` takes. -/
def openPicked (cfg : Config) (target : String) (up : List String) (pick : Leg → Bool) :
    List Leg → Async (List Leg)
  | [] => return []
  | leg :: rest =>
    if pick leg then do
      let leg ← openLeg cfg target up leg
      let rest ← openPicked cfg target up pick rest
      return leg :: rest
    else do
      let rest ← openPicked cfg target up pick rest
      return leg :: rest

/-- Members as this head numbers them. -/
def renumber (pick : Leg → Bool) (r : ArrayReading) (leg : Leg) : Leg :=
  if pick leg then
    match r.members.find? fun m => leg.export.any (·.driveUri = m.devicePath) with
    | some m => { leg with memberUuid := some m.uuid }
    | none => leg
  else leg

/-- The legs renumbered, and the array that they were renumbered by. -/
def renumbered (target arrayId : String) (pick : Leg → Bool) (legs : List Leg) :
    Async (List Leg × Option EngineArray) := do
  match ← Engine.getArray.attempt with
  | .ok a => return (legs.map (renumber pick (parseArray target arrayId a)), some a)
  | .error _ => return (legs, none)

/-- Open the picked legs on `target` as its head and put the volume's array
together from their superblocks: the same array, never a new one. Answers the
served volume that came across with it, and the array as it was read. -/
def assembleOn (cfg : Config) (target : String) (up : List String) (pick : Leg → Bool) (vol : DistVolume) :
    Async (DistVolume × Option String × Option EngineArray) :=
  match vol.arrayId with
  | none => .fail (.conflict s!"{vol.name}: no array id")
  | some array => do
    let legs ← openPicked cfg target up pick vol.legs
    let made ← withContext s!"{target}: assemble" Engine.assembleArrays
    if ¬ made.any fun a => a.id.any (·.toLower = array.toLower) then
      .fail (.upstream s!"{target}: the legs did not assemble into array {array}")
    else
      let (legs, read) ← renumbered target array pick legs
      match ← (Engine.listEngineVolumes target).attempt with
      | .ok vs => return ({ vol with legs := legs }, servedListed (vol.name ++ mirrorSuffix) vs, read)
      | .error _ => return ({ vol with legs := legs }, none, read)

/-- Put a promote's copy of the record back, under its name. -/
def store (presented : Nat) (vol : DistVolume) : Async Unit :=
  .modify fun w => ((w.note (.cleared vol.name presented)).writeBack vol.name vol).revise id

/-! ## Promoting -/

/-- The checks of a promote, before it touches an engine: the current head. -/
def checkPromote (vol : DistVolume) (target : String) (fencedEpoch : Nat) (targetHealthy : Bool) :
    Except Fault (Option String) :=
  if ¬ vol.fenced ∨ vol.epoch ≠ fencedEpoch then .error (.staleEpoch vol.epoch)
  else if vol.dualAttach.isSome then
    .error (.conflict s!"{vol.name}: a dual-attach window is open — close it (commit promotes)")
  else if vol.assembly ≠ .assembled ∧ vol.assembly ≠ .degraded then .error (.conflict s!"{vol.name}: not assembled")
  else if vol.replacing.isSome then .error (.conflict s!"{vol.name}: a leg replacement is in flight")
  else
    match vol.legs.find? (·.node = target) with
    | none => .error (.conflict s!"{vol.name}: {repr target} holds no leg")
    | some leg =>
      if leg.state ≠ .created ∨ leg.volumeId.isNone then
        .error (.conflict s!"{vol.name}: the leg on {target} is {leg.state.debug}")
      else if ¬ targetHealthy then .error (.conflict s!"{vol.name}: {target} is unreachable")
      else .ok vol.head

/-- What a promote reads. -/
structure Promotable where
  vol : DistVolume
  oldHead : Option String
  oldHeadAlive : Bool
  /-- The legs' nodes that answer. -/
  up : List String

def legsUp (fed : FedState) (vol : DistVolume) : List String := (vol.legs.map (·.node)).filter (healthyIn fed ·)

def promotable (name target : String) (fencedEpoch : Nat) (fed : FedState) : Except Fault Promotable := do
  let vol ← volumeIn fed name
  let oldHead ← checkPromote vol target fencedEpoch (healthyIn fed target)
  .ok { vol := vol, oldHead := oldHead, oldHeadAlive := oldHead.any (healthyIn fed ·), up := legsUp fed vol }

/-- Serve each leg to the head again, at its fenced epoch; best effort. -/
def reattachLegs (cfg : Config) (head : String) (up : List String) : List Leg → Async (List Leg)
  | [] => return []
  | leg :: rest =>
    match leg.volumeId.filter fun _ => leg.state = .created ∧ leg.node ∈ up with
    | none => do
      let rest ← reattachLegs cfg head up rest
      return leg :: rest
    | some vid => do
      let r ← (Engine.attachLeg leg.node vid (cfg.hostNqnFor head)).attempt
      let rest ← reattachLegs cfg head up rest
      match r with
      | .ok att => return { leg with «export» := some att } :: rest
      | .error _ => return leg :: rest

def loseAtPromote (up : List String) (l : Leg) : Leg :=
  if l.state = .created ∧ l.node ∉ up then
    { l with state := .lost, message := some s!"node {l.node} unreachable at promote" }
  else l

def allCreated (legs : List Leg) : Bool := legs.all (·.state = .created)

/-- The record with its head on `target`, where `served` came across. -/
def promoted (target : String) (up : List String) (served : Option String) (vol : DistVolume) : DistVolume :=
  let legs := vol.legs.map (loseAtPromote up)
  { vol with
    legs := legs
    head := some target
    fenced := false
    assembly := if allCreated legs then .assembled else .degraded
    «export» := {
      state := vol.export.state
      volumeId := served
      node := some target
      coordinates := vol.export.coordinates
      publishedAt := vol.export.publishedAt
      adopted := true
      -- served to on the new head by the publish that follows
      hosts := vol.export.hosts
      perHost := vol.export.perHost
      localId := served
      withdrawing := vol.export.withdrawing } }

/-- The head that was left: it may still hold the array. -/
def staleHead (vol : DistVolume) (old array : String) (now : SystemTime) : List StaleHead :=
  if old = "" then []
  else [{
    node := old
    arrayId := array
    driveUris := vol.legs.filterMap fun l => l.export.map (·.driveUri)
    ofVolume := vol.name
    epoch := vol.epoch
    since := now
    servedV1 := if vol.export.node = some old ∧ ¬ vol.export.adopted then vol.export.volumeId else none }]

/-- The served volume did not come across: nothing is served in its place. -/
def failServed (name target : String) : Async Unit :=
  let mirror := name ++ mirrorSuffix
  let m := s!"{name}: the served volume {mirror} did not come across with the array on {target} — not serving " ++
    "(an empty volume in its place would hide the data)"
  .modify fun w => (w.note (.missed name)).setFed (·.modifyVolume name fun v =>
    { v with «export» := { v.export with state := .failed, message := some m } })

/-- Serve what came across, and the clones on it. -/
def servePromoted (me : Nat) (name target : String) : Option String → Async Unit
  | some _ => do
    let _ ← (publish me name).attempt
    publishClonesOf me name
  | none => failServed name target

/-- Move the head, which no longer answers, onto `target`. -/
def takeOver (cfg : Config) (me : Nat) (name target array : String) (presented : Nat) (p : Promotable) :
    Async Unit := do
  let (vol, served, _) ← assembleOn cfg target p.up (fun l => l.state = .created ∧ l.node ∈ p.up) p.vol
  .atomic fun i w =>
    ((), ((w.note (.cleared name presented)).revise fun fed =>
      { fed with staleHeads := fed.staleHeads ++ staleHead vol (p.oldHead.getD "") array i.now }).writeBack name
        (promoted target p.up served vol))
  servePromoted me name target served

def promoteClaimed (cfg : Config) (me : Nat) (name target : String) (fencedEpoch : Nat) : Async Unit := do
  let p ← takeCopy name (promotable name target fencedEpoch) (·.vol) fun _ => some target
  match p.vol.arrayId with
  | none => .fail (.conflict s!"{name}: no array id")
  | some array =>
    if p.oldHead = some target then do
      -- the head it already has keeps the array, at the new epoch
      let legs ← reattachLegs cfg target p.up p.vol.legs
      store fencedEpoch { p.vol with legs := legs, fenced := false }
    else if p.oldHeadAlive then
      let old := p.oldHead.getD ""
      .fail (.conflict (s!"{name}: head {old} is still running the array; a handover from a live head needs the " ++
        "engine to release an array without writing to its members (stormblock#296). " ++
        "Promote proceeds when the old head is unreachable (failover)."))
    else takeOver cfg me name target array fencedEpoch p

/-- `POST /api/v1/volumes/{name}/promote`, under the volume's claim. -/
def promote (cfg : Config) (me : Nat) (name target : String) (fencedEpoch : Nat) : Async Unit :=
  underClaim me name (.conflict s!"{name}: busy — an assembly or leg move is in flight")
    (promoteClaimed cfg me name target fencedEpoch)

/-! ## Reassembling -/

structure Reassemblable where
  vol : DistVolume
  head : String
  up : List String

def reassemblable (name : String) (fed : FedState) : Except Fault Reassemblable := do
  let vol ← volumeIn fed name
  if vol.assembly ≠ .assembled ∧ vol.assembly ≠ .degraded then .error (.conflict s!"{name}: not assembled")
  else if vol.fenced ∨ vol.replacing.isSome ∨ vol.dualAttach.isSome then
    .error (.conflict s!"{name}: fenced, replacing a leg or in a dual-attach window")
  else
    match vol.head with
    | none => .error (.conflict s!"{name}: no head")
    | some head =>
      if ¬ healthyIn fed head then .error (.upstream s!"{name}: head {head} is unreachable")
      else .ok { vol := vol, head := head, up := legsUp fed vol }

/-- A leg that goes into the array again: a created one, or the head's own
that was lost while the head was away. -/
def comesBack (head : String) (up : List String) (l : Leg) : Bool :=
  l.node ∈ up ∧ (l.state = .created ∨ l.state = .lost ∧ l.node = head)

/-- The export after its array came back. -/
def servedAgain (name head array : String) (served : Option String) (ex : Export) : Export :=
  match served with
  | some id => { ex with
      volumeId := some id, localId := some id, node := some head, masterNode := none, adopted := true }
  | none =>
    if ex.state = .none then ex
    else
      let mirror := name ++ mirrorSuffix
      { ex with
        state := .failed
        gone := true
        message := some (s!"{name}: the served volume {mirror} did not come back with array {array} on {head}; " ++
          s!"its data is not recreated — POST /api/v1/volumes/{name}/export \x7b\"recreate\": true\x7d serves a " ++
          "new, EMPTY one") }

/-- The record with the array back on its head, over the legs that `pick` took. -/
def reassembled (head array : String) (pick : Leg → Bool) (served : Option String) (vol : DistVolume) : DistVolume :=
  let legs := vol.legs.map fun l => if pick l then { l with state := .created, message := none } else l
  { vol with
    legs := legs
    assembly := if allCreated legs then .assembled else .degraded
    nextAssembleAfter := none
    «export» := servedAgain vol.name head array served vol.export }

/-- What came back with an array: without its served volume, that is noted. -/
def noteBack (w : AppState) (name : String) (read : Option EngineArray) (served : Option String) : AppState :=
  { w with log := w.log ++ .cameBack name read :: if served.isSome then [] else [.missed name] }

/-- Put the copy back, of a volume whose array came back. -/
def storeBack (read : Option EngineArray) (served : Option String) (vol : DistVolume) : Async Unit :=
  .modify fun w => ((noteBack w vol.name read served).writeBack vol.name vol).revise id

def putBack (cfg : Config) (me : Nat) (name array : String) (p : Reassemblable) : Async Unit := do
  let pick := comesBack p.head p.up
  if ¬ p.vol.legs.any pick then .fail (.conflict s!"{name}: no leg answers")
  else
    let (vol, served, read) ← assembleOn cfg p.head p.up pick p.vol
    storeBack read served (reassembled p.head array pick served vol)
    publishAll me (if served.isSome ∧ vol.export.state ≠ .none then [name] else [])
    publishClonesOf me name

/-- Put a volume's array back together on its own head, if that forgot it. -/
def reassemble (cfg : Config) (me : Nat) (name : String) : Async Unit := do
  let p ← takeCopy name (reassemblable name) (·.vol)
  match p.vol.arrayId with
  | none => .fail (.conflict s!"{name}: no array id")
  | some array =>
    match ← Engine.findArray.attempt with
    | .ok none => putBack cfg me name array p
    -- the head still holds the array, or could not be read
    | .ok (some _) | .error _ => return ()

/-- Volumes whose head answers and whose array was not read this poll. -/
def reassembleCandidates (w : AppState) (read : List String) (now : SystemTime) : List String :=
  ((w.fed.volumes.toList.map Prod.snd).filter fun v =>
    (v.assembly = .assembled ∨ v.assembly = .degraded) ∧ ¬ v.fenced ∧ v.replacing.isNone ∧ v.dualAttach.isNone ∧
      v.nextAssembleAfter.all (· ≤ now) ∧ v.head.any (healthyIn w.fed ·) ∧ v.name ∉ read ∧
        ¬ w.replacing.contains v.name).map (·.name)

def reassembleOne (cfg : Config) (me : Nat) (now : SystemTime) (name : String) : Async Unit := do
  if ← claim me name then
    let r ← (reassemble cfg me name).attempt
    letGo name
    match r with
    | .ok _ => return ()
    | .error _ => .modify (·.setFed (·.modifyVolume name fun v =>
        { v with nextAssembleAfter := some (now + cfg.cooldown) }))
  else return ()

/-- Put back the arrays that heads forgot. -/
def reassembleHeads (cfg : Config) (me : Nat) : Async Unit := do
  let (due, now) ← .atomic fun i w => ((reassembleCandidates w i.read i.now, i.now), w)
  .forEach due (reassembleOne cfg me now)

/-! ## Prestaging -/

/-- The leg that a prestage replaces when the caller names none: a lost one
that is not the head's, else the only one. -/
def prestageFrom (vol : DistVolume) : Except Fault String :=
  let slaves := vol.legs.filter fun l => some l.node ≠ vol.head
  match slaves.find? (·.state = .lost) with
  | some l => .ok l.node
  | none =>
    match slaves with
    | [one] => .ok one.node
    | [] => .error (.conflict s!"{vol.name}: no slave leg")
    | _ => .error (.conflict s!"{vol.name}: several slave legs — name the one to replace (`from`)")

def prestageable (name : String) (node «from» : Option String) (fed : FedState) : Except Fault String := do
  let vol ← volumeIn fed name
  if node.isSome ∧ node = vol.head then
    let head := node.getD ""
    .error (.conflict s!"{name}: {head} is the head (anti-affinity: the slave goes elsewhere)")
  else
    match «from» with
    | some f =>
      if some f = vol.head then .error (.conflict s!"{name}: {f} is the head — promote moves the master")
      else .ok f
    | none => prestageFrom vol

/-- `POST /api/v1/volumes/{name}/prestage`. -/
def prestage (cfg : Config) (me : Nat) (name : String) (node «from» : Option String)
    (class? : Option BandwidthClass) : Async String := do
  let f ← .ofExcept (← .atomic fun _ w =>
    match prestageable name node «from» w.fed with
    | .ok f => (.ok f, w.revise (·.modifyVolume name fun v =>
        { v with bandwidthClass := class?.getD v.bandwidthClass }))
    | .error e => (.error e, w))
  startReplacement cfg me name f node "prestage"

end StormStorage.Head
