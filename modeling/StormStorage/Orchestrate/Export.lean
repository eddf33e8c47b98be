import StormStorage.Engine
import StormStorage.Placement

/-!
# Serving a volume

Where a volume's data is served (`serveAt`, `dataAt`), publishing it to
consumers (`publish`), which makes the served volume of an assembled one when
none is recorded, and serving it to single hosts (`serveHost`,
`withdrawHost`). A publish works on the record as it read it and writes what
it found into the record as it is then.
-/

namespace StormStorage.Orchestrate

open Await

def mirrorSuffix : String := "-mirror"

/-- The served volume's name on its engine: the mirror, or the only leg. -/
def servedName (vol : DistVolume) : String :=
  match vol.assembly with
  | .singleLeg | .clone => vol.name
  | _ => vol.name ++ mirrorSuffix

/-! ## Where -/

/-- Where a volume is served and which engine volume that is; none is not made
yet. -/
structure ServeAt where
  node : String
  volumeId : Option String
  masterNode : Option String
  arrayId : Option String
deriving DecidableEq, Repr

/-- Where a volume with legs is served. -/
def serveOwn (fed : FedState) (vol : DistVolume) : Except Fault ServeAt :=
  match vol.assembly with
  | .singleLeg =>
    match vol.legs.head?.filter fun l => l.state = .created ∧ l.volumeId.isSome with
    | none => .error { message := s!"{vol.name}: its leg is not created" }
    | some leg => do
      engineOf fed leg.node
      .ok { node := leg.node, volumeId := leg.volumeId, masterNode := leg.masterNode, arrayId := none }
  | .assembled | .degraded =>
    match vol.head, vol.arrayId with
    | none, _ => .error { message := s!"{vol.name}: no head" }
    | some _, none => .error { message := s!"{vol.name}: no array id" }
    | some head, some array => do
      engineOf fed head
      -- a served volume already made on this head is reused
      let here := vol.export.node = some head
      .ok {
        node := head
        volumeId := if here then vol.export.volumeId else none
        masterNode := if here then vol.export.masterNode else none
        arrayId := some array }
  | .pendingEngineSupport =>
    .error { message := s!"{vol.name}: not assembled — nothing to serve until the mirror exists" }
  | .clone => .error { message := s!"{vol.name}: its parent volume is gone" }

/-- A clone is served where its parent is, as itself. -/
def serveAt (fed : FedState) (vol : DistVolume) : Except Fault ServeAt :=
  match vol.assembly with
  | .clone =>
    match (fed.parentOf vol).filter (·.cloneOf.isNone) with
    | none => .error { message := s!"{vol.name}: its parent volume is gone" }
    | some parent => do
      let p ← serveOwn fed parent
      let here := vol.export.node = some p.node
      .ok { p with
        volumeId := if here then vol.export.volumeId else none
        masterNode := if here then vol.export.masterNode else none
        arrayId := none }
  | _ => serveOwn fed vol

/-- Where a volume's data is, for a snapshot or a clone of it. -/
structure DataAt where
  node : String
  engineName : String
  masterNode : Option String
  /-- The volume with legs that holds the data. -/
  parent : String
deriving DecidableEq, Repr

def dataAt (fed : FedState) (vol : DistVolume) : Except Fault DataAt :=
  match (fed.parentOf vol).filter (·.cloneOf.isNone) with
  | none => .error { message := s!"{vol.name}: its parent volume is gone" }
  | some parent =>
    match parent.assembly with
    | .singleLeg | .assembled | .degraded => do
      let place ← serveOwn fed parent
      let ownLeg := (parent.legs.find? (·.node = place.node)).bind (·.masterNode)
      .ok {
        node := place.node
        engineName := servedName vol
        masterNode := ownLeg.or place.masterNode
        parent := parent.name }
    | _ => .error { message := s!"{parent.name}: not assembled — no data to take a point in time from" }

/-! ## Publishing -/

def goneMessage (name : String) (volumeId node : Option String) : String :=
  let id := volumeId.getD "?"
  let on := node.getD "its engine"
  s!"{name}: served volume {id} is gone from {on}; its data is not recreated — " ++
    s!"POST /api/v1/volumes/{name}/export \x7b\"recreate\": true\x7d serves a new, EMPTY one, or delete the volume"

/-- What a publish reads: the record, where it is served, and whether that
node answers. -/
def publishReady (name : String) (fed : FedState) : Except Fault (DistVolume × ServeAt × Bool) := do
  let vol ← findVolume fed name
  if vol.export.state = .revoking then
    let why := vol.export.message.getD "no message"
    .error { message := s!"{name}: being deleted — a delete stopped while revoking its export ({why}); DELETE it again" }
  else if vol.export.gone then .error { message := goneMessage vol.name vol.export.volumeId vol.export.node }
  else
    let place ← serveAt fed vol
    .ok (vol, place, healthyIn fed place.node)

def beginPublish (me : Nat) (name : String) : Async (DistVolume × ServeAt × Bool) := do
  .ofExcept (← .atomic fun _ w =>
    match publishReady name w.fed with
    | .ok r => (.ok r, { w with publishes := w.publishes ++ [⟨me, r.1, r.2.1.node, r.2.1.volumeId, r.2.2⟩] })
    | .error e => (.error e, w))

/-- The node cannot be reached: recorded like any other failure. -/
def unreachable (me : Nat) (name node : String) : Async Export := do
  let e : Fault := { message := s!"{name}: {node} is unreachable — cannot serve from it" }
  .modify fun w =>
    let w := w.endPublish me
    if w.fed.volumes.contains name then
      w.revise (·.modifyVolume name fun v => { v with «export» := { v.export with
        state := .failed, message := some e.message, node := some node } })
    else w
  .fail e

/-- What the shared attach of a publish found. -/
structure Serving where
  volumeId : Option String
  masterNode : Option String
  /-- The served volume came across with the array. -/
  adopted : Bool
  gone : Bool := false
  /-- The coordinates handed out; none when hosts are served one by one. -/
  result : Except Fault (Option AttachedLeg) := .ok none

def Serving.failed (s : Serving) (node : String) (e : Fault) (gone : Bool := false) : Serving :=
  { s with gone := gone, result := .error (e.context node) }

def attachAdopted (name node : String) (single : Bool) (s : Serving) : Async Serving :=
  if s.volumeId.isNone then
    return s.failed node { message := "the served volume did not come across with the array — not creating an empty one" }
  else if single then return s
  else do
    match ← (Engine.attachVolume name).attempt with
    | .ok c => return { s with result := .ok (some c) }
    | .error e => return s.failed node e e.isNotFound

/-- `recorded`: not made by this publish, so a 404 means its data is gone. -/
def attachServed (name node : String) (single recorded : Bool) (s : Serving) : Async Serving :=
  if single then return s
  else do
    match ← (Engine.attachVolume name).attempt with
    | .ok c => return { s with result := .ok (some c) }
    | .error e => return s.failed node e (recorded && e.isNotFound)

/-- Make the served volume of an assembled volume on its array. -/
def makeServed (me : Nat) (name : String) (vol : DistVolume) (node : String) (single : Bool) (s : Serving) :
    Async Serving := do
  match ← (Engine.createPinned me node (name ++ mirrorSuffix)).attempt with
  | .error e => return s.failed node e
  | .ok created =>
    match created.id with
    | none => return s.failed node { message := "create returned no id" }
    | some id =>
      if vol.legs.any (·.volumeId = some id) then
        return s.failed node { message := s!"the engine answered with a leg ({id}), not a volume on the array" }
      else attachServed vol.name node single false { s with volumeId := some id, masterNode := created.master }

/-- Whether a volume is served to single hosts, and not on the shared subsystem. -/
def perHost (vol : DistVolume) : Bool := vol.export.perHost ∨ vol.export.hosts ≠ []

/-- Attach the served volume, finding or making it first. -/
def serveShared (me : Nat) (name : String) (vol : DistVolume) (place : ServeAt) : Async Serving :=
  let single := perHost vol
  let s : Serving := {
    volumeId := place.volumeId
    masterNode := place.masterNode
    adopted := vol.export.adopted ∧ vol.export.node = some place.node }
  if vol.assembly = .clone ∧ place.volumeId.isNone then do
    -- a clone whose parent moved came across under its own name
    match ← (Engine.localVolumeId place.node vol.name).attempt with
    | .error e => return s.failed place.node e e.isNotFound
    | .ok id => attachAdopted vol.name place.node single { s with volumeId := some id, adopted := true }
  else if s.adopted then attachAdopted vol.name place.node single s
  else if s.volumeId.isSome then attachServed vol.name place.node single true s
  else makeServed me name vol place.node single s

/-- The served volume's engine-local id. -/
def servedLocalId (place : ServeAt) (vol : DistVolume) (volumeId : String) (adopted : Bool) : Async String :=
  if adopted then return volumeId
  else
    match vol.export.localId.filter fun _ =>
      vol.export.node = some place.node ∧ vol.export.volumeId = some volumeId with
    | some l => return l
    | none => withContext place.node (Engine.localVolumeId place.node (servedName vol))

/-- Serve each host: its record, the failures, and whether the volume is gone. -/
def serveEach (name node served : String) (recorded : Bool) :
    List HostServe → Async (List HostServe × List String × Bool)
  | [] => return ([], [], false)
  | h :: hs => do
    let r ← (Engine.attachForHost name node served h.hostNqn).attempt
    let now ← .ask (·.now)
    let (recs, failures, gone) ← serveEach name node served recorded hs
    match r with
    | .ok coords =>
      return ({ h with
        coordinatesChanged := h.coordinates.any (· ≠ coords)
        coordinates := some coords
        servedAt := some now
        message := none } :: recs, failures, gone)
    | .error e =>
      let m := s!"{node}: {e.message}"
      return ({ h with message := some m } :: recs, s!"{h.hostNqn}: {m}" :: failures,
        gone || (recorded && e.isNotFound))

/-- What a publish found. -/
structure Served where
  serving : Serving
  localId : Option String := none
  hosts : List HostServe := []

/-- Serve the hosts that the record named when it was read. -/
def serveHosts (vol : DistVolume) (place : ServeAt) (s : Serving) : Async Served :=
  match s.result, s.volumeId with
  | .ok _, some vid =>
    if vol.export.hosts = [] then return { serving := s }
    else do
      match ← (servedLocalId place vol vid s.adopted).attempt with
      | .error e =>
        return { serving := { s with gone := place.volumeId.isSome && e.isNotFound, result := .error e } }
      | .ok lid => do
        let (recs, failures, gone) ← serveEach vol.name place.node (servedName vol) place.volumeId.isSome
          vol.export.hosts
        let result := if failures = [] then s.result
          else .error { message := "serving " ++ "; ".intercalate failures }
        return { serving := { s with gone := gone, result := result }, localId := some lid, hosts := recs }
  | _, _ => return { serving := s }

/-- A volume that is gone says so. -/
def Serving.outcome (s : Serving) (name node : String) : Except Fault (Option AttachedLeg) :=
  if s.gone then .error { message := goneMessage name s.volumeId (some node) } else s.result

/-- Hosts as they are now, with what this serve found for each. -/
def Served.hostsNow (s : Served) (now : List HostServe) : List HostServe :=
  now.map fun h =>
    match (s.hosts.filter (·.hostNqn = h.hostNqn)).getLast? with
    | some r => { r with dhchap := h.dhchap || r.dhchap }
    | none => h

/-- The export that a publish records over `previous`. -/
def Served.export (s : Served) (name : String) (vol : DistVolume) (place : ServeAt) (previous : Export)
    (now : SystemTime) : Export :=
  let hosts := s.hostsNow previous.hosts
  let sameServed := previous.node = some place.node ∧ previous.volumeId = s.serving.volumeId
  let ex : Export := {
    volumeId := s.serving.volumeId
    node := some place.node
    masterNode := s.serving.masterNode
    adopted := s.serving.adopted
    perHost := perHost vol || previous.perHost
    localId := s.localId.or (if sameServed then previous.localId else none)
    withdrawing := previous.withdrawing
    hosts := hosts }
  match s.serving.outcome name place.node with
  | .ok (some coords) => { ex with
      state := .published
      coordinatesChanged := previous.coordinates.any (· ≠ coords)
      coordinates := some coords
      publishedAt := some now }
  | .ok none => { ex with
      state := .published
      coordinatesChanged := hosts.any (·.coordinatesChanged)
      publishedAt := some now }
  | .error e => { ex with
      state := .failed
      message := some e.message
      coordinates := previous.coordinates
      gone := s.serving.gone }

/-- A single leg's export is the served coordinates. -/
def exportLeg (legs : List Leg) (coords : AttachedLeg) : List Leg :=
  match legs with
  | [] => []
  | l :: ls => { l with «export» := some coords } :: ls

def Served.record (s : Served) (name : String) (vol : DistVolume) (place : ServeAt) (now : SystemTime)
    (v : DistVolume) : DistVolume :=
  let legs := match s.serving.outcome name place.node with
    | .ok (some coords) => if v.assembly = .singleLeg then exportLeg v.legs coords else v.legs
    | _ => v.legs
  { v with «export» := s.export name vol place v.export now, legs := legs }

/-- The end of a publish, in the record as it is now. -/
def recordPublish (me : Nat) (name : String) (vol : DistVolume) (place : ServeAt) (s : Served) : Async Export := do
  .ofExcept (← .atomic fun i w =>
    let w := w.endPublish me
    match w.fed.volumes[name]? with
    | none => (.error { message := s!"{name}: deleted while it was being published" }, w)
    | some v =>
      let v := s.record name vol place i.now v
      ((s.serving.outcome name place.node).map fun _ => v.export,
        w.revise fun fed => { fed with volumes := fed.volumes.insert name v }))

/-- Publish a volume to consumers, or republish it. -/
def publish (me : Nat) (name : String) : Async Export := do
  let (vol, place, up) ← beginPublish me name
  if up then
    let s ← serveShared me name vol place
    let s ← serveHosts vol place s
    recordPublish me name vol place s
  else unreachable me name place.node

/-- Forget a served volume that is gone, as asked. -/
def forgetServed (name : String) (v : DistVolume) : Except Fault DistVolume :=
  if ¬ v.export.gone then .error { message := s!"{name}: its served volume is not gone — nothing to recreate" }
  else if v.assembly ≠ .assembled ∧ v.assembly ≠ .degraded then
    .error { message :=
      s!"{name}: a single leg is the volume's data — there is nothing to recreate; delete the volume" }
  else .ok { v with «export» := { v.export with
    gone := false, volumeId := none, localId := none, adopted := false } }

/-- Serve a new, empty served volume in place of one that is gone. -/
def recreateExport (me : Nat) (name : String) : Async Export := do
  .ofExcept (← .atomic fun _ w =>
    match (findVolume w.fed name).bind (forgetServed name) with
    | .ok v => (.ok (), w.revise fun fed => { fed with volumes := fed.volumes.insert name v })
    | .error e => (.error e, w))
  let _ ← publish me name
  .ofExcept (← .atomic fun _ w =>
    match w.fed.volumes[name]? with
    | none => (.error { message := s!"{name}: deleted while it was being recreated" }, w)
    | some v =>
      let ex : Export := { v.export with
        coordinatesChanged := true
        hosts := v.export.hosts.map fun h => { h with coordinatesChanged := true } }
      (.ok ex, w.revise fun fed => { fed with volumes := fed.volumes.insert name { v with «export» := ex } }))

/-! ## Hosts -/

/-- A host NQN as the engine takes one. -/
def validHostNqn (h : String) : Bool :=
  "nqn.".toList.isPrefixOf h.toList ∧ h.utf8ByteSize ≤ 223 ∧ ¬ h.toList.any Char.isWhitespace

/-- Record a host that is asked for. -/
def askHost (host : String) (dhchap : Bool) (ex : Export) : Export :=
  { ex with
    hosts :=
      if ex.hosts.any (·.hostNqn = host) then
        ex.hosts.map fun h => if h.hostNqn = host then { h with dhchap := h.dhchap || dhchap } else h
      else ex.hosts ++ [{ hostNqn := host, dhchap := dhchap }]
    perHost := true
    -- asked for again: no withdrawal of it is pending any more
    withdrawing := ex.withdrawing.filter (·.hostNqn ≠ host) }

/-- Serve a volume to one consumer host: record it, then serve them all. -/
def serveHost (me : Nat) (name host : String) (dhchap : Bool) : Async HostServe := do
  if ¬ validHostNqn host then .fail { message := s!"{repr host} is not a host NQN (nqn.…, at most 223 bytes)" }
  else
    .ofExcept (← .atomic fun _ w =>
      match findVolume w.fed name with
      | .ok v => (.ok (), w.revise fun fed =>
          { fed with volumes := fed.volumes.insert name { v with «export» := askHost host dhchap v.export } })
      | .error e => (.error e, w))
    match ← (publish me name).attempt with
    | .error e => do
      -- this host's own failure says more than the whole export's
      let why ← .get fun w => (w.fed.volumes[name]?).bind fun v =>
        (v.export.hosts.find? (·.hostNqn = host)).bind (·.message)
      match why with
      | some m => .fail { message := s!"{name}: serving {host}: {m}" }
      | none => .fail e
    | .ok ex =>
      match ex.hosts.find? (·.hostNqn = host) with
      | some r => return r
      | none => .fail { message := s!"{name}: {host} was withdrawn while it was being served" }

inductive Withdrawn where
  | done
  | pending
  | nothingServed
deriving DecidableEq, Repr

/-- The host leaves the record at once. -/
def dropHost (name host : String) : Async (Option PendingWithdraw) := do
  .ofExcept (← .atomic fun _ w =>
    match findVolume w.fed name with
    | .error e => (.error e, w)
    | .ok v =>
      let ex : Export := { v.export with hosts := v.export.hosts.filter (·.hostNqn ≠ host) }
      (.ok (v.export.node.map fun node =>
          { node := node, localId := v.export.localId, name := servedName v, hostNqn := host }),
        w.revise fun fed => { fed with volumes := fed.volumes.insert name { v with «export» := ex } }))

def withdrawOnEngine (p : PendingWithdraw) : Async Unit := do
  if ¬ (← healthy p.node) then .fail { message := s!"{p.node} is unreachable" }
  else
    match p.localId with
    | some _ => Engine.withdrawHost p.node p.name p.hostNqn
    | none => do
      match ← (Engine.localVolumeId p.node p.name).attempt with
      | .ok _ => Engine.withdrawHost p.node p.name p.hostNqn
      -- the served volume is gone from that engine: nothing to withdraw
      | .error e => if e.isNotFound then return () else .fail e

def addPending (name : String) (p : PendingWithdraw) : Async Unit :=
  .modify fun w => w.revise (·.modifyVolume name fun v =>
    if p ∈ v.export.withdrawing then v
    else { v with «export» := { v.export with withdrawing := v.export.withdrawing ++ [p] } })

/-- Stop serving a volume to one consumer host. -/
def withdrawHost (name host : String) : Async Withdrawn := do
  match ← dropHost name host with
  | none => return .nothingServed
  | some p => do
    match ← (withdrawOnEngine p).attempt with
    | .ok _ => return .done
    | .error _ => do
      addPending name p
      return .pending

def dropPending (name : String) (p : PendingWithdraw) : Async Unit :=
  .modify fun w => w.revise (·.modifyVolume name fun v =>
    { v with «export» := { v.export with withdrawing := v.export.withdrawing.filter (· ≠ p) } })

/-- Withdrawals waiting for `node`, done now that it answers. -/
def withdrawPendingOn (node : String) : Async Unit := do
  let due ← .get fun w => w.fed.volumes.toList.flatMap fun (_, v) =>
    (v.export.withdrawing.filter (·.node = node)).map fun p => (v.name, p)
  .forEach due fun (name, p) => do
    match ← (withdrawOnEngine p).attempt with
    | .ok _ => dropPending name p
    | .error _ => return ()

/-! ## Republishing and revoking -/

def publishAll (me : Nat) (names : List String) : Async Unit :=
  .forEach names fun name => do
    let _ ← (publish me name).attempt

/-- Republish the clones living on `parent`'s data. -/
def publishClonesOf (me : Nat) (parent : String) : Async Unit := do
  publishAll me (← .get fun w => ((w.fed.volumes.toList.map Prod.snd).filter fun v =>
    v.cloneOf.any (·.parent = parent) ∧ ¬ v.export.gone).map (·.name))

/-- Republish every published or failed export served from `node`. -/
def republishOn (me : Nat) (node : String) : Async Unit := do
  withdrawPendingOn node
  publishAll me (← .get fun w => ((w.fed.volumes.toList.map Prod.snd).filter fun v =>
    (v.export.state = .published ∨ v.export.state = .failed) ∧ ¬ v.export.gone ∧ v.export.node = some node).map
    (·.name))

def setExportState (name : String) (st : ExportState) (message : Option String) : Async Unit :=
  .modify fun w =>
    if w.fed.volumes.contains name then
      w.revise (·.modifyVolume name fun v => { v with «export» := { v.export with state := st, message := message } })
    else w

/-- Detach and delete the served volume. -/
def deleteServed (vol : DistVolume) (node vid : String) : Async Unit := do
  let _ ← Engine.act.attempt
  if vol.export.adopted then Engine.act else Engine.deleteVolume node vid

/-- Stop serving a volume before it is torn down. -/
def revoke (vol : DistVolume) : Async Unit :=
  match vol.export.node, vol.export.volumeId with
  | some node, some vid =>
    if vol.legs.any (·.volumeId = some vid) then return ()
    else do
      if ← healthy node then
        -- the engine may delete it even if its answer never comes back: nothing attaches it again
        setExportState vol.name .revoking (some "delete in progress")
        match ← (withContext s!"{node}: consumer volume {vid}" (deleteServed vol node vid)).attempt with
        | .ok _ => return ()
        | .error e => do
          setExportState vol.name .revoking (some e.message)
          .fail e
      else return ()
  | _, _ => return ()

end StormStorage.Orchestrate
