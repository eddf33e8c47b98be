import StormStorage.Orchestrate.Assembly

/-!
# Replacing a leg

A leg move and the re-leg of a lost one are the same sequence: a new leg is
made, attached and added to the head's array (`buildReplacement`), the
replacement is recorded, and a background operation waits for the rebuild and
retires the old leg, or undoes the new one (`finishReplacement`). The
reconciler starts and resumes them (`recover`), takes a lost head leg back
(`rejoinHeads`) and deletes orphaned legs (`reapOrphans`).
-/

namespace StormStorage.Orchestrate

open Await

/-! ## Targets -/

/-- The domains of the legs that stay, at the volume's rung. -/
def stayingDomains (cfg : Config) (fed : FedState) (vol : DistVolume) («from» : String) : List String :=
  (vol.legs.filter (·.node ≠ «from»)).filterMap fun l =>
    (fed.nodes[l.node]?).map fun n => domainAt n.labels cfg.rungs vol.rung

/-- Where a moved leg may go. -/
def moveTargetCandidates (cfg : Config) (fed : FedState) (vol : DistVolume) («from» : String) : List Candidate :=
  ((fed.nodes.toList.map Prod.snd).filter fun n =>
    n.status.healthy ∧ (∀ l ∈ vol.legs, l.node ≠ n.config.name) ∧
      domainAt n.labels cfg.rungs vol.rung ∉ stayingDomains cfg fed vol «from»).map Node.candidate

/-- The target asked for is in the domain of a leg that stays. -/
def crowded (cfg : Config) (fed : FedState) (vol : DistVolume) («from» target : String) : Bool :=
  fed.nodes[target]?.any fun n => domainAt n.labels cfg.rungs vol.rung ∈ stayingDomains cfg fed vol «from»

def chooseTarget (cfg : Config) (fed : FedState) (vol : DistVolume) («from» : String) :
    Option String → Except Fault String
  | some t =>
    match fed.nodes[t]? with
    | none => .error { message := s!"target node {repr t} not in registry" }
    | some n =>
      if ¬ n.status.healthy then .error { message := s!"target node {repr t} is unhealthy" }
      else if vol.legs.any (·.node = t) then .error { message := s!"target node {repr t} already carries a leg" }
      else .ok t
  | none =>
    match plan cfg.ioWeight cfg.rungs vol.rung (moveTargetCandidates cfg fed vol «from») 1 vol.legBytes with
    | .ok picks => .ok (picks.head?.getD "")
    | .error e => .error { message := s!"no target: {e}" }

/-! ## Starting -/

/-- What a replacement reads before it begins. -/
structure Replaceable where
  vol : DistVolume
  head : String
  target : String

def replaceable (cfg : Config) (name «from» : String) («to» : Option String) (fed : FedState) :
    Except Fault Replaceable := do
  let vol ← findVolume fed name
  if vol.assembly ≠ .assembled ∧ vol.assembly ≠ .degraded then
    .error { message := s!"{name}: not assembled — only assembled volumes move legs" }
  else if vol.replacing.isSome then .error { message := s!"{name}: a leg replacement is already in progress" }
  else if ¬ vol.legs.any (·.node = «from») then .error { message := name ++ ": no leg on " ++ (repr «from»).pretty }
  else
    match vol.head with
    | none => .error { message := s!"{name}: no head" }
    | some head =>
      if ¬ healthyIn fed head then .error { message :=
        s!"{name}: head {head} is unreachable — the array lives there; promote a surviving leg's node first " ++
          "(fence, then promote)" }
      else
        let target ← chooseTarget cfg fed vol «from» «to»
        engineOf fed target
        engineOf fed head
        .ok { vol := vol, head := head, target := target }

def beginReplacement (cfg : Config) (name «from» : String) («to» : Option String) : Async Replaceable := do
  .ofExcept (← .atomic fun _ w =>
    match replaceable cfg name «from» «to» w.fed with
    | .ok p =>
      (.ok p, if «to».isSome then w.note (.asked p.vol «from» p.target (crowded cfg w.fed p.vol «from» p.target)) else w)
    | .error e => (.error e, w))

/-- The new leg's volume. -/
def makeLeg (me : Nat) (name target : String) : Async Leg := do
  let created ← withContext s!"{target}: create leg" (Engine.createVolume me target name true)
  match created.id with
  | none => .fail { message := s!"{target}: create returned no id" }
  | some vid =>
    return {
      node := target
      volumeId := some vid
      state := .created
      message := some "rebuilding"
      masterNode := some (created.master.getD "localhost") }

/-- Its export, drive and membership of the head's array: the leg as far as it
got, and why it stopped there. -/
def wireLeg (cfg : Config) (head : String) (leg : Leg) : Async (Leg × Option Fault) := do
  match ← (Engine.attachLeg leg.node (leg.volumeId.getD "") (cfg.hostNqnFor head)).attempt with
  | .error e => return (leg, some (e.context s!"{leg.node}: attach"))
  | .ok att => do
    let leg := { leg with «export» := some att }
    match ← (Engine.addDrive leg.uri).attempt with
    | .error e => return (leg, some (e.context s!"{head}: open leg drive"))
    | .ok drive => do
      let leg := { leg with driveUuid := some drive }
      match ← Engine.addMember.attempt with
      | .error e => return (leg, some (e.context s!"{head}: add member"))
      | .ok member => return ({ leg with memberUuid := some member }, none)

/-- A call made only where there is something to take down; best effort. -/
def actIf (there : Bool) : Async Unit :=
  if there then do
    let _ ← Engine.act.attempt
  else return ()

/-- Best-effort removal of a new leg that is not going to be kept. -/
def undoLeg (me : Nat) (leg : Leg) : Async Unit := do
  actIf leg.memberUuid.isSome
  actIf leg.export.isSome
  match leg.volumeId, leg.masterNode with
  | some vid, some _ => do
    actIf leg.export.isSome
    let _ ← (Engine.undoVolume me leg.node vid).attempt
  | _, _ => return ()

/-- Record the replacement, unless the volume was deleted meanwhile. -/
def recordReplacement (me : Nat) (name «from» : String) (leg : Leg) (reason : String) : Async Bool :=
  .atomic fun i w =>
    match w.fed.volumes[name]? with
    | none => (false, w)
    | some v =>
      let w := { w with begun := w.begun.insert name me }.note
        (.replacing name (w.undertakings.any fun u => name ∈ u.deletes))
      (true, w.revise fun fed => { fed with volumes := fed.volumes.insert name { v with
        replacing := some { «from» := «from», leg := leg, reason := reason, startedAt := i.now } } })

def buildReplacement (cfg : Config) (me : Nat) (name «from» : String) («to» : Option String) (reason : String) :
    Async String := do
  let p ← beginReplacement cfg name «from» «to»
  if p.vol.arrayId.isNone then .fail { message := s!"{name}: no array id" }
  else
    let leg ← makeLeg me p.vol.name p.target
    match ← wireLeg cfg p.head leg with
    | (leg, some e) => do
      undoLeg me leg
      .fail e
    | (leg, none) => do
      if ← recordReplacement me name «from» leg reason then return p.target
      else
        undoLeg me leg
        .fail { message := s!"{name}: deleted while its new leg was being built" }

/-- Replace the leg on `from`. The claim is kept for the background operation
that finishes the replacement. -/
def startReplacement (cfg : Config) (me : Nat) (name «from» : String) («to» : Option String) (reason : String) :
    Async String := do
  if ← claim me name then
    match ← (buildReplacement cfg me name «from» «to» reason).attempt with
    | .ok target => do
      spawn (.finish name)
      return target
    | .error e => do
      letGo name
      .fail e
  else .fail { message := s!"{name}: a leg replacement is already in progress" }

/-- `POST /api/v1/volumes/{name}/move`. -/
def moveLeg (cfg : Config) (me : Nat) (name «from» : String) («to» : Option String) : Async String :=
  startReplacement cfg me name «from» «to» "operator move"

/-! ## Finishing -/

/-- The recorded replacement, if it can be waited for. -/
def finishReady (name : String) (fed : FedState) : Option Replacement := do
  let vol ← fed.volumes[name]?
  let rep ← vol.replacing
  let head ← vol.head
  let _ ← vol.arrayId
  if fed.nodes.contains head ∧ fed.nodes.contains rep.leg.node then some rep else none

/-- The new leg did not rebuild: undo it for the task that began the
replacement, and wait before the next try. -/
def giveUp (cfg : Config) (me : Nat) (name : String) (rep : Replacement) : Async Unit := do
  undoLeg me rep.leg
  .atomic fun i w => ((), w.revise (·.modifyVolume name fun v =>
    { v with replacing := none, nextRelegAfter := some (i.now + cfg.cooldown) }))

/-- Delete a retired leg's volume, when its node answers; whether it is gone. -/
def deleteOld (node vid : String) : Async Bool := do
  if ← healthy node then
    let _ ← Engine.act.attempt
    match ← (Engine.deleteVolume node vid).attempt with
    | .ok _ => return true
    | .error _ => return false
  else return false

/-- Take the old leg down; what is left of it is an orphan to reap. -/
def retire (name : String) (rep : Replacement) (old : Leg) : Async (Option Orphan) := do
  actIf old.memberUuid.isSome
  actIf old.export.isSome
  match old.volumeId with
  | none => return none
  | some vid => do
    let deleted ← deleteOld rep.from vid
    let now ← .ask (·.now)
    return if deleted then none else some {
      node := rep.from
      volumeId := vid
      masterNode := old.masterNode
      ofVolume := name
      reason := rep.reason
      since := now }

def retireOld (name : String) (rep : Replacement) : Async (Option Orphan) := do
  match ← .get fun w => (w.fed.volumes[name]?).bind fun v => v.legs.find? (·.node = rep.from) with
  | none => return none
  | some old => retire name rep old

/-- The leg in the place of the first one on `node`, or last. -/
def putLeg (node : String) (leg : Leg) : List Leg → List Leg
  | [] => [leg]
  | l :: ls => if l.node = node then leg :: ls else l :: putLeg node leg ls

def lostLeg (legs : List Leg) : Bool := legs.any (·.state = .lost)

/-- The new leg takes the old one's place. -/
def swapLeg (rep : Replacement) (v : DistVolume) : DistVolume :=
  let legs := putLeg rep.from { rep.leg with message := none } v.legs
  { v with
    legs := legs
    replacing := none
    nextRelegAfter := none
    assembly := if lostLeg legs then .degraded else .assembled }

def recordSwap (name : String) (rep : Replacement) (orphan : Option Orphan) : Async Unit :=
  .modify fun w =>
    let w := match w.fed.volumes[name]? with
      | some v => w.note (.swapped v rep.from)
      | none => w
    w.revise fun fed => { fed with orphans := fed.orphans ++ orphan.toList }.modifyVolume name (swapLeg rep)

def finishInner (cfg : Config) (me : Nat) (name : String) : Async Unit := do
  let begun ← .get fun w => (finishReady name w.fed).map fun rep => (rep, (w.begun[name]?).getD me)
  match begun with
  | none => return ()
  | some (rep, owner) => do
    -- the rebuild is waited for until it is done, fails or makes no progress
    if ← .ask (·.active) then
      let orphan ← retireOld name rep
      recordSwap name rep orphan
    else giveUp cfg owner name rep

/-- Wait for the recorded replacement and end it; the claim was handed over. -/
def finishReplacement (cfg : Config) (me : Nat) (name : String) : Async Unit := do
  spawnedBy me (.finish name) name
  let _ ← (finishInner cfg me name).attempt
  letGo name

/-! ## Recovery -/

/-- What the reconciler decided for one poll. -/
structure Plan where
  /-- Legs newly marked lost, by volume and node. -/
  lost : List (String × String) := []
  /-- Those of them that were the head's. -/
  headLost : List (String × String) := []
  start : List (String × String) := []
  resume : List String := []
  assemble : List String := []
deriving DecidableEq, Repr

def loseLeg (fed : FedState) (l : Leg) : Leg :=
  if l.state = .created ∧ ¬ healthyIn fed l.node then
    { l with state := .lost, message := some s!"node {l.node} unreachable" }
  else l

/-- Mark legs on unhealthy nodes lost, and degrade their volume. -/
def afterLoss (fed : FedState) (v : DistVolume) : DistVolume :=
  if v.assembly = .assembled ∨ v.assembly = .degraded then
    let legs := v.legs.map (loseLeg fed)
    { v with
      legs := legs
      assembly := if lostLeg legs ∧ v.assembly = .assembled then .degraded else v.assembly }
  else v

/-- The legs that are newly lost. -/
def losing (fed : FedState) (v : DistVolume) : List Leg :=
  if v.assembly = .assembled ∨ v.assembly = .degraded then
    v.legs.filter fun l => l.state = .created ∧ ¬ healthyIn fed l.node
  else []

/-- Whether marking the losses changes the record. -/
def marks (fed : FedState) (v : DistVolume) : Bool :=
  losing fed v ≠ [] ∨ v.assembly = .assembled ∧ lostLeg (v.legs.map (loseLeg fed))

/-- What to do for one volume, with its losses marked. -/
def planOne (fed : FedState) (enabled : Bool) (now : SystemTime) (busy : Bool) (v : DistVolume) : Plan :=
  if ¬ enabled ∨ busy then {}
  else if v.assembly = .pendingEngineSupport then
    if 2 ≤ v.legs.length ∧ (v.legs.all fun l => l.state = .created ∧ l.volumeId.isSome ∧ healthyIn fed l.node) ∧
        ¬ v.nextAssembleAfter.any (now < ·) then { assemble := [v.name] }
    else {}
  else if v.assembly = .assembled ∨ v.assembly = .degraded then
    if v.replacing.isSome then { resume := [v.name] }
    else
      match v.legs.filter (·.state = .lost), v.head with
      | l :: ls, some head =>
        if (l :: ls).any (·.node = head) ∨ ¬ healthyIn fed head ∨ v.nextRelegAfter.any (now < ·) then {}
        else { start := [(v.name, l.node)] }
      | _, _ => {}
  else {}

def planRecovery (fed : FedState) (enabled : Bool) (now : SystemTime) (busy : String → Bool) : FedState × Plan :=
  let marked := fed.volumes.map fun _ v => afterLoss fed v
  let plans := marked.toList.map fun (_, v) => planOne fed enabled now (busy v.name) v
  let volumes := fed.volumes.toList.map Prod.snd
  ({ fed with
      volumes := marked
      revision := if volumes.any (marks fed) then fed.revision + 1 else fed.revision },
    { lost := volumes.flatMap fun v => (losing fed v).map fun l => (v.name, l.node)
      headLost := volumes.flatMap fun v => ((losing fed v).filter fun l => v.head = some l.node).map fun l =>
        (v.name, l.node)
      start := plans.flatMap (·.start)
      resume := plans.flatMap (·.resume)
      assemble := plans.flatMap (·.assemble) })

/-- A volume's background operation is started under its claim. -/
def resume (me : Nat) (s : Spawn) (name : String) : Async Unit := do
  if ← claim me name then spawn s else return ()

def relegOne (cfg : Config) (me : Nat) (now : SystemTime) (name «from» : String) : Async Unit := do
  match ← (startReplacement cfg me name «from» none "node lost").attempt with
  | .ok _ => return ()
  | .error _ => .modify (·.setFed (·.modifyVolume name fun v =>
      { v with nextRelegAfter := some (now + cfg.cooldown) }))

/-- Leg loss, re-legs and assembly retries of one reconcile pass. -/
def recover (cfg : Config) (me : Nat) (enabled : Bool) : Async Unit := do
  let (plan, now) ← .atomic fun i w =>
    let (fed, plan) := planRecovery w.fed enabled i.now (w.replacing.contains ·)
    ((plan, i.now), { w with fed := fed })
  .forEach plan.resume fun name => resume me (.finish name) name
  .forEach plan.start fun (name, «from») => relegOne cfg me now name «from»
  .forEach plan.assemble fun name => resume me (.assemble name) name

/-! ## Lost head legs -/

structure MemberReading where
  uuid : String
  devicePath : String
  state : String
  rebuiltBytes : Option Nat := none
deriving DecidableEq, Repr

/-- Where a reading's member states come from. -/
inductive SyncSource where
  /-- The head's array, read live. -/
  | head
  /-- The superblocks of the surviving legs. -/
  | superblock
deriving DecidableEq, Repr

/-- The head's array as last read. -/
structure ArrayReading where
  head : String
  arrayId : String
  memberDataBytes : Nat := 0
  members : List MemberReading
  /-- The array's event count. -/
  events : Option Nat := none
  source : SyncSource := .head
deriving DecidableEq, Repr

def parseArray (head arrayId : String) (a : EngineArray) : ArrayReading where
  head := head
  arrayId := arrayId
  memberDataBytes := a.memberDataBytes.getD 0
  members := a.members.map fun m => {
    uuid := m.uuid.getD ""
    devicePath := m.devicePath.getD ""
    state := (m.state.getD "").toLower
    rebuiltBytes := m.rebuiltBytes }
  events := a.events

/-- The head array's member for a leg: by member uuid, else by its drive. -/
def memberOf (leg : Leg) (r : ArrayReading) : Option MemberReading :=
  r.members.find? fun m =>
    (leg.memberUuid.any fun u => u.toLower = m.uuid.toLower) ∨ leg.export.any (·.driveUri = m.devicePath)

def headRejoinCandidates (w : AppState) : List (String × String × String) :=
  (w.fed.volumes.toList.map Prod.snd).filterMap fun v => do
    let head ← v.head
    let array ← v.arrayId
    if v.assembly = .degraded ∧ ¬ v.fenced ∧ ¬ w.replacing.contains v.name ∧ healthyIn w.fed head ∧
        (v.legs.any fun l => l.node = head ∧ l.state = .lost) then some (v.name, head, array)
    else none

/-- What is said of a head leg that is not back. -/
def headMessage (head arrayId : String) (leg : Leg) : Option ArrayReading → String
  | none => s!"head {head} answers but no longer holds array {arrayId} (engine restart, #15)"
  | some r =>
    let st := ((memberOf leg r).map (·.state)).getD "missing"
    s!"head {head} answers; its member of array {arrayId} is {st}"

/-- Apply a fresh reading of the head's array, none when the head answered
404, to a volume whose head leg is lost; whether the record changed. -/
def applyHeadReading (v : DistVolume) (reading : Option ArrayReading) : Option (DistVolume × Bool) := do
  let head ← v.head
  let arrayId ← v.arrayId
  let i ← v.legs.findIdx? fun l => l.node = head ∧ l.state = .lost
  let leg ← v.legs[i]?
  if reading.any fun r => r.head ≠ head ∨ r.arrayId ≠ arrayId then none
  else if reading.any fun r => (memberOf leg r).any (·.state = "active") then
    let legs := v.legs.set i { leg with state := .created, message := none }
    some ({ v with legs := legs, assembly := if lostLeg legs then v.assembly else .assembled }, true)
  else
    let message := headMessage head arrayId leg reading
    some ({ v with legs := v.legs.set i { leg with message := some message } }, leg.message ≠ some message)

def rejoinOne (name head arrayId : String) : Async Unit := do
  match ← Engine.findArray.attempt with
  | .error _ => return ()
  | .ok found =>
    .modify fun w =>
      let w := w.note (.headRead name head arrayId found)
      match (w.fed.volumes[name]?).bind fun v => applyHeadReading v (found.map (parseArray head arrayId)) with
      | none => w
      | some (v, changed) =>
        (if changed then w.revise else w.setFed) fun fed => { fed with volumes := fed.volumes.insert name v }

/-- Bring lost head legs back whose head answers again. -/
def rejoinHeads : Async Unit := do
  .forEach (← .get headRejoinCandidates) fun (name, head, arrayId) => rejoinOne name head arrayId

/-! ## Orphans -/

def reapOne (o : Orphan) : Async Unit := do
  let _ ← Engine.act.attempt
  match ← (Engine.deleteVolume o.node o.volumeId).attempt with
  | .ok _ => .modify fun w => w.revise fun fed =>
      { fed with orphans := fed.orphans.filter fun x => ¬ (x.node = o.node ∧ x.volumeId = o.volumeId) }
  | .error _ => return ()

/-- Delete orphaned leg volumes whose node answers again. -/
def reapOrphans : Async Unit := do
  .forEach (← .get fun w => w.fed.orphans.filter fun o => healthyIn w.fed o.node) reapOne

end StormStorage.Orchestrate
