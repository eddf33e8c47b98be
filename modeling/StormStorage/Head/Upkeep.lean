import StormStorage.Head
import StormStorage.Head.Sync

/-!
# Heads between requests

The rebuild caps of heads' arrays (`setBandwidthClass`, `retryPendingRates`),
the cleaning up of former heads (`reapStaleHeads`), and the automatic fence and
promote of a volume whose head is lost (`reheadLost`).
-/

namespace StormStorage.Head

open Await Orchestrate

/-! ## Rebuild caps -/

/-- Whether there is an array to cap, and whether its head answers. -/
def rateTarget (name : String) (fed : FedState) : Option (Bool × Bool) :=
  (fed.volumes[name]?).map fun v =>
    (v.arrayId.isSome ∧ v.head.any fed.nodes.contains, v.head.any (healthyIn fed ·))

def setRatePending (name : String) (pending : Bool) : Async Unit :=
  .modify (·.setFed (·.modifyVolume name fun v => { v with ratePending := pending }))

def capHead (up : Bool) : Async Bool :=
  if up then do
    match ← Engine.act.attempt with
    | .ok _ => return true
    | .error _ => return false
  else return false

/-- Put the volume's class on its head's array; one that does not get there is
pending. Whether it got there. -/
def applyRate (name : String) : Async Unit := do
  match ← .get fun w => rateTarget name w.fed with
  | none => return ()
  | some (false, _) => setRatePending name false
  | some (true, up) => do
    let applied ← capHead up
    setRatePending name (¬ applied)

/-- `PUT /api/v1/volumes/{name}/bandwidth-class`. -/
def setBandwidthClass (name : String) (c : BandwidthClass) : Async Unit := do
  .ofExcept (← .atomic fun _ w =>
    match volumeIn w.fed name with
    | .ok v =>
      (.ok (), if v.bandwidthClass = c then w
        else w.revise (·.modifyVolume name fun v => { v with bandwidthClass := c }))
    | .error e => (.error e, w))
  applyRate name

/-- Retry the caps that did not reach a head, for heads that answer again. -/
def retryPendingRates : Async Unit := do
  let names ← .get fun w => ((w.fed.volumes.toList.map Prod.snd).filter fun v =>
    v.ratePending ∧ v.head.any (healthyIn w.fed ·)).map (·.name)
  .forEach names applyRate

/-! ## Former heads -/

/-- The served volume's record that outlived the array: with its id and name,
and no volume of that id behind it. -/
def leftoverServed (ofVolume id : String) (records held : List EngineItem) : Bool :=
  (records.any fun v => v.id = some id ∧ v.name = some (ofVolume ++ mirrorSuffix)) ∧
    ¬ held.any fun v => v.id = some id

/-- What is left of the served volume on a former head. -/
def leftoverOn (s : StaleHead) : Async (Option String) :=
  match s.servedV1 with
  | none => return none
  | some id => do
    let records ← Engine.listVolumes
    let held ← Engine.listEngineVolumes s.node
    return if leftoverServed s.ofVolume id records held then some id else none

def dropStale (s : StaleHead) (fed : FedState) : FedState :=
  { fed with staleHeads := fed.staleHeads.filter fun x => ¬ (x.node = s.node ∧ x.ofVolume = s.ofVolume) }

/-- Close what a former head that no longer holds the array left open. -/
def cleanUp (s : StaleHead) : Async Unit := do
  let arrays ← Engine.listArrays
  if arrays.any fun a => a.id.any (·.toLower = s.arrayId.toLower) then return ()
  else
    let leftover ← leftoverOn s
    .forEach s.driveUris fun uri => do
      let _ ← (Engine.deleteDrive s.node uri).attempt
    .forEach leftover.toList (Engine.deleteVolume s.node)
    .modify (·.revise (dropStale s))

/-- Clean up former heads whose engines answer. -/
def reapStaleHeads : Async Unit := do
  let due ← .get fun w => w.fed.staleHeads.filter fun s => healthyIn w.fed s.node
  .forEach due fun s => do
    let _ ← (cleanUp s).attempt

/-! ## Lost heads -/

/-- The surviving leg to promote: in sync, on a node that answers. -/
def reheadTarget (fed : FedState) (inSync : List (String × String)) (v : DistVolume) (head : String) : Option String :=
  (v.legs.find? fun l => l.node ≠ head ∧ healthyIn fed l.node ∧ (v.name, l.node) ∈ inSync).map (·.node)

/-- The volume, its new head and the epoch to fence at. -/
def reheadOne (cfg : Config) (fed : FedState) (inSync : List (String × String)) (busy : String → Bool)
    (now : SystemTime) (v : DistVolume) : Option (String × String × Nat) := do
  let head ← v.head
  let h ← fed.nodes[head]?
  if (v.assembly = .assembled ∨ v.assembly = .degraded) ∧ ¬ v.fenced ∧ v.replacing.isNone ∧ v.dualAttach.isNone ∧
      ¬ busy v.name ∧ v.nextAssembleAfter.all (· ≤ now) ∧ ¬ h.status.healthy ∧
        cfg.reheadAfterSecs ≤ max cfg.pollIntervalSecs 1 * h.status.consecutiveFailures then
    (reheadTarget fed inSync v head).map fun target => (v.name, target, v.epoch)
  else none

def reheadPlan (cfg : Config) (fed : FedState) (inSync : List (String × String)) (busy : String → Bool)
    (now : SystemTime) : List (String × String × Nat) :=
  (fed.volumes.toList.map Prod.snd).filterMap (reheadOne cfg fed inSync busy now)

/-- What an automatic re-head would do this poll. -/
structure ReheadPlan where
  /-- The volume, its new head and the epoch to fence at. -/
  start : List (String × String × Nat) := []
  /-- The volume, and why it stays: its head is lost, and no target is safe. -/
  held : List (String × String) := []
deriving DecidableEq, Repr

/-- The plan with one volume more, over the last readings of the heads. -/
def planVolume (cfg : Config) (fed : FedState) (readings : KeyMap ArrayReading) (busy : String → Bool)
    (now : SystemTime) (plan : ReheadPlan) (v : DistVolume) : ReheadPlan :=
  if (v.assembly ≠ .assembled ∧ v.assembly ≠ .degraded) ∨ v.fenced ∨ v.replacing.isSome ∨ v.dualAttach.isSome ∨
      busy v.name ∨ v.nextAssembleAfter.any (now < ·) then plan
  else
    match v.head with
    | none => plan
    | some head =>
      match fed.nodes[head]? with
      | none => plan
      | some h =>
        if h.status.healthy ∨ max cfg.pollIntervalSecs 1 * h.status.consecutiveFailures < cfg.reheadAfterSecs then plan
        else
          match (replicas v readings[v.name]?).find? fun r => r.node ≠ head ∧ healthyIn fed r.node ∧ r.sync = .inSync with
          | some r => { plan with start := plan.start ++ [(v.name, r.node, v.epoch)] }
          | none => { plan with held := plan.held ++ [(v.name,
              s!"{v.name}: head {head} lost; not re-headed — no surviving leg reads in_sync " ++
                "(no evidence it holds every write)")] }

/-- `rehead_plan`, with what it holds back. -/
def planRehead (cfg : Config) (fed : FedState) (readings : KeyMap ArrayReading) (busy : String → Bool)
    (now : SystemTime) : ReheadPlan :=
  (fed.volumes.toList.map Prod.snd).foldl (planVolume cfg fed readings busy now) {}

/-- Fence, then promote; a fence that is refused is someone else's failover. -/
def rehead (cfg : Config) (me : Nat) (now : SystemTime) (name target : String) (epoch : Nat) : Async Unit := do
  match ← (fence name epoch).attempt with
  | .error _ => return ()
  | .ok fenced =>
    match ← (promote cfg me name target fenced.epoch).attempt with
    | .ok _ => return ()
    | .error _ => .modify (·.setFed (·.modifyVolume name fun v =>
        { v with nextAssembleAfter := some (now + cfg.cooldown) }))

/-- Replace lost heads, on the instance that acts on recovery, where it is
configured. -/
def reheadLost (cfg : Config) (me : Nat) (active : Bool) : Async Unit := do
  if cfg.rehead ∧ active then
    let (plan, now) ← .atomic fun i w =>
      ((reheadPlan cfg w.fed i.inSync (w.replacing.contains ·) i.now, i.now), w)
    .forEach plan fun (name, target, epoch) => rehead cfg me now name target epoch
  else return ()

end StormStorage.Head
