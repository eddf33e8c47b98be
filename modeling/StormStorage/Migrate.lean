import StormStorage.Orchestrate.Replacement

/-!
# Tier migration

Every leg of a volume moves into another pool, one leg at a time, through the
leg-move sequence. The volume's pool becomes the destination once every leg is
there; the head's own leg moves by promote only (`migrate.rs`).
-/

namespace StormStorage.Migrate

open Await Orchestrate

/-- What a migration does next. -/
inductive Step where
  | move («from» «to» : String)
  /-- Every leg is in the destination. -/
  | done
  /-- Only the head's own leg is outside the destination. -/
  | waitingHandover
  | blocked (why : String)
deriving DecidableEq, Repr

def inPool (fed : FedState) (pool : PoolConfig) (node : String) : Bool :=
  fed.nodes[node]?.any fun n => pool.selector.matches n.config

/-- The least of some names. -/
def least (names : List String) : Option String := (names.insertionSort (· ≤ ·)).head?

/-- The first leg outside the pool that is not the head's, to the best node of
the pool in a domain of its own beside the legs that stay. -/
def nextStep (cfg : Config) (fed : FedState) (pool : PoolConfig) (vol : DistVolume) : Step :=
  match vol.legs.find? (·.state ≠ .created) with
  | some l => .blocked s!"leg on {l.node} is {l.state.debug} — recovery comes first"
  | none =>
    let outside := (vol.legs.map (·.node)).filter fun n => ¬ inPool fed pool n
    if outside = [] then .done
    else
      match least (outside.filter fun n => some n ≠ vol.head) with
      | none => .waitingHandover
      | some node =>
        -- domains as the destination pool spreads them
        let candidates := (moveTargetCandidates cfg fed { vol with rung := pool.rung } node).filter fun c =>
          inPool fed pool c.name
        match plan cfg.ioWeight cfg.rungs pool.rung candidates 1 vol.sizeBytes with
        | .ok picks => .move node (picks.head?.getD "")
        | .error e => .blocked s!"no target in pool {pool.name} for the leg on {node}: {e}"

/-! ## Starting and stopping -/

/-- The migration to record; none when it is on its way there already. -/
def startable (cfg : Config) (fed : FedState) (name «to» : String) (now : SystemTime) :
    Except Fault (Option Migration) := do
  let wanted := «to»
  let pool ← match cfg.pool wanted with
    | some p => .ok p
    | none => .error (.notFound s!"pool {repr wanted}")
  let vol ← volumeIn fed name
  match vol.migration with
  | some m =>
    if m.toPool = wanted then .ok none else .error (.conflict s!"{name}: already migrating to pool {m.toPool}")
  | none =>
    match vol.assembly with
    | .assembled =>
      if vol.fenced ∨ vol.replacing.isSome ∨ vol.dualAttach.isSome then
        .error (.conflict s!"{name}: fenced, replacing a leg or in a dual-attach window")
      else if vol.legs.all fun l => inPool fed pool l.node then
        .error (.conflict s!"{name}: every leg is already in pool {wanted}")
      else
        let candidates := ((fed.nodes.toList.map Prod.snd).filter fun n =>
          n.status.healthy ∧ pool.selector.matches n.config).map Node.candidate
        let legs := vol.legs.length
        match plan cfg.ioWeight cfg.rungs pool.rung candidates legs vol.sizeBytes with
        | .error e => .error (.conflict s!"{name}: pool {wanted} cannot hold its {legs} legs: {e}")
        | .ok _ => .ok (some {
            toPool := wanted
            fromPool := vol.pool
            startedAt := now
            state := .moving
            message := none })
    | .singleLeg => .error (.conflict s!"{name}: a single leg — a move needs a mirror to rebuild from")
    | other => .error (.conflict s!"{name}: {other.debug} — recover or assemble it first")

/-- `POST /api/v1/volumes/{name}/migrate`: recorded; the reconciler moves the legs. -/
def start (cfg : Config) (name «to» : String) : Async Unit := do
  .ofExcept (← .atomic fun i w =>
    match startable cfg w.fed name «to» i.now with
    | .ok none => (.ok (), w)
    | .ok (some m) => (.ok (), w.revise (·.modifyVolume name fun v => { v with migration := some m }))
    | .error e => (.error e, w))

/-- `DELETE /api/v1/volumes/{name}/migrate`: legs already moved stay. -/
def cancel (name : String) : Async Unit := do
  .ofExcept (← .atomic fun _ w =>
    match volumeIn w.fed name with
    | .ok v =>
      (.ok (), if v.migration.isSome then w.revise (·.modifyVolume name fun v => { v with migration := none }) else w)
    | .error e => (.error e, w))

/-! ## The reconciler's pass -/

/-- What is to do for one volume. -/
structure Due where
  name : String
  step : Step
  was : MigrationState
  message : Option String
  toPool : String

def dueOne (cfg : Config) (fed : FedState) (busy : String → Bool) (now : SystemTime) (v : DistVolume) : Option Due := do
  let m ← v.migration
  if v.replacing.isNone ∧ ¬ busy v.name ∧ ¬ v.fenced ∧ v.dualAttach.isNone ∧ v.nextRelegAfter.all (· ≤ now) then some {
    name := v.name
    step := match cfg.pool m.toPool with
      | some pool => nextStep cfg fed pool v
      | none => .blocked s!"pool {m.toPool} is no longer in the config"
    was := m.state
    message := m.message
    toPool := m.toPool }
  else none

def due (cfg : Config) (fed : FedState) (busy : String → Bool) (now : SystemTime) : List Due :=
  (fed.volumes.toList.map Prod.snd).filterMap (dueOne cfg fed busy now)

/-- The record with its migration, if it has one, as it stands now. -/
def marked (st : MigrationState) (message : Option String) (v : DistVolume) : DistVolume :=
  { v with migration := v.migration.map fun m => { m with state := st, message := message } }

def set (name : String) (st : MigrationState) (message : Option String) : Async Unit :=
  .modify (·.revise (·.modifyVolume name (marked st message)))

def moveOne (cfg : Config) (me : Nat) (now : SystemTime) (name «from» target : String) : Async Unit := do
  let r ← (startReplacement cfg me name «from» (some target) "tier migration").attempt
  .modify (·.revise (·.modifyVolume name fun v =>
    match r with
    | .ok _ => marked .moving none v
    | .error e => { marked .moving (some e.message) v with nextRelegAfter := some (now + cfg.cooldown) }))

/-- The volume is in the pool. -/
def arrived (cfg : Config) («to» : String) (v : DistVolume) : DistVolume :=
  { v with
    pool := some «to»
    rung := ((cfg.pool «to»).map (·.rung)).getD v.rung
    migration := none }

def runOne (cfg : Config) (me : Nat) (now : SystemTime) (d : Due) : Async Unit :=
  match d.step with
  | .move «from» target => moveOne cfg me now d.name «from» target
  | .done => .modify (·.revise (·.modifyVolume d.name (arrived cfg d.toPool)))
  | .waitingHandover =>
    if d.was = .waitingHandover then return ()
    else
      let name := d.name
      let pool := d.toPool
      set name .waitingHandover (some
        (s!"{name}: tier migration to {pool}: every leg but the head's is in the pool; the head's own leg moves by " ++
          "promote only, and a handover from a live head waits on stormblock#296"))
  | .blocked why => if d.message = some why then return () else set d.name .moving (some why)

/-- One step for every migrating, idle volume, on the instance that acts on
recovery. -/
def run (cfg : Config) (me : Nat) (active : Bool) : Async Unit := do
  if active then
    let (ds, now) ← .atomic fun i w => ((due cfg w.fed (w.replacing.contains ·) i.now, i.now), w)
    .forEach ds (runOne cfg me now)
  else return ()

end StormStorage.Migrate
