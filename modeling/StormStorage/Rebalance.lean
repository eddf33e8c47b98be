import StormStorage.Orchestrate.Replacement

/-!
# Rebalancing

Legs move off the fullest nodes of a pool onto its emptiest, by the pool's
watermarks (`rebalance.rs`). `plan` proposes moves from one reading of the
state; `run` starts them one after another.
-/

namespace StormStorage.Rebalance

open Await Orchestrate

/-- One proposed leg move. -/
structure Move where
  pool : String
  volume : String
  «from» : String
  «to» : String
deriving DecidableEq, Repr

/-- The used fraction of a node. -/
def used (n : Node) : ℚ :=
  if n.status.totalBytes = 0 then 0 else 1 - (n.status.freeBytes : ℚ) / n.status.totalBytes

/-- How far the pass over a pool has come. -/
structure Pass where
  room : Nat
  /-- Sizes promised by moves proposed in this pass, per target. -/
  promised : KeyMap Nat := ∅
  moves : List Move := []

section

variable (cfg : Config) (fed : FedState) (pool : PoolConfig) (high low : ℚ) (members : List Node)

/-- Nodes of the pool below `low` that stay at or under `high` with the leg. -/
def roomy (promised : KeyMap Nat) (vol : DistVolume) (src : String) : List Candidate :=
  (moveTargetCandidates cfg fed vol src).filter fun c =>
    let extra := promised[c.name]?.getD 0
    let after : ℚ := ((c.totalBytes - min c.freeBytes c.totalBytes + (extra + vol.sizeBytes) : Nat) : ℚ)
    (members.any (·.config.name = c.name)) ∧ 0 < c.totalBytes ∧ 1 - (c.freeBytes : ℚ) / c.totalBytes < low ∧
      after / c.totalBytes ≤ high

def proposeOne (src : String) (p : Pass) (vol : DistVolume) : Pass :=
  if p.room = 0 ∨ p.moves.any (·.volume = vol.name) then p
  else
    match StormStorage.plan cfg.ioWeight cfg.rungs vol.rung (roomy cfg fed high low members p.promised vol src) 1
      vol.sizeBytes with
    | .error _ => p
    | .ok picks =>
      let target := picks.head?.getD ""
      { room := p.room - 1
        promised := p.promised.insert target (p.promised[target]?.getD 0 + vol.sizeBytes)
        moves := p.moves ++ [{ pool := pool.name, volume := vol.name, «from» := src, «to» := target }] }

/-- Idle volumes of the pool with a leg on `src` that is not the head's, the
largest first. -/
def movable (busy : String → Bool) (now : SystemTime) (src : String) : List DistVolume :=
  ((fed.volumes.toList.map Prod.snd).filter fun v =>
    v.pool = some pool.name ∧ v.assembly = .assembled ∧ ¬ v.fenced ∧ v.replacing.isNone ∧ v.dualAttach.isNone ∧
      v.migration.isNone ∧ ¬ busy v.name ∧ v.nextRelegAfter.all (· ≤ now) ∧ v.head ≠ some src ∧
        v.legs.any fun l => l.node = src ∧ l.state = .created).insertionSort
    fun a b => b.sizeBytes < a.sizeBytes ∨ a.sizeBytes = b.sizeBytes ∧ a.name ≤ b.name

def proposeFrom (busy : String → Bool) (now : SystemTime) (p : Pass) (src : Node) : Pass :=
  (movable fed pool busy now src.config.name).foldl (proposeOne cfg fed pool high low members src.config.name) p

end

def inPool (fed : FedState) (pool : PoolConfig) : List Node :=
  (fed.nodes.toList.map Prod.snd).filter fun n => pool.selector.matches n.config

/-- Nodes used above `high`, the fullest first. -/
def sources (high : ℚ) (members : List Node) : List Node :=
  (members.filter fun n => high < used n).insertionSort
    fun a b => used b < used a ∨ used a = used b ∧ a.config.name ≤ b.config.name

/-- The moves that a pool wants now. -/
def planPool (cfg : Config) (fed : FedState) (busy : String → Bool) (now : SystemTime) (pool : PoolConfig) :
    List Move :=
  match pool.highWatermark, pool.lowWatermark with
  | some high, some low =>
    let members := inPool fed pool
    let inFlight := ((fed.volumes.toList.map Prod.snd).filter fun v =>
      v.pool = some pool.name ∧ v.replacing.isSome).length
    if ¬ (0 ≤ low ∧ low < high ∧ high ≤ 1) ∨ members.any (¬ ·.status.healthy) then []
    else ((sources high members).foldl (proposeFrom cfg fed pool high low members busy now)
      { room := pool.maxMoves - inFlight }).moves
  | _, _ => []

def plan (cfg : Config) (fed : FedState) (busy : String → Bool) (now : SystemTime) : List Move :=
  cfg.pools.flatMap (planPool cfg fed busy now)

def runOne (cfg : Config) (me : Nat) (now : SystemTime) (m : Move) : Async Unit := do
  match ← (startReplacement cfg me m.volume m.from (some m.to) "rebalance").attempt with
  | .ok _ => return ()
  | .error _ => .modify (·.setFed (·.modifyVolume m.volume fun v =>
      { v with nextRelegAfter := some (now + cfg.cooldown) }))

/-- Start what `plan` proposes, on the instance that acts on recovery. -/
def run (cfg : Config) (me : Nat) (active : Bool) : Async Unit := do
  if active then
    let (moves, now) ← .atomic fun i w => ((plan cfg w.fed (w.replacing.contains ·) i.now, i.now), w)
    .forEach moves (runOne cfg me now)
  else return ()

end StormStorage.Rebalance
