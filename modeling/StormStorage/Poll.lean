import StormStorage.Inventory
import StormStorage.Registry

/-!
# The poller

It asks each node's engine for its capacity and then reads its inventory
(`poll_once` and `refresh_inventory` in `registry.rs`, `join` in `kube.rs`).
Each of its steps is made under one lock; between them the registry moves on.
-/

namespace StormStorage

namespace Inventory

/-- The PV of a node's volume, and its claim. -/
def claimOf (node : String) (claims : Kube.View) (volume : String) : Option Kube.VolumeClaim :=
  claims[((node, volume) : Kube.Key)]?.or
    ((claims.toList.find? fun p => p.1.2 = volume ∧ sameNode p.1.1 node).map Prod.snd)

/-- Put each volume's PV and claim on the node's inventory. -/
def join (node : String) (claims : Kube.View) (inv : NodeInventory) : NodeInventory :=
  { inv with volumes := inv.volumes.map fun v => { v with pv := claimOf node claims v.volume.name } }

/-- What a node's engine tells of its slabs and its volumes. `slots` are the
volumes with slots on a slab. -/
structure Reading where
  slabs : List Slab
  volumes : List EngineVolume
  slots : List (String × List String) := []

def Reading.owners (r : Reading) : SlotOwners :=
  if needsSlotScan r.volumes then
    r.slots.foldl (fun m slab => slab.2.foldl (fun m vid => m.insert vid ((m[vid]?.getD ∅).insert slab.1)) m) ∅
  else ∅

def Reading.inventory (r : Reading) : NodeInventory :=
  { slabs := r.slabs, volumes := place r.slabs r.volumes r.owners }

end Inventory

structure Capacity where
  totalBytes : Nat
  freeBytes : Nat
  topology : KeyMap String

/-- What the poller reports of a node. -/
inductive PollReport where
  | reachable
  | unusable (failures : Nat)
deriving DecidableEq, Repr

structure Poller where
  registry : Registry
  inventory : KeyMap Inventory.NodeInventory := ∅
  /-- The PVs, as last read. -/
  claims : Kube.View := ∅
  /-- What was reported of which node, the last first. -/
  reports : List (String × PollReport) := []

namespace Poller

open Inventory

variable (cfg : NodesConfig) (c : Codecs) (failThreshold : Nat) (w : Poller)

def nodes : KeyMap Node := w.registry.fed.nodes

def setNode (name : String) (n : Node) : Poller :=
  { w with registry.fed.nodes := w.nodes.insert name n }

/-- The engine of a node answered. -/
def answered (name : String) (cap : Capacity) (now : SystemTime) : Poller :=
  match w.nodes[name]? with
  | none => w
  | some n =>
    { w.setNode name { n with status := { n.status with
        healthy := true
        consecutiveFailures := 0
        lastOk := some now
        totalBytes := cap.totalBytes
        freeBytes := cap.freeBytes
        engineTopology := cap.topology } } with
      reports := if n.status.healthy then w.reports else (name, .reachable) :: w.reports }

/-- It did not. The inventory of a node that is down would say the opposite of
the truth. -/
def failed (name : String) : Poller :=
  match w.nodes[name]? with
  | none => w
  | some n =>
    let failures := n.status.consecutiveFailures + 1
    let flipping : Bool := n.status.healthy ∧ failThreshold ≤ failures
    let healthy := n.status.healthy && !flipping
    { w.setNode name { n with status := { n.status with consecutiveFailures := failures, healthy := healthy } } with
      inventory := if healthy then w.inventory else w.inventory.erase name
      reports := if flipping ∨ failures = failThreshold then (name, .unusable failures) :: w.reports else w.reports }

/-- The inventory of a node was read; a failed read keeps the one before. -/
def refreshed (name : String) : Except String Reading → Poller
  | .ok r =>
    let inv := join name w.claims r.inventory
    let w := { w with inventory := w.inventory.insert name inv }
    match w.nodes[name]? with
    | none => w
    | some n => w.setNode name { n with status := { n.status with volumes := inv.volumes.length } }
  | .error e => { w with inventory := w.inventory.insert name { (w.inventory[name]?.getD {}) with error := some e } }

/-- The PVs were read, or not. -/
def viewed (claims : Option Kube.View) : Poller :=
  let claims := claims.getD w.claims
  { w with claims := claims, inventory := w.inventory.map fun name inv => join name claims inv }

/-- Forget the inventory of nodes no longer known. -/
def forget : Poller := { w with inventory := w.inventory.filter fun name _ => w.nodes.contains name }

inductive Move where
  | registry (m : Registry.Move)
  | answered (name : String) (cap : Capacity) (now : SystemTime)
  | failed (name : String)
  | refreshed (name : String) (read : Except String Reading)
  | viewed (claims : Option Kube.View)
  | forget

def step (w : Poller) : Move → Poller
  | .registry m => { w with registry := w.registry.step cfg c m }
  | .answered name cap now => w.answered name cap now
  | .failed name => w.failed failThreshold name
  | .refreshed name read => w.refreshed name read
  | .viewed claims => w.viewed claims
  | .forget => w.forget

/-- A process starts with the state that was saved, and its configuration. -/
def start (fed : FedState) : Poller := { registry := { fed := fed.applyConfigNodes cfg.nodes } }

def run (w : Poller) (moves : List Move) : Poller := moves.foldl (step cfg c failThreshold) w

end Poller

end StormStorage
