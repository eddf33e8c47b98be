import Mathlib.Algebra.GroupWithZero.Nat
import StormStorage.Climb
import StormStorage.Kube
import StormStorage.Tally
import Std.Data.ExtTreeSet.Lemmas

/-!
# What each node's engine holds

Its slabs, and its volumes, each placed on the slabs it lives on
(`inventory.rs`). `place` goes by what the engine says, by the slots that a
volume owns, by its nearest ancestor that owns some, or by the only slab of its
role; `tiers` sums the slabs of every node by tier.
-/

namespace StormStorage.Inventory

/-- A set of slab ids. -/
abbrev Ids := Std.ExtTreeSet String compare

structure Slab where
  id : String
  /-- hot, warm, cool or cold. -/
  tier : String
  /-- system or data. -/
  role : String
  slotSize : Nat
  allocatedSlots : Nat
  totalBytes : Nat
  freeBytes : Nat
deriving DecidableEq, Repr

/-- The product, or the most that a counter holds. -/
def Slab.allocatedBytes (s : Slab) : Nat := min (s.allocatedSlots * s.slotSize) (2 ^ 64 - 1)

structure SlabPlacement where
  id : String
deriving DecidableEq, Repr

/-- Where a volume lives, as its engine reports it. -/
structure Placement where
  slabs : List SlabPlacement
deriving DecidableEq, Repr

structure EngineVolume where
  id : String
  name : String
  parent : Option String
  role : String
  placement : Option Placement
deriving DecidableEq, Repr

/-- How a volume's slabs were worked out. -/
inductive PlacedBy where
  | engine
  | slots
  | parent
  | role
  | unknown
deriving DecidableEq, Repr

structure PlacedVolume where
  volume : EngineVolume
  /-- Slab ids, sorted. -/
  slabs : List String
  placedBy : PlacedBy
  /-- Its PV and the claim bound to it. -/
  pv : Option Kube.VolumeClaim := none
deriving DecidableEq, Repr

structure NodeInventory where
  slabs : List Slab := []
  volumes : List PlacedVolume := []
  /-- Why the last refresh failed, if it did. -/
  error : Option String := none
deriving DecidableEq, Repr

/-! ## Placing -/

/-- Placing needs the slot tables: some volume has no placement. -/
def needsSlotScan (volumes : List EngineVolume) : Bool := volumes.any (·.placement.isNone)

/-- Which slabs hold slots that each volume owns. -/
abbrev SlotOwners := KeyMap Ids

/-- The slabs with slots of a volume, if there are any. -/
def owned (slotOwners : SlotOwners) (id : String) : Option Ids := slotOwners[id]?.filter (! ·.isEmpty)

def parentIn (byId : KeyMap EngineVolume) (id : String) : Option String := byId[id]?.bind (·.parent)

/-- The only slab of a role. -/
def onlyOfRole (slabs : List Slab) (role : String) : Option Slab :=
  match slabs.filter (·.role = role) with
  | [s] => some s
  | _ => none

def resolve (v : EngineVolume) (byId : KeyMap EngineVolume) (slabs : List Slab) (slotOwners : SlotOwners) :
    List String × PlacedBy :=
  match v.placement.filter (! ·.slabs.isEmpty) with
  | some p => ((Std.ExtTreeSet.ofList (p.slabs.map (·.id)) compare).toList, .engine)
  | none =>
  match owned slotOwners v.id with
  | some s => (s.toList, .slots)
  | none =>
  -- the walk is bounded, so that a circle in bad data ends it
  match Climb.climb (parentIn byId) (owned slotOwners) 64 v.parent with
  | some s => (s.toList, .parent)
  | none =>
  match (if v.role = "" then none else onlyOfRole slabs v.role) with
  | some s => ([s.id], .role)
  | none => ([], .unknown)

def indexed (volumes : List EngineVolume) : KeyMap EngineVolume := volumes.foldl (fun m v => m.insert v.id v) ∅

/-- Every volume on its slabs. -/
def place (slabs : List Slab) (volumes : List EngineVolume) (slotOwners : SlotOwners) : List PlacedVolume :=
  volumes.map fun v =>
    let (slabsOf, placedBy) := resolve v (indexed volumes) slabs slotOwners
    { volume := v, slabs := slabsOf, placedBy := placedBy }

/-! ## Tiers -/

/-- Slabs of one tier, summed across nodes. -/
structure TierRollup where
  tier : String
  /-- `node/slab-id` of every slab in the tier. -/
  slabs : List String := []
  nodes : List String := []
  totalBytes : Nat := 0
  freeBytes : Nat := 0
  allocatedBytes : Nat := 0
  volumes : Nat := 0
deriving DecidableEq, Repr

def TierRollup.addSlab (node : String) (t : TierRollup) (slab : Slab) : TierRollup :=
  { t with
    slabs := t.slabs ++ [s!"{node}/{slab.id}"]
    nodes := if node ∈ t.nodes then t.nodes else t.nodes ++ [node]
    totalBytes := t.totalBytes + slab.totalBytes
    freeBytes := t.freeBytes + slab.freeBytes
    allocatedBytes := t.allocatedBytes + slab.allocatedBytes }

/-- Each tier that a volume is on, with the volume. -/
def tierVolumes (inv : NodeInventory) : List (String × String) :=
  inv.volumes.flatMap fun v => v.slabs.filterMap fun sid =>
    (inv.slabs.find? (·.id = sid)).map fun slab => (slab.tier, v.volume.id)

/-- One node's slabs, then its volumes: one that spans two slabs of a tier
counts once. -/
def addNode (out : KeyMap TierRollup) (n : String × NodeInventory) : KeyMap TierRollup :=
  let out := KeyMap.tally (·.tier) (fun tier => { tier := tier }) (TierRollup.addSlab n.1) out n.2.slabs
  ((tierVolumes n.2).foldl (KeyMap.countOnce Prod.fst fun t => { t with volumes := t.volumes + 1 }) ([], out)).2

def tiers (all : KeyMap NodeInventory) : List TierRollup := (all.toList.foldl addNode ∅).toList.map Prod.snd

end StormStorage.Inventory
