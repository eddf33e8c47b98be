import StormStorage.Model

/-!
# The durable records

The records of a federation state as the store keeps them, by key below the
prefix: `recordsOf` writes them, `applyRecords` reads them back over an
instance's own state, and `diff` is what a sync sends.
-/

namespace StormStorage

open KeyMap

/-- JSON of one type, as the serializer writes and reads it. -/
structure Codec (α : Type) where
  toString : α → String
  fromStr : String → Except String α

structure LeaderInfo where
  «instance» : String
  url : String
deriving DecidableEq, Repr

structure Meta where
  revision : Nat
  «by» : String
  «at» : SystemTime
deriving DecidableEq, Repr

/-- The serializer, for each type the store holds. -/
structure Codecs where
  volume : Codec DistVolume
  snapshot : Codec Snapshot
  groupSnapshot : Codec GroupSnapshot
  backup : Codec Backup
  vmMigration : Codec VmMigration
  node : Codec NodeConfig
  orphans : Codec (List Orphan)
  staleHeads : Codec (List StaleHead)
  metaRecord : Codec Meta
  leaderInfo : Codec LeaderInfo

abbrev Records := KeyMap String

def keyOf (kind name : String) : String := kind ++ "/" ++ name

/-- Every record of a kind has a key. -/
def under (kind name : String) : Option String := some (keyOf kind name)

def registered (n : Node) : Bool := n.status.source = .registered

def putNodes (c : Codecs) : List (String × Node) → Records → Records
  | [], m => m
  | (_, n) :: ns, m =>
    putNodes c ns
      (if registered n then m.insert (keyOf "nodes" n.config.name) (c.node.toString n.config) else m)

/-- The durable records of `fed`, by key below the prefix. -/
def recordsOf (c : Codecs) (fed : FedState) : Records :=
  let m := gather (under "volumes") c.volume.toString fed.volumes ∅
  let m := gather (under "snapshots") c.snapshot.toString fed.snapshots m
  let m := gather (under "group_snapshots") c.groupSnapshot.toString fed.groupSnapshots m
  let m := gather (under "backups") c.backup.toString fed.backups m
  let m := gather (under "vm_migrations") c.vmMigration.toString fed.vmMigrations m
  let m := putNodes c fed.nodes.toList m
  let m := m.insert "orphans" (c.orphans.toString fed.orphans)
  m.insert "stale_heads" (c.staleHeads.toString fed.staleHeads)

/-! ## Reading records -/

def splitOnce (sep : Char) : List Char → Option (List Char × List Char)
  | [] => none
  | x :: xs => if x = sep then some ([], xs) else (splitOnce sep xs).map fun p => (x :: p.1, p.2)

/-- `k.split_once('/').unwrap_or((k, ""))` -/
def kindName (k : String) : String × String :=
  match splitOnce '/' k.toList with
  | some (kind, name) => (String.ofList kind, String.ofList name)
  | none => (k, "")

/-- One record, into the state read so far and the registered nodes. -/
def applyRecord (c : Codecs) (acc : FedState × List NodeConfig) (kv : String × String) :
    Except String (FedState × List NodeConfig) :=
  let (k, v) := kv
  let (kind, name) := kindName k
  let (next, regs) := acc
  let bad (e : String) := s!"store key {k}: {e}"
  match kind with
  | "volumes" => do
    let x ← (c.volume.fromStr v).mapError bad
    pure ({ next with volumes := next.volumes.insert name x }, regs)
  | "snapshots" => do
    let x ← (c.snapshot.fromStr v).mapError bad
    pure ({ next with snapshots := next.snapshots.insert name x }, regs)
  | "group_snapshots" => do
    let x ← (c.groupSnapshot.fromStr v).mapError bad
    pure ({ next with groupSnapshots := next.groupSnapshots.insert name x }, regs)
  | "backups" => do
    let x ← (c.backup.fromStr v).mapError bad
    pure ({ next with backups := next.backups.insert name x }, regs)
  | "vm_migrations" => do
    let x ← (c.vmMigration.fromStr v).mapError bad
    pure ({ next with vmMigrations := next.vmMigrations.insert name x }, regs)
  | "nodes" => do
    let nc ← (c.node.fromStr v).mapError bad
    pure (next, regs ++ [nc])
  | "orphans" => do
    let x ← (c.orphans.fromStr v).mapError bad
    pure ({ next with orphans := x }, regs)
  | "stale_heads" => do
    let x ← (c.staleHeads.fromStr v).mapError bad
    pure ({ next with staleHeads := x }, regs)
  -- leader, meta, and anything a newer version writes
  | _ => pure acc

def applyEach (c : Codecs) : List (String × String) → FedState × List NodeConfig →
    Except String (FedState × List NodeConfig)
  | [], acc => .ok acc
  | kv :: kvs, acc => do
    let acc ← applyRecord c acc kv
    applyEach c kvs acc

/-- A stored registered node, unless this instance configures it itself. -/
def adoptRegistered (nodes : KeyMap Node) (nc : NodeConfig) : KeyMap Node :=
  match nodes[nc.name]? with
  | some n => if registered n then nodes.insert nc.name { n with config := nc } else nodes
  | none => nodes.insert nc.name { config := nc, status := NodeStatus.new .registered }

/-- Replace the durable records of `fed` with `records`. -/
def applyRecords (c : Codecs) (fed : FedState) (records : Records) : Except String FedState := do
  let (next, regs) ← applyEach c records.toList ({}, [])
  let names := regs.map (·.name)
  let kept := fed.nodes.filter fun n node => !registered node || names.contains n
  pure { fed with
    volumes := next.volumes
    snapshots := next.snapshots
    groupSnapshots := next.groupSnapshots
    backups := next.backups
    vmMigrations := next.vmMigrations
    orphans := next.orphans
    staleHeads := next.staleHeads
    nodes := regs.foldl adoptRegistered kept }

/-- `apply_records` on the state it is given, one assignment at a time: what it
answers, and the state it leaves. `applyRecords` is what it makes of it. -/
def applyRecordsTo (c : Codecs) (records : Records) : ExceptT String (StateM FedState) Unit := do
  let (next, regs) ← ExceptT.mk (pure (applyEach c records.toList ({}, [])))
  modify fun fed => { fed with volumes := next.volumes }
  modify fun fed => { fed with snapshots := next.snapshots }
  modify fun fed => { fed with groupSnapshots := next.groupSnapshots }
  modify fun fed => { fed with backups := next.backups }
  modify fun fed => { fed with vmMigrations := next.vmMigrations }
  modify fun fed => { fed with orphans := next.orphans }
  modify fun fed => { fed with staleHeads := next.staleHeads }
  let names := regs.map (·.name)
  modify fun fed => { fed with nodes := fed.nodes.filter fun n node => !registered node || names.contains n }
  regs.forM fun nc => modify fun fed => { fed with nodes := adoptRegistered fed.nodes nc }

/-! ## What changed -/

abbrev Op := Edit String

/-- What turns `old` into `new`. -/
def diff (old new : Records) : List Op :=
  ((new.toList.filter fun p => old[p.1]? ≠ some p.2).map fun p => .put p.1 p.2) ++
    (old.keys.filter fun k => !new.contains k).map .delete

end StormStorage
