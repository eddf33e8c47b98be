import StormStorage.Credentials
import StormStorage.Replicate
import StormStorage.Store.Records

/-!
# The node registry

Nodes enter the state from the configuration, from heartbeats, from the
cluster's member list, from the engine on this machine and its peers, from
another instance's payload and from the store (`registry.rs`, `api/mod.rs`,
`model.rs`). Each change is made under one lock; `Registry.step` is any of them.
-/

namespace StormStorage

/-! ## The configuration -/

/-- A configured node, over what the state says of it. -/
def applyConfigNode (nodes : KeyMap Node) (nc : NodeConfig) : KeyMap Node :=
  match nodes[nc.name]? with
  | some n => nodes.insert nc.name { config := nc, status := { n.status with source := .static } }
  | none => nodes.insert nc.name { config := nc, status := .new .static }

def FedState.applyConfigNodes (fed : FedState) (configured : List NodeConfig) : FedState :=
  { fed with nodes := configured.foldl applyConfigNode fed.nodes }

/-! ## Heartbeats -/

/-- An engine's registration heartbeat. -/
structure Announce where
  nodeAddr : String
  hostname : String
  /-- How many volumes it announces. -/
  volumes : Nat := 0
deriving DecidableEq, Repr

def FedState.registerNode (fed : FedState) (cfg : NodesConfig) (a : Announce) (now : SystemTime) : FedState :=
  let url := engineUrlFrom a.nodeAddr cfg.addressScheme
  let node := match fed.nodes[a.hostname]? with
    | some n => n
    | none => { config := { name := a.hostname, engineUrl := url }, status := .new .registered }
  let config := if node.status.source = .registered then { node.config with engineUrl := url } else node.config
  let status := { node.status with volumes := a.volumes, lastOk := some now, healthy := true, consecutiveFailures := 0 }
  { fed with
    nodes := fed.nodes.insert a.hostname { config := config, status := status }
    revision := if fed.nodes.contains a.hostname then fed.revision else fed.revision + 1 }

/-- A clean shutdown: the nodes at this address are down. -/
def FedState.deregisterNode (fed : FedState) (cfg : NodesConfig) (nodeAddr : String) : FedState :=
  let url := engineUrlFrom nodeAddr cfg.addressScheme
  { fed with nodes := fed.nodes.map fun _ n =>
      if n.config.engineUrl = url then { n with status := { n.status with healthy := false } } else n }

/-! ## Adoption -/

/-- Another source covers this engine or this name. -/
def covered (source : NodeSource) (nodes : KeyMap Node) (nc : NodeConfig) : Bool :=
  (nodes.toList.map Prod.snd).any fun n =>
    n.status.source ≠ source ∧ (n.config.name = nc.name ∨ n.config.engineUrl = nc.engineUrl)

/-- A node that is found, unless another source covers it. -/
def adoptNode (source : NodeSource) (nodes : KeyMap Node) (nc : NodeConfig) : KeyMap Node :=
  if covered source nodes nc then nodes
  else match nodes[nc.name]? with
    | some n => nodes.insert nc.name { n with config := nc }
    | none => nodes.insert nc.name { config := nc, status := .new source }

/-- A member of the cluster. -/
structure Member where
  name : String
  address : String
  storage : Bool
deriving DecidableEq, Repr

structure Registry where
  fed : FedState := {}
  members : Members := {}

namespace Registry

variable (cfg : NodesConfig) (m : Machine) (w : Registry)

def memberUrl (x : Member) : String := engineUrlFrom x.address cfg.addressScheme

/-- The member on this machine is left to the local adoption. -/
def memberHere (x : Member) : Bool :=
  (m.isThisMachine (memberUrl cfg x) || m.hostname.any fun h => sameNode h x.name) && cfg.local.enabled

def memberConfig (x : Member) : NodeConfig where
  name := x.name
  engineUrl := memberUrl cfg x
  labels := (∅ : KeyMap String).insert "storage" (if x.storage then "true" else "false")
  tier := cfg.local.tier

/-- The members that are to be nodes. -/
def wantedMembers (list : List Member) : List NodeConfig :=
  (list.filter fun x => !memberHere cfg m x).map (memberConfig cfg)

/-- The members of this node's cluster are nodes; one that is no member any
more is forgotten. -/
def adoptMembers (list : List Member) : Registry :=
  let wanted := wantedMembers cfg m list
  let keep := wanted.map (·.name)
  { members := {
      engines := wanted.map (·.engineUrl)
      localName := ((list.filter (memberHere cfg m)).getLast?).map (·.name) }
    fed := { w.fed with
      nodes := wanted.foldl (adoptNode .member)
        (w.fed.nodes.filter fun name n => n.status.source ≠ .member ∨ name ∈ keep) } }

structure DiscoveredNode where
  nodeName : String
  mgmtAddr : String
  clusterId : Option String
  stale : Bool
deriving DecidableEq, Repr

/-- What the local engine tells of itself and its cluster. -/
structure Discovery where
  localNode : String
  clusterId : Option String
  nodes : List DiscoveredNode
deriving DecidableEq, Repr

/-- Live peers in the local engine's own cluster. -/
def Discovery.clusterPeers (d : Discovery) : List DiscoveredNode :=
  match d.clusterId with
  | none => []
  | some cid => d.nodes.filter fun n =>
      !n.stale ∧ n.clusterId = some cid ∧ n.nodeName ≠ "" ∧ n.mgmtAddr ≠ "" ∧ n.nodeName ≠ d.localNode

def localNodeName (members : Members) (discovery : Option Discovery) : String :=
  ((cfg.local.name.or members.localName).or
    (((discovery.map (·.localNode)).filter (· ≠ "")).or m.hostname)).getD "local"

/-- The engine on this machine, then its peers. -/
def wantedLocal (members : Members) (discovery : Option Discovery) : List NodeConfig :=
  { name := localNodeName cfg m members discovery, engineUrl := trimSlashes cfg.local.engineUrl, tier := cfg.local.tier } ::
    if cfg.local.clusterPeers then
      match discovery with
      | none => []
      | some d => d.clusterPeers.map fun p =>
          { name := p.nodeName, engineUrl := engineUrlFrom p.mgmtAddr cfg.addressScheme, tier := cfg.local.tier }
    else []

/-- A node stays: of another source, found again, or a peer while none are
judged. -/
def localStays (discovery : Option Discovery) (keep : List String) (name : String) (n : Node) : Bool :=
  n.status.source ≠ .local ∨ name ∈ keep ∨
    (¬ (discovery.isSome ∨ ¬ cfg.local.clusterPeers) ∧ n.config.engineUrl ≠ trimSlashes cfg.local.engineUrl)

/-- Adopt the engine on this machine, which has answered, and its peers. -/
def adoptLocal (discovery : Option Discovery) : Registry :=
  let wanted := wantedLocal cfg m w.members discovery
  { w with fed := { w.fed with
      nodes := (wanted.foldl (adoptNode .local) w.fed.nodes).filter
        (localStays cfg discovery (wanted.map (·.name))) } }

/-! ## The registry's run -/

inductive Move where
  /-- The configuration is laid over the state. -/
  | configure
  | register (a : Announce) (now : SystemTime)
  | deregister (nodeAddr : String)
  | adoptMembers (m : Machine) (list : List Member)
  | adoptLocal (m : Machine) (discovery : Option Discovery)
  | replicate (payload : Payload)
  /-- The store's records are read. -/
  | load (records : Records)

variable (c : Codecs)

def step (w : Registry) : Move → Registry
  | .configure => { w with fed := w.fed.applyConfigNodes cfg.nodes }
  | .register a now => { w with fed := w.fed.registerNode cfg a now }
  | .deregister nodeAddr => { w with fed := w.fed.deregisterNode cfg nodeAddr }
  | .adoptMembers m list => w.adoptMembers cfg m list
  | .adoptLocal m discovery => w.adoptLocal cfg m discovery
  | .replicate payload => { w with fed := (w.fed.applyPayload payload).2 }
  | .load records =>
    match applyRecords c w.fed records with
    | .ok fed => { w with fed := fed }
    | .error _ => w

/-- The state a process starts with: nothing but its configuration. -/
def start : Registry := { fed := ({} : FedState).applyConfigNodes cfg.nodes }

def run (moves : List Move) : Registry := moves.foldl (step cfg c) (start cfg)

end Registry

end StormStorage
