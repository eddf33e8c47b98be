import StormStorage.Await.Pool
import StormStorage.Model

/-!
# Replication between peers

Every instance pushes its durable intent with its revision to its peers, and a
peer takes a payload that is newer than its own (`replicate.rs`). `replication`
is the system of any number of peers: local changes, pushes, and payloads that
arrive late, twice or never.

`Peers.made` is history that no peer reads.
-/

namespace StormStorage

open Await

/-- The state that cannot be derived again. -/
structure Intent where
  volumes : KeyMap DistVolume
  orphans : List Orphan
  staleHeads : List StaleHead
  snapshots : KeyMap Snapshot
  groupSnapshots : KeyMap GroupSnapshot
  backups : KeyMap Backup
  vmMigrations : KeyMap VmMigration
deriving DecidableEq

def FedState.intent (fed : FedState) : Intent where
  volumes := fed.volumes
  orphans := fed.orphans
  staleHeads := fed.staleHeads
  snapshots := fed.snapshots
  groupSnapshots := fed.groupSnapshots
  backups := fed.backups
  vmMigrations := fed.vmMigrations

structure Payload extends Intent where
  revision : Nat
  /-- Configs of self-registered nodes. -/
  registered : List NodeConfig
deriving DecidableEq

def buildPayload (fed : FedState) : Payload where
  toIntent := fed.intent
  revision := fed.revision
  registered := (fed.nodes.toList.map Prod.snd).filterMap fun n =>
    if n.status.source = .registered then some n.config else none

/-- A peer's config of a registered node; never over one configured here. -/
def adopt (nodes : KeyMap Node) (nc : NodeConfig) : KeyMap Node :=
  match nodes[nc.name]? with
  | some n => if n.status.source = .registered then nodes.insert nc.name { n with config := nc } else nodes
  | none => nodes.insert nc.name { config := nc, status := .new .registered }

/-- Apply a peer's payload if it is newer; whether it was. -/
def FedState.applyPayload (fed : FedState) (payload : Payload) : Bool × FedState :=
  if payload.revision ≤ fed.revision then (false, fed)
  else (true, {
    volumes := payload.volumes
    orphans := payload.orphans
    staleHeads := payload.staleHeads
    snapshots := payload.snapshots
    groupSnapshots := payload.groupSnapshots
    backups := payload.backups
    vmMigrations := payload.vmMigrations
    nodes := payload.registered.foldl adopt fed.nodes
    revision := payload.revision })

/-! ## The peers -/

/-- A local change: at which peer, and the revision it led to. -/
structure Change where
  peer : String
  revision : Nat
deriving DecidableEq, Repr

structure Peers where
  fed : KeyMap FedState
  /-- Every payload pushed so far. -/
  sent : List Payload := []
  made : List Change := []

inductive PeerMove where
  /-- The peer's state becomes `fed`; whether the change bumps the revision. -/
  | change (peer : String) (fed : FedState) (bumps : Bool)
  | push (peer : String)
  /-- The payload pushed as number `n` arrives, not for the last time. -/
  | deliver (peer : String) (n : Nat)

namespace Peers

def change (w : Peers) (peer : String) (next : FedState) (bumps : Bool) : Peers :=
  match w.fed[peer]? with
  | none => w
  | some fed =>
    let revision := if bumps then fed.revision + 1 else fed.revision
    { w with
      fed := w.fed.insert peer { next with revision := revision }
      made := w.made ++ [{ peer := peer, revision := revision }] }

def push (w : Peers) (peer : String) : Peers :=
  match w.fed[peer]? with
  | none => w
  | some fed => { w with sent := w.sent ++ [buildPayload fed] }

def deliver (w : Peers) (peer : String) (n : Nat) : Peers :=
  match w.fed[peer]?, w.sent[n]? with
  | some fed, some payload => { w with fed := w.fed.insert peer (fed.applyPayload payload).2 }
  | _, _ => w

def step (m : PeerMove) (w : Peers) : Peers :=
  match m with
  | .change peer fed bumps => w.change peer fed bumps
  | .push peer => w.push peer
  | .deliver peer n => w.deliver peer n

/-- Peers that know their nodes, and nothing else yet. -/
def start (nodes : KeyMap (KeyMap Node)) : Peers :=
  { fed := nodes.map fun _ nodes => { nodes := nodes } }

end Peers

/-- Peers that change, push and receive in any order. -/
def replication : System Unit Peers Unit where
  Op := Empty
  Env := PeerMove
  prog _ op := nomatch op
  env := Peers.step

end StormStorage
