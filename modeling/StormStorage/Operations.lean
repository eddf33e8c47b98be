import StormStorage.Api.Volumes
import StormStorage.Expand
import StormStorage.Head.Upkeep
import StormStorage.Head.Windows
import StormStorage.Migrate
import StormStorage.Rebalance

/-!
# The operations on volumes, side by side

The requests of the API and the passes of the reconciler that write volume
records, as one system. Beside them nodes come, go and change their health as
they like.
-/

namespace StormStorage

open Await

/-- An operation on volumes. -/
inductive VolumeOp where
  | create (req : Api.CreateVolumeRequest)
  | snapshot (name volumeId : String)
  | group (name : String) (volumeIds : List String)
  | restore (volume point name : String)
  | policy (name : String) (body : Api.PolicyBody)
  /-- The reconciler's pass over the backups. -/
  | backups
  | delete (name : String)
  | assemble (name : String)
  /-- A pending volume's retry in the background. -/
  | retryAssembly (name : String)
  | publish (name : String)
  | recreateExport (name : String)
  | serveHost (name host : String) (dhchap : Bool)
  | withdrawHost (name host : String)
  | republishOn (node : String)
  | move (name «from» : String) («to» : Option String)
  | prestage (name : String) (node «from» : Option String) (bandwidthClass : Option BandwidthClass)
  | rebalance (active : Bool)
  | recover (enabled : Bool)
  /-- A replacement's end in the background. -/
  | finish (name : String)
  | rejoinHeads
  | reassembleHeads
  | reapOrphans
  | fence (name : String) (expected : Nat)
  | promote (name target : String) (fencedEpoch : Nat)
  | «export» (name : String) (body : Api.ExportBody)
  | expand (name : String) («to» : Nat)
  | deleteSnapshot (id : String)
  | deleteGroup (id : String)
  | stopBackup (name : String) (purged : Bool)
  | deletePoint (volume point : String)
  | bandwidthClass (name : String) (c : BandwidthClass)
  | pendingRates
  | openWindow (name target : String) (ttlSecs : Nat)
  | closeWindow (name : String) (epoch : Nat) (outcome : Head.Outcome)
  | expireWindows
  | reapStaleHeads
  /-- The automatic fence and promote of volumes whose head is lost. -/
  | rehead (active : Bool)
  | migrate (name «to» : String)
  | cancelMigration (name : String)
  /-- The reconciler's pass over the tier migrations. -/
  | migrations (active : Bool)

open Orchestrate in
/-- The program of an operation. -/
def program (cfg : Config) (me : Nat) : VolumeOp → Async Unit
  | .create req => tracked me (Api.createVolume cfg me req)
  | .snapshot name volumeId => tracked me (Api.createSnapshot me name volumeId)
  | .group name volumeIds => tracked me (Api.createGroup me name volumeIds)
  | .restore volume point name => tracked me (Api.restore cfg me volume point name)
  | .policy name body => Api.putPolicy cfg name body
  | .backups => Backups.run cfg me
  | .delete name => tracked me (Api.deleteVolume me name)
  | .assemble name => assembleVolume cfg me name
  | .retryAssembly name => retryAssembly cfg me name
  | .publish name => do
    let _ ← publish me name
  | .recreateExport name => do
    let _ ← recreateExport me name
  | .serveHost name host dhchap => do
    let _ ← serveHost me name host dhchap
  | .withdrawHost name host => do
    let _ ← withdrawHost name host
  | .republishOn node => republishOn me node
  | .move name «from» «to» => do
    let _ ← moveLeg cfg me name «from» «to»
  | .prestage name node «from» bandwidthClass => do
    let _ ← Head.prestage cfg me name node «from» bandwidthClass
  | .rebalance active => Rebalance.run cfg me active
  | .recover enabled => recover cfg me enabled
  | .finish name => finishReplacement cfg me name
  | .rejoinHeads => rejoinHeads
  | .reassembleHeads => Head.reassembleHeads cfg me
  | .reapOrphans => reapOrphans
  | .fence name expected => do
    let _ ← Head.fence name expected
  | .promote name target fencedEpoch => Head.promote cfg me name target fencedEpoch
  | .«export» name body => do
    let _ ← Api.exportVolume me name body
  | .expand name «to» => Expand.expand me name «to»
  | .deleteSnapshot id => Api.deleteSnapshot id
  | .deleteGroup id => Api.deleteGroup id
  | .stopBackup name purged => Api.stop name purged
  | .deletePoint volume point => Api.deletePoint volume point
  | .bandwidthClass name c => Head.setBandwidthClass name c
  | .pendingRates => Head.retryPendingRates
  | .openWindow name target ttlSecs => do
    let _ ← Head.openWindow cfg name target ttlSecs
  | .closeWindow name epoch outcome => Head.closeWindow cfg me name epoch outcome
  | .expireWindows => Head.expireWindows
  | .reapStaleHeads => Head.reapStaleHeads
  | .rehead active => Head.reheadLost cfg me active
  | .migrate name «to» => Migrate.start cfg name «to»
  | .cancelMigration name => Migrate.cancel name
  | .migrations active => Migrate.run cfg me active

/-- The operations of `ops`, with nodes that change as they like. -/
def operations (cfg : Config) (ops : VolumeOp → Prop) : System Reply AppState Fault where
  Op := { op // ops op }
  Env := KeyMap Node
  prog me op := program cfg me op.1
  env nodes w := w.setFed fun fed => { fed with nodes := nodes }

end StormStorage
