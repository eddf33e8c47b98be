import StormStorage.Store.Lead
import StormStorage.Proof.Store.Reload
import StormStorage.Proof.Store.Leadership
import StormStorage.Proof.Starts
import StormStorage.Proof.Replicate
import StormStorage.Proof.Volumes.Apart
import StormStorage.Proof.Legs.Kept
import StormStorage.Proof.Requests.Parents
import StormStorage.Proof.Registry
import StormStorage.Proof.Credentials
import StormStorage.Proof.Expand
import StormStorage.Proof.Steps.Stopped
import StormStorage.Proof.Placement
import StormStorage.Proof.Recovery
import StormStorage.Proof.Sync
import StormStorage.Proof.StateFile
import StormStorage.Proof.Former
import StormStorage.Proof.Undone
import StormStorage.Proof.Offered
import StormStorage.Proof.Members
import StormStorage.Proof.Addresses
import StormStorage.Proof.Revoked
import StormStorage.Proof.Recreated
import StormStorage.Proof.Rehead
import StormStorage.Proof.Rebalance
import StormStorage.Proof.Migration
import StormStorage.Slabs
import StormStorage.Proof.Store.Gateway
import StormStorage.Proof.Store.Applied
import StormStorage.Proof.Kube
import StormStorage.Proof.Schedule
import StormStorage.Proof.Destination
import StormStorage.Proof.Refused
import StormStorage.Proof.Slabs
import StormStorage.Proof.Room
import StormStorage.Proof.Points
import StormStorage.Proof.Inventory
import StormStorage.Proof.Refusals
import StormStorage.Proof.Events
import StormStorage.Proof.Poll
import StormStorage.Proof.Publish
import StormStorage.Proof.Gate
import StormStorage.Proof.LegsConfig
import StormStorage.Proof.Steps.Distinct
import StormStorage.Proof.Retention
import StormStorage.Proof.Adopted
import StormStorage.Proof.Fence
import StormStorage.Proof.Completes
import StormStorage.Proof.Removed
import StormStorage.Proof.Rebuild
import StormStorage.Proof.Failover
