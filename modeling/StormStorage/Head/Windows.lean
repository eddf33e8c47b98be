import StormStorage.Head

/-!
# Dual-attach windows

A window names the node that a head is to be handed to. It is open for a
while; closing it commits (fence, then promote its target) or aborts, and the
reconciler closes the windows that expired (`head.rs`).
-/

namespace StormStorage.Head

open Await Orchestrate

/-- Open a window, or move the expiry of the one that is open for `target`. -/
def applyOpenWindow (vol : DistVolume) (target : String) (ttl now : SystemTime) : Except Fault DualAttach :=
  if vol.assembly ≠ .assembled ∧ vol.assembly ≠ .degraded then .error (.conflict s!"{vol.name}: not assembled")
  else
    match vol.dualAttach.filter (·.targetNode ≠ target) with
    | some w => .error (.conflict s!"{vol.name}: a window is open for {w.targetNode}")
    | none =>
      if some target = vol.head then .error (.conflict s!"{vol.name}: {target} is already the head")
      else if ¬ vol.legs.any fun l => l.node = target ∧ l.state = .created then
        .error (.conflict s!"{vol.name}: {target} holds no slave")
      else .ok {
        targetNode := target
        epoch := vol.epoch
        openedAt := (vol.dualAttach.map (·.openedAt)).getD now
        expiresAt := now + ttl }

/-- A window's length, at least a second and at most what is configured. -/
def windowLength (cfg : Config) (ttlSecs : Nat) : SystemTime :=
  max 1 (min ttlSecs (max cfg.maxDualAttachSecs 1)) * 1000

/-- `POST /api/v1/volumes/{name}/dual-attach`. -/
def openWindow (cfg : Config) (name target : String) (ttlSecs : Nat) : Async DualAttach := do
  .ofExcept (← .atomic fun i w =>
    match (volumeIn w.fed name).bind fun vol => applyOpenWindow vol target (windowLength cfg ttlSecs) i.now with
    | .ok d => (.ok d, w.revise (·.modifyVolume name fun v => { v with dualAttach := some d }))
    | .error e => (.error e, w))

inductive Outcome where
  | commit
  | abort
deriving DecidableEq, Repr

/-- The target of the window that is open at `epoch`. -/
def closable (name : String) (epoch : Nat) (fed : FedState) : Except Fault String := do
  let vol ← volumeIn fed name
  match vol.dualAttach with
  | none => .error (.conflict s!"{name}: no dual-attach window is open")
  | some w => if w.epoch ≠ epoch then .error (.staleEpoch w.epoch) else .ok w.targetNode

/-- `POST /api/v1/volumes/{name}/dual-attach/close`. -/
def closeWindow (cfg : Config) (me : Nat) (name : String) (epoch : Nat) (outcome : Outcome) : Async Unit := do
  let target ← .ofExcept (← .atomic fun _ w =>
    match closable name epoch w.fed with
    | .ok target => (.ok target, w.revise (·.modifyVolume name fun v => { v with dualAttach := none }))
    | .error e => (.error e, w))
  match outcome with
  | .abort => return ()
  | .commit => do
    let fenced ← fence name epoch
    promote cfg me name target fenced.epoch

def expired (now : SystemTime) (v : DistVolume) : Bool := v.dualAttach.any (·.expiresAt ≤ now)

/-- Close every window past its expiry. -/
def expireWindows : Async Unit :=
  .atomic fun i w =>
    let close := w.setFed fun fed => { fed with
      volumes := fed.volumes.map fun _ v => if expired i.now v then { v with dualAttach := none } else v }
    ((), if w.fed.volumes.toList.any fun (_, v) => expired i.now v then close.revise id else w)

end StormStorage.Head
