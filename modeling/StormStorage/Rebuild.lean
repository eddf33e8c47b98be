import Mathlib.Algebra.GroupWithZero.Nat
import StormStorage.Server
import StormStorage.Watchdog

/-!
# Waiting for a rebuild

What `finish_inner` waits for (`wait_member_active` in `orchestrate.rs`): the
head's array is read again and again until the new member is active or failed,
or makes no progress, and the volume's rate cap is put again every minute. Times
are in milliseconds.
-/

namespace StormStorage.Rebuild

open Watchdog

/-- The rebuild caps of the configuration, in bytes a second. -/
structure RecoveryConfig where
  rebuildTimeoutSecs : Nat := 3600
  rateLow : Nat := 50 * 2 ^ 20
  rateNormal : Nat := 200 * 2 ^ 20
  rateHigh : Nat := 2 ^ 30

def RecoveryConfig.rate (cfg : RecoveryConfig) : BandwidthClass → Nat
  | .low => cfg.rateLow
  | .normal => cfg.rateNormal
  | .high => cfg.rateHigh
  | .unthrottled => 0

/-- How long a member may make no progress. -/
def RecoveryConfig.stall (cfg : RecoveryConfig) : Nat := 1000 * max cfg.rebuildTimeoutSecs 1

def RecoveryConfig.tick (cfg : RecoveryConfig) : Nat := min (max (cfg.stall / 4) 100) 3000

def reput : Nat := 60 * 1000

/-- One turn of the loop, with the clock where it is read: when the answer is
in, for the deadline, for the last put, and after that. -/
structure Turn where
  /-- The head's array; `none` where the call failed. -/
  answer : Option EngineArray
  /-- That of the volume's record. -/
  bandwidthClass : Option BandwidthClass := none
  read : Nat
  checked : Nat
  due : Nat
  put : Nat

/-- The loop's variables, and the rates that were put, with when. -/
structure Waiting where
  watch : Watch (String × Option Nat)
  lastPut : Nat
  puts : List (Nat × Nat) := []

variable (cfg : RecoveryConfig) (toLowercase : String → String) (memberUuid : String)

namespace Turn

variable (t : Turn)

def member : Option ArrayMember := t.answer.bind fun a => a.members.find? (·.uuid = some memberUuid)

def state : Option String := ((t.member memberUuid).bind (·.state)).map toLowercase

/-- What progress is read from. -/
def reading : Option (String × Option Nat) :=
  (t.state toLowercase memberUuid).map fun st => (st, (t.member memberUuid).bind (·.rebuiltBytes))

end Turn

/-- As the wait begins. -/
def waiting (start lastPut : Nat) : Waiting := { watch := { deadline := start + cfg.stall }, lastPut := lastPut }

/-- One turn: how it ends the wait, or what it goes on with. -/
def Waiting.turn (w : Waiting) (t : Turn) : Except Bool Waiting :=
  if t.state toLowercase memberUuid = some "active" then .error true
  else if t.state toLowercase memberUuid = some "failed" then .error false
  else
    let w := { w with watch := w.watch.see cfg.stall t.read (t.reading toLowercase memberUuid) }
    if w.watch.deadline < t.checked then .error false
    else if w.lastPut + reput ≤ t.due then
      .ok { w with lastPut := t.put, puts := w.puts ++ (t.bandwidthClass.map fun c => (t.put, cfg.rate c)).toList }
    else .ok w

/-- How the wait ends within these turns, if it does, and where it stands. -/
def waitMemberActive (w : Waiting) : List Turn → Option Bool × Waiting
  | [] => (none, w)
  | t :: ts =>
    match w.turn cfg toLowercase memberUuid t with
    | .error b => (some b, w)
    | .ok w => waitMemberActive w ts

end StormStorage.Rebuild
