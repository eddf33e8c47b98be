import Mathlib.Algebra.GroupWithZero.Nat
import StormStorage.Addresses
import StormStorage.KeyMap

/-!
# Engines that refuse the token

A refusal is a configuration error: the next call with the same token is
answered the same (`refusal.rs`). So each engine is called less and less often,
its first refusal is reported and then at most one summary every five minutes,
and a different token is tried at once. An `Attempt` is how the poller goes
about a call (`registry.rs`). Times are in milliseconds.
-/

namespace StormStorage

def MAX_BACKOFF : Nat := 300000

def REPORT_EVERY : Nat := 300000

structure Refusal where
  /-- The fingerprint of the token. -/
  token : Nat
  count : Nat
  retryAt : Nat
  reportedAt : Nat
  /-- Refusals since the last report. -/
  unreported : Nat
deriving DecidableEq, Repr

/-- What to say about a refusal just recorded. -/
inductive Report where
  /-- The first refusal of this engine, with this token. -/
  | first
  /-- Still refused: this many calls since the last report. -/
  | still (n : Nat)
  | quiet
deriving DecidableEq, Repr

/-- By engine, its URL without slashes at the end. -/
abbrev Refusals := KeyMap Refusal

namespace Refusals

/-- How long an engine is left alone after its `count`th refusal. -/
def backoff (interval count : Nat) : Nat := min (max interval 1000 * 2 ^ min count 16) MAX_BACKOFF

section

variable (hash : String → Nat)

def fingerprint (token : Option String) : Nat := hash (token.getD "")

/-- May this engine be called now with this token? -/
def mayCall (r : Refusals) (url : String) (token : Option String) (now : Nat) : Bool :=
  match r[trimSlashes url]? with
  | none => true
  | some x => x.token ≠ fingerprint hash token ∨ x.retryAt ≤ now

/-- How long until this engine is called next, if it is left alone. -/
def retryIn (r : Refusals) (url : String) (now : Nat) : Option Nat := r[trimSlashes url]?.map (·.retryAt - now)

/-- The engine refused the token. -/
def refused (r : Refusals) (url : String) (token : Option String) (interval now : Nat) : Report × Refusals :=
  let fp := fingerprint hash token
  let x := r[trimSlashes url]?.getD { token := fp, count := 0, retryAt := now, reportedAt := now, unreported := 0 }
  let first : Bool := x.count = 0 ∨ x.token ≠ fp
  let x := if first then { x with token := fp, count := 0, unreported := 0 } else x
  let x := { x with count := x.count + 1, retryAt := now + backoff interval (x.count + 1) }
  if first then (.first, r.insert (trimSlashes url) { x with reportedAt := now })
  else if x.reportedAt + REPORT_EVERY ≤ now then
    (.still (x.unreported + 1), r.insert (trimSlashes url) { x with reportedAt := now, unreported := 0 })
  else (.quiet, r.insert (trimSlashes url) { x with unreported := x.unreported + 1 })

/-- The engine answered; whether it had been refusing. -/
def accepted (r : Refusals) (url : String) : Bool × Refusals := (r.contains (trimSlashes url), r.erase (trimSlashes url))

end

/-! ## Calls -/

/-- How a call to an engine ended. -/
inductive Ending where
  | answered
  | refused
  /-- Not answered, or with another error. -/
  | failed
deriving DecidableEq, Repr

/-- What there is to say of a call. -/
inductive Note where
  /-- The engine accepts the token again. -/
  | acceptedAgain
  | refused (report : Report)
  | nothing
deriving DecidableEq, Repr

/-- Record how a call ended. -/
def noteOutcome (hash : String → Nat) (interval : Nat) (r : Refusals) (url : String) (token : Option String) (now : Nat) :
    Ending → Note × Refusals
  | .answered => let (was, r) := r.accepted url; (if was then .acceptedAgain else .nothing, r)
  | .refused => let (report, r) := refused hash r url token interval now; (.refused report, r)
  | .failed => (.nothing, r)

/-- A call to an engine that the poller wants at `asked`; if it is made, it ends
`how` at `at`. -/
structure Attempt where
  url : String
  token : Option String
  asked : Nat
  «at» : Nat
  how : Ending
deriving DecidableEq, Repr

/-- A call that was made, and what was said of it. -/
structure Call where
  engine : String
  token : Nat
  asked : Nat
  «at» : Nat
  how : Ending
  note : Note
deriving DecidableEq, Repr

/-- What is recorded of the engines, with the calls made, the last one first. -/
structure Caller where
  refusals : Refusals := ∅
  calls : List Call := []

/-- The call is made unless the engine refuses the token and is left alone. -/
def Caller.attempt (hash : String → Nat) (interval : Nat) (c : Caller) (a : Attempt) : Caller :=
  if c.refusals.mayCall hash a.url a.token a.asked then
    let (note, refusals) := noteOutcome hash interval c.refusals a.url a.token a.at a.how
    { refusals := refusals
      calls := { engine := trimSlashes a.url, token := fingerprint hash a.token, asked := a.asked, «at» := a.at,
                 how := a.how, note := note } :: c.calls }
  else c

def Caller.run (hash : String → Nat) (interval : Nat) (attempts : List Attempt) : Caller :=
  attempts.foldl (Caller.attempt hash interval) {}

end Refusals

end StormStorage
