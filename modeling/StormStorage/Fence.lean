import StormStorage.Await.Pool

/-!
# Fencing a leg on its engine

A leg's engine keeps the volume's epoch. A fence is a compare-and-swap on it
(`/v1/volumes/{id}/fence`), and an attach that names another epoch is refused,
so that a head that was fenced off cannot come back (`engine.rs`). `fence_leg`
reads the epoch and swaps it one up, once more from the epoch it is told when
another fence came between.

What a call meets on its way is a `Fate`. `Leg.log` records what happened.
-/

namespace StormStorage.LegFence

open Await

/-! ## The engine -/

inductive Event where
  /-- The epoch that a fence read first. -/
  | read (me epoch : Nat)
  /-- A fence, or someone else's, brought the volume to this epoch. -/
  | raised (who : Option Nat) (epoch : Nat)
  /-- A call of a fence was not answered as it should be. -/
  | missed (me : Nat)
  /-- What a fence came to. -/
  | told (me : Nat) (r : Except String Nat)
  /-- An attach was let in; the epoch it named. -/
  | attached (epoch : Option Nat)

/-- The leg's volume on its engine. -/
structure Leg where
  epoch : Nat
  log : List Event := []

def Leg.note (s : Leg) (e : Event) : Leg := { s with log := s.log ++ [e] }

def Leg.raise (s : Leg) (who : Option Nat) : Leg where
  epoch := s.epoch + 1
  log := s.log ++ [.raised who (s.epoch + 1)]

/-- A call's way to the engine and back. -/
inductive Fate where
  | answered
  /-- Answered, and the body cannot be read. -/
  | garbled
  /-- No answer; the call reached the engine or did not. -/
  | lost (reached : Bool)
  /-- Refused, or failed before it did anything. -/
  | failed (status : Nat) (body : Option String)

def Fate.reached : Fate → Bool
  | .answered => true
  | .garbled => true
  | .lost reached => reached
  | .failed _ _ => false

/-- An answer: its status, its body if that is JSON, and what it has of epochs. -/
structure Response where
  status : Nat
  body : Option String := none
  epoch : Option Nat := none
  currentEpoch : Option Nat := none

/-- What comes back when the engine answers so. -/
def Fate.back (r : Response) : Fate → Option Response
  | .answered => some r
  | .garbled => some { status := r.status }
  | .lost _ => none
  | .failed status body => some { status := status, body := body }

def Fate.noted (me : Nat) (s : Leg) : Fate → Leg
  | .answered => s
  | _ => s.note (.missed me)

/-- `GET /v1/volumes/{id}`. -/
def getVolume (s : Leg) : Response where
  status := 200
  body := some s!"epoch {s.epoch}"
  epoch := some s.epoch

/-- `POST /v1/volumes/{id}/fence`. -/
def postFence (expected : Nat) (s : Leg) : Response :=
  if expected = s.epoch then { status := 200, body := some s!"epoch {s.epoch + 1}", epoch := some (s.epoch + 1) }
  else { status := 412, body := some s!"stale_epoch {s.epoch}", currentEpoch := some s.epoch }

/-! ## The calls -/

inductive FenceOutcome where
  | fenced (epoch : Nat)
  | stale (epoch : Nat)
deriving DecidableEq, Repr

/-- An error status, of a client or a server. -/
def errorStatus (status : Nat) : Bool := 400 ≤ status ∧ status < 600

def success (status : Nat) : Bool := 200 ≤ status ∧ status < 300

abbrev Call := Await.Task Fate Leg String

def readEpoch (id : String) : Option Response → Except String Nat
  | none => .error s!"/v1/volumes/{id}: no answer"
  | some r =>
    if errorStatus r.status then .error s!"/v1/volumes/{id}: {r.status}"
    else match r.body, r.epoch with
      | none, _ => .error s!"/v1/volumes/{id}: error decoding response body"
      | some _, some e => .ok e
      | some v, none => .error s!"volume {id}: no epoch in {v}"

def readFence (path : String) : Option Response → Except String FenceOutcome
  | none => .error s!"{path}: no answer"
  | some r =>
    if r.status = 401 ∨ r.status = 403 then
      .error s!"engine refused {path}: {r.status} (engine token missing or wrong)"
    else if r.status = 412 ∧ r.currentEpoch.isSome then .ok (.stale (r.currentEpoch.getD 0))
    else
      let out := r.body.getD "null"
      if ¬ success r.status then .error s!"{path}: {r.status}: {out}"
      else match r.epoch with
        | some e => .ok (.fenced e)
        | none => .error s!"{path}: no epoch in {out}"

def v1Epoch (me : Nat) (id : String) : Call Nat :=
  .step (fun _ => true) (fun i s => i.noted me (s.note (.read me s.epoch))) fun i s =>
    .ofExcept (readEpoch id (i.back (getVolume s)))

def v1Fence (me : Nat) (id : String) (expected : Nat) : Call FenceOutcome :=
  .step (fun _ => true)
    (fun i s => i.noted me (if i.reached ∧ expected = s.epoch then s.raise (some me) else s)) fun i s =>
    .ofExcept (readFence s!"/v1/volumes/{id}/fence" (i.back (postFence expected s)))

def keptMoving (id : String) : String := s!"fence {id}: epoch kept moving"

/-- The rounds of the compare-and-swap, each from the epoch the last was told. -/
def fenceRounds (me : Nat) (id : String) : Nat → Nat → Call Nat
  | 0, _ => .fail (keptMoving id)
  | rounds + 1, expected => do
    match ← v1Fence me id expected with
    | .fenced e => return e
    | .stale c => fenceRounds me id rounds c

/-- The leg's own epoch after it was fenced. -/
def fenceLeg (me : Nat) (id : String) : Call Nat := do
  let expected ← v1Epoch me id
  fenceRounds me id 2 expected

/-- An attach is let in unless it names another epoch than the volume's. -/
def attachLeg (epoch : Option Nat) : Call Unit :=
  .step (fun _ => true)
    (fun i s => if i.reached ∧ epoch.all (· = s.epoch) then s.note (.attached epoch) else s) fun _ _ => .ret ()

/-! ## Side by side -/

inductive Request where
  | fence
  | attach (epoch : Option Nat)

def program (id : String) (me : Nat) : Request → Call Unit
  | .fence => do
    let r ← (fenceLeg me id).attempt
    Await.Task.modify (·.note (.told me r))
  | .attach epoch => attachLeg epoch

/-- Any number of fences and attaches of one leg, and others that fence it. -/
def calls (id : String) : System Fate Leg String where
  Op := Request
  Env := Unit
  prog := program id
  env _ s := s.raise none

end StormStorage.LegFence
