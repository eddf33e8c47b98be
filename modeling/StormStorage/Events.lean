import StormStorage.Model

/-!
# The event ring

What happened to which node or volume, and when: the last events, each with
its number (`events.rs`, `list_events` in `api/mod.rs`). A client that
`follow`s asks for what is newer than the last answer's newest.
-/

namespace StormStorage

inductive Severity where
  | info
  | warning
  | error
deriving DecidableEq, Repr

/-- What happened. -/
structure Happening where
  time : SystemTime
  /-- The node or the volume that the event is about. -/
  subject : Option String
  severity : Severity
  kind : String
  message : String
deriving DecidableEq

structure LoggedEvent extends Happening where
  seq : Nat
deriving DecidableEq

structure EventLog where
  nextSeq : Nat
  ring : List LoggedEvent
  cap : Nat

namespace EventLog

def new (cap : Nat) : EventLog := { nextSeq := 1, ring := [], cap := cap }

/-- Push at the end; a full ring loses its first. -/
def pushRing {α : Type} (cap : Nat) (ring : List α) (x : α) : List α :=
  (if ring.length = cap then ring.drop 1 else ring) ++ [x]

def push (log : EventLog) (h : Happening) : Nat × EventLog :=
  (log.nextSeq,
    { log with nextSeq := log.nextSeq + 1, ring := pushRing log.cap log.ring { h with seq := log.nextSeq } })

def since (log : EventLog) (since : Nat) : List LoggedEvent := log.ring.filter (since < ·.seq)

def latestSeq (log : EventLog) : Nat := log.nextSeq - 1

/-- The API's answer to a client that has the events up to `since`. -/
def listEvents (log : EventLog) (since : Nat) : Nat × List LoggedEvent := (log.latestSeq, log.since since)

/-- The log after all that happened. -/
def of (cap : Nat) (happened : List Happening) : EventLog := happened.foldl (fun log h => (log.push h).2) (new cap)

/-- What a client is answered that asks after each of the `batches`, always for
what is newer than the answer before. -/
def follow (log : EventLog) (asked : Nat) : List (List Happening) → List (List LoggedEvent)
  | [] => []
  | batch :: batches =>
    let log := batch.foldl (fun log h => (log.push h).2) log
    let (latest, events) := log.listEvents asked
    events :: follow log latest batches

end EventLog

end StormStorage
