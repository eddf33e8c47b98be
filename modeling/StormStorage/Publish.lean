import StormStorage.Kube

/-!
# The published Endpoints

While an instance leads, it keeps an Endpoints object of the apiserver on its
own address, asked every round (`keep_endpoints` in `kube.rs`, `publish` in
`store.rs`). A round reads the object and sends it back changed, with the
`resourceVersion` it read. Meanwhile other instances that take themselves for
the leader do the same, and others edit or delete it: `Publication`.
-/

namespace StormStorage.Kube

/-! ## JSON -/

namespace Value

/-- `v["k"] = x`. The source stops at a value that is no object and not null;
an apiserver's objects have none in these places. -/
def setField (v : Value) (k : String) (x : Value) : Value :=
  match v with
  | object fields =>
    object (if fields.any (·.1 = k) then fields.map fun p => if p.1 = k then (k, x) else p else fields ++ [(k, x)])
  | null => object [(k, x)]
  | v => v

def isObject : Value → Bool
  | object _ => true
  | _ => false

/-- The elements of an array; none of anything else. -/
def items (v : Value) : List Value := v.asArray.getD []

def isPort (port : Nat) : Value → Bool
  | number text => text = Nat.repr port
  | _ => false

end Value

/-! ## A round -/

def LEADER_ANNOTATION : String := "stormstorage.storm.io/leader"

def annotations (ep : Value) : Value := (ep.field "metadata").field "annotations"

/-- Whether an Endpoints object already says this address, port and leader. -/
def endpointsSay (ep : Value) (ip : String) (port : Nat) (leader : String) : Bool :=
  match (ep.field "subsets").items with
  | [one] =>
    (match (one.field "addresses").items with
      | [a] => (a.field "ip").asStr = some ip
      | _ => false) &&
    (match (one.field "ports").items with
      | [p] => (p.field "port").isPort port
      | _ => false) &&
    (one.field "notReadyAddresses").items.isEmpty &&
    ((annotations ep).field LEADER_ANNOTATION).asStr = some leader
  | _ => false

def subsetsOf (ip : String) (port : Nat) : Value :=
  .array [.object [
    ("addresses", .array [.object [("ip", .string ip)]]),
    ("ports", .array [.object [("port", .number (Nat.repr port)), ("protocol", .string "TCP")]])]]

/-- The object where there is none yet. -/
def newEndpoints (ns name ip : String) (port : Nat) (leader : String) : Value :=
  .object [
    ("apiVersion", .string "v1"),
    ("kind", .string "Endpoints"),
    ("metadata", .object [
      ("name", .string name),
      ("namespace", .string ns),
      ("annotations", .object [(LEADER_ANNOTATION, .string leader)])]),
    ("subsets", subsetsOf ip port)]

/-- The object that was read, saying `ip:port` and nothing else. -/
def withEndpoints (ep : Value) (ip : String) (port : Nat) (leader : String) : Value :=
  let ep := ep.setField "subsets" (subsetsOf ip port)
  let ep := if (annotations ep).isObject then ep
    else ep.setField "metadata" ((ep.field "metadata").setField "annotations" (.object []))
  ep.setField "metadata" ((ep.field "metadata").setField "annotations"
    ((annotations ep).setField LEADER_ANNOTATION (.string leader)))

inductive Verb where
  | post
  | put
deriving DecidableEq, Repr

/-- What a round sends after its read: nothing if the object says it already. -/
def endpointsRequest (ns name ip : String) (port : Nat) (leader : String) : Option Value → Option (Verb × Value)
  | none => some (.post, newEndpoints ns name ip port leader)
  | some ep => if endpointsSay ep ip port leader then none else some (.put, withEndpoints ep ip port leader)

/-! ## The apiserver -/

/-- The object, and how often it was written. -/
structure ApiServer where
  version : Nat := 0
  object : Option Value := none

namespace ApiServer

def versionOf (ep : Value) : Value := (ep.field "metadata").field "resourceVersion"

/-- An answer carries the version. -/
def get (s : ApiServer) : Option Value :=
  s.object.map fun ep => ep.setField "metadata"
    ((ep.field "metadata").setField "resourceVersion" (.string (Nat.repr s.version)))

def write (s : ApiServer) (ep : Option Value) : ApiServer := { version := s.version + 1, object := ep }

/-- A post makes an object; a put replaces the one of its version, or whichever
there is if it names none. Whether it was done. -/
def handle (s : ApiServer) : Verb × Value → Bool × ApiServer
  | (.post, ep) => if s.object.isSome then (false, s) else (true, s.write (some ep))
  | (.put, ep) =>
    if s.object.isSome ∧ ((versionOf ep).text.all (· = Nat.repr s.version)) then (true, s.write (some ep)) else (false, s)

end ApiServer

/-! ## Instances and editors -/

/-- A round that has read the object, and what it is to say. -/
structure Round where
  ip : String
  port : Nat
  sending : Verb × Value

structure Publication where
  server : ApiServer := {}
  /-- The round of each instance that has something to send. -/
  rounds : KeyMap Round := ∅

namespace Publication

inductive Move where
  /-- An instance that takes itself for the leader reads the object. -/
  | read (inst ip : String) (port : Nat)
  /-- What it sends arrives. -/
  | send (inst : String)
  /-- Somebody else writes the object, or deletes it. -/
  | edit (ep : Option Value)

variable (ns name : String) (w : Publication)

def read (inst ip : String) (port : Nat) : Publication :=
  match endpointsRequest ns name ip port inst w.server.get with
  | none => { w with rounds := w.rounds.erase inst }
  | some sending => { w with rounds := w.rounds.insert inst { ip := ip, port := port, sending := sending } }

def send (inst : String) : Publication :=
  match w.rounds[inst]? with
  | none => w
  | some r => { server := (w.server.handle r.sending).2, rounds := w.rounds.erase inst }

def step (w : Publication) : Move → Publication
  | .read inst ip port => w.read ns name inst ip port
  | .send inst => w.send inst
  | .edit ep => { w with server := w.server.write ep }

def run (w : Publication) (moves : List Move) : Publication := moves.foldl (step ns name) w

end Publication

end StormStorage.Kube
