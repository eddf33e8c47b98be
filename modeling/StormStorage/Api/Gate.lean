import Mathlib.Algebra.GroupWithZero.Nat
import StormStorage.Credentials
import StormStorage.Store.Fleet

/-!
# The API's gate

Every request passes `forward_writes` (`store.rs`) and then `require_token`
(`api/auth.rs`) before a handler runs: a follower of a fleet store sends a write
on to the leader it knows of, once, and a write needs the API's token.
`Gateway` is the instances with the requests on their way between them, while
their roles change.
-/

namespace StormStorage.Api

inductive Method where
  | get
  | head
  | options
  | post
  | put
  | delete
deriving DecidableEq, Repr

/-- A request; header names are in lower case. -/
structure Request where
  method : Method
  path : String
  query : Option String := none
  headers : KeyMap String := ∅
  body : List UInt8 := []
deriving DecidableEq

def Method.reads (m : Method) : Bool := m = .get ∨ m = .head ∨ m = .options

/-! ## The token -/

/-- Paths that stay open to a write when a token is set. -/
def OPEN_WRITES : List String :=
  ["/api/v1/placement/plan", "/api/v1/storage/register", "/api/v1/storage/deregister"]

/-- Does this request need the token? -/
def guarded (method : Method) (path : String) : Bool := !method.reads && path ∉ OPEN_WRITES

def bytes (s : String) : List UInt8 := s.toByteArray.data.toList

/-- Compare without leaking how long a matching prefix was. -/
def same (a b : List UInt8) : Bool :=
  a.length = b.length && (a.zip b).foldl (fun acc p => acc ||| (p.1 ^^^ p.2)) 0 = 0

/-- `HeaderValue::to_str`: visible ASCII, blanks and tabs. -/
def headerText (v : String) : Option String :=
  if v.toList.all fun c => (32 ≤ c.toNat ∧ c.toNat < 127) ∨ c = '\t' then some v else none

/-- The bearer token that comes with the request. -/
def Request.presented (req : Request) : Option String :=
  ((req.headers["authorization"]?.bind headerText).bind fun v =>
    if "Bearer ".toList <+: v.toList then some (String.ofList (v.toList.drop 7)) else none).map trimText

inductive Verdict where
  /-- The handler runs. -/
  | run
  | answer (status : Nat) (code : String)
  | forward (url : String) (req : Request)

def requireToken (apiToken : String) (req : Request) : Verdict :=
  if apiToken = "" ∨ ¬ guarded req.method req.path then .run
  else if req.presented.any fun t => same (bytes t) (bytes apiToken) then .run
  else .answer 401 "unauthorized"

/-! ## Writes go to the leader -/

def FORWARDED : String := "x-stormstorage-forwarded"

def MAX_FORWARD : Nat := 16 * 2 ^ 20

/-- One process, as the gate sees it; `store` is none without a fleet store. -/
structure Server where
  inst : String
  apiToken : String
  store : Option StoreStatus
deriving DecidableEq

def copyHeader (headers out : KeyMap String) (name : String) : KeyMap String :=
  match headers[name]? with
  | some v => out.insert name v
  | none => out

/-- The request with the headers that are passed on. -/
def Request.passedOn (req : Request) (inst : String) : Request :=
  { req with headers :=
      ["authorization", "content-type", "accept"].foldl (copyHeader req.headers) ((∅ : KeyMap String).insert FORWARDED inst) }

/-- Does a request that arrives here stay here? -/
def Server.keeps (s : Server) (req : Request) : Bool :=
  match s.store with
  | none => true
  | some store => req.method.reads || !("/api/".toList <+: req.path.toList) || store.role = .leader

/-- What the gate makes of a request. -/
def Server.gate (s : Server) (req : Request) : Verdict :=
  if s.keeps req then requireToken s.apiToken req
  else if req.headers.contains FORWARDED then .answer 503 "not_leader"
  else match s.store.bind (·.leader) with
    | none => .answer 503 "no_leader"
    | some leader =>
      if MAX_FORWARD < req.body.length then .answer 413 "" else .forward leader.url (req.passedOn s.inst)

/-! ## Requests on their way -/

/-- A request on its way to the instance at `url`, as number `id`. -/
structure Flight where
  id : Nat
  url : String
  req : Request

/-- A request whose handler ran, with the instance as it was then. -/
structure Ran where
  id : Nat
  server : Server
  req : Request

structure Gateway where
  /-- The instances, by URL. -/
  servers : KeyMap Server := ∅
  /-- What the clients asked for; the number of each is its place. -/
  asked : List Request := []
  flights : List Flight := []
  ran : List Ran := []
  /-- What was answered without a run, with its status. -/
  answered : List (Nat × Nat) := []

namespace Gateway

inductive Move where
  /-- An instance starts, or its role changes. -/
  | turn (url : String) (s : Server)
  /-- A client sends a request to an instance. -/
  | ask (url : String) (req : Request)
  /-- The request at this place of `flights` arrives. -/
  | arrive (n : Nat)
  /-- It does not. -/
  | lose (n : Nat)

variable (w : Gateway)

def arrive (n : Nat) : Gateway :=
  match w.flights[n]? with
  | none => w
  | some f =>
    let w := { w with flights := w.flights.eraseIdx n }
    match w.servers[f.url]? with
    | none => { w with answered := (f.id, 502) :: w.answered }
    | some s =>
      match s.gate f.req with
      | .run => { w with ran := { id := f.id, server := s, req := f.req } :: w.ran }
      | .answer status _ => { w with answered := (f.id, status) :: w.answered }
      | .forward url req => { w with flights := { id := f.id, url := url, req := req } :: w.flights }

def step (w : Gateway) : Move → Gateway
  | .turn url s => { w with servers := w.servers.insert url s }
  | .ask url req =>
    { w with asked := w.asked ++ [req], flights := { id := w.asked.length, url := url, req := req } :: w.flights }
  | .arrive n => w.arrive n
  | .lose n =>
    match w.flights[n]? with
    | none => w
    | some f => { w with flights := w.flights.eraseIdx n, answered := (f.id, 502) :: w.answered }

def run (moves : List Move) : Gateway := moves.foldl step {}

end Gateway

end StormStorage.Api
