import StormStorage.Await.Pool
import StormStorage.Etcd
import StormStorage.Store.Records

/-!
# The instances of a fleet and the store they share

Every instance of the fleet holds a federation state of its own, the records
it last wrote or loaded, and its role; all of them share one etcd. A request
goes through `Fleet.serve`. A call may be answered, may take effect while its
answer is lost, may never arrive, or may still be under way when the caller
gave it up.

`Fleet.log` is history that no program reads: what took effect, and what a
sync or a load saw.
-/

namespace StormStorage

open Await KeyMap

inductive Role where
  /-- Not yet in touch with the store. -/
  | starting
  | leader
  | follower
deriving DecidableEq, Repr

structure StoreStatus where
  role : Role := .starting
  leader : Option LeaderInfo := none
  leaseId : Option Nat := none
  /-- `create_revision` of the leader key this instance holds. -/
  leaderRevision : Option Nat := none
  /-- `mod_revision` of `meta` this instance's memory reflects. -/
  metaRevision : Nat := 0
  writes : Nat := 0
  loads : Nat := 0
  lastError : Option String := none
deriving DecidableEq, Repr

/-- One process: a restart is another life of the same instance. -/
structure Instance where
  status : StoreStatus := {}
  /-- The records as last written or loaded. -/
  written : Records := ∅
  /-- The task that holds `written`. -/
  held : Option Nat := none
  fed : FedState := {}
  life : Nat := 0
deriving DecidableEq

/-- A write of records that took effect: whose, under which guard, and the
leader key at that instant. -/
structure Write where
  «by» : String
  guard : Nat
  leader : Option Etcd.Kv
  ops : List Etcd.Op
deriving DecidableEq

/-- What a sync saw when it read the state it writes: under which leader
revision, the records it knew to be written, and those in the store. -/
structure Took where
  «by» : String
  rev : Nat
  fed : FedState
  written : Records
  stored : Records
deriving DecidableEq

inductive StoreEvent where
  /-- The leader key was created. -/
  | won («by» : String) (rev : Nat)
  | wrote (w : Write)
  | took (t : Took)
  /-- A sync answered Ok with these records in the store; whether the leader
  key was still its own. -/
  | synced (t : Took) (stored : Records) (leading : Bool)
  /-- A load read these records; whether the store held any state. -/
  | loaded («by» : String) (accepted : Bool) (records : Records)
  | leads («by» : String) (rev : Nat)
  /-- A request that its caller had given up took effect, sent when the store
  held these records. -/
  | arrived («by» : String) (stored : Records)
deriving DecidableEq

/-- A request given up by its caller that may still take effect. -/
structure Late where
  «by» : String
  req : Etcd.Request
  /-- The records in the store when it was sent. -/
  stored : Records
deriving DecidableEq

structure Fleet where
  etcd : Etcd.State
  inst : String → Instance
  late : List Late := []
  log : List StoreEvent := []

structure StoreConfig where
  keyPrefix : String
  endpoints : List String
  leaseTtlSecs : Nat
  /-- Each instance's `advertise_url`. -/
  url : String → String
  codecs : Codecs

/-! ## Keys and operations -/

namespace StoreConfig

variable (S : StoreConfig)

def key (k : String) : String := S.keyPrefix ++ k

/-- The guard on every write: the leader key is still the one this instance
created. -/
def guard (rev : Nat) : Etcd.Compare := { key := S.key "leader", createRevision := rev }

def putOp (k v : String) (lease : Option Nat) : Etcd.Op := .put (S.key k) v lease

def deleteOp (k : String) : Etcd.Op := .delete (S.key k)

/-- The transaction writes records, not the leader key alone. -/
def writesRecords (t : Etcd.Txn) : Bool := t.success.any fun o => o.key ≠ S.key "leader"

def leaderText (name : String) : String :=
  S.codecs.leaderInfo.toString { «instance» := name, url := S.url name }

end StoreConfig

def stripPrefix (start k : String) : Option String :=
  if start.toList.isPrefixOf k.toList then some (String.ofList (k.toList.drop start.toList.length)) else none

/-- The record that a key below the prefix holds: not `leader`, nor `meta`. -/
def recordAt (start k : String) : Option String :=
  match stripPrefix start k with
  | some "leader" | some "meta" | none => none
  | some k => some k

def recordsIn (start : String) (kvs : List (String × Etcd.Kv)) : Records :=
  gatherList (recordAt start) (·.value) kvs ∅

/-! ## The fleet's state -/

/-- What the environment decides of one attempt of a call. -/
inductive Net where
  | answered
  /-- No usable answer; the request took effect or not. `retry`: the next
  endpoint is asked. -/
  | lost (effect retry : Bool) (why : String)
  /-- No answer yet, and the caller gives up waiting for it. -/
  | late (retry : Bool) (why : String)
deriving DecidableEq, Repr

structure Choice where
  net : Net := .answered
  now : SystemTime := 0
  /-- Seconds since the lease was last renewed. -/
  since : Nat := 0
deriving DecidableEq, Repr

namespace Fleet

variable (S : StoreConfig)

/-- The records in the store, the leader and meta keys aside. -/
def records (w : Fleet) : Records := recordsIn S.keyPrefix (w.etcd.findPrefix S.keyPrefix)

/-- `create_revision` of the leader key, 0 when there is none. -/
def leaderKey (w : Fleet) : Nat := w.etcd.createRevision (S.key "leader")

def note (w : Fleet) (e : StoreEvent) : Fleet := { w with log := w.log ++ [e] }

/-- What a transaction that succeeded is, in the history. -/
def eventOf (who : String) (t : Etcd.Txn) (rev : Nat) (w : Fleet) : StoreEvent :=
  if S.writesRecords t then
    .wrote {
      «by» := who
      guard := (t.compare.head?.map (·.createRevision)).getD 0
      leader := w.etcd.kvs[S.key "leader"]?
      ops := t.success }
  else .won who rev

def serve (who : String) (req : Etcd.Request) (w : Fleet) : Fleet × Except String Etcd.Answer :=
  match w.etcd.handle req with
  | .error e => (w, .error e)
  | .ok (etcd, a) =>
    match req, a with
    | .txn t, .txn true rev _ => ({ w with etcd := etcd }.note (w.eventOf S who t rev), .ok a)
    | _, _ => ({ w with etcd := etcd }, .ok a)

def setInst (w : Fleet) (name : String) (f : Instance → Instance) : Fleet :=
  { w with inst := fun n => if n = name then f (w.inst n) else w.inst n }

end Fleet

/-- A task in a life of an instance, that ends with it. -/
structure Me where
  name : String
  life : Nat
  task : Nat
deriving DecidableEq, Repr

abbrev Job (α : Type) := Task Choice Fleet String α

namespace Me

variable (S : StoreConfig) (me : Me)

def alive (w : Fleet) : Bool := (w.inst me.name).life = me.life

/-- Read this instance. -/
def read {α : Type} (f : Instance → α) : Job α :=
  .await me.alive fun _ w => (f (w.inst me.name), w)

/-- Change this instance. -/
def update (f : Instance → Instance) : Job Unit :=
  .await me.alive fun _ w => ((), w.setInst me.name f)

def updateStatus (f : StoreStatus → StoreStatus) : Job Unit :=
  me.update fun i => { i with status := f i.status }

/-- `written.lock().await` -/
def lock : Job Records :=
  .await (fun w => me.alive w && (w.inst me.name).held.isNone)
    fun _ w => ((w.inst me.name).written, w.setInst me.name fun i => { i with held := some me.task })

def unlock : Job Unit := me.update fun i => { i with held := none }

/-- What one attempt leaves of the fleet. -/
def attempted (req : Etcd.Request) (net : Net) (w : Fleet) : Fleet :=
  match net with
  | .answered => (w.serve S me.name req).1
  | .lost effect _ _ => if effect then (w.serve S me.name req).1 else w
  | .late _ _ => { w with late := w.late ++ [{ «by» := me.name, req := req, stored := w.records S }] }

/-- POST to each endpoint in turn, until one answers or refuses. -/
def callFrom (req : Etcd.Request) : List String → List String → Job Etcd.Answer
  | [], errors => .fail ("no etcd endpoint answered: " ++ "; ".intercalate errors)
  | url :: urls, errors =>
    .step me.alive (fun ch w => me.attempted S req ch.net w) fun ch w =>
      match ch.net with
      | .answered =>
        match (w.serve S me.name req).2 with
        | .ok a => .ret a
        | .error e => .fail s!"{url}: {e}"
      | .lost _ retry why | .late retry why =>
        if retry then callFrom req urls (errors ++ [s!"{url}: {why}"]) else .fail s!"{url}: {why}"

def call (req : Etcd.Request) : Job Etcd.Answer := me.callFrom S req S.endpoints []

end Me

end StormStorage
