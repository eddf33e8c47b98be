import StormStorage.Chunks
import StormStorage.Store.Fleet

/-!
# Writing, loading and leading

`sync` writes what changed, in guarded transactions of at most `txnOps`
operations; `load` takes the store's records; `tryStep` is one round of an
instance: renew or campaign, then follow. `stormstorage` is the system of all
instances, with their state changing under them, leases ending, late requests
arriving and instances restarting at any moment.
-/

namespace StormStorage

open Await KeyMap

/-- Operations per transaction. -/
def txnOps : Nat := 100

/-! ## What a range of the prefix holds -/

def metaIn (c : Codecs) (start : String) (kvs : List (String × Etcd.Kv)) :
    Except String (Option (Meta × Nat)) :=
  match kvs.find? fun p => stripPrefix start p.1 = some "meta" with
  | none => .ok none
  | some (_, kv) => (c.metaRecord.fromStr kv.value).map fun m => some (m, kv.modRevision)

variable (S : StoreConfig)

/-- What a sync would send. -/
def Instance.pending (i : Instance) : List Op := diff i.written (recordsOf S.codecs i.fed)

/-- Replace memory with what the range of the prefix found; whether the store
held any state. -/
def Instance.load (kvs : List (String × Etcd.Kv)) (i : Instance) : Except String (Bool × Instance) := do
  let records := recordsIn S.keyPrefix kvs
  match ← metaIn S.codecs S.keyPrefix kvs with
  | none => pure (false, i)
  | some (m, rev) =>
    let fed ← applyRecords S.codecs i.fed records
    pure (true, { i with
      fed := { fed with revision := m.revision }
      written := records
      status := { i.status with metaRevision := rev, loads := i.status.loads + 1 } })

def recordOp : Op → Etcd.Op
  | .put k v => S.putOp k v none
  | .delete k => S.deleteOp k

/-- Records written under the guard, and `meta` with them. -/
def syncTxn (rev : Nat) (metaText : String) (chunk : List Op) : Etcd.Txn where
  compare := [S.guard rev]
  success := chunk.map (recordOp S) ++ [S.putOp "meta" metaText none]
  failure := []

/-- The leader key created, only if there is none. -/
def campaignTxn (who : String) (lease : Nat) : Etcd.Txn where
  compare := [S.guard 0]
  success := [S.putOp "leader" (S.leaderText who) (some lease)]
  failure := [S.key "leader"]

namespace Me

variable (me : Me)

def stepDown (why : String) : Job Unit :=
  me.updateStatus fun s => { s with
    role := .follower
    leaseId := none
    leaderRevision := none
    leader := none
    -- reload from the store on the next step
    metaRevision := 0
    lastError := some why }

/-! ## Writes -/

/-- What this instance knows after a transaction succeeded. -/
def wrote (chunk : List Op) (metaRev : Nat) (i : Instance) : Instance :=
  { i with
    written := chunk.foldl (fun m e => e.applyMap m) i.written
    status := { i.status with metaRevision := metaRev, writes := i.status.writes + 1, lastError := none } }

/-- The sync is done: `written` is let go. -/
def finish (t : Took) : Job Unit :=
  .await me.alive fun _ w =>
    ((), (w.setInst me.name fun i => { i with held := none }).note
      (.synced t (w.records S) (w.leaderKey S = t.rev)))

def syncChunks (t : Took) (metaText : String) : List (List Op) → Job Unit
  | [] => me.finish S t
  | chunk :: rest => do
    match ← (me.call S (.txn (syncTxn S t.rev metaText chunk))).attempt with
    | .error e => do
      me.updateStatus fun s => { s with lastError := some ("write: " ++ e) }
      me.unlock
      .fail e
    | .ok (.txn true metaRev _) => do
      me.update (wrote chunk metaRev)
      syncChunks t metaText rest
    | .ok _ => do
      me.unlock
      me.stepDown "the leader key is no longer this instance's: a write was refused"
      .fail "not the leader any more"

/-- The state read, what changed is written. -/
def syncLocked (rev : Nat) (written : Records) : Job Unit := do
  let (t, now) ← Task.await me.alive fun ch w =>
    let t : Took := {
      «by» := me.name
      rev := rev
      fed := (w.inst me.name).fed
      written := written
      stored := w.records S }
    ((t, ch.now), w.note (.took t))
  let ops := diff written (recordsOf S.codecs t.fed)
  if ops.isEmpty then me.finish S t
  else
    let metaText := S.codecs.metaRecord.toString { revision := t.fed.revision, «by» := me.name, «at» := now }
    me.syncChunks S t metaText (chunks txnOps ops)

/-- Write what changed since the last write, if this instance leads. -/
def sync : Job Unit := do
  match ← me.read fun i => if i.status.role = .leader then i.status.leaderRevision else none with
  | none => pure ()
  | some rev => do
    let written ← me.lock
    me.syncLocked S rev written

/-! ## Loading -/

/-- Replace memory with the store's records; whether it held any state. -/
def load : Job Bool := do
  let _ ← me.lock
  match ← (me.call S (.rangePrefix S.keyPrefix)).attempt with
  | .ok (.kvs kvs) => do
    let r ← Task.await me.alive fun _ w =>
      match (w.inst me.name).load S kvs with
      | .ok (loaded, i) =>
        (.ok loaded, (w.setInst me.name fun _ => i).note
          (.loaded me.name loaded (recordsIn S.keyPrefix kvs)))
      | .error e => (.error e, w)
    me.unlock
    .ofExcept r
  | .ok _ => do
    me.unlock
    pure false
  | .error e => do
    me.unlock
    .fail e

/-! ## Leading -/

def holderIn (kvs : List (String × Etcd.Kv)) : Option LeaderInfo :=
  kvs.head?.bind fun p => (S.codecs.leaderInfo.fromStr p.2.value).toOption

def followHolder (kvs : List (String × Etcd.Kv)) : Job Unit :=
  me.updateStatus fun s => { s with role := .follower, leader := holderIn S kvs }

def lead (lease created : Nat) : Job Unit :=
  .await me.alive fun _ w =>
    ((), (w.setInst me.name fun i => { i with status := { i.status with
      role := .leader
      leaseId := some lease
      leaderRevision := some created
      leader := some { «instance» := me.name, url := S.url me.name }
      lastError := none } }).note (.leads me.name created))

/-- The election is won: take the store's state before acting on it; an empty
store takes ours. -/
def takeOffice (lease created : Nat) : Job Unit := do
  match ← (me.load S).attempt with
  | .error e => do
    let _ ← (me.call S (.leaseRevoke lease)).attempt
    .fail ("loading the store after winning the election: " ++ e)
  | .ok loaded => do
    me.lead S lease created
    if loaded then me.sync S
    else do
      let _ ← me.lock
      me.update fun i => { i with written := ∅ }
      me.unlock
      me.sync S

def campaign : Job Unit := do
  match ← me.call S (.range (S.key "leader")) with
  | .kvs (kv :: kvs) => me.followHolder S (kv :: kvs)
  | _ => do
    match ← me.call S (.leaseGrant S.leaseTtlSecs) with
    | .lease lease _ => do
      match ← (me.call S (.txn (campaignTxn S me.name lease))).attempt with
      | .error e => do
        let _ ← (me.call S (.leaseRevoke lease)).attempt
        .fail e
      | .ok (.txn true created _) => me.takeOffice S lease created
      | .ok a => do
        let _ ← (me.call S (.leaseRevoke lease)).attempt
        me.followHolder S (match a with
          | .txn _ _ found => found
          | _ => [])
    | _ => .fail "lease grant: no ID"

/-- A follower reloads when `meta` moved. -/
def follow : Job Unit := do
  let a ← me.call S (.range (S.key "meta"))
  let metaRev := match a with
    | .kvs ((_, kv) :: _) => kv.modRevision
    | _ => 0
  if metaRev = 0 then pure ()
  else
    let known ← me.read fun i => i.status.metaRevision
    if metaRev = known then pure ()
    else do
      let _ ← me.load S
      pure ()

/-- The leader renews its lease; one that cannot for two thirds of it steps down. -/
def renew (lease : Nat) : Job Unit := do
  match ← (me.call S (.leaseKeepAlive lease)).attempt with
  | .ok (.lease _ (_ + 1)) => pure ()
  | .ok _ => me.stepDown "its lease expired"
  | .error e => do
    let since ← Task.await me.alive fun ch w => (ch.since, w)
    if since ≥ S.leaseTtlSecs * 2 / 3 then
      me.stepDown s!"could not renew its lease for {since}s: {e}"
    .fail e

def tryStep : Job Unit := do
  let st ← me.read (·.status)
  if st.role = .leader then me.renew S (st.leaseId.getD 0)
  else do
    me.campaign S
    let role ← me.read (·.status.role)
    if role = .leader then pure () else me.follow S

/-- One round: renew or campaign, then follow. -/
def step : Job Unit := do
  match ← (me.tryStep S).attempt with
  | .ok () => pure ()
  | .error e => me.updateStatus fun s => { s with lastError := some e }

end Me

/-! ## The fleet -/

inductive StoreOp where
  | sync (name : String) (life : Nat)
  | step (name : String) (life : Nat)

inductive StoreEnv where
  /-- An operation of the API or the reconciler changed the state. -/
  | change (name : String) (fed : FedState)
  | expire (lease : Nat)
  | arrive (n : Nat)
  | restart (name : String) (fed : FedState)

namespace Fleet

/-- A late request takes effect after all. -/
def arrive (n : Nat) (w : Fleet) : Fleet :=
  match w.late[n]? with
  | some l => (({ w with late := w.late.eraseIdx n }.note (.arrived l.by l.stored)).serve S l.by l.req).1
  | none => w

def env : StoreEnv → Fleet → Fleet
  | .change name fed, w => w.setInst name fun i => { i with fed := fed }
  | .expire lease, w => { w with etcd := w.etcd.endLease lease }
  | .arrive n, w => w.arrive S n
  | .restart name fed, w => w.setInst name fun i => { fed := fed, life := i.life + 1 }

end Fleet

def fleet : System Choice Fleet String where
  Op := StoreOp
  Env := StoreEnv
  prog
    | t, .sync name life => ({ name := name, life := life, task := t } : Me).sync S
    | t, .step name life => ({ name := name, life := life, task := t } : Me).step S
  env := Fleet.env S

end StormStorage
