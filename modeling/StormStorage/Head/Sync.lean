import StormStorage.Orchestrate.Replacement

/-!
# How in sync the copies are

Every copy of a volume and its sync state (`replicas`), over a reading of the
head's array. When the head cannot be read, the superblocks it wrote into the
surviving legs stand in for it (`fromSuperblocks`).
-/

namespace StormStorage.Head

open Orchestrate

/-! ## Superblocks -/

/-- One slot of a leg's superblock. -/
structure SlotRecord where
  memberUuid : String
  state : String
  rebuiltTo : Nat
deriving DecidableEq, Repr

/-- The superblock a head wrote into a leg. -/
structure LegSuperblock where
  arrayUuid : String
  /-- The member this leg is. -/
  memberUuid : String
  events : Nat
  dataSize : Nat
  slots : List SlotRecord
deriving DecidableEq, Repr

/-- A slot as an engine answers it. -/
structure SlotBody where
  memberUuid : Option String
  state : Option String
  rebuiltTo : Option Nat := none
deriving DecidableEq, Repr

/-- A superblock as an engine answers it. -/
structure SuperblockBody where
  arrayUuid : Option String
  memberUuid : Option String
  events : Option Nat
  dataSize : Option Nat := none
  slots : List SlotBody := []
deriving DecidableEq, Repr

def parseSlot (b : SlotBody) : Option SlotRecord := do
  let member ← b.memberUuid
  let state ← b.state
  return { memberUuid := member.toLower, state := state.toLower, rebuiltTo := b.rebuiltTo.getD 0 }

/-- None for a body that is not a superblock. -/
def parseSuperblock (b : SuperblockBody) : Option LegSuperblock := do
  let array ← b.arrayUuid
  let member ← b.memberUuid
  let events ← b.events
  return {
    arrayUuid := array.toLower
    memberUuid := member.toLower
    events := events
    dataSize := b.dataSize.getD 0
    slots := b.slots.filterMap parseSlot }

def stateRank (state : String) : Nat :=
  if state = "active" then 2 else if state = "rebuilding" then 1 else 0

/-- The state so far with one more superblock's record: the worst wins. -/
def agree (out : Option (String × Nat)) (r : SlotRecord) : String × Nat :=
  match out with
  | none => (r.state, r.rebuiltTo)
  | some (state, rebuilt) =>
    if stateRank r.state < stateRank state then (r.state, r.rebuiltTo)
    else if r.state = state then (state, min rebuilt r.rebuiltTo)
    else (state, rebuilt)

/-- The state a set of superblocks gives a member; one that does not list it
means that it was taken out. -/
def agreedState (member : String) (out : Option (String × Nat)) : List LegSuperblock → String × Nat
  | [] => out.getD ("removed", 0)
  | sb :: rest =>
    match sb.slots.find? (·.memberUuid = member) with
    | none => ("removed", 0)
    | some r => agreedState member (some (agree out r)) rest

/-- A last reading of this head and array, if it was live. -/
def liveReading (head arrayId : String) (last : Option ArrayReading) : Option ArrayReading :=
  last.filter fun r => r.source = .head ∧ r.head = head ∧ r.arrayId = arrayId

/-- A superblock's own evidence of its member. -/
def ownState (floor : Option Nat) (top : Nat) (newest : List LegSuperblock) (sb : LegSuperblock) : String × Nat :=
  if sb.events < top ∨ floor.any (sb.events < ·) then ("stale", 0) else agreedState sb.memberUuid none newest

/-- A member with no newer evidence than the last live reading, which must
agree. -/
def agreeWith (live : ArrayReading) (member : String) (own : String × Nat) : String × Nat :=
  match live.members.find? fun m => m.uuid.toLower = member.toLower with
  | none => ("removed", own.2)
  | some m =>
    if m.state = "active" then own
    else if own.1 = "active" ∨ own.1 = "rebuilding" ∧ m.state ≠ "rebuilding" then (m.state, m.rebuiltBytes.getD 0)
    else own

def memberFrom (last : Option ArrayReading) (top : Nat) (newest : List LegSuperblock) (sb : LegSuperblock) :
    MemberReading :=
  let floor := last.bind (·.events)
  let own := ownState floor top newest sb
  let newer := floor.any (· < sb.events)
  let (state, rebuilt) := match last.filter fun _ => ¬ newer with
    | none => own
    | some live => agreeWith live sb.memberUuid own
  { uuid := sb.memberUuid, devicePath := "", state := state, rebuiltBytes := some rebuilt }

/-- A reading of a volume's array from its surviving legs' superblocks, for when
the head cannot be read. -/
def fromSuperblocks (vol : DistVolume) (last : Option ArrayReading) (sbs : List LegSuperblock) : Option ArrayReading := do
  let head ← vol.head
  let arrayId ← vol.arrayId
  let last := liveReading head arrayId last
  let ours := sbs.filter fun s => s.arrayUuid.toLower = arrayId.toLower
  let top ← (ours.map (·.events)).max?
  let newest := ours.filter (·.events = top)
  return {
    head := head
    arrayId := arrayId
    memberDataBytes := ((last.map (·.memberDataBytes)).filter (0 < ·)).getD ((newest.map (·.dataSize)).max?.getD 0)
    members := ours.map (memberFrom last top newest)
    events := some top
    source := .superblock }

/-! ## Copies -/

inductive SyncState where
  | inSync
  /-- The progress, in tenths of a percent. -/
  | resyncing (progress lagBytes : Nat)
  /-- No usable copy, or nothing read that says otherwise. -/
  | detached
deriving DecidableEq, Repr

inductive Role where
  /-- The leg on the head node. -/
  | master
  | slave
deriving DecidableEq, Repr

structure Replica where
  node : String
  role : Role
  sync : SyncState
deriving DecidableEq, Repr

def memberSync (m : MemberReading) (dataBytes : Nat) : SyncState :=
  if m.state = "active" then .inSync
  else if m.state = "rebuilding" then
    let done := min (m.rebuiltBytes.getD 0) dataBytes
    -- rounded to a tenth, the half up
    let progress := if dataBytes = 0 then 0 else (2 * (done * 1000) + dataBytes) / (2 * dataBytes)
    .resyncing progress (dataBytes - done)
  else .detached

/-- The legs and the one being added. -/
def copies (vol : DistVolume) : List Leg := vol.legs ++ (vol.replacing.map (·.leg)).toList

def syncOf (vol : DistVolume) (reading : Option ArrayReading) (leg : Leg) : SyncState :=
  if leg.state ≠ .created then .detached
  else
    match vol.assembly with
    | .singleLeg => .inSync
    | .pendingEngineSupport | .clone => .detached
    | .assembled | .degraded =>
      (reading.bind fun r => (memberOf leg r).map fun m => memberSync m r.memberDataBytes).getD .detached

/-- Every copy of a volume and how in sync it is. Without a reading of its head
and array every mirrored leg is detached. -/
def replicas (vol : DistVolume) (reading : Option ArrayReading) : List Replica :=
  let reading := reading.filter fun r => some r.head = vol.head ∧ some r.arrayId = vol.arrayId
  let master := if vol.assembly = .assembled ∨ vol.assembly = .degraded then vol.head else vol.legs.head?.map (·.node)
  (copies vol).map fun leg =>
    { node := leg.node
      role := if some leg.node = master then .master else .slave
      sync := syncOf vol reading leg }

end StormStorage.Head
