import StormStorage.Orchestrate.Export

/-!
# Expanding a volume

`POST /api/v1/volumes/{name}/expand`: every leg on its own engine, then the
head's array, then the served volume, then the record. The target is recorded
first and every step only grows, so a retry goes on where one stopped
(`expand.rs`).
-/

namespace StormStorage.Expand

open Await Orchestrate

/-! ## Calls -/

namespace Engine

/-- `POST /v1/volumes/{id}/expand`, or the resize of an adopted one. -/
def expandVolume (node id : String) (size : Nat) : Async Unit :=
  call (fun _ w => { w with
    sizes := fun n i => if n = node ∧ i = id then max (w.sizes n i) size else w.sizes n i }) fun _ _ => .ok ()

/-- `GET /api/v1/arrays/{id}`: `capacity_bytes`; an answer without it fails. -/
def arrayBytes (node array : String) : Async Nat := call (fun _ w => w) fun _ w => .ok (w.capacity node array)

/-- `POST /api/v1/arrays/{id}/grow`; answers what its slab is short of. -/
def growArray (node array : String) : Async (Option String) :=
  call (fun i w => { w with
    capacity := fun n a => if n = node ∧ a = array then max (w.capacity n a) i.bytes else w.capacity n a
    grows := w.grows ++ [{ node := node, array := array, sizes := w.sizes }] }) fun i _ => .ok i.slabShort

/-- `GET /api/v1/volumes/{id}`: `virtual_size_bytes`. -/
def servedSize (node name : String) : Async Nat :=
  call (fun i w =>
    if i.wire = .answered then
      { w with servedSizes := w.servedSizes ++ [{ node := node, name := name, bytes := i.bytes }] }
    else w) fun i _ => .ok i.bytes

end Engine

/-! ## What is asked -/

/-- Why `vol` cannot be expanded to `to` now, or none. -/
def refuse (fed : FedState) (vol : DistVolume) («to» : Nat) : Option String :=
  let name := vol.name
  let wanted := «to»
  if wanted < vol.sizeBytes then
    some s!"{name}: a volume grows only; it is {vol.sizeBytes} bytes, not {wanted} (a smaller one is a copy, not a resize)"
  else if vol.fenced then some s!"{name}: fenced — promote a head first"
  else if vol.replacing.isSome then some s!"{name}: a leg replacement is in flight"
  else if vol.dualAttach.isSome then some s!"{name}: a dual-attach window is open"
  else if vol.migration.isSome then some s!"{name}: a tier migration is in flight"
  else if vol.export.state = .revoking then some s!"{name}: being deleted"
  else if vol.export.gone then some s!"{name}: its served volume is gone (#40); recreate it first"
  else
    let standing : Option String :=
      match vol.legs.find? fun l => l.state ≠ .created ∨ l.volumeId.isNone with
      | some l => some s!"{name}: leg on {l.node} is {l.state.debug}"
      | none =>
        ((vol.legs.map (·.node) ++ vol.head.toList).find? fun n => !healthyIn fed n).map fun n =>
          s!"{name}: {n} is not answering"
    match vol.assembly with
    | .singleLeg | .assembled => standing
    | .degraded => some s!"{name}: degraded — a lost leg cannot grow; expand once it is replaced"
    | .pendingEngineSupport => some s!"{name}: not assembled yet"
    | .clone =>
      match (fed.parentOf vol).filter (·.cloneOf.isNone) with
      | none => some s!"{name}: its parent volume is gone"
      | some p =>
        if p.sizeBytes < «to» then
          some s!"{name}: a clone lives on {p.name}'s array ({p.sizeBytes} bytes); expand {p.name} first"
        else none

/-- The served volume of a volume, as its engine knows it. -/
structure Served where
  node : String
  id : String
  engineName : String
deriving DecidableEq, Repr

/-- What one try works on. -/
structure Plan where
  vol : DistVolume
  /-- Node and id of every leg. -/
  legs : List (String × String)
  head : Option (String × String)
  served : Option Served
deriving Repr

def legsOf (vol : DistVolume) : List (String × String) := vol.legs.map fun l => (l.node, l.volumeId.getD "")

/-- The head's array of an assembled volume. -/
def headOf (vol : DistVolume) : Except Fault (Option (String × String)) :=
  match vol.assembly, vol.head, vol.arrayId with
  | .assembled, some h, some a => .ok (some (h, a))
  | .assembled, _, _ => .error (.conflict s!"{vol.name}: no head array recorded")
  | _, _, _ => .ok none

def servedOf (vol : DistVolume) : Option Served :=
  match vol.export.node, vol.export.volumeId with
  | some n, some id => some { node := n, id := id, engineName := vol.export.localId.getD (servedName vol) }
  | _, _ => none

def registeredNode (fed : FedState) (node : String) : Except Fault Unit :=
  if fed.nodes.contains node then .ok () else .error (.conflict s!"node {repr node} not in registry")

def registeredNodes (fed : FedState) : List String → Except Fault Unit
  | [] => .ok ()
  | node :: nodes => do
    registeredNode fed node
    registeredNodes fed nodes

/-- The record of an expand towards `to`. -/
def aim (x : Option Expansion) («to» : Nat) (now : SystemTime) : Expansion :=
  match x with
  | some x => { x with toBytes := «to», message := none }
  | none => { toBytes := «to», startedAt := now }

/-- An expand in flight is not taken back. -/
def target (vol : DistVolume) («to» : Nat) : Nat :=
  match vol.expanding with
  | none => «to»
  | some x => max «to» x.toBytes

/-- What one try works on; none when the volume has the size already. -/
def plan (fed : FedState) (name : String) («to» : Nat) (now : SystemTime) : Except Fault (Option Plan) := do
  let vol ← volumeIn fed name
  let «to» := target vol «to»
  if «to» = vol.sizeBytes ∧ vol.expanding = none then return none
  match refuse fed vol «to» with
  | some why => .error (.conflict why)
  | none =>
    registeredNodes fed (vol.legs.map (·.node))
    let head ← headOf vol
    registeredNodes fed (head.toList.map Prod.fst)
    let served := servedOf vol
    registeredNodes fed (served.toList.map (·.node))
    return some {
      vol := { vol with expanding := some (aim vol.expanding «to» now) }
      legs := legsOf vol
      head := head
      served := served }

/-- What a plan is made of. -/
theorem plan_ok {fed : FedState} {name : String} {«to» : Nat} {now : SystemTime} {p : Plan}
    (h : plan fed name «to» now = .ok (some p)) :
    ∃ v, fed.volumes[name]? = some v ∧ p.vol = { v with expanding := some (aim v.expanding (target v «to») now) } ∧
      p.legs = legsOf p.vol ∧ headOf p.vol = .ok p.head ∧ p.served = servedOf p.vol := by
  obtain ⟨v, hv, h⟩ := check_bind.mp h
  dsimp only at h
  split at h
  · cases h
  · split at h
    · cases h
    · obtain ⟨_, -, h⟩ := check_bind.mp h
      obtain ⟨head, hhead, h⟩ := check_bind.mp h
      obtain ⟨_, -, h⟩ := check_bind.mp h
      obtain ⟨_, -, h⟩ := check_bind.mp h
      obtain rfl := Option.some.inj (Except.ok.inj h)
      exact ⟨v, volumeIn_eq.mp hv, rfl, rfl, hhead, rfl⟩

/-! ## The expand -/

/-- Record progress of the expand in flight, if it still is. -/
def modifyExpanding (name : String) (f : Expansion → Expansion) (w : AppState) : AppState :=
  match w.fed.volumes[name]? with
  | none => w
  | some v =>
    match v.expanding with
    | none => w
    | some x => w.revise fun fed => { fed with volumes := fed.volumes.insert name { v with expanding := some (f x) } }

def record (name : String) (f : Expansion → Expansion) : Async Unit := .modify (modifyExpanding name f)

/-- The plan is made and the target recorded at once. -/
def «begin» (name : String) («to» : Nat) : Async (Option Plan) := do
  .ofExcept (← .atomic fun i w =>
    match plan w.fed name «to» i.now with
    | .error e => (.error e, w)
    | .ok none => (.ok none, w)
    | .ok (some p) =>
      (.ok (some p), w.revise fun fed => { fed with volumes := fed.volumes.insert name p.vol }))

/-- A call failed, in the terms of the request. -/
def asUpstream {α : Type} (what : String) (t : Async α) : Async α := do
  match ← t.attempt with
  | .ok a => return a
  | .error e => .fail (.upstream s!"{what}: {e.message}")

/-- Every leg on its own engine. -/
def expandLegs (name : String) («to» : Nat) (legs : List (String × String)) : Async Unit :=
  .forEach legs fun (node, id) => asUpstream s!"{name}: leg on {node}: expand" (Engine.expandVolume node id «to»)

/-- The array's capacity before it grows. -/
def bytesBefore (name node array : String) (x : Expansion) : Async Nat :=
  match x.arrayBytesBefore with
  | some b => return b
  | none => do
    let b ← asUpstream s!"{name}: head {node}" (Engine.arrayBytes node array)
    record name fun x => { x with arrayBytesBefore := some b }
    return b

/-- The grow of the head's array; answers what its slab is short of. -/
def growAnswer (name node array : String) (before : Nat) : Async (Option String) := do
  match ← (Engine.growArray node array).attempt with
  | .ok short => return short
  | .error e =>
    if e.status = some 409 then
      -- Grown by an earlier try whose answer was lost, or a real refusal.
      let now ← (Engine.arrayBytes node array).attempt
      if now.toOption.getD before ≤ before then .fail (.conflict s!"{name}: head {node}: grow array: {e.message}")
      else return none
    else .fail (.upstream s!"{name}: head {node}: grow array: {e.message}")

/-- The head's array and its slab. -/
def growHead (name node array : String) (x : Expansion) : Async Unit := do
  let before ← bytesBefore name node array x
  let short ← growAnswer name node array before
  record name fun x => { x with arrayGrown := true, slabShort := short }
  match short with
  | some short =>
    .fail (.conflict (s!"{name}: the head array grew but its slab cannot reach the new room ({short}); " ++
      "its volumes need a new array"))
  | none => return ()

def growServed (name : String) («to» : Nat) (s : Served) : Async Unit := do
  asUpstream s!"{name}: served volume on {s.node}: expand" (Engine.expandVolume s.node s.id «to»)
  let size ← asUpstream s!"{name}: served volume on {s.node}" (Engine.servedSize s.node s.engineName)
  let wanted := «to»
  if size < wanted then
    .fail (.upstream (s!"{name}: served volume on {s.node} is {size} bytes after its expand to {wanted}: " ++
      "the engine did not grow it"))
  else return ()

/-- The volume has its new size. -/
def finish (name : String) («to» : Nat) : Async Unit := do
  .ofExcept (← .atomic fun _ w =>
    match volumeIn w.fed name with
    | .error e => (.error e, w)
    | .ok v => (.ok (), w.revise fun fed =>
        { fed with volumes := fed.volumes.insert name { v with sizeBytes := «to», expanding := none } }))

/-- The head's array, unless an earlier try has grown it. -/
def growHeads (name : String) (plan : Plan) (x : Expansion) : Async Unit :=
  if x.arrayGrown then return ()
  else .forEach plan.head.toList fun (node, array) => growHead name node array x

/-- One try, as planned, towards `x`. -/
def carryOut (name : String) (plan : Plan) (x : Expansion) : Async Unit := do
  expandLegs name x.toBytes plan.legs
  growHeads name plan x
  Task.forEach plan.served.toList (growServed name x.toBytes)
  finish name x.toBytes

def expandClaimed (name : String) («to» : Nat) : Async Unit := do
  match ← «begin» name «to» with
  | none => return ()
  | some plan =>
    match plan.vol.expanding with
    | none => return ()
    | some x =>
      match x.slabShort with
      | some short =>
        .fail (.conflict (s!"{name}: the head array's slab cannot reach the new room ({short}); " ++
          "its volumes need a new array"))
      | none => carryOut name plan x

/-- `POST /api/v1/volumes/{name}/expand {size_bytes}`. -/
def expand (me : Nat) (name : String) («to» : Nat) : Async Unit := do
  if ← claim me name then
    let r ← (expandClaimed name «to»).attempt
    release name
    match r with
    | .ok _ => return ()
    | .error e =>
      record name fun x => { x with message := some e.message }
      .fail e
  else .fail (.conflict s!"{name}: busy — an assembly, leg move or expand is in flight")

/-- Any number of expands of one volume, with any targets, while nodes change
as they like. -/
def expands (name : String) : System Reply AppState Fault where
  Op := Nat
  Env := KeyMap Node
  prog me «to» := expand me name «to»
  env nodes w := w.setFed fun fed => { fed with nodes := nodes }

end StormStorage.Expand
