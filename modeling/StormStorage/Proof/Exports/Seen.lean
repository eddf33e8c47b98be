import StormStorage.Proof.Steps.Seen

/-!
# What a step does to what is exported

`AppState.exposed` is what of a state says what volumes export, and to whom:
the records, the copies and the publishes under way, which hosts engines serve,
and what is noted of serving. `ServeStep` lists every way in which a step of the
operations that serve volumes changes it, with what is known at that step; what
holds of exports in every run is proved by its cases.

* `exposed_writeBack`, `exposed_modify`: what the writes of a record change.
-/

namespace StormStorage

open Await Task Orchestrate

/-! ## What is exposed -/

/-- Of serving volumes. -/
def Event.serving : Event → Bool
  | .pinned _ | .served .. | .missed _ => true
  | _ => false

@[ext]
structure Exposed where
  volumes : KeyMap DistVolume
  copies : KeyMap DistVolume
  publishes : List Publish
  access : List HostAccess
  /-- What is noted of serving. -/
  noted : List Event

def AppState.exposed (w : AppState) : Exposed where
  volumes := w.fed.volumes
  copies := w.copies
  publishes := w.publishes
  access := w.access
  noted := w.log.filter Event.serving

namespace Exposed

def put (x : Exposed) (name : String) (v : DistVolume) : Exposed := { x with volumes := x.volumes.insert name v }

/-- A publish of task `t` has come to its end. -/
def endPublish (x : Exposed) (t : Nat) : Exposed := { x with publishes := x.publishes.filter (·.task ≠ t) }

def note (x : Exposed) (e : Event) : Exposed := { x with noted := x.noted ++ [e] }

end Exposed

section

variable {w w' : AppState} {name : String} {v : DistVolume}

theorem exposed_note {e : Event} (h : e.serving = false) : (w.note e).exposed = w.exposed := by
  simp [AppState.exposed, AppState.note, h]

theorem exposed_noted {e : Event} (h : e.serving = true) : (w.note e).exposed = w.exposed.note e := by
  simp [AppState.exposed, AppState.note, Exposed.note, h]

theorem exposed_writeBack (w : AppState) (name : String) (v : DistVolume) :
    (w.writeBack name v).exposed = { w.exposed.put name v with copies := w.copies.erase name } := by
  unfold AppState.writeBack
  split
  · rfl
  · simp [AppState.exposed, AppState.note, Exposed.put, Event.serving]

theorem exposed_modify_none {f : DistVolume → DistVolume} (hv : w.fed.volumes[name]? = none) :
    (w.setFed (·.modifyVolume name f)).exposed = w.exposed :=
  congrArg (fun fed => AppState.exposed { w with fed := fed }) (modifyVolume_none hv)

theorem exposed_modify {f : DistVolume → DistVolume} (hv : w.fed.volumes[name]? = some v) :
    (w.setFed (·.modifyVolume name f)).exposed = w.exposed.put name (f v) :=
  congrArg AppState.exposed (setFed_modify hv)

end

/-! ## The ways a step goes -/

/-- An edit of the hosts that a volume is served to, and of what they are told. -/
inductive HostEdit : Export → Export → Prop
  | asked (host : String) (dhchap : Bool) (ex : Export) : HostEdit ex (askHost host dhchap ex)
  | added (add : List HostServe) (ex : Export) : HostEdit ex (Api.addHosts add ex)
  | dropped (host : String) (ex : Export) : HostEdit ex { ex with hosts := ex.hosts.filter (·.hostNqn ≠ host) }
  | pending (p : PendingWithdraw) (ex : Export) : HostEdit ex { ex with withdrawing := ex.withdrawing ++ [p] }
  | withdrawn (p : PendingWithdraw) (ex : Export) :
      HostEdit ex { ex with withdrawing := ex.withdrawing.filter (· ≠ p) }
  /-- Every consumer is to take the coordinates anew. -/
  | renewed (ex : Export) : HostEdit ex { ex with
      coordinatesChanged := true, hosts := ex.hosts.map fun h => { h with coordinatesChanged := true } }

/-- Which served volume an export is about, and how it stands. -/
def Export.serves (ex : Export) : ExportState × Option String × Option String × Bool × Bool :=
  (ex.state, ex.volumeId, ex.node, ex.adopted, ex.gone)

theorem HostEdit.serves {ex ex' : Export} (h : HostEdit ex ex') : ex'.serves = ex.serves := by
  cases h <;> rfl

/-- An edit of a record that leaves its export, and where it is served, alone. -/
structure Unserving (v v' : DistVolume) : Prop where
  «export» : v'.export = v.export
  name : v'.name = v.name
  assembly : v'.assembly = v.assembly
  head : v'.head = v.head
  cloneOf : v'.cloneOf = v.cloneOf
  legs : SameLegs v.legs v'.legs

/-- The publish read that its served volume came across with the array. -/
def Publish.adopts (p : Publish) : Prop := p.volume.export.adopted = true ∧ p.volume.export.node = some p.node

/-- The served volume that a publish has found, if any. -/
structure Finds (w : AppState) (p : Publish) (s : Serving) : Prop where
  /-- The one that the record named is kept. -/
  kept : ∀ id, p.volumeId = some id → s.volumeId = some id
  /-- Another is one that the engine answered. -/
  told : ∀ id, s.volumeId = some id → p.volumeId = some id ∨ ⟨p.node, servedName p.volume, id⟩ ∈ w.answered
  adopted : p.adopts → s.adopted = true

/-- A volume with an array. -/
def DistVolume.mirrored (v : DistVolume) : Prop := v.assembly = .assembled ∨ v.assembly = .degraded

/-- What one step of the operations that serve volumes does to what is exposed. -/
inductive ServeStep (w w' : AppState) : Prop
  | unseen : w'.exposed = w.exposed → ServeStep w w'
  | copied {name : String} {c : DistVolume} : w.fed.volumes[name]? = some c →
      w'.exposed = { w.exposed with copies := w.copies.insert name c } → ServeStep w w'
  | letGo {name : String} : w'.exposed = { w.exposed with copies := w.copies.erase name } → ServeStep w w'
  | edited {name : String} {v v' : DistVolume} : w.fed.volumes[name]? = some v → Unserving v v' →
      w'.exposed = w.exposed.put name v' → ServeStep w w'
  | hosts {name : String} {v : DistVolume} {ex : Export} : w.fed.volumes[name]? = some v → HostEdit v.export ex →
      w'.exposed = w.exposed.put name { v with «export» := ex } → ServeStep w w'
  /-- A served volume that is gone is forgotten, as asked. -/
  | forgot {name : String} {v v' : DistVolume} : w.fed.volumes[name]? = some v → forgetServed name v = .ok v' →
      w'.exposed = w.exposed.put name v' → ServeStep w w'
  | revoking {name : String} {v : DistVolume} {message : Option String} : w.fed.volumes[name]? = some v →
      w'.exposed = w.exposed.put name { v with «export» := { v.export with
        state := .revoking, message := message } } → ServeStep w w'
  | dropped {name : String} : w'.exposed = { w.exposed with volumes := w.fed.volumes.erase name } → ServeStep w w'
  | began {p : Publish} {place : ServeAt} {up : Bool} : publishReady p.volume.name w.fed = .ok (p.volume, place, up) →
      p.node = place.node → p.volumeId = place.volumeId → p.up = up →
      w'.exposed = { w.exposed with publishes := w.publishes ++ [p] } → ServeStep w w'
  /-- The record of what was published is not there any more. -/
  | missing {t : Nat} : w'.exposed = w.exposed.endPublish t → ServeStep w w'
  | unreached {p : Publish} {v : DistVolume} {message : Option String} : p ∈ w.publishes → p.up = false →
      w.fed.volumes[p.volume.name]? = some v →
      w'.exposed = (w.exposed.endPublish p.task).put p.volume.name { v with «export» := { v.export with
        state := .failed, message := message, node := some p.node } } → ServeStep w w'
  | recorded {p : Publish} {v : DistVolume} {s : Served} {place : ServeAt} {now : SystemTime} : p ∈ w.publishes →
      w.fed.volumes[p.volume.name]? = some v → place.node = p.node → Finds w p s.serving →
      w'.exposed = (w.exposed.endPublish p.task).put p.volume.name (s.record p.volume.name p.volume place now v) →
      ServeStep w w'
  /-- A publish asks for the served volume to be made. -/
  | pinned {p : Publish} : p ∈ w.publishes → p.volumeId = none → ¬ p.adopts →
      w'.exposed = w.exposed.note (.pinned (p.volume.name ++ mirrorSuffix)) → ServeStep w w'
  | attached {p : Publish} : p ∈ w.publishes → w'.exposed = w.exposed.note (.served p.volume.name none) →
      ServeStep w w'
  | attachedHost {p : Publish} {h : HostServe} : p ∈ w.publishes → h ∈ p.volume.export.hosts →
      w'.exposed = { w.exposed.note (.served p.volume.name (some h.hostNqn)) with
        access := (w.serveOn p.node (servedName p.volume) h.hostNqn).access } → ServeStep w w'
  | withdrew {node name host : String} :
      w'.exposed = { w.exposed with access := (w.withdrawOn node name host).access } → ServeStep w w'
  /-- A promote onto the head that it has. -/
  | stayed {name : String} {c : DistVolume} {legs : List Leg} : w.copies[name]? = some c → c.name = name →
      c.mirrored → SameLegs c.legs legs →
      w'.exposed = { w.exposed.put name { c with legs := legs, fenced := false } with
        copies := w.copies.erase name } → ServeStep w w'
  | promoted {name target : String} {c vol : DistVolume} {up : List String} {served : Option String} :
      w.copies[name]? = some c → c.name = name → c.mirrored → RelabelledFrom c vol →
      (∀ id, served = some id → ⟨target, name ++ mirrorSuffix, id⟩ ∈ w.answered) →
      w'.exposed = { w.exposed.put name (Head.promoted target up served vol) with
        copies := w.copies.erase name } → ServeStep w w'
  | reassembled {name head array : String} {c vol : DistVolume} {pick : Leg → Bool} {id : String} :
      w.copies[name]? = some c → c.name = name → c.mirrored → c.head = some head → RelabelledFrom c vol →
      ⟨head, name ++ mirrorSuffix, id⟩ ∈ w.answered →
      w'.exposed = { w.exposed.put name (Head.reassembled head array pick (some id) vol) with
        copies := w.copies.erase name } → ServeStep w w'
  /-- A served volume did not come back with its array. -/
  | lost {name head array : String} {c vol : DistVolume} {pick : Leg → Bool} :
      w.copies[name]? = some c → c.name = name → c.mirrored → c.head = some head → RelabelledFrom c vol →
      w'.exposed = { (w.exposed.note (.missed name)).put name (Head.reassembled head array pick none vol) with
        copies := w.copies.erase name } → ServeStep w w'
  /-- It did not come across to a promote's head. -/
  | unserved {name : String} {v : DistVolume} {message : Option String} : w.fed.volumes[name]? = some v →
      w'.exposed = (w.exposed.note (.missed name)).put name { v with «export» := { v.export with
        state := .failed, message := message } } → ServeStep w w'
  /-- The same, where the record is not there. -/
  | noted {name : String} : w'.exposed = w.exposed.note (.missed name) → ServeStep w w'

end StormStorage
