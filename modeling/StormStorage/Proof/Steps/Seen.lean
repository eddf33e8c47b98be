import StormStorage.Operations
import StormStorage.Proof.Volumes.Change
import StormStorage.Proof.Volumes.Claims

/-!
# What a step of an operation can do

`AppState.seen` is what of a state says where the volumes' legs are, who heads
them, at which epoch, and how their backups and deletes stand. `RecordStep`
lists every way in which a step of any operation changes it, with what the
operation knows of the state at that step; invariants are proved by its cases.

* `seen_insert`, `seen_edit`, `seen_writeBack`: what the writes of a record show.
-/

namespace StormStorage

open Await Task Orchestrate

/-! ## What is seen -/

/-- What of a record is seen. -/
structure Core where
  faces : List (String × Option String × Option String × LegState)
  assembly : AssemblyState
  head : Option String
  replacing : Option Replacement
  epoch : Nat
  fenced : Bool

def DistVolume.core (v : DistVolume) : Core where
  faces := v.legs.map Leg.face
  assembly := v.assembly
  head := v.head
  replacing := v.replacing
  epoch := v.epoch
  fenced := v.fenced

/-- What of a backup is seen: its node, and whether its volume was deleted. -/
structure BackupCore where
  node : Option String
  deleted : Bool
deriving DecidableEq

def Backup.core (b : Backup) : BackupCore := { node := b.node, deleted := b.sourceDeleted }

@[ext]
structure View where
  records : String → Option Core
  copies : KeyMap DistVolume
  stale : List StaleHead
  backups : String → Option BackupCore
  /-- The deletes under way, by task. -/
  deletes : List (Nat × List String)
  fences : List Fence

def AppState.deletes (w : AppState) : List (Nat × List String) := w.undertakings.map fun u => (u.task, u.deletes)

def AppState.seen (w : AppState) : View where
  records n := (w.fed.volumes[n]?).map DistVolume.core
  copies := w.copies
  stale := w.fed.staleHeads
  backups n := (w.fed.backups[n]?).map Backup.core
  deletes := w.deletes
  fences := w.fences

namespace View

def put (s : View) (name : String) (c : Option Core) : View :=
  { s with records := fun n => if name = n then c else s.records n }

def putBackup (s : View) (name : String) (b : Option BackupCore) : View :=
  { s with backups := fun n => if name = n then b else s.backups n }

theorem put_self {s : View} {name : String} {c : Option Core} (h : s.records name = c) : s.put name c = s := by
  obtain ⟨records, _, _, _, _, _⟩ := s
  simp only [put, View.mk.injEq, and_true]
  funext n
  split
  · rw [← h, ‹name = n›]
  · rfl

theorem putBackup_self {s : View} {name : String} {b : Option BackupCore} (h : s.backups name = b) :
    s.putBackup name b = s := by
  obtain ⟨_, _, _, backups, _, _⟩ := s
  simp only [putBackup, View.mk.injEq, and_true, true_and]
  funext n
  split
  · rw [← h, ‹name = n›]
  · rfl

end View

/-! ## What writes show -/

section

variable {w w' : AppState} {name : String} {v v' : DistVolume}

theorem records_eq (h : w.fed.volumes[name]? = some v) : w.seen.records name = some v.core :=
  congrArg (Option.map DistVolume.core) h

theorem backups_eq {b : Backup} (h : w.fed.backups[name]? = some b) : w.seen.backups name = some b.core :=
  congrArg (Option.map Backup.core) h

theorem seen_insert (w : AppState) (name : String) (v : DistVolume) :
    (w.setFed fun fed => { fed with volumes := fed.volumes.insert name v }).seen = w.seen.put name (some v.core) := by
  refine View.ext (funext fun n => ?_) rfl rfl rfl rfl rfl
  show ((w.fed.volumes.insert name v)[n]?).map _ = if name = n then _ else _
  rw [KeyMap.get_insert]
  split <;> rfl

theorem seen_erase (w : AppState) (name : String) :
    (w.setFed fun fed => { fed with volumes := fed.volumes.erase name }).seen = w.seen.put name none := by
  refine View.ext (funext fun n => ?_) rfl rfl rfl rfl rfl
  show ((w.fed.volumes.erase name)[n]?).map _ = if name = n then _ else _
  rw [KeyMap.get_erase]
  split <;> rfl

theorem seen_insertBackup (w : AppState) (name : String) (b : Backup) :
    (w.setFed fun fed => { fed with backups := fed.backups.insert name b }).seen =
      w.seen.putBackup name (some b.core) := by
  refine View.ext rfl rfl rfl (funext fun n => ?_) rfl rfl
  show ((w.fed.backups.insert name b)[n]?).map _ = if name = n then _ else _
  rw [KeyMap.get_insert]
  split <;> rfl

theorem seen_eraseBackup (w : AppState) (name : String) :
    (w.setFed fun fed => { fed with backups := fed.backups.erase name }).seen = w.seen.putBackup name none := by
  refine View.ext rfl rfl rfl (funext fun n => ?_) rfl rfl
  show ((w.fed.backups.erase name)[n]?).map _ = if name = n then _ else _
  rw [KeyMap.get_erase]
  split <;> rfl

/-- A record that is there is changed where nothing is seen. -/
theorem seen_same (hv : w.fed.volumes[name]? = some v) (hc : v'.core = v.core) :
    (w.setFed fun fed => { fed with volumes := fed.volumes.insert name v' }).seen = w.seen := by
  rw [seen_insert, hc, View.put_self (records_eq hv)]

theorem modifyVolume_some {fed : FedState} {f : DistVolume → DistVolume} (hv : fed.volumes[name]? = some v) :
    fed.modifyVolume name f = { fed with volumes := fed.volumes.insert name (f v) } := by
  unfold FedState.modifyVolume
  rw [hv]

theorem modifyVolume_none {fed : FedState} {f : DistVolume → DistVolume} (hv : fed.volumes[name]? = none) :
    fed.modifyVolume name f = fed := by
  unfold FedState.modifyVolume
  rw [hv]

theorem setFed_modify {f : DistVolume → DistVolume} (hv : w.fed.volumes[name]? = some v) :
    w.setFed (·.modifyVolume name f) = w.setFed fun fed => { fed with volumes := fed.volumes.insert name (f v) } :=
  congrArg (fun fed => { w with fed := fed }) (modifyVolume_some hv)

/-- The same of an edit. -/
theorem seen_edit {f : DistVolume → DistVolume} (hf : ∀ v, (f v).core = v.core) :
    (w.setFed (·.modifyVolume name f)).seen = w.seen := by
  cases hv : w.fed.volumes[name]? with
  | none => exact congrArg (fun fed => AppState.seen { w with fed := fed }) (modifyVolume_none hv)
  | some v => rw [setFed_modify hv, seen_same hv (hf v)]

theorem seen_writeBack (w : AppState) (name : String) (v : DistVolume) :
    (w.writeBack name v).seen = { w.seen.put name (some v.core) with copies := w.copies.erase name } := by
  unfold AppState.writeBack
  split
  · rw [← seen_insert]
    rfl
  · rw [← seen_insert]
    rfl

end

/-! ## The ways a step goes -/

/-- An entry of the volume's stale heads names the node. -/
def Stale (w : AppState) (name node : String) : Prop :=
  ∃ s ∈ w.fed.staleHeads, s.ofVolume = name ∧ s.node = node

/-- No volume's record was made under this name while it was claimed. -/
def Unmade (w : AppState) (name : String) : Prop := ∀ c ∈ w.creations, c.name = name → c.claimed = false

/-- The node is to become the volume's head; what the log says of that. -/
def Foretold (w : AppState) (name node : String) : Prop := Stale w name node → .heading name node true ∈ w.log

/-- What one step of an operation does to what is seen. -/
inductive RecordStep (w w' : AppState) : Prop
  | unseen : w'.seen = w.seen → RecordStep w w'
  /-- Recovery marks lost legs, and gives volumes that lost one for degraded. -/
  | lost : w'.seen = { w.seen with records := fun n => (w.fed.volumes[n]?).map fun v => (afterLoss w.fed v).core } →
      RecordStep w w'
  | fenced {name : String} {v : DistVolume} : w.fed.volumes[name]? = some v →
      w'.seen = { w.seen.put name (some { v.core with epoch := v.epoch + 1, fenced := true }) with
        fences := w.fences ++ [⟨name, v.epoch + 1⟩] } → RecordStep w w'
  | replacing {name : String} {v : DistVolume} {rep : Replacement} : w.fed.volumes[name]? = some v →
      rep.leg.state = .created →
      (Unmade w name → v.replacing = none ∧ ∀ l ∈ v.legs, l.node ≠ rep.leg.node) →
      w'.seen = w.seen.put name (some { v.core with replacing := some rep }) → RecordStep w w'
  | gaveUp {name : String} {v : DistVolume} : w.fed.volumes[name]? = some v →
      w'.seen = w.seen.put name (some { v.core with replacing := none }) → RecordStep w w'
  | swapped {name : String} {v : DistVolume} {rep : Replacement} : w.fed.volumes[name]? = some v →
      (Unmade w name → v.replacing = some rep) → w'.seen = w.seen.put name (some (swapLeg rep v).core) →
      RecordStep w w'
  /-- A reading of the head's array is applied. -/
  | rejoined {name head array : String} {v v' : DistVolume} {found : Option EngineArray} {changed : Bool} :
      w.fed.volumes[name]? = some v →
      applyHeadReading v (found.map (parseArray head array)) = some (v', changed) →
      w'.log = w.log ++ [.headRead name head array found] → w'.fed.volumes[name]? = some v' →
      w'.seen = w.seen.put name (some v'.core) → RecordStep w w'
  | copied {name : String} {c : DistVolume} : w.fed.volumes[name]? = some c →
      w'.seen = { w.seen with copies := w.copies.insert name c } → RecordStep w w'
  | letGo {name : String} : w'.seen = { w.seen with copies := w.copies.erase name } → RecordStep w w'
  /-- An assembly's copy is written back, as far as it got. -/
  | assembled {name head : String} {c v' : DistVolume} : w.copies[name]? = some c → (∃ l ∈ c.legs, l.node = head) →
      (∀ l ∈ c.legs, l.state = .created) → AssembledFrom head c v' → Foretold w name head →
      w'.seen = { w.seen.put name (some v'.core) with copies := w.copies.erase name } → RecordStep w w'
  /-- A promote onto the head that it has. -/
  | stayed {name : String} {c : DistVolume} {legs : List Leg} : w.copies[name]? = some c → c.fenced = true →
      SameLegs c.legs legs → (∃ es, w'.log = w.log ++ .cleared name c.epoch :: es) →
      w'.seen = { w.seen.put name (some { c with legs := legs, fenced := false }.core) with
        copies := w.copies.erase name } → RecordStep w w'
  | promoted {name target array : String} {c vol : DistVolume} {up : List String} {served : Option String}
      {now : SystemTime} : w.copies[name]? = some c → c.name = name → c.fenced = true → c.head ≠ some target →
      (∃ l ∈ c.legs, l.node = target) → RelabelledFrom c vol → Foretold w name target →
      (∃ es, w'.log = w.log ++ .cleared name c.epoch :: es) →
      w'.seen = { w.seen.put name (some (Head.promoted target up served vol).core) with
        copies := w.copies.erase name
        stale := w.fed.staleHeads ++ Head.staleHead vol (c.head.getD "") array now } → RecordStep w w'
  /-- An array came back on its head. -/
  | reassembled {name head array : String} {c vol : DistVolume} {up : List String} {served : Option String}
      {read : Option EngineArray} : w.copies[name]? = some c → c.fenced = false → c.head = some head →
      RelabelledFrom c vol → (∃ es, w'.log = w.log ++ .cameBack name read :: es) →
      w'.fed.volumes[name]? = some (Head.reassembled head array (Head.comesBack head up) served vol) →
      w'.seen = { w.seen.put name (some (Head.reassembled head array (Head.comesBack head up) served vol).core) with
        copies := w.copies.erase name } → RecordStep w w'
  | made {name : String} {v : DistVolume} : Fresh v →
      w'.creations = w.creations ++ [⟨name, false, w.fed.taken name, w.replacing.contains name⟩] →
      w'.seen = w.seen.put name (some v.core) → RecordStep w w'
  | dropped {name : String} {t : Nat} : (t, [name]) ∈ w.deletes → w'.seen = w.seen.put name none → RecordStep w w'
  | undertook {t : Nat} {names : List String} :
      w'.seen = { w.seen with deletes := w.deletes ++ [(t, names)] } → RecordStep w w'
  | ended {t : Nat} : w'.seen = { w.seen with deletes := w.deletes.filter (·.1 ≠ t) } → RecordStep w w'
  /-- A first policy. -/
  | policy {name : String} : w.fed.volumes.contains name = true → w.seen.backups name = none →
      w'.seen = w.seen.putBackup name (some { node := none, deleted := false }) → RecordStep w w'
  | picked {name node : String} {b : BackupCore} : w.seen.backups name = some b →
      w'.seen = w.seen.putBackup name (some { b with node := some node }) → RecordStep w w'
  /-- A delete ends its volume's backups. -/
  | stopped {name : String} {t : Nat} {b : BackupCore} : (t, [name]) ∈ w.deletes → w.seen.backups name = some b →
      w'.seen = w.seen.putBackup name (some { b with deleted := true }) → RecordStep w w'
  | purged {name : String} : w'.seen = w.seen.putBackup name none → RecordStep w w'
  | reaped {keep : StaleHead → Bool} : w'.seen = { w.seen with stale := w.fed.staleHeads.filter keep } →
      RecordStep w w'

end StormStorage
