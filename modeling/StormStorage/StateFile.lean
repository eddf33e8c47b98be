import StormStorage.Await.Task
import StormStorage.Disk
import StormStorage.Store.Records

/-!
# The state file

How the state is kept in `state.json` and its previous copy (`model.rs`): a
save writes a temporary file, syncs it, keeps the file that it replaces as
`.prev`, and takes its place; a start reads the state back (`loadState`).

The steps of a save are calls that can fail. `completed` and `begun` remember,
for the statements, the last save that was completed and what was begun since.
-/

namespace StormStorage

open Await

/-! ## Reading -/

/-- What reading a file finds: `unreadable` for any error but that there is
none. -/
inductive FileReading where
  | absent
  | unreadable (error : String)
  | text (s : String)
deriving DecidableEq, Repr

/-- A state file that did not parse at startup, and what was done. -/
structure StateRecovery where
  error : String
  /-- Where the bad file was kept. -/
  keptAs : Option String
  /-- `previous` or `empty`. -/
  startedFrom : String
  time : SystemTime
deriving DecidableEq, Repr

/-- Strict read: a file that does not parse is an error. -/
def FedState.load (c : Codec FedState) : FileReading → Except String FedState
  | .text s => c.fromStr s
  | .absent => .ok {}
  | .unreadable e => .error e

/-- Startup read of the state, from what the file and its previous copy read.
`setAside` is whether the bad file could be renamed. -/
def loadState (c : Codec FedState) (path : String) (state prev : FileReading) (now : SystemTime) (setAside : Bool) :
    Except String (FedState × Option StateRecovery) :=
  match state with
  | .absent =>
    -- whatever is wrong with the previous copy
    .ok (match FedState.load c prev with
      | .ok fed => fed
      | .error _ => {}, none)
  | .unreadable e => .error e
  | .text s =>
    match c.fromStr s with
    | .ok fed => .ok (fed, none)
    | .error e =>
      let keptAs := if setAside then some (path ++ s!".bad-{now / 1000}") else none
      let (fed, startedFrom) := match prev with
        | .text s =>
          match c.fromStr s with
          | .ok fed => (fed, "previous")
          | .error _ => ({}, "empty")
        | _ => ({}, "empty")
      .ok (fed, some { error := e, keptAs := keptAs, startedFrom := startedFrom, time := now })

/-! ## Saving -/

/-- The state file and its siblings. -/
inductive FileName where
  | state
  /-- `.prev`, the last good copy. -/
  | prev
  /-- `.tmp.<pid>.<n>` -/
  | tmp (n : Nat)
  /-- `.prev.tmp.<pid>.<n>` -/
  | prevTmp (n : Nat)
deriving DecidableEq, Repr

/-- What a file holds; none does not read as text. -/
abbrev Content := Option String

def FileReading.of : Option Content → FileReading
  | none => .absent
  | some none => .unreadable "stream did not contain valid UTF-8"
  | some (some s) => .text s

structure Saves where
  disk : Disk FileName Content := .empty none
  /-- What the last save wrote that was completed. -/
  completed : Option FedState := none
  /-- What the saves write that were begun since. -/
  begun : List FedState := []

/-- How a call goes, and what a write leaves that fails. -/
structure CallResult where
  ok : Bool := true
  torn : Content := none
deriving Repr

abbrev FileTask (α : Type) := Task CallResult Saves String α

/-- A call on the disk: it fails when it must, and may fail anyway. -/
def fileCall {β : Type} (f : Disk FileName Content → Option (β × Disk FileName Content)) : FileTask β := do
  .ofExcept (← .atomic fun r w =>
    match f w.disk with
    | some (b, d) => if r.ok then (.ok b, { w with disk := d }) else (.error "I/O error", w)
    | none => (.error "I/O error", w))

/-- The same, of a call that answers nothing. -/
def fileAct (f : Disk FileName Content → Option (Disk FileName Content)) : FileTask Unit :=
  fileCall fun d => (f d).map fun d => ((), d)

def writeAll (i : Nat) (text : String) : FileTask Unit := do
  .ofExcept (← .atomic fun r w =>
    if r.ok then (.ok (), { w with disk := w.disk.write i (some text) })
    else (.error "I/O error", { w with disk := w.disk.write i r.torn }))

/-- The new state in a file of its own. -/
def writeTmp (n : Nat) (text : String) : FileTask Unit := do
  let f ← fileCall fun d => some (d.create none (.tmp n))
  writeAll f text
  fileAct fun d => some (d.sync f)

/-- Keep the file that is replaced; a failure only loses the fallback. -/
def keepPrevious (n : Nat) : FileTask Unit := do
  match ← (fileAct fun d => d.link .state (.prevTmp n)).attempt with
  | .error _ => return ()
  | .ok _ =>
    match ← (fileAct fun d => d.rename (.prevTmp n) .prev).attempt with
    | .ok _ => return ()
    | .error _ => do
      let _ ← (fileAct fun d => d.remove (.prevTmp n)).attempt

/-- `inDir` is whether the path names its directory, `n` the number of the save. -/
def FedState.save (c : Codec FedState) (inDir : Bool) (n : Nat) (fed : FedState) : FileTask Unit := do
  .modify fun w => { w with begun := fed :: w.begun }
  -- the directory is made where it is missing
  if inDir then fileAct some
  match ← (writeTmp n (c.toString fed)).attempt with
  | .error e => do
    let _ ← (fileAct fun d => d.remove (.tmp n)).attempt
    .fail e
  | .ok _ => do
    keepPrevious n
    fileAct fun d => d.rename (.tmp n) .state
    if inDir then fileAct fun d => some d.syncDir
    .modify fun w => { w with completed := some fed, begun := [] }

/-- One save after another; a failure is logged. -/
def persistFile (c : Codec FedState) (inDir : Bool) (saves : List (Nat × FedState)) : FileTask Unit :=
  .forEach saves fun (n, fed) => do
    let _ ← (FedState.save c inDir n fed).attempt

end StormStorage
