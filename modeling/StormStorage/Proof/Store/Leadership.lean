import StormStorage.Proof.Store.Reload
import StormStorage.Proof.Store.Tasks

/-!
# Leading and writing, in every run

What holds of the store's history in every run of a fleet from an empty
store, with any number of instances and any order of their steps:

* `leadership_safe`: who writes, and what who leads has loaded;
* `synced_iff_noRevert`: what a sync that answered Ok left in the store;
* `loaded_of_one_state`: what a load reads.
-/

namespace StormStorage

open Await KeyMap

variable {S : StoreConfig} {feds : String → FedState} {p : Pool Choice Fleet String}

/-! ## Small runs -/

/-- Registered node `n`. -/
def smallNode (n : String) : NodeConfig where
  name := n
  engineUrl := "http://" ++ n ++ ":9091"

/-- A state with these registered nodes. -/
def smallFed (nodes : List String) : FedState where
  nodes := nodes.foldl (fun m n => m.insert n { config := smallNode n, status := NodeStatus.new .registered }) ∅

/-- The small fleet, with codecs that read back the metas, leaders and nodes of the runs below. -/
def runConfig : StoreConfig :=
  { smallConfig with
    codecs := smallCodecs [{ revision := 0, «by» := "a", «at» := 0 }] [{ «instance» := "a", url := "http://a:9093" }]
      [smallNode "n1", smallNode "n2"] }

abbrev StoreMove := Move Choice StoreOp StoreEnv

/-- The task's next `n` steps, with every call answered. -/
def answered (t n : Nat) : List StoreMove := List.replicate n (.run t {})

def smallStart : Pool Choice Fleet String := Fleet.start fun _ => {}

/-- Instance `a` campaigns in an empty store, becomes leader and writes its state. -/
def firstLeader : List StoreMove := .start (.step "a" 0) :: answered 0 19

def smallRun (check : Fleet → Fleet → Bool) (ms : List StoreMove) : Pool Choice Fleet String :=
  System.final (fleet runConfig) check smallStart ms

/-- The leader's state becomes one with the nodes given, and a sync of it ends
with its write in the store but the answer lost. -/
def lostWrite (t : Nat) (nodes : List String) : List StoreMove :=
  [.env (.change "a" (smallFed nodes)), .start (.sync "a" 0)] ++ answered t 3 ++
    [.run t { net := .lost true false "operation timed out" }] ++ answered t 2

/-- The leader's state becomes one with the nodes given, and a sync of it ends. -/
def changeAndSync (t n : Nat) (nodes : List String) : List StoreMove :=
  [.env (.change "a" (smallFed nodes)), .start (.sync "a" 0)] ++ answered t n

/-- No request that was given up takes effect in this step. -/
def punctual (w w' : Fleet) : Bool :=
  (w'.log.drop w.log.length).all fun e => match e with
    | .arrived .. => false
    | _ => true

theorem not_arrived {w w' : Fleet} (h : punctual w w' = true) {who : String} {stored : Records}
    {es : List StoreEvent} : w'.log ≠ w.log ++ .arrived who stored :: es := by
  intro hl
  rw [punctual, hl, List.drop_left] at h
  cases h

/-! ## Leading -/

/-- Leadership in a history: no write but by who holds the leader key, and
none of an earlier leader once a later one has loaded. -/
structure LeadershipSafe (S : StoreConfig) (log : List StoreEvent) : Prop where
  /-- A write took effect while the leader key was the one its writer created. -/
  writes : ∀ wr, .wrote wr ∈ log → .won wr.by wr.guard ∈ log ∧
    ∃ kv, wr.leader = some kv ∧ kv.createRevision = wr.guard ∧ kv.value = S.leaderText wr.by
  /-- Each leader key was created by one instance. -/
  creator : ∀ n m rev, .won n rev ∈ log → .won m rev ∈ log → n = m
  /-- Who becomes leader created a leader key and then read the records of
  every write until some moment after that; it read no state only where none
  had been written. -/
  informed : ∀ l₁ l₂ n rev, log = l₁ ++ .leads n rev :: l₂ → Informed S n rev l₁
  /-- Once a leader key was created only its leader's and later ones' writes
  take effect, and all before were earlier ones'. -/
  ordered : ∀ l₁ l₂ n rev, log = l₁ ++ .won n rev :: l₂ →
    (∀ wr, .wrote wr ∈ l₂ → rev ≤ wr.guard) ∧ ∀ wr, .wrote wr ∈ l₁ → wr.guard < rev

/-- A sync that answered Ok while it led left exactly the records of the state
it read, if and only if the store then had no record that this instance's
memory of it lacked and the state had back as it was. -/
theorem synced_iff_noRevert (h : (fleet S).Run (Undisturbed S) (Fleet.start feds) p) :
    ∀ t stored, .synced t stored true ∈ p.state.log →
      (stored = recordsOf S.codecs t.fed ↔ t.NoRevert S) := by
  have hrun : (fleet S).Run (storeDiscipline S True False).ok (Fleet.start feds) p :=
    h.mono fun _ _ hu => ⟨fun _ => hu, False.elim⟩
  exact (fleet_kept False.elim hrun).2.1 trivial

theorem synced_iff_noRevert_small :
    ((smallRun punctual (firstLeader ++ changeAndSync 1 6 ["n1"])).state.log.any fun e => e matches .synced _ _ true) ∧
      ∀ t stored, .synced t stored true ∈ (smallRun punctual (firstLeader ++ changeAndSync 1 6 ["n1"])).state.log →
        (stored = recordsOf runConfig.codecs t.fed ↔ t.NoRevert runConfig) :=
  ⟨by decide +kernel,
    synced_iff_noRevert (System.run_final (fun _ _ h _ _ _ hl => absurd hl (not_arrived h)) (by decide +kernel))⟩

/-- A sync that answered Ok, while it led, with other records in the store. -/
def unsettled (c : Codecs) : StoreEvent → Bool
  | .synced t stored true => stored ≠ recordsOf c t.fed
  | _ => false

/-- Node `n1` is registered and its write takes effect with the answer lost;
it is removed again, and the next sync has nothing to send. -/
def revertedRun : List StoreMove := firstLeader ++ lostWrite 1 ["n1"] ++ changeAndSync 2 4 []

theorem not_synced_recordsOf :
    ¬ ∀ (S : StoreConfig) (feds : String → FedState) (p : Pool Choice Fleet String),
      (fleet S).Run (fun _ _ => True) (Fleet.start feds) p →
        ∀ t stored, .synced t stored true ∈ p.state.log → stored = recordsOf S.codecs t.fed := by
  intro h
  have hall := h runConfig (fun _ => {}) (smallRun (fun _ _ => true) revertedRun)
    (System.run_final (fun _ _ _ => trivial) (by decide +kernel))
  have hbad : (smallRun (fun _ _ => true) revertedRun).state.log.any (unsettled runConfig.codecs) = true := by decide +kernel
  obtain ⟨e, he, hu⟩ := List.any_eq_true.mp hbad
  rw [unsettled.eq_def] at hu
  split at hu
  · exact of_decide_eq_true hu (hall _ _ he)
  · cases hu

/-! ## What a load reads -/

/-- The steps under which no mixture reaches the store: each sync is one
transaction over a store that its instance knows, and none comes late. -/
structure NeatStep (S : StoreConfig) (w w' : Fleet) : Prop where
  undisturbed : Undisturbed S w w'
  timely : Timely S w w'
  whole : ∀ t, .took t ∈ w'.log → t.Whole S

/-- Whatever a load accepts is the records of one state that a sync read. -/
theorem loaded_of_one_state (h : (fleet S).Run (NeatStep S) (Fleet.start feds) p) :
    ∀ n records, .loaded n true records ∈ p.state.log →
      ∃ t, .took t ∈ p.state.log ∧ records = recordsOf S.codecs t.fed := by
  have hrun : (fleet S).Run (storeDiscipline S True True).ok (Fleet.start feds) p :=
    h.mono fun _ _ hn => ⟨fun _ => hn.undisturbed, fun _ => ⟨hn.timely, hn.whole⟩⟩
  exact ((fleet_kept (fun _ => trivial) hrun).2.2 trivial).loaded

/-- The step is a neat one. -/
def neatly (w w' : Fleet) : Bool :=
  punctual w w' && w'.log.all fun e => match e with
    | .took t => t.Whole runConfig
    | _ => true

theorem neatStep_of_neatly {w w' : Fleet} (h : neatly w w' = true) : NeatStep runConfig w w' := by
  obtain ⟨hp, hw⟩ := Bool.and_eq_true_iff.mp h
  refine ⟨fun _ _ _ hl => absurd hl (not_arrived hp), fun _ _ _ hl => absurd hl (not_arrived hp), fun t ht => ?_⟩
  exact of_decide_eq_true (List.all_eq_true.mp hw _ ht)

theorem loaded_of_one_state_small :
    ((smallRun neatly (firstLeader ++ changeAndSync 1 6 ["n2"] ++ .start (.step "b" 0) ::
        answered 2 9)).state.log.any fun e => e matches .loaded _ true _) ∧
      ∀ n records, .loaded n true records ∈ (smallRun neatly
          (firstLeader ++ changeAndSync 1 6 ["n2"] ++ .start (.step "b" 0) :: answered 2 9)).state.log →
        ∃ t, .took t ∈ (smallRun neatly
            (firstLeader ++ changeAndSync 1 6 ["n2"] ++ .start (.step "b" 0) :: answered 2 9)).state.log ∧
          records = recordsOf runConfig.codecs t.fed :=
  ⟨by decide +kernel, loaded_of_one_state (System.run_final (fun _ _ => neatStep_of_neatly) (by decide +kernel))⟩

/-- A load accepted records of no state that a sync read. -/
def mixed (c : Codecs) (log : List StoreEvent) : StoreEvent → Bool
  | .loaded _ true records => log.all fun e => match e with
    | .took t => records ≠ recordsOf c t.fed
    | _ => true
  | _ => false

/-- Node `n1` is registered and its write takes effect with the answer lost;
then `n2` is in its place, and instance `b` loads both. -/
def mixedRun : List StoreMove :=
  firstLeader ++ lostWrite 1 ["n1"] ++ changeAndSync 2 6 ["n2"] ++ .start (.step "b" 0) :: answered 3 9

theorem not_loaded_of_one_state :
    ¬ ∀ (S : StoreConfig) (feds : String → FedState) (p : Pool Choice Fleet String),
      (fleet S).Run (fun _ _ => True) (Fleet.start feds) p →
        ∀ n records, .loaded n true records ∈ p.state.log →
          ∃ t, .took t ∈ p.state.log ∧ records = recordsOf S.codecs t.fed := by
  intro h
  have hall := h runConfig (fun _ => {}) (smallRun (fun _ _ => true) mixedRun)
    (System.run_final (fun _ _ _ => trivial) (by decide +kernel))
  have hbad : (smallRun (fun _ _ => true) mixedRun).state.log.any
      (mixed runConfig.codecs (smallRun (fun _ _ => true) mixedRun).state.log) = true := by decide +kernel
  obtain ⟨e, he, hu⟩ := List.any_eq_true.mp hbad
  rw [mixed.eq_def] at hu
  split at hu
  · obtain ⟨t, ht, hr⟩ := hall _ _ he
    exact of_decide_eq_true (List.all_eq_true.mp hu _ ht) hr
  · cases hu

end StormStorage
