import StormStorage.Operations
import StormStorage.Proof.Backups
import StormStorage.Proof.Volumes.Degraded

/-!
# Where a backup goes

A backup's node is picked under a policy, and its points stay there. A put
compares what it asks for with the policy that is set; there is none after a
stop, and the step that picks a node records it without a look at the policy
that is set by then.

* `only_backupOp`: what the steps of a put, a stop and a pass do to a backup;
* `undiverted_iff`: of those, the ones that keep the destination;
* `goesWhereChosen_iff`: the runs in which a policy's destination is always the
  one its backup's node was picked under.
-/

namespace StormStorage.Backups

open Await Task

/-! ## The destination -/

/-- Where a policy has its backups kept. -/
def destination (p : BackupPolicy) : Option String × Option String × Option String := (p.pool, p.tier, p.node)

/-- The policy that the backup's node was picked under. -/
def chosenUnder (w : AppState) (name : String) : Option BackupPolicy :=
  (w.choices.find? (·.volume = name)).map (·.policy)

/-- A backup's node was picked under a policy of this destination. -/
def ChosenFor (w : AppState) (name : String) (p : BackupPolicy) : Prop :=
  ∃ q, chosenUnder w name = some q ∧ destination p = destination q

/-- Where a backup node is chosen and a policy is set, the policy's destination
is the one that the node was chosen under. -/
def GoesWhereChosen (w : AppState) : Prop :=
  ∀ (name : String) b p, w.fed.backups[name]? = some b → b.node.isSome → b.policy = some p → ChosenFor w name p

/-- What a step must not do to the destination of a backup with a node. -/
structure Undiverted (w w' : AppState) : Prop where
  /-- A policy that is put on a stopped backup is for the destination of the one
  that its node was chosen under. -/
  put : ∀ (name : String) b p, w.fed.backups[name]? = some b → b.node.isSome → b.policy = none →
    (w'.fed.backups[name]?).bind (·.policy) = some p → ChosenFor w name p
  /-- A node is recorded while the policy, if one is set, has the destination of
  the policy that it was picked under. -/
  pick : ∀ (name : String) q b p, w'.choices = ⟨name, q⟩ :: w.choices → w.fed.backups[name]? = some b →
    b.policy = some p → destination p = destination q

/-! ## What the steps do -/

/-- A step of a put, a stop or a pass over the backups, seen from the backups. -/
inductive Turns (w w' : AppState) : Prop
  | same : w'.fed.backups = w.fed.backups → w'.choices = w.choices → Turns w w'
  | edits {name : String} {b b' : Backup} : w.fed.backups[name]? = some b → b'.node = b.node →
      (b'.policy = b.policy ∨ b'.policy = none) → w'.fed.backups = w.fed.backups.insert name b' →
        w'.choices = w.choices → Turns w w'
  | puts {name : String} {b' : Backup} {p : BackupPolicy} :
      (∀ b, w.fed.backups[name]? = some b → b'.node = b.node ∧
        (b.node.isSome → ∀ old, b.policy = some old → destination old = destination p)) →
      (w.fed.backups[name]? = none → b'.node = none) → b'.policy = some p →
        w'.fed.backups = w.fed.backups.insert name b' → w'.choices = w.choices → Turns w w'
  | picks {name node : String} {b : Backup} {q : BackupPolicy} : w.fed.backups[name]? = some b →
      w'.fed.backups = w.fed.backups.insert name { b with node := some node } →
        w'.choices = ⟨name, q⟩ :: w.choices → Turns w w'

section

variable {w w' : AppState} {cfg : Config} {me : Nat} {name : String} {policy : BackupPolicy} {now : SystemTime} {b : Backup}

theorem Steps.turns (h : Steps w w') : Turns w w' := by
  cases h with
  | calls h => exact .same (by rw [h.fed]) (by rw [h.eq])
  | edits hb ho _ h => exact .edits hb ho.node (.inl ho.policy) (by rw [h]; rfl) (by rw [h]; rfl)
  | picks hb h => exact .picks hb (by rw [h]; rfl) (by rw [h]; rfl)

/-- What a put checked, and leaves. -/
theorem withPolicy_checks {b' : Backup} (h : Api.withPolicy w.fed name policy now = .ok b') :
    b'.policy = some policy ∧ (w.fed.backups[name]? = none → b'.node = none) ∧
      ∀ b, w.fed.backups[name]? = some b → b'.node = b.node ∧
        (b.node.isSome → ∀ old, b.policy = some old → destination old = destination policy) := by
  obtain ⟨_, -, h⟩ := check_bind.mp h
  obtain ⟨v, -, h⟩ := check_bind.mp h
  obtain ⟨_, -, h⟩ := check_bind.mp h
  obtain ⟨_, hreq, h⟩ := check_bind.mp h
  obtain rfl := Except.ok.inj h
  refine ⟨rfl, fun hn => ?_, fun b hb => ?_⟩
  · rw [hn]
    rfl
  · rw [hb] at hreq ⊢
    refine ⟨rfl, fun hn old hold => ?_⟩
    have hreq := require_ok.mp hreq
    by_contra hne
    simp [hn, hold] at hreq
    exact hne (by simp [destination, hreq])

theorem turns_putPolicy {body : Api.PolicyBody} : (Api.putPolicy cfg name body).Only Turns := by
  unfold Api.putPolicy
  dsimp only
  split
  · trivial
  · split
    · trivial
    · split
      · trivial
      · refine Only.bind (only_atomic fun i w => ?_) fun x => only_ofExcept _
        split
        · rename_i b hb
          obtain ⟨hp, hnew, hold⟩ := withPolicy_checks hb
          exact .puts hold hnew hp rfl rfl
        · exact .same rfl rfl

theorem turns_stop : (Api.stop name false).Only Turns := by
  refine Only.bind (only_atomic fun _ w => ?_) fun b => ?_
  · split
    · exact .same rfl rfl
    · rename_i b hb
      exact @Turns.edits _ _ name b (Api.stopped b) hb rfl (.inr rfl) rfl rfl
  · cases b <;> trivial

end

/-- A put, a stop that keeps the points, or a pass over the backups. -/
def IsBackupOp : VolumeOp → Prop
  | .policy .. | .stopBackup _ false | .backups => True
  | _ => False

theorem only_backupOp {cfg : Config} {me : Nat} {op : VolumeOp} (h : IsBackupOp op) : (program cfg me op).Only Turns := by
  cases op with
  | policy name body => exact turns_putPolicy
  | stopBackup name purged =>
    cases purged with
    | false => exact turns_stop
    | true => exact h.elim
  | backups => exact only_run (fun _ _ => Steps.turns) fun w w' h => .same (by rw [h]) (by rw [h])
  | _ => exact h.elim

/-! ## What keeps the destination -/

section

variable {w w' : AppState} {name : String} {p q : BackupPolicy}

theorem chosenFor_eq (h : w'.choices = w.choices) : ChosenFor w' name p ↔ ChosenFor w name p := by
  simp only [ChosenFor, chosenUnder, h]

theorem chosenFor_cons (h : w'.choices = ⟨name, q⟩ :: w.choices) : ChosenFor w' name p ↔ destination p = destination q := by
  simp [ChosenFor, chosenUnder, h]

theorem chosenFor_cons_ne {n : String} (h : w'.choices = ⟨name, q⟩ :: w.choices) (hn : n ≠ name) :
    ChosenFor w' n p ↔ ChosenFor w n p := by
  simp [ChosenFor, chosenUnder, h, List.find?_cons_of_neg, Ne.symm hn]

theorem choices_ne (h : w'.choices = w.choices) : w'.choices ≠ ⟨name, q⟩ :: w.choices := by
  rw [h]
  exact (List.cons_ne_self _ _).symm

theorem follows_same (hb : w'.fed.backups = w.fed.backups) (hc : w'.choices = w.choices) (hi : GoesWhereChosen w) :
    Undiverted w w' ∧ GoesWhereChosen w' := by
  refine ⟨⟨fun n b p hn _ hnone hp => ?_, fun n q b p he => absurd he (choices_ne hc)⟩, fun n b p hn hs hp => ?_⟩
  · rw [hb, hn, Option.bind_some, hnone] at hp
    cases hp
  · rw [hb] at hn
    exact (chosenFor_eq hc).mpr (hi n b p hn hs hp)

/-- The policy is kept or taken away, and the node stays. -/
theorem follows_edits {b b' : Backup} (hget : w.fed.backups[name]? = some b) (hnode : b'.node = b.node)
    (hpol : b'.policy = b.policy ∨ b'.policy = none) (hb : w'.fed.backups = w.fed.backups.insert name b')
    (hc : w'.choices = w.choices) (hi : GoesWhereChosen w) : Undiverted w w' ∧ GoesWhereChosen w' := by
  refine ⟨⟨fun n c p hn _ hnone hp => ?_, fun n q b p he => absurd he (choices_ne hc)⟩, fun n c p hn hs hp => ?_⟩
  · rw [hb, KeyMap.get_insert] at hp
    split at hp
    · subst n
      obtain rfl := Option.some.inj (hget.symm.trans hn)
      rcases hpol with h | h <;> simp [h, hnone] at hp
    · rw [hn, Option.bind_some, hnone] at hp
      cases hp
  · refine (chosenFor_eq hc).mpr ?_
    rw [hb, KeyMap.get_insert] at hn
    split at hn
    · subst n
      obtain rfl := Option.some.inj hn
      rcases hpol with h | h
      · exact hi name b p hget (hnode ▸ hs) (h ▸ hp)
      · rw [h] at hp
        cases hp
    · exact hi n c p hn hs hp

theorem follows_puts {b' : Backup}
    (hold : ∀ b, w.fed.backups[name]? = some b → b'.node = b.node ∧
      (b.node.isSome → ∀ old, b.policy = some old → destination old = destination p))
    (hnew : w.fed.backups[name]? = none → b'.node = none) (hp : b'.policy = some p)
    (hb : w'.fed.backups = w.fed.backups.insert name b') (hc : w'.choices = w.choices) (hi : GoesWhereChosen w) :
    Undiverted w w' ↔ GoesWhereChosen w' := by
  have hget : w'.fed.backups[name]? = some b' := by rw [hb, KeyMap.get_insert_self]
  constructor
  · intro hu n c p' hn hs hp'
    refine (chosenFor_eq hc).mpr ?_
    by_cases h : name = n
    · subst n
      obtain rfl := Option.some.inj (hget.symm.trans hn)
      obtain rfl := Option.some.inj (hp.symm.trans hp')
      cases hb₀ : w.fed.backups[name]? with
      | none =>
        rw [hnew hb₀] at hs
        cases hs
      | some b =>
        obtain ⟨hnode, hkeep⟩ := hold b hb₀
        rw [hnode] at hs
        cases hpol : b.policy with
        | none => exact hu.put name b p hb₀ hs hpol (by rw [hget, Option.bind_some, hp])
        | some old =>
          -- the put compared with this one
          obtain ⟨q, hq, he⟩ := hi name b old hb₀ hs hpol
          exact ⟨q, hq, (hkeep hs old hpol).symm.trans he⟩
    · rw [hb, KeyMap.get_insert_ne _ _ h] at hn
      exact hi n c p' hn hs hp'
  · refine fun hi' => ⟨fun n b p' hn hs _ hp' => ?_, fun n q b p he => absurd he (choices_ne hc)⟩
    obtain ⟨c, hn', hp'⟩ := Option.bind_eq_some_iff.mp hp'
    refine (chosenFor_eq hc).mp (hi' n c p' hn' ?_ hp')
    by_cases h : name = n
    · subst n
      obtain rfl := Option.some.inj (hget.symm.trans hn')
      rw [(hold b hn).1]
      exact hs
    · rw [hb, KeyMap.get_insert_ne _ _ h, hn] at hn'
      obtain rfl := Option.some.inj hn'
      exact hs

theorem follows_picks {node : String} {b : Backup} (hget : w.fed.backups[name]? = some b)
    (hb : w'.fed.backups = w.fed.backups.insert name { b with node := some node })
    (hc : w'.choices = ⟨name, q⟩ :: w.choices) (hi : GoesWhereChosen w) : Undiverted w w' ↔ GoesWhereChosen w' := by
  have hget' : w'.fed.backups[name]? = some { b with node := some node } := by rw [hb, KeyMap.get_insert_self]
  constructor
  · intro hu n c p hn hs hp
    by_cases h : name = n
    · subst n
      obtain rfl := Option.some.inj (hget'.symm.trans hn)
      exact (chosenFor_cons hc).mpr (hu.pick name q b p hc hget hp)
    · rw [hb, KeyMap.get_insert_ne _ _ h] at hn
      exact (chosenFor_cons_ne hc (Ne.symm h)).mpr (hi n c p hn hs hp)
  · refine fun hi' => ⟨fun n c p hn _ hnone hp => ?_, fun n q' c p he hn hp => ?_⟩
    · by_cases h : name = n
      · subst n
        obtain rfl := Option.some.inj (hget.symm.trans hn)
        simp [hget', hnone] at hp
      · rw [hb, KeyMap.get_insert_ne _ _ h, hn, Option.bind_some, hnone] at hp
        cases hp
    · obtain ⟨hx, -⟩ := List.cons.inj (hc.symm.trans he)
      obtain ⟨rfl, rfl⟩ := NodeChoice.mk.inj hx
      obtain rfl := Option.some.inj (hget.symm.trans hn)
      exact (chosenFor_cons hc).mp (hi' name _ p hget' rfl hp)

/-- A step keeps the destination exactly if it is undiverted. -/
theorem undiverted_iff (h : Turns w w') (hi : GoesWhereChosen w) : Undiverted w w' ↔ GoesWhereChosen w' := by
  cases h with
  | same hb hc =>
    obtain ⟨hu, hi'⟩ := follows_same hb hc hi
    exact iff_of_true hu hi'
  | edits hget hnode hpol hb hc =>
    obtain ⟨hu, hi'⟩ := follows_edits hget hnode hpol hb hc hi
    exact iff_of_true hu hi'
  | puts hold hnew hp hb hc => exact follows_puts hold hnew hp hb hc hi
  | picks hget hb hc => exact follows_picks hget hb hc hi

/-- In a run of puts, stops and passes over the backups the destination is kept
in every state exactly if every step is undiverted. -/
theorem goesWhereChosen_iff {cfg : Config} {p₀ p : Pool Reply AppState Fault} (h₀ : GoesWhereChosen p₀.state)
    (ht : p₀.tasks = []) :
    (operations cfg IsBackupOp).Run (fun _ w' => GoesWhereChosen w') p₀ p ↔
      (operations cfg IsBackupOp).Run Undiverted p₀ p :=
  System.Run.holds_iff (fun _ op => only_backupOp op.2) (fun _ _ => .same rfl rfl) (fun _ => .same rfl rfl)
    (fun _ _ => undiverted_iff) h₀ ht

end

/-- A volume on `a`, and one node more. -/
def backable : AppState where
  fed := {
    nodes := nodesOf [("a", true), ("b", true)]
    volumes := (∅ : KeyMap DistVolume).insert "v" {
      name := "v"
      sizeBytes := 1
      pool := none
      replicas := 1
      rung := "node"
      legs := [{ node := "a", volumeId := some "d", state := .created }]
      assembly := .singleLeg
      createdAt := 0 } }

/-- A put, the pass that picks the node, a stop, and a put for another tier. -/
def retiered : List (Move Reply { op // IsBackupOp op } (KeyMap Node)) :=
  [.start ⟨.policy "v" {}, trivial⟩, .run 0 {}, .start ⟨.backups, trivial⟩] ++ List.replicate 6 (.run 1 {}) ++
    [.start ⟨.stopBackup "v" false, trivial⟩, .run 2 {}, .start ⟨.policy "v" { tier := some "ssd" }, trivial⟩, .run 3 {}]

/-- Where they lead. -/
def diverted : Pool Reply AppState Fault :=
  (operations plainConfig IsBackupOp).final (fun _ _ => true) ⟨backable, []⟩ retiered

theorem run_diverted : (operations plainConfig IsBackupOp).Run (fun _ _ => True) ⟨backable, []⟩ diverted :=
  System.run_final (fun _ _ _ => trivial) (by decide +kernel)

theorem diverted_strays : ¬ GoesWhereChosen diverted.state := by
  intro h
  have hb : (diverted.state.fed.backups["v"]?).map (fun b => (b.node, b.policy)) =
      some (some "b", some { pool := none, tier := some "ssd", node := none, intervalSecs := 3600, keep := 7 }) := by
    decide +kernel
  have hc : chosenUnder diverted.state "v" =
      some { pool := none, tier := none, node := none, intervalSecs := 3600, keep := 7 } := by decide +kernel
  obtain ⟨b, hb, he⟩ := Option.map_eq_some_iff.mp hb
  obtain ⟨hnode, hp⟩ := Prod.mk.inj he
  obtain ⟨q, hq, hd⟩ := h "v" b _ hb (by rw [hnode]; rfl) hp
  obtain rfl := Option.some.inj (hc.symm.trans hq)
  exact absurd hd (by decide)

theorem goesWhereChosen_iff_diverted :
    ¬ (operations plainConfig IsBackupOp).Run Undiverted ⟨backable, []⟩ diverted := by
  have h₀ : GoesWhereChosen backable := fun n b p h => by simp [backable] at h
  exact fun h => diverted_strays (((goesWhereChosen_iff h₀ rfl).mpr h).last h₀)

theorem goesWhereChosen_fails :
    ¬ ∀ (cfg : Config) (p₀ p : Pool Reply AppState Fault), GoesWhereChosen p₀.state → p₀.tasks = [] →
      (operations cfg IsBackupOp).Run (fun _ _ => True) p₀ p → GoesWhereChosen p.state :=
  fun h => diverted_strays (h _ _ _ (fun n b p h => by simp [backable] at h) rfl run_diverted)

end StormStorage.Backups
