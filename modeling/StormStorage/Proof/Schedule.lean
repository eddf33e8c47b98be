import StormStorage.Await.Trace
import StormStorage.Proof.Backups

/-!
# When the next ship is due

A point that is taken, and a ship that fails, put the next ship off by the
policy's interval (`dueAfter`), counted in signed 64-bit milliseconds.

* `dueAfter_eq`, `le_dueAfter_iff`: the sum is the one meant exactly while it
  fits;
* `finish_due`, `ship_due`, `recordFailure_due`: what the three that put a ship
  off leave in the record, whatever others do meanwhile;
* `nextShip_due_iff`: the next ship is due no earlier than the interval after
  exactly when that time fits.
-/

namespace StormStorage.Backups

open Await Task

/-! ## The sum -/

/-- A number that a signed 64-bit field holds. -/
def Fits64 (x : Int) : Prop := -2 ^ 63 ≤ x ∧ x < 2 ^ 63

theorem fits64_i64 (x : Int) : Fits64 (i64 x) := by
  have h0 := Int.le_bmod (x := x) (m := 2 ^ 64) (by decide)
  have h1 := Int.bmod_lt (x := x) (m := 2 ^ 64) (by decide)
  unfold Fits64 i64
  omega

theorem i64_of_fits {x : Int} (h : Fits64 x) : i64 x = x := by
  unfold Fits64 at h
  unfold i64
  exact Int.bmod_eq_of_le_mul_two (by omega) (by omega)

theorem dueAfter_eq_i64 (t : Int) (secs : Nat) : dueAfter t secs = i64 (t + secs * 1000) := by
  simp only [dueAfter, i64, Int.bmod_mul_bmod, Int.add_bmod_bmod]

/-- The sum is not below the one meant exactly while that fits. -/
theorem le_dueAfter_iff {t : Int} {secs : Nat} (ht : Fits64 t) :
    t + secs * 1000 ≤ dueAfter t secs ↔ t + secs * 1000 < 2 ^ 63 := by
  rw [dueAfter_eq_i64]
  constructor
  · intro h
    have := (fits64_i64 (t + secs * 1000)).2
    omega
  · intro h
    rw [i64_of_fits]
    unfold Fits64 at ht ⊢
    omega

/-! ## What is written -/

variable {me : Nat} {name node : String} {r : Reading} {job : ShipJob} {snapshot : ShipSnapshot} {n : Int} {e : Fault}
  {tr : List (Moment Reply AppState)} {m : Moment Reply AppState} {b : Backup}

/-- The record after an update is one that it made. -/
theorem endsWith_update {f : Backup → Backup} :
    EndsWith (update name f) fun m => ∀ b, m.after.fed.backups[name]? = some b → ∃ b₀, b = f b₀ := by
  refine EndsWith.atomic fun i w b hb => ?_
  cases h0 : w.fed.backups[name]? with
  | none =>
    simp only [h0] at hb
    cases hb
  | some b₀ =>
    simp only [h0] at hb
    exact ⟨b₀, (Option.some.inj ((KeyMap.get_insert_self ..).symm.trans hb)).symm⟩

theorem endsWith_recordPoints {read dropped : List BackupPoint} {point : BackupPoint} {failed : List String}
    {f : Backup → Backup} :
    EndsWith (recordPoints name read point dropped failed f) fun m => ∀ b, m.after.fed.backups[name]? = some b →
      ∃ b₀, b = { f b₀ with points := keepPoints (read ++ [point]) dropped failed } := by
  refine EndsWith.atomic fun i w b hb => ?_
  cases h0 : w.fed.backups[name]? with
  | none =>
    simp only [AppState.note, h0] at hb
    cases hb
  | some b₀ =>
    simp only [AppState.note, h0] at hb
    exact ⟨b₀, (Option.some.inj ((KeyMap.get_insert_self ..).symm.trans hb)).symm⟩

/-- A point that was taken puts the next ship off. -/
theorem finish_due : EndsWith (finish me name node r job n) fun m => ∀ b, m.after.fed.backups[name]? = some b →
    b.nextAtMs = max n (dueAfter job.snapshot.takenAtMs r.policy.intervalSecs) := by
  refine EndsWith.bind fun _ => EndsWith.bind fun p => EndsWith.bind fun failed => EndsWith.bind fun _ => ?_
  refine endsWith_recordPoints.mono fun m h b hb => ?_
  obtain ⟨b₀, rfl⟩ := h b hb
  rfl

/-- A ship that the engine does not know puts the next one off. -/
theorem ship_due : EndsWith (ship name r snapshot) fun m => ∀ b, m.after.fed.backups[name]? = some b →
    b.state = .waitingEngine → b.nextAtMs = dueAfter snapshot.takenAtMs r.policy.intervalSecs := by
  refine EndsWith.bind fun x => ?_
  split
  · exact EndsWith.fail
  · refine endsWith_update.mono fun m h b hb hs => ?_
    obtain ⟨b₀, rfl⟩ := h b hb
    cases hs
  · refine EndsWith.bind fun _ => ?_
    split
    · refine endsWith_update.mono fun m h b hb _ => ?_
      obtain ⟨b₀, rfl⟩ := h b hb
      rfl
    · exact EndsWith.fail

def intervalOf (name : String) (w : AppState) : Nat :=
  (((w.fed.backups[name]?).bind (·.policy)).map (·.intervalSecs)).getD 3600

/-- A step that failed puts the next one off by the interval it then reads. -/
theorem recordFailure_due {m₁ : Moment Reply AppState} (h : Among (recordFailure name n e) (m₁ :: tr ++ [m]) (ret ()))
    (hb : m.after.fed.backups[name]? = some b) : b.nextAtMs = dueAfter n (intervalOf name m₁.before) := by
  obtain ⟨tr₁, tr₂, secs, he, h₁, h₂⟩ := h.ret_bind
  obtain ⟨m', rfl, -, rfl⟩ := among_atomic h₁
  obtain ⟨rfl, rfl⟩ := List.cons_eq_cons.mp he
  obtain ⟨b₀, rfl⟩ := endsWith_update.last h₂ b hb
  rfl

/-! ## The schedule -/

/-- Whatever others do meanwhile, and for every interval: after a point was
taken, after a ship that the engine does not know and after a step that failed,
the next ship is due no earlier than the interval after exactly when that time
fits in 63 bits. -/
theorem nextShip_due_iff (hb : m.after.fed.backups[name]? = some b) :
    (∀ me node (r : Reading) (job : ShipJob) n, Fits64 job.snapshot.takenAtMs → Fits64 n →
      Among (finish me name node r job n) (tr ++ [m]) (ret ()) →
      (job.snapshot.takenAtMs + r.policy.intervalSecs * 1000 ≤ b.nextAtMs ↔
        job.snapshot.takenAtMs + r.policy.intervalSecs * 1000 < 2 ^ 63)) ∧
    (∀ (r : Reading) (snapshot : ShipSnapshot), Fits64 snapshot.takenAtMs →
      Among (ship name r snapshot) (tr ++ [m]) (ret ()) → b.state = .waitingEngine →
      (snapshot.takenAtMs + r.policy.intervalSecs * 1000 ≤ b.nextAtMs ↔
        snapshot.takenAtMs + r.policy.intervalSecs * 1000 < 2 ^ 63)) ∧
    ∀ (t : SystemTime) e m₁, Among (recordFailure name (nowMs t) e) (m₁ :: tr ++ [m]) (ret ()) →
      (nowMs t + intervalOf name m₁.before * 1000 ≤ b.nextAtMs ↔
        nowMs t + intervalOf name m₁.before * 1000 < 2 ^ 63) := by
  refine ⟨?_, ?_, ?_⟩
  · intro me node r job n ht hn h
    rw [finish_due.last h b hb, le_max_iff, le_dueAfter_iff ht]
    refine or_iff_right_of_imp fun hle => ?_
    exact lt_of_le_of_lt hle hn.2
  · intro r snapshot ht h hs
    rw [ship_due.last h b hb hs, le_dueAfter_iff ht]
  · intro t e m₁ h
    have ht : Fits64 (nowMs t) := fits64_i64 t
    rw [recordFailure_due h hb, le_dueAfter_iff ht]

/-- A state with one record, of a policy that asks for `secs`. -/
def scheduled (secs : Nat) : AppState where
  fed := { backups := (∅ : KeyMap Backup).insert "v" { Api.freshBackup "v" 1 with
    policy := some { pool := none, tier := none, node := none, intervalSecs := secs, keep := 7 } } }

/-- A step that failed, with nothing else meanwhile. -/
theorem among_recordFailure (name : String) (n : Int) (e : Fault) {w : AppState} {b : Backup}
    (hw : w.fed.backups[name]? = some b) :
    ∃ m, Among (recordFailure name n e) ([⟨{}, w, w⟩] ++ [m]) (ret ()) ∧
      m.after.fed.backups[name]? = some
        { b with state := .failed, message := some e.message, nextAtMs := dueAfter n (intervalOf name w) } := by
  have h₁ : Among (Await.Task.get (intervalOf name) : Async Nat) [⟨{}, w, w⟩] (ret (intervalOf name w)) :=
    Among.once ..
  refine ⟨_, h₁.bind (Among.once _ {} w), ?_⟩
  simp only [hw, AppState.revise, AppState.setFed, KeyMap.get_insert_self]

theorem scheduled_get (secs : Nat) : ∃ b : Backup, (scheduled secs).fed.backups["v"]? = some b ∧
    b.policy = some { pool := none, tier := none, node := none, intervalSecs := secs, keep := 7 } :=
  ⟨_, KeyMap.get_insert_self .., rfl⟩

theorem intervalOf_scheduled (secs : Nat) : intervalOf "v" (scheduled secs) = secs := by
  obtain ⟨b, hb, hp⟩ := scheduled_get secs
  rw [intervalOf, hb, Option.bind_some, hp]
  rfl

theorem nextShip_due_iff_hourly : ∃ (m : Moment Reply AppState) (b : Backup),
    Among (recordFailure "v" (nowMs 5) { message := "" }) ([⟨{}, scheduled 3600, scheduled 3600⟩] ++ [m]) (ret ()) ∧
      m.after.fed.backups["v"]? = some b ∧
      (nowMs 5 + intervalOf "v" (scheduled 3600) * 1000 ≤ b.nextAtMs ↔
        nowMs 5 + intervalOf "v" (scheduled 3600) * 1000 < 2 ^ 63) := by
  obtain ⟨b, hb, -⟩ := scheduled_get 3600
  obtain ⟨m, hm, ha⟩ := among_recordFailure "v" (nowMs 5) { message := "" } hb
  exact ⟨m, _, hm, ha,
    (nextShip_due_iff ha).2.2 5 { message := "" } ⟨{}, scheduled 3600, scheduled 3600⟩ hm⟩

/-- 9223372036854776 seconds are more milliseconds than a signed 64-bit number
holds: the next ship is due before the clock began. -/
theorem nextShip_wraps :
    ¬ ∀ (body : Api.PolicyBody) name (t : SystemTime) e m₁ tr m (b : Backup),
      60 ≤ body.policy.intervalSecs → body.policy.intervalSecs < 2 ^ 64 → 0 < body.policy.keep →
      (m₁.before.fed.backups[name]?).bind (·.policy) = some body.policy →
      Among (recordFailure name (nowMs t) e) (m₁ :: tr ++ [m]) (ret ()) → m.after.fed.backups[name]? = some b →
      nowMs t + body.policy.intervalSecs * 1000 ≤ b.nextAtMs := by
  intro h
  obtain ⟨b, hb, hp⟩ := scheduled_get 9223372036854776
  obtain ⟨m, hm, ha⟩ := among_recordFailure "v" (nowMs 1000) { message := "" } hb
  have hle := h { intervalSecs := some 9223372036854776 } "v" 1000 { message := "" }
    ⟨{}, scheduled 9223372036854776, scheduled 9223372036854776⟩ [] m _ (by decide) (by decide) (by decide)
    (by rw [hb, Option.bind_some, hp]; rfl) hm ha
  rw [intervalOf_scheduled] at hle
  have hle : nowMs 1000 + (9223372036854776 : Nat) * 1000 ≤ dueAfter (nowMs 1000) 9223372036854776 := hle
  exact absurd hle (by decide)

end StormStorage.Backups
