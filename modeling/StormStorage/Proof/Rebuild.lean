import StormStorage.Rebuild

/-!
# When a rebuild is given up

A wait ends with the first turn that shows the member active or failed, or that
is more than `stall` past the last progress, and how it ends is what that turn
shows (`wait_ends`). A member that makes no progress is not waited for longer
than a number of turns that the timeout gives (`wait_bounded`). Meanwhile the rate
cap is put at most once a minute, and again whenever a minute has passed
(`puts_paced`).
-/

namespace StormStorage.Rebuild

open Watchdog

variable (cfg : RecoveryConfig) (toLowercase : String → String) (memberUuid : String)

/-- What was read of the member, and when. -/
def readings (ts : List Turn) : List (Nat × Option (String × Option Nat)) :=
  ts.map fun t => (t.read, t.reading toLowercase memberUuid)

/-! ## How it ends -/

/-- The last progress before the turn, its own reading included, is more than
`stall` ago. -/
def Stalled (start : Nat) (before : List Turn) (t : Turn) : Prop :=
  ∃ time, LastMove start (readings toLowercase memberUuid (before ++ [t])) time ∧ time + cfg.stall < t.checked

/-- The turn, after those before, ends the wait with `b`. -/
inductive EndedBy (start : Nat) (before : List Turn) (t : Turn) : Bool → Prop
  | active : t.state toLowercase memberUuid = some "active" → EndedBy start before t true
  | failed : t.state toLowercase memberUuid = some "failed" → EndedBy start before t false
  | stalled : t.state toLowercase memberUuid ≠ some "active" → Stalled cfg toLowercase memberUuid start before t →
      EndedBy start before t false

/-- The first turn that ends the wait does so with `b`. -/
inductive Outcome (start : Nat) : List Turn → List Turn → Bool → Prop
  | here {before ts : List Turn} {t : Turn} {b : Bool} :
      EndedBy cfg toLowercase memberUuid start before t b → Outcome start before (t :: ts) b
  | later {before ts : List Turn} {t : Turn} {b : Bool} :
      (∀ c, ¬ EndedBy cfg toLowercase memberUuid start before t c) → Outcome start (before ++ [t]) ts b →
        Outcome start before (t :: ts) b

variable {cfg toLowercase memberUuid} {start lastPut : Nat} {before ts : List Turn} {t : Turn} {w w' : Waiting} {b : Bool}

theorem stalled_iff :
    Stalled cfg toLowercase memberUuid start before t ↔
      (watch cfg.stall start (readings toLowercase memberUuid (before ++ [t]))).deadline < t.checked := by
  constructor
  · rintro ⟨time, h, hlt⟩
    rwa [deadline_watch h]
  · intro hlt
    obtain ⟨time, h⟩ := exists_lastMove start (readings toLowercase memberUuid (before ++ [t]))
    exact ⟨time, h, by rwa [deadline_watch h] at hlt⟩

theorem watch_readings (hw : w.watch = watch cfg.stall start (readings toLowercase memberUuid before)) :
    w.watch.see cfg.stall t.read (t.reading toLowercase memberUuid) =
      watch cfg.stall start (readings toLowercase memberUuid (before ++ [t])) := by
  rw [hw, readings, readings, List.map_append, List.map_singleton, watch_append_singleton]

theorem EndedBy.unique {c : Bool} (h : EndedBy cfg toLowercase memberUuid start before t b)
    (h' : EndedBy cfg toLowercase memberUuid start before t c) : b = c := by
  cases h with
  | active ha =>
    cases h' with
    | active => rfl
    | failed hf => exact absurd (Option.some.inj (ha.symm.trans hf)) (by decide)
    | stalled hn => exact absurd ha hn
  | failed hf =>
    cases h' with
    | active ha => exact absurd (Option.some.inj (ha.symm.trans hf)) (by decide)
    | failed => rfl
    | stalled => rfl
  | stalled hn =>
    cases h' with
    | active ha => exact absurd ha hn
    | failed => rfl
    | stalled => rfl

/-- What a turn that does not end the wait does about the rate. -/
def PutStep (cfg : RecoveryConfig) (t : Turn) (w w' : Waiting) : Prop :=
  (w.lastPut + reput ≤ t.due ∧ w'.lastPut = t.put ∧
    w'.puts = w.puts ++ (t.bandwidthClass.map fun c => (t.put, cfg.rate c)).toList) ∨
  (t.due < w.lastPut + reput ∧ w'.lastPut = w.lastPut ∧ w'.puts = w.puts)

/-- What a turn does after those before. -/
theorem turn_cases (hw : w.watch = watch cfg.stall start (readings toLowercase memberUuid before)) :
    (∃ b, w.turn cfg toLowercase memberUuid t = .error b ∧ EndedBy cfg toLowercase memberUuid start before t b) ∨
    ((∀ b, ¬ EndedBy cfg toLowercase memberUuid start before t b) ∧
      ∃ w', w.turn cfg toLowercase memberUuid t = .ok w' ∧ PutStep cfg t w w' ∧
        w'.watch = watch cfg.stall start (readings toLowercase memberUuid (before ++ [t]))) := by
  unfold Waiting.turn
  by_cases ha : t.state toLowercase memberUuid = some "active"
  · exact .inl ⟨true, if_pos ha, .active ha⟩
  rw [if_neg ha]
  by_cases hf : t.state toLowercase memberUuid = some "failed"
  · exact .inl ⟨false, if_pos hf, .failed hf⟩
  rw [if_neg hf]
  dsimp only
  rw [watch_readings hw]
  by_cases hlt : (watch cfg.stall start (readings toLowercase memberUuid (before ++ [t]))).deadline < t.checked
  · exact .inl ⟨false, if_pos hlt, .stalled ha (stalled_iff.mpr hlt)⟩
  rw [if_neg hlt]
  refine .inr ⟨fun b h => ?_, ?_⟩
  · cases h with
    | active h => exact ha h
    | failed h => exact hf h
    | stalled _ h => exact hlt (stalled_iff.mp h)
  · by_cases hdue : w.lastPut + reput ≤ t.due
    · exact ⟨_, if_pos hdue, .inl ⟨hdue, rfl, rfl⟩, rfl⟩
    · exact ⟨_, if_neg hdue, .inr ⟨by omega, rfl, rfl⟩, rfl⟩

theorem wait_from (hw : w.watch = watch cfg.stall start (readings toLowercase memberUuid before)) :
    (waitMemberActive cfg toLowercase memberUuid w ts).1 = some b ↔
      Outcome cfg toLowercase memberUuid start before ts b := by
  induction ts generalizing before w with
  | nil =>
    refine ⟨fun h => ?_, fun h => ?_⟩
    · cases h
    · cases h
  | cons t ts ih =>
    rw [waitMemberActive]
    rcases turn_cases hw with ⟨c, ht, he⟩ | ⟨hn, w', ht, -, hw'⟩
    · rw [ht]
      refine ⟨fun h => ?_, fun h => ?_⟩
      · obtain rfl := Option.some.inj h
        exact .here he
      · cases h with
        | here h => exact congrArg some (he.unique h)
        | later h _ => exact absurd he (h c)
    · rw [ht]
      refine (ih hw').trans ⟨.later hn, fun h => ?_⟩
      cases h with
      | here h => exact absurd h (hn b)
      | later _ h => exact h

/-- A wait ends as the first turn shows that ends it: the member is active, or
failed, or made no progress for longer than `stall`. -/
theorem wait_ends :
    (waitMemberActive cfg toLowercase memberUuid (waiting cfg start lastPut) ts).1 = some b ↔
      Outcome cfg toLowercase memberUuid start [] ts b :=
  wait_from rfl

/-! ## That it ends -/

/-- The clock goes on, by `tick` at least between two turns. -/
def Clocked (cfg : RecoveryConfig) : Nat → List Turn → Prop
  | _, [] => True
  | now, t :: ts => now ≤ t.read ∧ t.read ≤ t.checked ∧ t.checked ≤ t.due ∧ t.due ≤ t.put ∧ Clocked cfg (t.put + cfg.tick) ts

instance decidableClocked (cfg : RecoveryConfig) : (now : Nat) → (ts : List Turn) → Decidable (Clocked cfg now ts)
  | _, [] => .isTrue trivial
  | now, t :: ts =>
    have := decidableClocked cfg (t.put + cfg.tick) ts
    inferInstanceAs (Decidable (now ≤ t.read ∧ t.read ≤ t.checked ∧ t.checked ≤ t.due ∧ t.due ≤ t.put ∧ _))

theorem Clocked.after {now : Nat} {after : List Turn} (h : Clocked cfg now (before ++ after)) :
    ∃ later, Clocked cfg later after ∧ now ≤ later ∧ ∀ t ∈ before, t.read ≤ later := by
  induction before generalizing now with
  | nil => exact ⟨now, h, Nat.le_refl _, by simp⟩
  | cons t before ih =>
    obtain ⟨hread, hchecked, hdue, hput, hrest⟩ := h
    obtain ⟨later, hlater, hle, hall⟩ := ih hrest
    refine ⟨later, hlater, by omega, fun u hu => ?_⟩
    rcases List.mem_cons.mp hu with rfl | hu
    · omega
    · exact hall u hu

/-- Each turn takes a tick. -/
theorem Clocked.last {now : Nat} (h : Clocked cfg now (before ++ [t])) : now + before.length * cfg.tick ≤ t.checked := by
  induction before generalizing now with
  | nil =>
    obtain ⟨hread, hchecked, -⟩ := h
    show now + 0 * cfg.tick ≤ t.checked
    omega
  | cons u before ih =>
    obtain ⟨hread, hchecked, hdue, hput, hrest⟩ := h
    have hle := ih hrest
    rw [List.length_cons, Nat.succ_mul]
    omega

theorem exists_outcome (h : EndedBy cfg toLowercase memberUuid start (before ++ ts) t b) (after : List Turn) :
    ∃ c, Outcome cfg toLowercase memberUuid start before (ts ++ t :: after) c := by
  induction ts generalizing before with
  | nil => exact ⟨b, .here (by simpa using h)⟩
  | cons u ts ih =>
    by_cases hu : ∃ c, EndedBy cfg toLowercase memberUuid start before u c
    · obtain ⟨c, hc⟩ := hu
      exact ⟨c, .here hc⟩
    · have h : EndedBy cfg toLowercase memberUuid start (before ++ [u] ++ ts) t b := by simpa using h
      obtain ⟨c, hc⟩ := ih h
      exact ⟨c, .later (fun c hc => hu ⟨c, hc⟩) hc⟩

/-- A member that makes no progress is waited for no longer than so many turns. -/
theorem wait_bounded {after : List Turn} (hc : Clocked cfg start (before ++ after))
    (hstill : ∀ t ∈ after, ∀ r ∈ t.reading toLowercase memberUuid, lastSeen (readings toLowercase memberUuid before) = some r)
    (hlen : cfg.stall / cfg.tick + 1 < after.length) :
    ((waitMemberActive cfg toLowercase memberUuid (waiting cfg start lastPut) (before ++ after)).1).isSome := by
  obtain ⟨rest, t, rfl⟩ : ∃ rest t, after = rest ++ [t] :=
    ⟨after.dropLast, after.getLast (by rintro rfl; simp at hlen), (List.dropLast_append_getLast _).symm⟩
  obtain ⟨time, hmove⟩ := exists_lastMove start (readings toLowercase memberUuid before)
  obtain ⟨later, hlater, hstart, hreads⟩ := hc.after
  have htime : time ≤ later := by
    rcases hmove.time_mem with rfl | ⟨o, ho, rfl⟩
    · exact hstart
    · obtain ⟨u, hu, rfl⟩ := List.mem_map.mp ho
      exact hreads u hu
  have htick : 0 < cfg.tick := by
    unfold RecoveryConfig.tick
    omega
  have hlong : cfg.stall < rest.length * cfg.tick := by
    have hrest : cfg.stall / cfg.tick < rest.length := by
      rw [List.length_append, List.length_singleton] at hlen
      omega
    exact (Nat.div_lt_iff_lt_mul htick).mp hrest
  have hstalled : Stalled cfg toLowercase memberUuid start (before ++ rest) t := by
    refine ⟨time, ?_, by have := hlater.last; omega⟩
    rw [List.append_assoc, readings, List.map_append]
    refine hmove.append fun o ho r hr => ?_
    obtain ⟨u, hu, rfl⟩ := List.mem_map.mp ho
    exact hstill u hu r hr
  have hended : ∃ b, EndedBy cfg toLowercase memberUuid start (before ++ rest) t b := by
    by_cases ha : t.state toLowercase memberUuid = some "active"
    · exact ⟨true, .active ha⟩
    · exact ⟨false, .stalled ha hstalled⟩
  obtain ⟨b, hb⟩ := hended
  have hb : EndedBy cfg toLowercase memberUuid start ([] ++ (before ++ rest)) t b := hb
  obtain ⟨c, hc⟩ := exists_outcome hb []
  rw [← List.append_assoc, wait_ends.mpr hc]
  rfl

/-- A call that fails, a time after the start. -/
def failsAt (ms : Nat) : Turn := { answer := none, bandwidthClass := some .low, read := ms, checked := ms, due := ms, put := ms }

def oneSecond : RecoveryConfig := { rebuildTimeoutSecs := 1 }

theorem wait_bounded_silent :
    ((waitMemberActive oneSecond String.toLower "m" (waiting oneSecond 0 0)
      ([] ++ (List.range 6).map fun i => failsAt (250 * i))).1).isSome := by
  refine wait_bounded (by decide) (fun t ht r hr => ?_) (by decide)
  obtain ⟨i, -, rfl⟩ := List.mem_map.mp ht
  cases hr

/-! ## The rate -/

/-- The instant is that of a put in these turns, or of the start, or one when
there was no record to take a class from. -/
def PutBy (cfg : RecoveryConfig) (lastPut : Nat) (puts : List (Nat × Nat)) (ts : List Turn) (time : Nat) : Prop :=
  time = lastPut ∨ ∃ t ∈ ts, time = t.put ∧ ∀ c ∈ t.bandwidthClass, (t.put, cfg.rate c) ∈ puts

/-- What was put in the turns before: each put a minute after the one before,
and none later than `lastPut`. -/
structure Paced (cfg : RecoveryConfig) (lastPut : Nat) (before : List Turn) (w : Waiting) : Prop where
  spaced : w.puts.Pairwise fun p q => p.1 + reput ≤ q.1
  last : ∀ p ∈ w.puts, p.1 ≤ w.lastPut
  made : ∀ p ∈ w.puts, ∃ t ∈ before, ∃ c ∈ t.bandwidthClass, p = (t.put, cfg.rate c)
  since : PutBy cfg lastPut w.puts before w.lastPut

theorem PutBy.mono {puts puts' : List (Nat × Nat)} {time : Nat} (h : PutBy cfg lastPut puts before time)
    (hputs : puts ⊆ puts') (ht : before ⊆ ts) : PutBy cfg lastPut puts' ts time := by
  rcases h with h | ⟨t, hm, htime, hc⟩
  · exact .inl h
  · exact .inr ⟨t, ht hm, htime, fun c hm => hputs (hc c hm)⟩

theorem Paced.mono (h : Paced cfg lastPut before w) (ht : before ⊆ ts) : Paced cfg lastPut ts w := by
  refine ⟨h.spaced, h.last, fun p hp => ?_, h.since.mono (List.Subset.refl _) ht⟩
  obtain ⟨t, hm, hc⟩ := h.made p hp
  exact ⟨t, ht hm, hc⟩

theorem PutStep.puts (h : PutStep cfg t w w') : w.puts ⊆ w'.puts := by
  rcases h with ⟨-, -, hputs⟩ | ⟨-, -, hputs⟩
  · rw [hputs]
    exact List.subset_append_left _ _
  · rw [hputs]
    exact List.Subset.refl _

theorem PutStep.paced (h : PutStep cfg t w w') (hp : Paced cfg lastPut before w) (hput : t.due ≤ t.put) :
    Paced cfg lastPut (before ++ [t]) w' ∧ t.due < w'.lastPut + reput := by
  have hmade : ∀ p ∈ w.puts, ∃ u ∈ before ++ [t], ∃ c ∈ u.bandwidthClass, p = (u.put, cfg.rate c) := fun p hm => by
    obtain ⟨u, hu, hc⟩ := hp.made p hm
    exact ⟨u, List.mem_append_left _ hu, hc⟩
  rcases h with ⟨hdue, hlast, hputs⟩ | ⟨hdue, hlast, hputs⟩
  · have hnew : ∀ p ∈ (t.bandwidthClass.map fun c => (t.put, cfg.rate c)).toList,
        p.1 = t.put ∧ ∃ c ∈ t.bandwidthClass, p = (t.put, cfg.rate c) := fun p hm => by
      obtain ⟨c, hc, rfl⟩ := Option.map_eq_some_iff.mp (Option.mem_toList.mp hm)
      exact ⟨rfl, c, hc, rfl⟩
    refine ⟨⟨?_, fun p hm => ?_, fun p hm => ?_, .inr ⟨t, by simp, hlast, fun c hc => ?_⟩⟩, ?_⟩
    · rw [hputs]
      refine List.pairwise_append.mpr ⟨hp.spaced, ?_, fun p hm q hn => ?_⟩
      · cases t.bandwidthClass with
        | none => exact .nil
        | some c => exact List.pairwise_singleton _ _
      · have hle := hp.last p hm
        rw [(hnew q hn).1]
        omega
    · rw [hputs] at hm
      rw [hlast]
      rcases List.mem_append.mp hm with hm | hm
      · have hle := hp.last p hm
        omega
      · exact Nat.le_of_eq (hnew p hm).1
    · rw [hputs] at hm
      rcases List.mem_append.mp hm with hm | hm
      · exact hmade p hm
      · exact ⟨t, by simp, (hnew p hm).2⟩
    · rw [hputs, show t.bandwidthClass = some c from hc]
      simp
    · rw [hlast]
      show t.due < t.put + 60 * 1000
      omega
  · refine ⟨⟨hputs ▸ hp.spaced, fun p hm => ?_, fun p hm => hmade p (hputs ▸ hm), ?_⟩, by rw [hlast]; exact hdue⟩
    · rw [hlast]
      exact hp.last p (hputs ▸ hm)
    · rw [hlast, hputs]
      rcases hp.since with h | ⟨u, hu, h⟩
      · exact .inl h
      · exact .inr ⟨u, List.mem_append_left _ hu, h⟩

theorem paced_from {now : Nat} (hw : w.watch = watch cfg.stall start (readings toLowercase memberUuid before))
    (hp : Paced cfg lastPut before w) (hc : Clocked cfg now ts) :
    let w' := (waitMemberActive cfg toLowercase memberUuid w ts).2
    Paced cfg lastPut (before ++ ts) w' ∧ w.puts ⊆ w'.puts ∧
      ∀ mid t after, ts = mid ++ t :: after →
        (∀ b, ¬ Outcome cfg toLowercase memberUuid start before (mid ++ [t]) b) →
          ∃ time, PutBy cfg lastPut w'.puts (before ++ mid ++ [t]) time ∧ t.due < time + reput := by
  induction ts generalizing before w now with
  | nil => exact ⟨by rw [List.append_nil]; exact hp, List.Subset.refl _, fun mid t after h => by simp at h⟩
  | cons u ts ih =>
    obtain ⟨-, -, -, hput, hrest⟩ := hc
    rw [waitMemberActive]
    rcases turn_cases (t := u) hw with ⟨c, ht, he⟩ | ⟨hn, w₁, ht, hstep, hw₁⟩
    · rw [ht]
      refine ⟨hp.mono (List.subset_append_left _ _), List.Subset.refl _, fun mid t after h hno => ?_⟩
      cases mid with
      | nil =>
        obtain ⟨rfl, -⟩ := List.cons.inj h
        exact absurd (.here he) (hno c)
      | cons v mid =>
        obtain ⟨rfl, -⟩ := List.cons.inj h
        exact absurd (.here he) (hno c)
    · rw [ht]
      obtain ⟨hp₁, hdue⟩ := hstep.paced hp hput
      obtain ⟨hpaced, hputs, hall⟩ := ih hw₁ hp₁ hrest
      refine ⟨by simpa using hpaced, List.Subset.trans hstep.puts hputs, fun mid t after h hno => ?_⟩
      cases mid with
      | nil =>
        obtain ⟨rfl, -⟩ := List.cons.inj h
        exact ⟨w₁.lastPut, by simpa using hp₁.since.mono hputs (List.Subset.refl _), hdue⟩
      | cons v mid =>
        obtain ⟨rfl, htail⟩ := List.cons.inj h
        obtain ⟨time, hby, hlt⟩ := hall mid t after htail fun b hb => hno b (.later hn hb)
        exact ⟨time, by simpa using hby, hlt⟩

/-- The cap is put at most once a minute, each time that of the class the record
has then, and no turn goes by later than a minute after the last put. -/
theorem puts_paced (hc : Clocked cfg lastPut ts) :
    let puts := (waitMemberActive cfg toLowercase memberUuid (waiting cfg start lastPut) ts).2.puts
    puts.Pairwise (fun p q => p.1 + reput ≤ q.1) ∧
    (∀ p ∈ puts, ∃ t ∈ ts, ∃ c ∈ t.bandwidthClass, p = (t.put, cfg.rate c)) ∧
    ∀ before t after, ts = before ++ t :: after →
      (∀ b, ¬ Outcome cfg toLowercase memberUuid start [] (before ++ [t]) b) →
        ∃ time, PutBy cfg lastPut puts (before ++ [t]) time ∧ t.due < time + reput := by
  have hbegun : Paced cfg lastPut [] (waiting cfg start lastPut) := ⟨.nil, by simp [waiting], by simp [waiting], .inl rfl⟩
  have hwatch : (waiting cfg start lastPut).watch = watch cfg.stall start (readings toLowercase memberUuid []) := rfl
  obtain ⟨hpaced, -, hall⟩ := paced_from hwatch hbegun hc
  exact ⟨hpaced.spaced, hpaced.made, hall⟩

theorem puts_paced_silent :
    (waitMemberActive {} String.toLower "m" (waiting {} 0 0) [failsAt 0, failsAt 61000, failsAt 100000, failsAt 121000]).2.puts.Pairwise
      fun p q => p.1 + reput ≤ q.1 :=
  (puts_paced (by decide)).1

example : (waitMemberActive {} String.toLower "m" (waiting {} 0 0)
    [failsAt 0, failsAt 61000, failsAt 100000, failsAt 121000]).2.puts = [(61000, 50 * 2 ^ 20), (121000, 50 * 2 ^ 20)] := by
  decide

end StormStorage.Rebuild
