import Mathlib.Data.List.Induction

/-!
# A watch for what stops moving

A watch is told, at a time, what is seen of something, or that nothing is. Its
deadline is put off to `stall` later whenever something new is seen: not what
was seen the last time.

* `LastMove`: when something new was last seen, and `exists_lastMove`: there is
  always such a time, the start where nothing was seen;
* `deadline_watch`: the deadline is `stall` after it;
* `LastMove.append`: what shows nothing new leaves it where it is.
-/

namespace Watchdog

variable {α : Type} [DecidableEq α]

structure Watch (α : Type) where
  deadline : Nat
  seen : Option α := none

def Watch.see (stall : Nat) (w : Watch α) (time : Nat) (x : Option α) : Watch α :=
  if x.isSome ∧ x ≠ w.seen then { deadline := time + stall, seen := x } else w

/-- The watch after all that was seen, the first first. -/
def watch (stall start : Nat) (obs : List (Nat × Option α)) : Watch α :=
  obs.foldl (fun w o => w.see stall o.1 o.2) { deadline := start + stall }

variable {stall start time : Nat} {x : Option α} {a : α} {obs before after : List (Nat × Option α)}

@[simp] theorem watch_nil : watch stall start ([] : List (Nat × Option α)) = { deadline := start + stall } := rfl

theorem watch_append_singleton :
    watch stall start (obs ++ [(time, x)]) = (watch stall start obs).see stall time x := by
  simp [watch]

/-! ## What was seen last -/

def lastSeen (obs : List (Nat × Option α)) : Option α := (obs.filterMap Prod.snd).getLast?

omit [DecidableEq α] in
@[simp] theorem lastSeen_nil : lastSeen ([] : List (Nat × Option α)) = none := rfl

omit [DecidableEq α] in
@[simp] theorem lastSeen_none : lastSeen (obs ++ [(time, none)]) = lastSeen obs := by
  simp [lastSeen, List.filterMap_append]

omit [DecidableEq α] in
@[simp] theorem lastSeen_some : lastSeen (obs ++ [(time, some a)]) = some a := by
  simp [lastSeen, List.filterMap_append]

theorem seen_watch : (watch stall start obs).seen = lastSeen obs := by
  induction obs using List.reverseRecOn with
  | nil => rfl
  | append_singleton obs o ih =>
    obtain ⟨time, x⟩ := o
    rw [watch_append_singleton, Watch.see]
    cases x with
    | none => simp [ih]
    | some a =>
      rw [lastSeen_some]
      split
      · rfl
      · next h => simpa [eq_comm] using h

omit [DecidableEq α] in
theorem lastSeen_append (h : ∀ o ∈ after, ∀ b ∈ o.2, lastSeen obs = some b) : lastSeen (obs ++ after) = lastSeen obs := by
  induction after using List.reverseRecOn with
  | nil => simp
  | append_singleton after o ih =>
    obtain ⟨time, x⟩ := o
    rw [← List.append_assoc]
    cases x with
    | none => rw [lastSeen_none, ih fun o ho => h o (List.mem_append_left _ ho)]
    | some a => rw [lastSeen_some, h (time, some a) (by simp) a rfl]

/-- What shows nothing new leaves the watch as it is. -/
theorem watch_append (h : ∀ o ∈ after, ∀ b ∈ o.2, lastSeen obs = some b) :
    watch stall start (obs ++ after) = watch stall start obs := by
  induction after using List.reverseRecOn with
  | nil => simp
  | append_singleton after o ih =>
    obtain ⟨time, x⟩ := o
    have hafter : ∀ o ∈ after, ∀ b ∈ o.2, lastSeen obs = some b := fun o ho => h o (List.mem_append_left _ ho)
    rw [← List.append_assoc, watch_append_singleton, Watch.see, seen_watch, lastSeen_append hafter, ih hafter]
    cases x with
    | none => simp
    | some a => simp [h (time, some a) (by simp) a rfl]

/-! ## The last move -/

/-- Something new was last seen at the time, or nothing was, since the start. -/
inductive LastMove (start : Nat) : List (Nat × Option α) → Nat → Prop
  | never {obs : List (Nat × Option α)} : (∀ o ∈ obs, o.2 = none) → LastMove start obs start
  | move {before after : List (Nat × Option α)} {time : Nat} {a : α} :
      lastSeen before ≠ some a → (∀ o ∈ after, ∀ b ∈ o.2, b = a) →
        LastMove start (before ++ [(time, some a)] ++ after) time

omit [DecidableEq α] in
/-- What shows nothing new leaves the last move where it is. -/
theorem LastMove.append (h : LastMove start obs time) (ha : ∀ o ∈ after, ∀ b ∈ o.2, lastSeen obs = some b) :
    LastMove start (obs ++ after) time := by
  cases h with
  | never hnone =>
    refine .never fun o ho => ?_
    have hseen : lastSeen obs = none := by
      rw [← List.nil_append obs, lastSeen_append fun o ho b hb => by rw [hnone o ho] at hb; cases hb]
      rfl
    rcases List.mem_append.mp ho with ho | ho
    · exact hnone o ho
    · refine Option.eq_none_iff_forall_not_mem.mpr fun b hb => ?_
      have := ha o ho b hb
      rw [hseen] at this
      cases this
  | move hne hsame =>
    rename_i before after' a
    rw [List.append_assoc]
    refine .move hne fun o ho b hb => ?_
    rcases List.mem_append.mp ho with ho | ho
    · exact hsame o ho b hb
    · have h := ha o ho b hb
      rw [lastSeen_append fun o ho b hb => by rw [lastSeen_some, hsame o ho b hb], lastSeen_some] at h
      exact (Option.some.inj h).symm

omit [DecidableEq α] in
theorem LastMove.time_mem (h : LastMove start obs time) : time = start ∨ ∃ o ∈ obs, o.1 = time := by
  cases h with
  | never => exact .inl rfl
  | move => exact .inr ⟨_, List.mem_append_left _ (List.mem_append_right _ (List.mem_singleton_self _)), rfl⟩

omit [DecidableEq α] in
theorem exists_lastMove (start : Nat) (obs : List (Nat × Option α)) : ∃ time, LastMove start obs time := by
  classical
  induction obs using List.reverseRecOn with
  | nil => exact ⟨start, .never (by simp)⟩
  | append_singleton obs o ih =>
    obtain ⟨time, x⟩ := o
    by_cases h : ∀ b ∈ x, lastSeen obs = some b
    · obtain ⟨t, ht⟩ := ih
      exact ⟨t, ht.append (by simpa using h)⟩
    · obtain ⟨b, hb⟩ := not_forall.mp h
      obtain ⟨hx, hne⟩ := Classical.not_imp.mp hb
      obtain rfl : x = some b := hx
      have h : LastMove start (obs ++ [(time, some b)] ++ []) time := .move hne (by simp)
      exact ⟨time, by rwa [List.append_nil] at h⟩

theorem deadline_watch (h : LastMove start obs time) : (watch stall start obs).deadline = time + stall := by
  cases h with
  | never hnone =>
    rw [← List.nil_append obs, watch_append fun o ho b hb => by rw [hnone o ho] at hb; cases hb]
    rfl
  | move hne hsame =>
    rw [watch_append fun o ho b hb => by rw [lastSeen_some, hsame o ho b hb], watch_append_singleton, Watch.see, seen_watch,
      if_pos ⟨rfl, Ne.symm hne⟩]

end Watchdog
