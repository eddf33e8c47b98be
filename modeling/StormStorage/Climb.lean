import Mathlib.Data.List.Nodup
import Mathlib.Data.List.Perm.Subperm

/-!
# Climbing a chain

`climb` follows `next` from a point to the first one where `here` answers, over
a number of points at most. `Reaches k` has no such limit: the answer is `k`
points up.

* `Reaches.unique`: a chain has one answer, at one height;
* `climb_iff`: the climb finds what is reached below its limit;
* `Reaches.le_length`: a chain is no longer than the points that have a next one.
-/

namespace Climb

variable {α β : Type}

def climb (next : α → Option α) (here : α → Option β) : Nat → Option α → Option β
  | 0, _ => none
  | _ + 1, none => none
  | n + 1, some a => (here a).or (climb next here n (next a))

/-- The first answer of the chain is `b`, `k` points up from `a`. -/
inductive Reaches (next : α → Option α) (here : α → Option β) : Nat → α → β → Prop
  | here {a : α} {b : β} : here a = some b → Reaches next here 0 a b
  | up {k : Nat} {a a' : α} {b : β} :
      here a = none → next a = some a' → Reaches next here k a' b → Reaches next here (k + 1) a b

variable {next : α → Option α} {here : α → Option β} {a : α} {b b' : β} {k k' n : Nat}

theorem Reaches.unique (h : Reaches next here k a b) (h' : Reaches next here k' a b') : k = k' ∧ b = b' := by
  induction h generalizing k' with
  | here ha =>
    cases h' with
    | here ha' => exact ⟨rfl, Option.some.inj (ha.symm.trans ha')⟩
    | up ha' _ _ => exact absurd (ha.symm.trans ha') (by simp)
  | up ha hn _ ih =>
    cases h' with
    | here ha' => exact absurd (ha'.symm.trans ha) (by simp)
    | up _ hn' h' =>
      obtain rfl := Option.some.inj (hn.symm.trans hn')
      obtain ⟨rfl, rfl⟩ := ih h'
      exact ⟨rfl, rfl⟩

/-- The climb finds what is reached below its limit. -/
theorem climb_iff : climb next here n (some a) = some b ↔ ∃ k, k < n ∧ Reaches next here k a b := by
  induction n generalizing a with
  | zero => simp [climb]
  | succ n ih =>
    rw [climb]
    cases ha : here a with
    | some c =>
      simp only [Option.some_or, Option.some.injEq]
      refine ⟨fun h => ⟨0, by omega, .here (h ▸ ha)⟩, fun ⟨k, _, h⟩ => ?_⟩
      exact ((Reaches.here ha).unique h).2
    | none =>
      rw [Option.none_or]
      cases hn : next a with
      | none =>
        refine ⟨fun h => ?_, fun ⟨k, _, h⟩ => ?_⟩
        · cases n <;> simp [climb] at h
        · cases h with
          | here h => simp [ha] at h
          | up _ h _ => simp [hn] at h
      | some a' =>
        rw [ih]
        constructor
        · rintro ⟨k, hk, h⟩
          exact ⟨k + 1, by omega, .up ha hn h⟩
        · rintro ⟨k, hk, h⟩
          cases h with
          | here h => simp [ha] at h
          | up _ h h' =>
            obtain rfl := Option.some.inj (hn.symm.trans h)
            exact ⟨_, by omega, h'⟩

/-- The points passed on the way up: each at its own height, so none twice. -/
theorem Reaches.passed (h : Reaches next here k a b) :
    ∃ l : List α, l.length = k ∧ l.Nodup ∧ ∀ x ∈ l, (next x).isSome ∧ ∃ j, j ≤ k ∧ 0 < j ∧ Reaches next here j x b := by
  induction h with
  | here => exact ⟨[], rfl, List.nodup_nil, by simp⟩
  | @up k a a' b ha hn h ih =>
    obtain ⟨l, hl, hd, hx⟩ := ih
    have hup : Reaches next here (k + 1) a b := .up ha hn h
    refine ⟨a :: l, by simp [hl], List.nodup_cons.mpr ⟨fun hm => ?_, hd⟩, fun x hm => ?_⟩
    · obtain ⟨-, j, hj, -, h'⟩ := hx a hm
      have := (hup.unique h').1
      omega
    · rcases List.mem_cons.mp hm with rfl | hm
      · exact ⟨by simp [hn], k + 1, Nat.le_refl _, by omega, hup⟩
      · obtain ⟨hs, j, hj, h0, h'⟩ := hx x hm
        exact ⟨hs, j, by omega, h0, h'⟩

/-- What is reached is no higher than there are points with a next one. -/
theorem Reaches.le_length (h : Reaches next here k a b) (dom : List α) (hdom : ∀ x, (next x).isSome → x ∈ dom) :
    k ≤ dom.length := by
  obtain ⟨l, rfl, hd, hx⟩ := h.passed
  exact (List.subperm_of_subset hd fun x hm => hdom x (hx x hm).1).length_le

end Climb
