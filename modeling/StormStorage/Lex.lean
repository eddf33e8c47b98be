import Mathlib.Data.List.Infix

/-!
# Lexicographic intervals

The strings that start with a given one, as an interval of the lexicographic
order: they begin with that string itself and end before the next string of
its length.

* `concat_le_and_lt_iff`: with a letter that comes right after the last one;
* `concat_le_iff_of_top`: with no letter after the last one, the interval of
  the shorter string is the one to cut.
-/

namespace Lex

variable {α : Type*} [LT α] [Std.Irrefl (· < · : α → α → Prop)]

theorem cons_le_and_lt_iff {a : α} {u v k : List α} :
    (a :: u ≤ k ∧ k < a :: v) ↔ ∃ t, k = a :: t ∧ u ≤ t ∧ t < v := by
  constructor
  · rintro ⟨hl, hu⟩
    cases k with
    | nil => exact absurd (List.nil_lt_cons a u) hl
    | cons b t =>
      rcases List.cons_lt_cons_iff.mp hu with hb | ⟨rfl, ht⟩
      · exact absurd (List.cons_lt_cons_iff.mpr (.inl hb)) hl
      · exact ⟨t, rfl, fun h => hl (List.cons_lt_cons_iff.mpr (.inr ⟨rfl, h⟩)), ht⟩
  · rintro ⟨t, rfl, hl, hu⟩
    exact ⟨fun h => hl (List.cons_lt_cons_self.mp h), List.cons_lt_cons_self.mpr hu⟩

variable [Std.Trichotomous (· < · : α → α → Prop)]

theorem singleton_le_and_lt_iff {c c' : α} (hc : ∀ a, a < c' ↔ ¬ c < a) {k : List α} :
    ([c] ≤ k ∧ k < [c']) ↔ [c] <+: k := by
  cases k with
  | nil => simp
  | cons a t =>
    have hl : ([c] ≤ a :: t) ↔ ¬ a < c := by
      show ¬ a :: t < [c] ↔ _
      simp [List.cons_lt_cons_iff]
    have hu : (a :: t < [c']) ↔ ¬ c < a := by simp [List.cons_lt_cons_iff, hc]
    rw [hl, hu, List.cons_prefix_cons]
    simp only [List.nil_prefix, and_true]
    constructor
    · rintro ⟨h1, h2⟩
      exact Std.Trichotomous.trichotomous (r := (· < ·)) c a h2 h1
    · rintro rfl
      exact ⟨Std.Irrefl.irrefl c, Std.Irrefl.irrefl c⟩

/-- The strings that start with `p ++ [c]`, where `c'` comes right after `c`. -/
theorem concat_le_and_lt_iff {c c' : α} (hc : ∀ a, a < c' ↔ ¬ c < a) {p k : List α} :
    (p ++ [c] ≤ k ∧ k < p ++ [c']) ↔ p ++ [c] <+: k := by
  induction p generalizing k with
  | nil => exact singleton_le_and_lt_iff hc
  | cons a p ih =>
    simp only [List.cons_append]
    rw [cons_le_and_lt_iff, List.cons_prefix_iff]
    simp only [ih]

/-- Among the strings that start with `p`, those not below `p ++ [m]` start
with it where no letter comes after `m`. -/
theorem concat_le_iff_of_top {m : α} (hm : ∀ a, ¬ m < a) {p t : List α} :
    p ++ [m] ≤ p ++ t ↔ p ++ [m] <+: p ++ t := by
  constructor
  · intro h
    cases t with
    | nil =>
      refine absurd (List.append_left_lt (List.nil_lt_cons m [])) (?_ : ¬ p ++ [] < p ++ [m])
      exact h
    | cons a t =>
      have ha : ¬ a < m := fun ha => h (List.append_left_lt (List.cons_lt_cons_iff.mpr (.inl ha)))
      obtain rfl := Std.Trichotomous.trichotomous (r := (· < ·)) m a (hm a) ha
      exact ⟨t, by simp⟩
  · exact List.IsPrefix.le

end Lex
