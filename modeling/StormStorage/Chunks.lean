import Mathlib.Data.List.Basic

/-!
# Chunks

A list cut into pieces of `n`, the last one shorter when there is a rest.
-/

namespace StormStorage

def chunksFrom {α : Type} (n : Nat) : Nat → List α → List (List α)
  | 0, _ => []
  | _ + 1, [] => []
  | fuel + 1, x :: xs => (x :: xs).take n :: chunksFrom n fuel ((x :: xs).drop n)

def chunks {α : Type} (n : Nat) (xs : List α) : List (List α) := chunksFrom n xs.length xs

theorem chunksFrom_nil {α : Type} (n fuel : Nat) : chunksFrom n fuel ([] : List α) = [] := by
  cases fuel <;> rfl

theorem chunksFrom_flatten {α : Type} {n : Nat} (hn : 0 < n) {fuel : Nat} {xs : List α} (h : xs.length ≤ fuel) :
    (chunksFrom n fuel xs).flatten = xs := by
  induction fuel generalizing xs with
  | zero =>
    obtain rfl := List.eq_nil_of_length_eq_zero (Nat.le_zero.mp h)
    rfl
  | succ fuel ih =>
    cases xs with
    | nil => rfl
    | cons x xs =>
      rw [chunksFrom, List.flatten_cons, ih, List.take_append_drop]
      rw [List.length_drop]
      simp only [List.length_cons] at h ⊢
      omega

theorem chunksFrom_of_le {α : Type} {n : Nat} (hn : 0 < n) {f g : Nat} {xs : List α} (hf : xs.length ≤ f)
    (hg : xs.length ≤ g) : chunksFrom n f xs = chunksFrom n g xs := by
  induction f generalizing g xs with
  | zero => rw [List.eq_nil_of_length_eq_zero (Nat.le_zero.mp hf), chunksFrom_nil, chunksFrom_nil]
  | succ f ih =>
    cases xs with
    | nil => rw [chunksFrom_nil, chunksFrom_nil]
    | cons x xs =>
      obtain ⟨g, rfl⟩ := Nat.exists_eq_succ_of_ne_zero (Nat.ne_zero_of_lt hg)
      rw [chunksFrom, chunksFrom, ih] <;>
      · rw [List.length_drop]
        simp only [List.length_cons] at hf hg ⊢
        omega

theorem chunks_of_length_le {α : Type} {n : Nat} {x : α} {xs : List α} (h : (x :: xs).length ≤ n) :
    chunks n (x :: xs) = [x :: xs] := by
  rw [chunks, List.length_cons, chunksFrom, List.take_of_length_le h, List.drop_of_length_le h, chunksFrom_nil]

/-- The first `n` are a chunk of their own. -/
theorem chunks_append {α : Type} {n : Nat} (hn : 0 < n) {xs ys : List α} (h : xs.length = n) :
    chunks n (xs ++ ys) = xs :: chunks n ys := by
  cases xs with
  | nil => exact absurd h (Nat.ne_of_lt hn)
  | cons x xs =>
    rw [chunks, List.cons_append, List.length_cons, chunksFrom, ← List.cons_append, List.take_left' h,
      List.drop_left' h, chunks]
    congr 1
    exact chunksFrom_of_le hn (by simp) (Nat.le_refl _)

end StormStorage
