import Mathlib.Data.List.Basic
import Mathlib.Data.List.Infix

/-!
# Templates

`replaceAll hole x s` is `s` with every occurrence of `hole`, from the left and
without overlaps, replaced by `x`. Where the occurrences are does not depend on
`x`: it is a `fill` of the template that `split` makes of `s`.

* `replaceAll_eq`: replacing is filling;
* `mem_split`: a text in which the hole occurs has one;
* `fill_injective`: what fills a hole can be told from the text;
* `prefix_fill`: a beginning without what fills the holes is the template's own.
-/

namespace Template

variable {α : Type} [DecidableEq α]

/-- `skip` elements of an occurrence are still to be passed. -/
def replaceFrom (hole x : List α) : Nat → List α → List α
  | _, [] => []
  | skip + 1, _ :: s => replaceFrom hole x skip s
  | 0, a :: s => if hole <+: a :: s then x ++ replaceFrom hole x (hole.length - 1) s else a :: replaceFrom hole x 0 s

def replaceAll (hole x s : List α) : List α := replaceFrom hole x 0 s

/-- The text between the holes; `none` is a hole. -/
def splitFrom (hole : List α) : Nat → List α → List (Option α)
  | _, [] => []
  | skip + 1, _ :: s => splitFrom hole skip s
  | 0, a :: s => if hole <+: a :: s then none :: splitFrom hole (hole.length - 1) s else some a :: splitFrom hole 0 s

def split (hole s : List α) : List (Option α) := splitFrom hole 0 s

omit [DecidableEq α] in
def fill (x : List α) (t : List (Option α)) : List α := t.flatMap fun o => o.elim x fun a => [a]

variable {hole x y s : List α} {t : List (Option α)}

theorem replaceFrom_eq (hole x : List α) (skip : Nat) (s : List α) :
    replaceFrom hole x skip s = fill x (splitFrom hole skip s) := by
  induction s generalizing skip with
  | nil => cases skip <;> rfl
  | cons a s ih =>
    cases skip with
    | succ skip => exact ih skip
    | zero =>
      rw [replaceFrom, splitFrom]
      split
      · rw [ih]
        rfl
      · rw [ih]
        rfl

theorem replaceAll_eq (hole x s : List α) : replaceAll hole x s = fill x (split hole s) := replaceFrom_eq hole x 0 s

theorem mem_split (hne : hole ≠ []) (h : hole <:+: s) : none ∈ split hole s := by
  induction s with
  | nil => exact absurd (List.infix_nil.mp h) hne
  | cons a s ih =>
    rw [split, splitFrom]
    split
    · exact List.mem_cons_self ..
    · rename_i hp
      exact List.mem_cons_of_mem _ (ih ((List.infix_cons_iff.mp h).resolve_left hp))

theorem length_fill (x : List α) (t : List (Option α)) :
    (fill x t).length = t.countP (·.isSome) + t.count none * x.length := by
  induction t with
  | nil => simp [fill]
  | cons o t ih =>
    have hstep : fill x (o :: t) = o.elim x (fun a => [a]) ++ fill x t := rfl
    rw [hstep, List.length_append, ih]
    cases o with
    | none => simp [Nat.add_mul]; omega
    | some a => simp; omega

theorem fill_injective (hole : none ∈ t) (h : fill x t = fill y t) : x = y := by
  have hlen : x.length = y.length := by
    have := congrArg List.length h
    rw [length_fill, length_fill] at this
    exact Nat.eq_of_mul_eq_mul_left (List.count_pos_iff.mpr hole) (by omega)
  induction t with
  | nil => cases hole
  | cons o t ih =>
    have hx : ∀ z : List α, fill z (o :: t) = o.elim z (fun a => [a]) ++ fill z t := fun z => rfl
    rw [hx, hx] at h
    cases o with
    | none => exact (List.append_inj h hlen).1
    | some a => exact ih (by simpa using hole) (List.append_cancel_left h)

omit [DecidableEq α] in
theorem mem_fill {a : α} : a ∈ fill x t ↔ some a ∈ t ∨ (none ∈ t ∧ a ∈ x) := by
  rw [fill, List.mem_flatMap]
  constructor
  · rintro ⟨_ | b, ho, ha⟩
    · exact .inr ⟨ho, ha⟩
    · obtain rfl := List.mem_singleton.mp ha
      exact .inl ho
  · rintro (ha | ⟨hn, ha⟩)
    · exact ⟨some a, ha, List.mem_singleton_self a⟩
    · exact ⟨none, hn, ha⟩

omit [DecidableEq α] in
theorem prefix_fill {p : List α} {b : α} (hb : b ∉ p) (h : p <+: fill [b] t) (y : List α) : p <+: fill y t := by
  induction p generalizing t with
  | nil => exact List.nil_prefix
  | cons a p ih =>
    cases t with
    | nil => simp [fill] at h
    | cons o t =>
      have hx : ∀ z : List α, fill z (o :: t) = o.elim z (fun a => [a]) ++ fill z t := fun z => rfl
      rw [hx] at h ⊢
      cases o with
      | none => exact absurd (List.cons_prefix_cons.mp h).1.symm fun he => hb (he ▸ List.mem_cons_self ..)
      | some a' =>
        obtain ⟨rfl, hp⟩ := List.cons_prefix_cons.mp h
        exact List.cons_prefix_cons.mpr ⟨rfl, ih (fun hm => hb (List.mem_cons_of_mem _ hm)) hp⟩

end Template
