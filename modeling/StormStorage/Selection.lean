import Mathlib.Data.List.Dedup
import Mathlib.Data.List.Sort
import Mathlib.Data.Set.Finite.Lemmas
import Mathlib.Data.Set.Finite.List

/-!
# The best of each group

The members of a list fall into groups (`key`) and are ordered by a rank, the
least first. The leader of a group is its member of least rank, and a selection
of `k` is the leaders of `k` groups, in order, none of them after the leader of
a group left out.

* `leads_cons_of_ne`, `leads_cons_fresh`, `leads_cons_better`, `leads_cons_worse`:
  what one more member does to the leaders;
* `exists_leads`: every group has its leader;
* `selected_take`: the first `k` leaders in order are a selection.
-/

namespace Selection

variable {α κ ρ : Type} [LinearOrder ρ] {key : α → κ} {rank : α → ρ} {xs ys : List α} {x y c : α}

/-- The member is the best of its group. -/
def Leads (key : α → κ) (rank : α → ρ) (xs : List α) (x : α) : Prop :=
  x ∈ xs ∧ ∀ y ∈ xs, key y = key x → rank x ≤ rank y

/-- The leaders of `k` groups, the best first, and none left out is better. -/
structure Selected (key : α → κ) (rank : α → ρ) (xs : List α) (k : Nat) (ps : List α) : Prop where
  length : ps.length = k
  leads : ∀ p ∈ ps, Leads key rank xs p
  apart : (ps.map key).Nodup
  sorted : ps.Pairwise fun p q => rank p ≤ rank q
  first : ∀ x, Leads key rank xs x → key x ∉ ps.map key → ∀ p ∈ ps, rank p ≤ rank x

theorem Leads.congr (h : Leads key rank xs x) (hm : ∀ y, y ∈ xs ↔ y ∈ ys) : Leads key rank ys x :=
  ⟨(hm x).mp h.1, fun y hy => h.2 y ((hm y).mpr hy)⟩

/-- Two leaders of one group are one, where no two members rank alike. -/
theorem Leads.unique (hi : Set.InjOn rank {x | x ∈ xs}) (hx : Leads key rank xs x) (hy : Leads key rank xs y)
    (hk : key x = key y) : x = y :=
  hi hx.1 hy.1 (le_antisymm (hx.2 y hy.1 hk.symm) (hy.2 x hx.1 hk))

theorem exists_leads (h : x ∈ xs) : ∃ l, Leads key rank xs l ∧ key l = key x := by
  have hfin : {y | y ∈ xs ∧ key y = key x}.Finite := xs.finite_toSet.subset fun y hy => hy.1
  obtain ⟨l, ⟨hl, hk⟩, hmin⟩ := Set.exists_min_image _ rank hfin ⟨x, h, rfl⟩
  exact ⟨l, ⟨hl, fun y hy he => hmin y ⟨hy, he.trans hk⟩⟩, hk⟩

/-! ## One more member -/

theorem leads_cons_of_ne (h : key x ≠ key c) : Leads key rank (c :: xs) x ↔ Leads key rank xs x := by
  constructor
  · intro hx
    have hm : x ∈ xs := (List.mem_cons.mp hx.1).resolve_left fun he => h (he ▸ rfl)
    exact ⟨hm, fun y hy => hx.2 y (List.mem_cons_of_mem _ hy)⟩
  · intro hx
    refine ⟨List.mem_cons_of_mem _ hx.1, fun y hy hk => ?_⟩
    have hm : y ∈ xs := (List.mem_cons.mp hy).resolve_left fun he => h (he ▸ hk.symm)
    exact hx.2 y hm hk

/-- The first of its group leads it. -/
theorem leads_cons_fresh (h : ∀ y ∈ xs, key y ≠ key c) (hk : key x = key c) :
    Leads key rank (c :: xs) x ↔ x = c := by
  constructor
  · intro hx
    exact (List.mem_cons.mp hx.1).resolve_right fun hm => h x hm hk
  · rintro rfl
    refine ⟨List.mem_cons_self .., fun y hy hy' => ?_⟩
    have he : y = x := (List.mem_cons.mp hy).resolve_right fun hm => h y hm hy'
    exact he ▸ le_rfl

/-- One better than the leader of its group leads it. -/
theorem leads_cons_better (hy : Leads key rank xs y) (hk : key y = key c) (h : rank c < rank y)
    (hx : key x = key c) : Leads key rank (c :: xs) x ↔ x = c := by
  constructor
  · intro hl
    refine (List.mem_cons.mp hl.1).resolve_right fun hm => ?_
    have hle := hl.2 c (List.mem_cons_self ..) hx.symm
    exact absurd (hy.2 x hm (hx.trans hk.symm)) (not_le.mpr (hle.trans_lt h))
  · rintro rfl
    refine ⟨List.mem_cons_self .., fun z hz hz' => ?_⟩
    rcases List.mem_cons.mp hz with rfl | hm
    · exact le_rfl
    · exact h.le.trans (hy.2 z hm (hz'.trans hk.symm))

/-- One no better than the leader of its group leaves it in place. -/
theorem leads_cons_worse (hi : Set.InjOn rank {x | x ∈ c :: xs}) (hy : Leads key rank xs y) (hk : key y = key c)
    (h : rank y ≤ rank c) (hx : key x = key c) : Leads key rank (c :: xs) x ↔ x = y := by
  have hlead : Leads key rank (c :: xs) y := by
    refine ⟨List.mem_cons_of_mem _ hy.1, fun z hz hz' => ?_⟩
    rcases List.mem_cons.mp hz with rfl | hm
    · exact h
    · exact hy.2 z hm hz'
  exact ⟨fun hl => hl.unique hi hlead (hx.trans hk.symm), fun he => he ▸ hlead⟩

/-! ## Taking the first of them -/

/-- The first `k` of the leaders in order are a selection. -/
theorem selected_take {ls : List α} (hl : ∀ x, x ∈ ls ↔ Leads key rank xs x) (hd : (ls.map key).Nodup)
    (hs : ls.Pairwise fun p q => rank p ≤ rank q) {k : Nat} (hk : k ≤ ls.length) :
    Selected key rank xs k (ls.take k) where
  length := by rw [List.length_take]; omega
  leads := fun p hp => (hl p).mp (List.mem_of_mem_take hp)
  apart := hd.sublist ((List.take_sublist k ls).map key)
  sorted := hs.sublist (List.take_sublist k ls)
  first := by
    intro x hx hout p hp
    have hin : x ∈ ls.take k ++ ls.drop k := by rw [List.take_append_drop]; exact (hl x).mpr hx
    have hx' : x ∈ ls.drop k :=
      (List.mem_append.mp hin).resolve_left fun hm => hout (List.mem_map.mpr ⟨x, hm, rfl⟩)
    have hs' : (ls.take k ++ ls.drop k).Pairwise fun p q => rank p ≤ rank q := by
      rw [List.take_append_drop]; exact hs
    exact (List.pairwise_append.mp hs').2.2 p hp x hx'

end Selection
