import StormStorage.KeyMap
import Mathlib.Data.Finset.Card
import Mathlib.Logic.Function.Iterate

/-!
# Tallies

A pass over a list that takes each item in under its key, and one that counts
each item the first time only.

* `get_tally`: a key reads its own items, taken in one after another;
* `get_countOnce`: a key that is there is bumped once for each different item
  under it;
* `perm_flatMap_filter`: the items of all keys are the items.
-/

namespace KeyMap

variable {α β : Type}

/-- `m` with each item taken in under its key; a key that is not there starts
as `zero`. -/
def tally (key : α → String) (zero : String → β) (add : β → α → β) (m : KeyMap β) (xs : List α) : KeyMap β :=
  xs.foldl (fun m x => m.insert (key x) (add ((m[key x]?).getD (zero (key x))) x)) m

theorem get_tally {key : α → String} {zero : String → β} {add : β → α → β} (m : KeyMap β) (xs : List α) (k : String) :
    (tally key zero add m xs)[k]? =
      if xs.filter (key · = k) = [] then m[k]?
      else some ((xs.filter (key · = k)).foldl add ((m[k]?).getD (zero k))) := by
  induction xs generalizing m with
  | nil => simp [tally]
  | cons x xs ih =>
    show (tally key zero add (m.insert (key x) _) xs)[k]? = _
    rw [ih, get_insert]
    by_cases hk : key x = k
    · subst hk
      by_cases hx : xs.filter (key · = key x) = []
      · simp [hx]
      · simp [hx]
    · simp [hk]

/-- The value under a key, where there is one. -/
def bump (f : β → β) (m : KeyMap β) (k : String) : KeyMap β :=
  match m[k]? with
  | none => m
  | some b => m.insert k (f b)

theorem get_bump (f : β → β) (m : KeyMap β) (k a : String) :
    (bump f m k)[a]? = if k = a then m[a]?.map f else m[a]? := by
  unfold bump
  split
  · rename_i h
    split
    · rename_i hk
      rw [← hk, h, Option.map_none]
    · rfl
  · rename_i b h
    rw [get_insert]
    split
    · rename_i hk
      rw [← hk, h, Option.map_some]
    · rfl

variable [DecidableEq α]

/-- Count an item, unless it was seen. -/
def countOnce (key : α → String) (f : β → β) (p : List α × KeyMap β) (x : α) : List α × KeyMap β :=
  if x ∈ p.1 then p else (x :: p.1, bump f p.2 (key x))

theorem get_countOnce (key : α → String) (f : β → β) (m : KeyMap β) (xs : List α) (k : String) :
    ((xs.foldl (countOnce key f) ([], m)).2)[k]? = m[k]?.map f^[(xs.toFinset.filter (key · = k)).card] := by
  suffices h : (∀ x, x ∈ (xs.foldl (countOnce key f) ([], m)).1 ↔ x ∈ xs) ∧
      ((xs.foldl (countOnce key f) ([], m)).2)[k]? = m[k]?.map f^[(xs.toFinset.filter (key · = k)).card] from h.2
  induction xs using List.reverseRecOn with
  | nil => simp
  | append_singleton xs x ih =>
    obtain ⟨hseen, hm⟩ := ih
    rw [List.foldl_append, List.foldl_cons, List.foldl_nil, List.toFinset_append]
    generalize xs.foldl (countOnce key f) ([], m) = p at hseen hm
    rw [countOnce]
    by_cases hx : x ∈ xs
    · have hsub : xs.toFinset ∪ [x].toFinset = xs.toFinset := by simpa using hx
      rw [if_pos ((hseen x).mpr hx), hsub]
      refine ⟨fun y => ?_, hm⟩
      rw [hseen, List.mem_append, List.mem_singleton]
      exact ⟨.inl, fun h => h.elim id fun h => h ▸ hx⟩
    · rw [if_neg (fun h => hx ((hseen x).mp h))]
      refine ⟨fun y => ?_, ?_⟩
      · rw [List.mem_cons, hseen, List.mem_append, List.mem_singleton, or_comm]
      · rw [get_bump, hm, Option.map_map, Finset.filter_union]
        by_cases hk : key x = k
        · have hsing : ([x].toFinset).filter (key · = k) = {x} := by simp [Finset.filter_singleton, hk]
          have hnot : x ∉ xs.toFinset.filter (key · = k) := by simp [hx]
          rw [if_pos hk, hsing, Finset.card_union_of_disjoint (by simpa using hnot), Finset.card_singleton,
            Function.iterate_succ']
        · have hsing : ([x].toFinset).filter (key · = k) = ∅ := by simp [Finset.filter_singleton, hk]
          rw [if_neg hk, hsing, Finset.union_empty]

omit [DecidableEq α] in
theorem perm_flatMap_filter (key : α → String) {ks : List String} {xs : List α} (hd : ks.Nodup)
    (h : ∀ x ∈ xs, key x ∈ ks) : (ks.flatMap fun k => xs.filter (key · = k)).Perm xs := by
  induction ks generalizing xs with
  | nil => simp [List.eq_nil_iff_forall_not_mem.mpr fun x hx => List.not_mem_nil (h x hx)]
  | cons k ks ih =>
    obtain ⟨hk, hd⟩ := List.nodup_cons.mp hd
    have hrest : (ks.flatMap fun k' => xs.filter (key · = k')) =
        ks.flatMap fun k' => (xs.filter fun x => !decide (key x = k)).filter (key · = k') := by
      refine List.flatMap_congr fun k' hk' => ?_
      rw [List.filter_filter]
      refine List.filter_congr fun x _ => ?_
      by_cases hx : key x = k'
      · have hne : key x ≠ k := fun he => hk (he ▸ hx ▸ hk')
        simp [hx, hx ▸ hne]
      · simp [hx]
    rw [List.flatMap_cons, hrest]
    refine ((ih hd fun x hx => ?_).append_left _).trans (List.filter_append_perm _ xs)
    obtain ⟨hx, hne⟩ := List.mem_filter.mp hx
    exact (List.mem_cons.mp (h x hx)).resolve_left (by simpa using hne)

end KeyMap
