import Mathlib.Data.List.MinMax
import Std.Data.ExtTreeMap.Lemmas

/-!
# The best of each key

A pass over a list that keeps, under each key, the first value of the highest
rank seen so far.

* `get_of`: what a key reads is the first of the highest rank of the values
  under it, `List.argmax`;
* `of_perm_iff`: the order of the list does not matter exactly when no key
  has two values of its highest rank.
-/

namespace Best

variable {κ α β ρ : Type} {cmp : κ → κ → Ordering} [Std.TransCmp cmp] [Std.LawfulEqCmp cmp] [DecidableEq κ]
  [LinearOrder ρ] (rank : κ → α → ρ)

/-- The map with the value, where it is better than the one there. -/
def keep (m : Std.ExtTreeMap κ α cmp) (e : κ × α) : Std.ExtTreeMap κ α cmp :=
  match m[e.1]? with
  | none => m.insert e.1 e.2
  | some old => if rank e.1 old < rank e.1 e.2 then m.insert e.1 e.2 else m

variable (cmp) in
/-- The best of what `entry` reads in the list. -/
def of (entry : β → Option (κ × α)) (xs : List β) : Std.ExtTreeMap κ α cmp :=
  (xs.filterMap entry).foldl (keep rank) ∅

/-- The values under a key. -/
def under (k : κ) (es : List (κ × α)) : List α := es.filterMap fun e => if e.1 = k then some e.2 else none

/-- Two values of the highest rank under one key. -/
def Tied (es : List (κ × α)) : Prop :=
  ∃ k, ∃ a ∈ under k es, ∃ b ∈ under k es, a ≠ b ∧ rank k a = rank k b ∧ ∀ c ∈ under k es, rank k c ≤ rank k a

variable {rank}

theorem mem_under {k : κ} {a : α} {es : List (κ × α)} : a ∈ under k es ↔ (k, a) ∈ es := by
  simp only [under, List.mem_filterMap]
  constructor
  · rintro ⟨e, he, ha⟩
    split at ha
    · rename_i hk
      cases ha
      exact hk ▸ he
    · cases ha
  · exact fun h => ⟨(k, a), h, if_pos rfl⟩

theorem get_insert (m : Std.ExtTreeMap κ α cmp) (k a : κ) (v : α) :
    (m.insert k v)[a]? = if k = a then some v else m[a]? := by
  rw [Std.ExtTreeMap.getElem?_insert]
  simp only [Std.LawfulEqCmp.compare_eq_iff_eq]

theorem get_keep (m : Std.ExtTreeMap κ α cmp) (e : κ × α) (k : κ) :
    (keep rank m e)[k]? =
      if e.1 = k then List.argAux (fun b c => rank k c < rank k b) m[k]? e.2 else m[k]? := by
  unfold keep
  split
  · rename_i hm
    rw [get_insert]
    split
    · rename_i hk
      rw [← hk, hm]
      rfl
    · rfl
  · rename_i old hm
    have hold : e.1 = k → m[k]? = some old := fun hk => hk ▸ hm
    by_cases hk : e.1 = k
    · subst hk
      rw [hm, if_pos rfl]
      simp only [List.argAux]
      split
      · rw [get_insert, if_pos rfl]
      · exact hm
    · rw [if_neg hk]
      split
      · rw [get_insert, if_neg hk]
      · rfl

theorem get_foldl_keep (es : List (κ × α)) (m : Std.ExtTreeMap κ α cmp) (k : κ) :
    (es.foldl (keep rank) m)[k]? = (under k es).foldl (List.argAux fun b c => rank k c < rank k b) m[k]? := by
  induction es generalizing m with
  | nil => rfl
  | cons e es ih =>
    rw [List.foldl_cons, ih, get_keep]
    by_cases hk : e.1 = k
    · simp only [under, List.filterMap_cons, hk, if_true, List.foldl_cons]
    · simp only [under, List.filterMap_cons, hk, if_false]

/-- What a key reads is the first of the highest rank. -/
theorem get_of (entry : β → Option (κ × α)) (xs : List β) (k : κ) :
    (of cmp rank entry xs)[k]? = (under k (xs.filterMap entry)).argmax (rank k) := by
  rw [of, get_foldl_keep, Std.ExtTreeMap.getElem?_empty]
  rfl

theorem argmax_cons_of_le {f : α → ρ} {a : α} {l : List α} (h : ∀ b ∈ l, f b ≤ f a) : (a :: l).argmax f = some a := by
  rw [List.argmax_cons]
  cases hl : l.argmax f with
  | none => rfl
  | some c => exact if_neg (not_lt.mpr (h c (List.argmax_mem hl)))

/-- Values put first keep their key, where none is better. -/
theorem get_of_cons {entry : β → Option (κ × α)} {x : β} {xs : List β} {k : κ} {a : α} (hx : entry x = some (k, a))
    (h : ∀ b ∈ under k (xs.filterMap entry), rank k b ≤ rank k a) :
    (of cmp rank entry (x :: xs))[k]? = some a := by
  have hu : under k ((x :: xs).filterMap entry) = a :: under k (xs.filterMap entry) := by
    simp only [List.filterMap_cons, hx, under, if_true]
  rw [get_of, hu]
  exact argmax_cons_of_le h

theorem exists_perm_cons {entry : β → Option (κ × α)} {xs : List β} {k : κ} {a : α}
    (h : a ∈ under k (xs.filterMap entry)) : ∃ x ys, (x :: ys).Perm xs ∧ entry x = some (k, a) := by
  obtain ⟨x, hx, he⟩ := List.mem_filterMap.mp (mem_under.mp h)
  obtain ⟨s, t, rfl⟩ := List.append_of_mem hx
  exact ⟨x, s ++ t, List.perm_middle.symm, he⟩

/-- Of two values that tie, each is the one that is kept when it comes first. -/
theorem not_tied_of_perm {entry : β → Option (κ × α)} {xs : List β}
    (h : ∀ ys, ys.Perm xs → of cmp rank entry ys = of cmp rank entry xs) : ¬ Tied rank (xs.filterMap entry) := by
  rintro ⟨k, a, ha, b, hb, hne, hr, hbest⟩
  have hfirst : ∀ c ∈ under k (xs.filterMap entry), rank k c = rank k a →
      (of cmp rank entry xs)[k]? = some c := by
    intro c hc hrc
    obtain ⟨x, ys, hp, hx⟩ := exists_perm_cons hc
    rw [← h _ hp]
    refine get_of_cons hx fun d hd => hrc ▸ hbest d ?_
    have hd : d ∈ under k ((x :: ys).filterMap entry) :=
      mem_under.mpr (List.mem_filterMap.mpr (by
        obtain ⟨y, hy, he⟩ := List.mem_filterMap.mp (mem_under.mp hd)
        exact ⟨y, List.mem_cons_of_mem _ hy, he⟩))
    exact mem_under.mpr ((hp.filterMap entry).mem_iff.mp (mem_under.mp hd))
  have := (hfirst a ha rfl).symm.trans (hfirst b hb hr.symm)
  exact hne (Option.some.inj this)

theorem of_perm {entry : β → Option (κ × α)} {xs ys : List β} (ht : ¬ Tied rank (xs.filterMap entry))
    (hp : ys.Perm xs) : of cmp rank entry ys = of cmp rank entry xs := by
  have hmem : ∀ k a, a ∈ under k (ys.filterMap entry) ↔ a ∈ under k (xs.filterMap entry) := fun k a => by
    rw [mem_under, mem_under]
    exact (hp.filterMap entry).mem_iff
  refine Std.ExtTreeMap.ext_getElem? fun k => ?_
  rw [get_of, get_of]
  cases hy : (under k (ys.filterMap entry)).argmax (rank k) with
  | none =>
    rw [List.argmax_eq_none, List.eq_nil_iff_forall_not_mem] at hy
    refine (List.argmax_eq_none.mpr ?_).symm
    exact List.eq_nil_iff_forall_not_mem.mpr fun a ha => hy a ((hmem k a).mpr ha)
  | some b =>
    cases hx : (under k (xs.filterMap entry)).argmax (rank k) with
    | none =>
      rw [List.argmax_eq_none, List.eq_nil_iff_forall_not_mem] at hx
      exact absurd ((hmem k b).mp (List.argmax_mem hy)) (hx b)
    | some a =>
      have ha := List.argmax_mem hx
      have hb := (hmem k b).mp (List.argmax_mem hy)
      have hba := List.le_of_mem_argmax hb hx
      have hab := List.le_of_mem_argmax ((hmem k a).mpr ha) hy
      by_contra hne
      refine ht ⟨k, a, ha, b, hb, fun he => hne (congrArg some he.symm), le_antisymm hab hba, fun c hc => ?_⟩
      exact List.le_of_mem_argmax hc hx

variable (cmp) in
/-- The order of the list does not matter exactly when nothing ties. -/
theorem of_perm_iff {entry : β → Option (κ × α)} {xs : List β} :
    (∀ ys, ys.Perm xs → of cmp rank entry ys = of cmp rank entry xs) ↔ ¬ Tied rank (xs.filterMap entry) :=
  ⟨not_tied_of_perm, fun ht _ hp => of_perm ht hp⟩

/-! ## Collecting a map -/

omit [Std.TransCmp cmp] [DecidableEq κ] in
theorem pairwise_of_nodup {l : List (κ × α)} (hd : (l.map Prod.fst).Nodup) :
    l.Pairwise fun a b => ¬ cmp a.1 b.1 = .eq :=
  (List.pairwise_map.mp hd).imp fun h he => h (Std.LawfulEqCmp.eq_of_compare he)

/-- A map collected from keys of their own does not depend on the order. -/
theorem ofList_perm {l l' : List (κ × α)} (hd : (l.map Prod.fst).Nodup) (hp : l'.Perm l) :
    Std.ExtTreeMap.ofList l' cmp = Std.ExtTreeMap.ofList l cmp := by
  have hd' := (hp.map Prod.fst).nodup_iff.mpr hd
  refine Std.ExtTreeMap.ext_getElem? fun k => ?_
  by_cases hk : k ∈ l.map Prod.fst
  · obtain ⟨⟨k, v⟩, hm, rfl⟩ := List.mem_map.mp hk
    have hc : cmp k k = .eq := Std.ReflCmp.compare_self
    rw [Std.ExtTreeMap.getElem?_ofList_of_mem hc (pairwise_of_nodup hd) hm,
      Std.ExtTreeMap.getElem?_ofList_of_mem hc (pairwise_of_nodup hd') (hp.mem_iff.mpr hm)]
  · have hk' : k ∉ l'.map Prod.fst := fun h => hk ((hp.map Prod.fst).mem_iff.mp h)
    have hn {l : List (κ × α)} (h : k ∉ l.map Prod.fst) : (l.map Prod.fst).contains k = false := by
      rw [List.contains_eq_mem, decide_eq_false_iff_not]
      exact h
    rw [Std.ExtTreeMap.getElem?_ofList_of_contains_eq_false (hn hk),
      Std.ExtTreeMap.getElem?_ofList_of_contains_eq_false (hn hk')]

end Best
