import Std.Data.ExtTreeMap.Lemmas
import Mathlib.Data.List.Basic

/-!
# Ordered maps from strings, and edits of them

`KeyMap β` is an ordered map with string keys, equal to another when every
key reads the same (`KeyMap.ext`).

* `gather` collects a map under other keys: `gather_apply`, `gather_none`;
* `Edit` is a put or a delete of one key; `patch` does a list of them to what
  a map reads, and `patch_of_mem`, `patch_of_notMem` say what a key reads
  after edits of distinct keys.
-/

abbrev KeyMap (β : Type) := Std.ExtTreeMap String β compare

namespace KeyMap

variable {β γ : Type}

theorem ext {m m' : KeyMap β} (h : ∀ k : String, m[k]? = m'[k]?) : m = m' :=
  Std.ExtTreeMap.ext_getElem? h

@[simp] theorem get_empty (k : String) : (∅ : KeyMap β)[k]? = none := Std.ExtTreeMap.getElem?_empty

theorem get_insert (m : KeyMap β) (k a : String) (v : β) :
    (m.insert k v)[a]? = if k = a then some v else m[a]? := by
  rw [Std.ExtTreeMap.getElem?_insert]
  simp only [Std.LawfulEqCmp.compare_eq_iff_eq]

@[simp] theorem get_insert_self (m : KeyMap β) (k : String) (v : β) : (m.insert k v)[k]? = some v := by
  rw [get_insert, if_pos rfl]

theorem get_insert_ne (m : KeyMap β) {k a : String} (v : β) (h : k ≠ a) : (m.insert k v)[a]? = m[a]? := by
  rw [get_insert, if_neg h]

theorem get_erase (m : KeyMap β) (k a : String) : (m.erase k)[a]? = if k = a then none else m[a]? := by
  rw [Std.ExtTreeMap.getElem?_erase]
  simp only [Std.LawfulEqCmp.compare_eq_iff_eq]

theorem mem_toList {m : KeyMap β} {k : String} {v : β} : (k, v) ∈ m.toList ↔ m[k]? = some v :=
  Std.ExtTreeMap.mem_toList_iff_getElem?_eq_some

theorem nodup_toList (m : KeyMap β) : (m.toList.map Prod.fst).Nodup := by
  rw [Std.ExtTreeMap.map_fst_toList_eq_keys, List.Nodup]
  exact Std.ExtTreeMap.distinct_keys.imp fun h he => h (by rw [he, Std.LawfulEqCmp.compare_eq_iff_eq])

theorem contains_eq (m : KeyMap β) (k : String) : m.contains k = m[k]?.isSome :=
  Std.ExtTreeMap.contains_eq_isSome_getElem?

theorem mem_keys {m : KeyMap β} {k : String} : k ∈ m.keys ↔ m[k]?.isSome := by
  rw [Std.ExtTreeMap.mem_keys, Std.ExtTreeMap.isSome_getElem?_iff_mem]

/-! ## Collecting a map under other keys -/

/-- `m` with `g` of each value of the list under the key that `f` makes of
its own, where `f` makes one. -/
def gatherList (f : String → Option String) (g : β → γ) : List (String × β) → KeyMap γ → KeyMap γ
  | [], m => m
  | (n, v) :: xs, m =>
    gatherList f g xs (match f n with
      | some k => m.insert k (g v)
      | none => m)

def gather (f : String → Option String) (g : β → γ) (xs : KeyMap β) (m : KeyMap γ) : KeyMap γ :=
  gatherList f g xs.toList m

variable {f : String → Option String} {g : β → γ}

theorem gatherList_none {k : String} {xs : List (String × β)} (h : ∀ p ∈ xs, f p.1 ≠ some k)
    (m : KeyMap γ) : (gatherList f g xs m)[k]? = m[k]? := by
  induction xs generalizing m with
  | nil => rfl
  | cons p xs ih =>
    rw [gatherList, ih fun q hq => h q (List.mem_cons_of_mem _ hq)]
    have hp := h p (List.mem_cons_self ..)
    split
    · rename_i k' hk
      exact get_insert_ne _ _ fun he => hp (by rw [hk, he])
    · rfl

theorem gatherList_mem (hf : ∀ a b k, f a = some k → f b = some k → a = b) {k n : String} {v : β}
    (hn : f n = some k) {xs : List (String × β)} (hd : (xs.map Prod.fst).Nodup) (h : (n, v) ∈ xs)
    (m : KeyMap γ) : (gatherList f g xs m)[k]? = some (g v) := by
  induction xs generalizing m with
  | nil => cases h
  | cons p xs ih =>
    simp only [List.map_cons, List.nodup_cons] at hd
    rcases List.mem_cons.mp h with rfl | h
    · simp only [gatherList, hn]
      rw [gatherList_none fun q hq he => ?_, get_insert_self]
      obtain rfl : n = q.1 := hf _ _ _ hn he
      exact hd.1 (List.mem_map.mpr ⟨q, hq, rfl⟩)
    · rw [gatherList, ih hd.2 h]

/-- What a key `k` reads, when it is made of `n`. -/
theorem gather_apply (hf : ∀ a b k, f a = some k → f b = some k → a = b) {k n : String}
    (hn : f n = some k) (xs : KeyMap β) (m : KeyMap γ) :
    (gather f g xs m)[k]? = (xs[n]?.map g).or m[k]? := by
  cases hx : xs[n]? with
  | some v => exact gatherList_mem hf hn (nodup_toList xs) (mem_toList.mpr hx) m
  | none =>
    refine gatherList_none (fun p hp he => ?_) m
    rw [mem_toList.mp (show (n, p.2) ∈ xs.toList from hf _ _ _ hn he ▸ hp)] at hx
    cases hx

/-- What a key reads that `f` makes of none. -/
theorem gather_none {k : String} (h : ∀ n, f n ≠ some k) (xs : KeyMap β) (m : KeyMap γ) :
    (gather f g xs m)[k]? = m[k]? :=
  gatherList_none (fun p _ => h p.1) m

/-! ## Edits -/

/-- What a store reads under each key. -/
abbrev Reading (β : Type) := String → Option β

def reading (m : KeyMap β) : Reading β := fun k => m[k]?

inductive Edit (β : Type) where
  | put (k : String) (v : β)
  | delete (k : String)
deriving DecidableEq, Repr

namespace Edit

def key : Edit β → String
  | put k _ => k
  | delete k => k

/-- What the key reads after the edit. -/
def leaves : Edit β → Option β
  | put _ v => some v
  | delete _ => none

def apply (e : Edit β) (r : Reading β) (k : String) : Option β :=
  if e.key = k then e.leaves else r k

theorem apply_put (k : String) (v : β) (r : Reading β) (a : String) :
    (put k v).apply r a = if k = a then some v else r a := rfl

theorem apply_delete (k : String) (r : Reading β) (a : String) :
    (delete k : Edit β).apply r a = if k = a then none else r a := rfl

/-- The edit of a map. -/
def applyMap (e : Edit β) (m : KeyMap β) : KeyMap β :=
  match e with
  | put k v => m.insert k v
  | delete k => m.erase k

theorem reading_applyMap (e : Edit β) (m : KeyMap β) :
    reading (e.applyMap m) = e.apply (reading m) := by
  funext k
  cases e with
  | put a v => exact get_insert m a k v
  | delete a => exact get_erase m a k

end Edit

def patch (es : List (Edit β)) (r : Reading β) : Reading β := es.foldl (fun r e => e.apply r) r

theorem patch_cons (e : Edit β) (es : List (Edit β)) (r : Reading β) :
    patch (e :: es) r = patch es (e.apply r) := rfl

@[simp] theorem patch_nil (r : Reading β) : patch [] r = r := rfl

theorem patch_append (es es' : List (Edit β)) (r : Reading β) :
    patch (es ++ es') r = patch es' (patch es r) := List.foldl_append

theorem patch_of_notMem {es : List (Edit β)} {k : String} (h : k ∉ es.map Edit.key) (r : Reading β) :
    patch es r k = r k := by
  induction es generalizing r with
  | nil => rfl
  | cons e es ih =>
    simp only [List.map_cons, List.mem_cons, not_or] at h
    rw [patch_cons, ih h.2, Edit.apply, if_neg (Ne.symm h.1)]

/-- Edits leave a key as it is, or settle what it reads. -/
theorem patch_settles (es : List (Edit β)) (k : String) :
    (∀ r, patch es r k = r k) ∨ ∃ v, ∀ r, patch es r k = v := by
  induction es with
  | nil => exact .inl fun r => rfl
  | cons e es ih =>
    rcases ih with h | ⟨v, h⟩
    · by_cases hk : e.key = k
      · exact .inr ⟨e.leaves, fun r => by rw [patch_cons, h, Edit.apply, if_pos hk]⟩
      · exact .inl fun r => by rw [patch_cons, h, Edit.apply, if_neg hk]
    · exact .inr ⟨v, fun r => by rw [patch_cons, h]⟩

theorem patch_congr {r r' : Reading β} {k : String} (h : r k = r' k) (es : List (Edit β)) :
    patch es r k = patch es r' k := by
  rcases patch_settles es k with hk | ⟨v, hv⟩
  · rw [hk, hk, h]
  · rw [hv, hv]

/-- Edits done again change nothing. -/
theorem patch_patch (es : List (Edit β)) (r : Reading β) : patch es (patch es r) = patch es r := by
  funext k
  rcases patch_settles es k with hk | ⟨v, hv⟩
  · rw [hk]
  · rw [hv, hv]

theorem patch_of_mem {es : List (Edit β)} (hd : (es.map Edit.key).Nodup) {e : Edit β} (h : e ∈ es)
    (r : Reading β) : patch es r e.key = e.leaves := by
  induction es generalizing r with
  | nil => cases h
  | cons e' es ih =>
    simp only [List.map_cons, List.nodup_cons] at hd
    rcases List.mem_cons.mp h with rfl | h
    · rw [patch_cons, patch_of_notMem hd.1, Edit.apply, if_pos rfl]
    · exact ih hd.2 h _

theorem reading_foldl_applyMap (es : List (Edit β)) (m : KeyMap β) :
    reading (es.foldl (fun m e => e.applyMap m) m) = patch es (reading m) := by
  induction es generalizing m with
  | nil => rfl
  | cons e es ih => rw [List.foldl_cons, ih, Edit.reading_applyMap]; rfl

end KeyMap
