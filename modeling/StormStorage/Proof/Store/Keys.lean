import StormStorage.Store.Lead
import StormStorage.Proof.Store.Records

/-!
# Records and the keys below the prefix

`records_get` reads a record of the store under its key, `values_write` says
what a transaction's chunk does to the records, and `write_other` that it
leaves the leader key alone.
-/

namespace StormStorage

open KeyMap

variable {S : StoreConfig}

/-! ## The fleet's state -/

@[simp] theorem setInst_self (w : Fleet) (name : String) (f : Instance → Instance) :
    (w.setInst name f).inst name = f (w.inst name) := if_pos rfl

@[simp] theorem setInst_etcd (w : Fleet) (name : String) (f : Instance → Instance) :
    (w.setInst name f).etcd = w.etcd := rfl

@[simp] theorem setInst_log (w : Fleet) (name : String) (f : Instance → Instance) :
    (w.setInst name f).log = w.log := rfl

@[simp] theorem setInst_late (w : Fleet) (name : String) (f : Instance → Instance) :
    (w.setInst name f).late = w.late := rfl

@[simp] theorem note_inst (w : Fleet) (e : StoreEvent) : (w.note e).inst = w.inst := rfl

@[simp] theorem note_etcd (w : Fleet) (e : StoreEvent) : (w.note e).etcd = w.etcd := rfl

@[simp] theorem note_late (w : Fleet) (e : StoreEvent) : (w.note e).late = w.late := rfl

@[simp] theorem note_log (w : Fleet) (e : StoreEvent) : (w.note e).log = w.log ++ [e] := rfl

@[simp] theorem serve_rangePrefix (who start : String) (w : Fleet) :
    w.serve S who (.rangePrefix start) = (w, .ok (.kvs (w.etcd.findPrefix start))) := rfl

/-! ## Keys -/

theorem key_inj {a b : String} (h : S.key a = S.key b) : a = b := by
  have h' := congrArg String.toList h
  simp only [StoreConfig.key, String.toList_append, List.append_cancel_left_eq, String.toList_inj] at h'
  exact h'

theorem stripPrefix_eq_some {start a k : String} : stripPrefix start a = some k ↔ a = start ++ k := by
  rw [stripPrefix]
  constructor
  · intro h
    split at h
    · rename_i hp
      obtain ⟨t, ht⟩ := List.isPrefixOf_iff_prefix.mp hp
      rw [← ht, List.drop_left, Option.some.injEq] at h
      rw [← String.toList_inj, String.toList_append, ← ht, ← h, String.toList_ofList]
    · cases h
  · rintro rfl
    have hp : start.toList.isPrefixOf (start ++ k).toList = true := by
      rw [String.toList_append, List.isPrefixOf_iff_prefix]
      exact List.prefix_append _ _
    rw [if_pos hp, String.toList_append, List.drop_left, String.ofList_toList]

theorem recordAt_eq_some {start a k : String} :
    recordAt start a = some k ↔ a = start ++ k ∧ k ≠ "leader" ∧ k ≠ "meta" := by
  rw [← stripPrefix_eq_some, recordAt]
  split
  · rename_i h; rw [h]; simp; grind
  · rename_i h; rw [h]; simp; grind
  · rename_i h; rw [h]; simp
  · rename_i k' h₁ h₂ h; rw [h]; simp; grind

theorem nodup_findPrefix (e : Etcd.State) (start : String) :
    ((e.findPrefix start).map Prod.fst).Nodup :=
  (nodup_toList e.kvs).sublist (List.filter_sublist.map _)

theorem mem_findPrefix {e : Etcd.State} {start k : String} {kv : Etcd.Kv} :
    (start ++ k, kv) ∈ e.findPrefix start ↔ e.kvs[start ++ k]? = some kv := by
  rw [Etcd.State.findPrefix, List.mem_filter, mem_toList, and_iff_left]
  rw [String.toList_append, List.isPrefixOf_iff_prefix]
  exact List.prefix_append _ _

/-- A record of the store is what its key reads. -/
theorem records_get (w : Fleet) {k : String} (hl : k ≠ "leader") (hm : k ≠ "meta") :
    (w.records S)[k]? = w.etcd.values (S.key k) := by
  have hat : recordAt S.keyPrefix (S.key k) = some k := recordAt_eq_some.mpr ⟨rfl, hl, hm⟩
  have hinj : ∀ a b k', recordAt S.keyPrefix a = some k' → recordAt S.keyPrefix b = some k' → a = b := by
    intro a b k' ha hb
    rw [(recordAt_eq_some.mp ha).1, (recordAt_eq_some.mp hb).1]
  rw [Fleet.records, recordsIn, Etcd.State.values]
  cases hv : w.etcd.kvs[S.key k]? with
  | some kv =>
    exact gatherList_mem hinj hat (nodup_findPrefix w.etcd _) (mem_findPrefix.mpr hv) ∅
  | none =>
    rw [gatherList_none, get_empty, Option.map_none]
    rintro ⟨a, kv⟩ hp ha
    have hak : a = S.key k := (recordAt_eq_some.mp ha).1
    rw [hak] at hp
    have : w.etcd.kvs[S.key k]? = some kv := mem_findPrefix.mp hp
    rw [hv] at this
    cases this

theorem records_reserved (w : Fleet) {k : String} (h : k = "leader" ∨ k = "meta") :
    (w.records S)[k]? = none := by
  refine (gatherList_none (fun p _ hp => ?_) ∅).trans (get_empty _)
  obtain ⟨_, hl, hm⟩ := recordAt_eq_some.mp hp
  rcases h with h | h
  · exact hl h
  · exact hm h

/-- Two stores with the same values, the leader key aside, hold the same records. -/
theorem records_congr {w w' : Fleet} (h : ∀ k, k ≠ S.key "leader" → w'.etcd.values k = w.etcd.values k) :
    w'.records S = w.records S := by
  refine KeyMap.ext fun k => ?_
  by_cases hl : k = "leader"
  · rw [records_reserved w' (.inl hl), records_reserved w (.inl hl)]
  by_cases hm : k = "meta"
  · rw [records_reserved w' (.inr hm), records_reserved w (.inr hm)]
  rw [records_get w' hl hm, records_get w hl hm, h _ fun he => hl (key_inj he)]

/-! ## Records that are no reserved key -/

/-- No record is kept under a reserved key. -/
def Clean (m : Records) : Prop := m["leader"]? = none ∧ m["meta"]? = none

theorem clean_empty : Clean ∅ := ⟨get_empty _, get_empty _⟩

theorem clean_recordsIn (start : String) (kvs : List (String × Etcd.Kv)) : Clean (recordsIn start kvs) := by
  constructor
  · refine (gatherList_none (fun p _ hp => ?_) ∅).trans (get_empty _)
    exact (recordAt_eq_some.mp hp).2.1 rfl
  · refine (gatherList_none (fun p _ hp => ?_) ∅).trans (get_empty _)
    exact (recordAt_eq_some.mp hp).2.2 rfl

theorem clean_recordsOf (c : Codecs) (fed : FedState) : Clean (recordsOf c fed) := by
  have hno {k : String} (hk : known k = false) (rk : RecordKey) : rk.text ≠ k := by
    rintro rfl
    rw [rk.known_text] at hk
    cases hk
  exact ⟨recordsOf_other (hno (by decide)) fed, recordsOf_other (hno (by decide)) fed⟩

theorem Clean.diff_key {old new : Records} (ho : Clean old) (hn : Clean new) {e : Op}
    (he : e ∈ diff old new) : e.key ≠ "leader" ∧ e.key ≠ "meta" := by
  have hne := mem_diff_key.mp (List.mem_map_of_mem he)
  constructor
  · intro hk
    rw [hk, ho.1, hn.1] at hne
    exact hne rfl
  · intro hk
    rw [hk, ho.2, hn.2] at hne
    exact hne rfl

/-! ## What a chunk writes -/

/-- A chunk of edits, none of a reserved key. -/
def Proper (chunk : List Op) : Prop := ∀ e ∈ chunk, e.key ≠ "leader" ∧ e.key ≠ "meta"

theorem write_key {rev : Nat} {metaText : String} {chunk : List Op} (hc : Proper chunk) :
    ∀ o ∈ (syncTxn S rev metaText chunk).success, o.key ≠ S.key "leader" := by
  intro o ho
  rcases List.mem_append.mp ho with ho | ho
  · obtain ⟨e, he, rfl⟩ := List.mem_map.mp ho
    have hk := (hc e he).1
    cases e with
    | put k v => exact fun h => hk (key_inj h)
    | delete k => exact fun h => hk (key_inj h)
  · obtain rfl := List.mem_singleton.mp ho
    exact fun h => absurd (key_inj h) (by decide)

/-- Records are kept under no lease. -/
theorem write_lease {rev : Nat} {metaText : String} {chunk : List Op} {k v : String} {l : Option Nat}
    (h : .put k v l ∈ (syncTxn S rev metaText chunk).success) : l = none := by
  rcases List.mem_append.mp h with h | h
  · obtain ⟨e, _, he⟩ := List.mem_map.mp h
    cases e with
    | put a b => cases he; rfl
    | delete a => cases he
  · cases List.mem_singleton.mp h
    rfl

/-- `meta` goes with every write. -/
theorem meta_write (rev : Nat) (metaText : String) (chunk : List Op) (r : Reading String) :
    patch ((syncTxn S rev metaText chunk).success.map Etcd.Op.edit) r (S.key "meta") = some metaText := by
  rw [syncTxn, List.map_append, List.map_singleton, patch_append, patch_cons, patch_nil]
  exact if_pos rfl

/-- The values after a chunk: its edits under their keys. -/
theorem values_write {rev : Nat} {metaText : String} {chunk : List Op} (r : Reading String) {k : String}
    (hm : k ≠ "meta") :
    patch ((syncTxn S rev metaText chunk).success.map Etcd.Op.edit) r (S.key k) =
      patch chunk (fun a => r (S.key a)) k := by
  have hlast (r : Reading String) : patch [(S.putOp "meta" metaText none).edit] r (S.key k) = r (S.key k) := by
    refine patch_of_notMem ?_ r
    rw [List.map_singleton, List.mem_singleton]
    exact fun h => hm (key_inj h)
  rw [syncTxn, List.map_append, List.map_singleton, patch_append, hlast]
  induction chunk generalizing r with
  | nil => rfl
  | cons e chunk ih =>
    rw [List.map_cons, List.map_cons, patch_cons, patch_cons, ih]
    congr 1
    funext a
    cases e with
    | put b v =>
      rw [Edit.apply_put, show (recordOp S (.put b v)).edit = .put (S.key b) v from rfl, Edit.apply_put]
      by_cases hb : b = a
      · rw [if_pos hb, if_pos (congrArg S.key hb)]
      · rw [if_neg hb, if_neg fun h => hb (key_inj h)]
    | delete b =>
      rw [Edit.apply_delete, show (recordOp S (.delete b)).edit = .delete (S.key b) from rfl, Edit.apply_delete]
      by_cases hb : b = a
      · rw [if_pos hb, if_pos (congrArg S.key hb)]
      · rw [if_neg hb, if_neg fun h => hb (key_inj h)]

end StormStorage
