import StormStorage.KeyMap

/-!
# etcd's key-value store

The part of etcd's v3 API that a lease-bound lock and guarded writes need:
keys with their create and modify revisions, transactions that compare a
key's create revision, and leases whose keys go when they end. Every request
acts at once on one state (`handle`), as etcd's linearizable answers do.

* `values_commit`: what the keys read after a transaction's operations;
* `kv_commit_of_notMem`: a key that no operation names is untouched;
* `Wf`: revisions only grow, and no key was created later than now.
-/

namespace Etcd

open KeyMap

structure Kv where
  value : String
  createRevision : Nat
  modRevision : Nat
  /-- The lease the key goes with. -/
  lease : Option Nat
deriving DecidableEq, Repr

inductive Op where
  | put (k v : String) (lease : Option Nat)
  | delete (k : String)
deriving DecidableEq, Repr

namespace Op

def key : Op → String
  | put k _ _ => k
  | delete k => k

/-- The operation as an edit of the values. -/
def edit : Op → Edit String
  | put k v _ => .put k v
  | delete k => .delete k

def apply (rev : Nat) : Op → KeyMap Kv → KeyMap Kv
  | put k v l, m =>
    m.insert k {
      value := v
      createRevision := (m[k]?.map (·.createRevision)).getD rev
      modRevision := rev
      lease := l }
  | delete k, m => m.erase k

@[simp] theorem key_edit (o : Op) : o.edit.key = o.key := by cases o <;> rfl

end Op

structure State where
  kvs : KeyMap Kv
  revision : Nat
  /-- The leases in force, with the seconds each was granted. -/
  leases : List (Nat × Nat)
  lastLease : Nat
deriving DecidableEq

def State.init : State := { kvs := ∅, revision := 1, leases := [], lastLease := 0 }

/-- A compare of target `CREATE`: the key was created at this revision, 0 for
a key that is not there. -/
structure Compare where
  key : String
  createRevision : Nat
deriving DecidableEq, Repr

structure Txn where
  compare : List Compare
  success : List Op
  /-- The keys that a failed compare reads. -/
  failure : List String
deriving DecidableEq, Repr

inductive Request where
  | range (k : String)
  | rangePrefix (start : String)
  | txn (t : Txn)
  | leaseGrant (ttl : Nat)
  | leaseKeepAlive (id : Nat)
  | leaseRevoke (id : Nat)
deriving DecidableEq, Repr

inductive Answer where
  | kvs (found : List (String × Kv))
  | txn (succeeded : Bool) (revision : Nat) (found : List (String × Kv))
  | lease (id ttl : Nat)
  | done
deriving DecidableEq, Repr

namespace State

variable (s : State)

def createRevision (k : String) : Nat := (s.kvs[k]?.map (·.createRevision)).getD 0

def live (id : Nat) : Bool := s.leases.any (·.1 = id)

/-- What the keys read. -/
def values : Reading String := fun k => s.kvs[k]?.map (·.value)

def find (k : String) : List (String × Kv) := (s.kvs[k]?.map fun kv => (k, kv)).toList

def findPrefix (start : String) : List (String × Kv) :=
  s.kvs.toList.filter fun p => start.toList.isPrefixOf p.1.toList

/-- A put under a lease needs the lease to be in force. -/
def accepts : Op → Bool
  | .put _ _ (some l) => s.live l
  | _ => true

/-- A put always makes a revision, a delete one of a key that is there. -/
def changes : Op → Bool
  | .put .. => true
  | .delete k => s.kvs.contains k

def commit (ops : List Op) : State :=
  let rev := if ops.any s.changes then s.revision + 1 else s.revision
  { s with kvs := ops.foldl (fun m o => o.apply rev m) s.kvs, revision := rev }

def holds (c : Compare) : Bool := s.createRevision c.key = c.createRevision

/-- A lease ends, by revocation or by itself, and its keys go. -/
def endLease (id : Nat) : State :=
  { s with
    kvs := s.kvs.filter fun _ kv => kv.lease != some id
    revision := if s.kvs.any fun _ kv => kv.lease = some id then s.revision + 1 else s.revision
    leases := s.leases.filter (·.1 ≠ id) }

def handle : Request → Except String (State × Answer)
  | .range k => .ok (s, .kvs (s.find k))
  | .rangePrefix start => .ok (s, .kvs (s.findPrefix start))
  | .txn t =>
    if t.compare.all s.holds then
      if t.success.all s.accepts then
        let s' := s.commit t.success
        .ok (s', .txn true s'.revision [])
      else .error "etcdserver: requested lease not found"
    else .ok (s, .txn false s.revision (t.failure.flatMap s.find))
  | .leaseGrant ttl =>
    let id := s.lastLease + 1
    .ok ({ s with leases := (id, ttl) :: s.leases, lastLease := id }, .lease id ttl)
  | .leaseKeepAlive id => .ok (s, .lease id ((s.leases.lookup id).getD 0))
  | .leaseRevoke id =>
    if s.live id then .ok (s.endLease id, .done) else .error "etcdserver: requested lease not found"

end State

/-! ## What operations do to the keys -/

theorem kv_apply_of_ne {o : Op} {k : String} (h : o.key ≠ k) (rev : Nat) (m : KeyMap Kv) :
    (o.apply rev m)[k]? = m[k]? := by
  cases o with
  | put a v l => exact get_insert_ne _ _ h
  | delete a => exact (get_erase m a k).trans (if_neg h)

theorem value_apply (o : Op) (rev : Nat) (m : KeyMap Kv) (k : String) :
    (o.apply rev m)[k]?.map (·.value) = o.edit.apply (fun a => m[a]?.map (·.value)) k := by
  cases o with
  | put a v l =>
    rw [Op.apply, get_insert, Edit.apply, Op.edit, Edit.key, Edit.leaves]
    split <;> rfl
  | delete a =>
    rw [Op.apply, get_erase, Edit.apply, Op.edit, Edit.key, Edit.leaves]
    split <;> rfl

theorem kv_foldl_of_notMem {ops : List Op} {k : String} (h : k ∉ ops.map Op.key) (rev : Nat)
    (m : KeyMap Kv) : (ops.foldl (fun m o => o.apply rev m) m)[k]? = m[k]? := by
  induction ops generalizing m with
  | nil => rfl
  | cons o ops ih =>
    simp only [List.map_cons, List.mem_cons, not_or] at h
    rw [List.foldl_cons, ih h.2, kv_apply_of_ne (Ne.symm h.1)]

/-- A key's lease is the one it was put under last. -/
theorem lease_foldl {ops : List Op} {rev : Nat} {m : KeyMap Kv} {k : String} {kv : Kv}
    (h : (ops.foldl (fun m o => o.apply rev m) m)[k]? = some kv) :
    (∃ v, Op.put k v kv.lease ∈ ops) ∨ m[k]? = some kv := by
  induction ops generalizing m with
  | nil => exact .inr h
  | cons o ops ih =>
    rcases ih h with ⟨v, hv⟩ | hm
    · exact .inl ⟨v, List.mem_cons_of_mem _ hv⟩
    · cases o with
      | put a v l =>
        simp only [Op.apply, get_insert] at hm
        split at hm
        · rename_i ha
          cases hm
          exact .inl ⟨v, ha ▸ List.mem_cons_self ..⟩
        · exact .inr hm
      | delete a =>
        simp only [Op.apply, get_erase] at hm
        split at hm
        · cases hm
        · exact .inr hm

theorem values_foldl (ops : List Op) (rev : Nat) (m : KeyMap Kv) :
    (fun k => (ops.foldl (fun m o => o.apply rev m) m)[k]?.map (·.value)) =
      patch (ops.map Op.edit) fun k => m[k]?.map (·.value) := by
  induction ops generalizing m with
  | nil => rfl
  | cons o ops ih =>
    rw [List.foldl_cons, ih, List.map_cons, patch_cons]
    congr 1
    funext k
    exact value_apply o rev m k

namespace State

variable {s : State}

theorem values_commit (s : State) (ops : List Op) :
    (s.commit ops).values = patch (ops.map Op.edit) s.values :=
  values_foldl ops _ s.kvs

theorem kv_commit_of_notMem {ops : List Op} {k : String} (h : k ∉ ops.map Op.key) :
    (s.commit ops).kvs[k]? = s.kvs[k]? :=
  kv_foldl_of_notMem h _ s.kvs

theorem revision_le_commit (s : State) (ops : List Op) : s.revision ≤ (s.commit ops).revision := by
  simp only [commit]
  split <;> omega

theorem kv_endLease {id : Nat} {k : String} :
    (s.endLease id).kvs[k]? = s.kvs[k]?.filter fun kv => kv.lease != some id := by
  rw [endLease, Std.ExtTreeMap.getElem?_filter']

theorem revision_le_endLease (s : State) (id : Nat) : s.revision ≤ (s.endLease id).revision := by
  simp only [endLease]
  split <;> omega

/-- Every key was created, at a revision that has passed. -/
def Wf (s : State) : Prop :=
  ∀ (k : String) (kv : Kv), s.kvs[k]? = some kv → 0 < kv.createRevision ∧ kv.createRevision ≤ s.revision

theorem wf_init : init.Wf := fun k kv h => by simp [init] at h

/-- A key that was there has the same create revision, or is gone; one that
was not is created now. -/
theorem created_apply (o : Op) (rev : Nat) {m : KeyMap Kv} {k : String} {kv : Kv}
    (h : (o.apply rev m)[k]? = some kv) :
    kv.createRevision = rev ∨ ∃ kv₀, m[k]? = some kv₀ ∧ kv₀.createRevision = kv.createRevision := by
  cases o with
  | put a v l =>
    rw [Op.apply, get_insert] at h
    split at h
    · rename_i ha
      cases h
      subst ha
      cases ha : m[a]? with
      | none => exact .inl rfl
      | some kv₀ => exact .inr ⟨kv₀, rfl, rfl⟩
    · exact .inr ⟨kv, h, rfl⟩
  | delete a =>
    rw [Op.apply, get_erase] at h
    split at h
    · cases h
    · exact .inr ⟨kv, h, rfl⟩

theorem created_foldl {ops : List Op} {rev : Nat} {m : KeyMap Kv} {k : String} {kv : Kv}
    (h : (ops.foldl (fun m o => o.apply rev m) m)[k]? = some kv) :
    kv.createRevision = rev ∨ ∃ kv₀, m[k]? = some kv₀ ∧ kv₀.createRevision = kv.createRevision := by
  induction ops generalizing m with
  | nil => exact .inr ⟨kv, h, rfl⟩
  | cons o ops ih =>
    rcases ih h with hr | ⟨kv₁, h₁, he⟩
    · exact .inl hr
    · rcases created_apply o rev h₁ with hr | ⟨kv₀, h₀, he'⟩
      · exact .inl (he ▸ hr)
      · exact .inr ⟨kv₀, h₀, he'.trans he⟩

theorem Wf.commit (h : s.Wf) (h0 : 0 < s.revision) (ops : List Op) : (s.commit ops).Wf := by
  intro k kv hk
  have hle := revision_le_commit s ops
  rcases created_foldl hk with hr | ⟨kv₀, h₀, he⟩
  · rw [hr]
    exact ⟨Nat.lt_of_lt_of_le h0 hle, Nat.le_refl _⟩
  · have := h k kv₀ h₀
    rw [← he]
    exact ⟨this.1, Nat.le_trans this.2 hle⟩

theorem Wf.endLease (h : s.Wf) (id : Nat) : (s.endLease id).Wf := by
  intro k kv hk
  rw [kv_endLease, Option.filter_eq_some_iff] at hk
  have := h k kv hk.1
  exact ⟨this.1, Nat.le_trans this.2 (revision_le_endLease s id)⟩

end State

/-! ## Ranges -/

/-- A key of the range from `key` to `rangeEnd`; the byte 0 alone stands for
no upper end. -/
def InRange (key rangeEnd k : List UInt8) : Prop := key ≤ k ∧ (rangeEnd = [0] ∨ k < rangeEnd)

end Etcd
