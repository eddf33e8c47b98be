import StormStorage.Proof.Store.Keys

/-!
# Loading and then writing

What an instance would send right after it loaded the store. `load_ends`
says what a load leaves of an instance; with `applyRecords_record`,
`pending_of_load` gives the exact store contents after which a sync has
nothing to send.
-/

namespace StormStorage

open Await KeyMap Task

variable {S : StoreConfig} {me : Me} {w w' : Fleet}

/-- A range that is answered, at whatever attempt, reads the store. -/
theorem callFrom_rangePrefix {start : String} {urls errors : List String} {x : Except String Etcd.Answer}
    (h : Ends (me.callFrom S (.rangePrefix start) urls errors) w x w') :
    w'.etcd = w.etcd ∧ w'.inst = w.inst ∧ ∀ a, x = .ok a → a = .kvs (w.etcd.findPrefix start) := by
  induction urls generalizing errors w with
  | nil =>
    obtain ⟨rfl, rfl⟩ := ends_fail.mp h
    exact ⟨rfl, rfl, nofun⟩
  | cons url urls ih =>
    obtain ⟨_, ⟨net, now, since⟩, h⟩ := ends_step.mp h
    cases net with
    | answered =>
      obtain ⟨rfl, rfl⟩ := ends_ret.mp h
      exact ⟨rfl, rfl, fun a ha => (Except.ok.inj ha).symm⟩
    | lost effect retry why =>
      have hw : me.attempted S (.rangePrefix start) (.lost effect retry why) w = w := by
        cases effect <;> rfl
      simp only [hw] at h
      split at h
      · exact ih h
      · obtain ⟨rfl, rfl⟩ := ends_fail.mp h
        exact ⟨rfl, rfl, nofun⟩
    | late retry why =>
      simp only [Me.attempted] at h
      split at h
      · obtain ⟨he, hi, ha⟩ := ih h
        exact ⟨he, hi, ha⟩
      · obtain ⟨rfl, rfl⟩ := ends_fail.mp h
        exact ⟨rfl, rfl, nofun⟩

/-- What a load makes of an instance does not depend on who holds `written`. -/
theorem load_held (kvs : List (String × Etcd.Kv)) (i : Instance) (b : Option Nat) :
    ({ i with held := b }).load S kvs =
      (i.load S kvs).map fun p => (p.1, { p.2 with held := b }) := by
  simp only [Instance.load]
  cases metaIn S.codecs S.keyPrefix kvs with
  | error e => rfl
  | ok o =>
    cases o with
    | none => rfl
    | some p => cases h : applyRecords S.codecs i.fed (recordsIn S.keyPrefix kvs) <;> rfl

/-- A load that found state leaves the instance as `Instance.load` says, of the
store as it is. -/
theorem load_ends (h : Ends (me.load S) w (.ok true) w') :
    ∃ i, (w.inst me.name).load S (w.etcd.findPrefix S.keyPrefix) = .ok (true, i) ∧
      (w'.inst me.name).fed = i.fed ∧ (w'.inst me.name).written = i.written ∧ w'.etcd = w.etcd := by
  simp only [Me.load, Task.bind_eq, ends_bind, Me.lock, ends_await, Me.call, ends_attempt, reduceCtorEq,
    and_false, exists_false, or_false] at h
  obtain ⟨_, w₁, ⟨_, _, _, rfl⟩, h⟩ := h
  obtain ⟨y, w₂, ⟨_, hy, hcall⟩, h⟩ := h
  obtain rfl := Except.ok.inj hy
  obtain ⟨he, hi, ha⟩ := callFrom_rangePrefix hcall
  cases y with
  | error e =>
    simp only [ends_bind, ends_fail, reduceCtorEq, false_and, and_false, exists_false, or_false] at h
  | ok a =>
    obtain rfl := ha a rfl
    simp only [Me.unlock, Me.update, ends_bind, ends_await, reduceCtorEq, and_false, exists_false,
      or_false] at h
    obtain ⟨r, w₃, ⟨_, _, hr, rfl⟩, _, w₄, ⟨_, _, _, rfl⟩, h⟩ := h
    simp only [hi, setInst_self, setInst_etcd, load_held] at hr h
    cases hl : (w.inst me.name).load S (w.etcd.findPrefix S.keyPrefix) with
    | error e =>
      simp only [hl, Except.map] at hr
      obtain rfl := Except.ok.inj hr
      obtain ⟨he, _⟩ := ends_fail.mp h
      cases he
    | ok p =>
      simp only [hl, Except.map] at hr h
      obtain rfl := Except.ok.inj hr
      obtain ⟨hp, rfl⟩ := ends_ret.mp h
      obtain ⟨loaded, i⟩ := p
      obtain rfl := Except.ok.inj hp
      exact ⟨i, rfl, by simp only [setInst_self, note_inst], by simp only [setInst_self, note_inst], he⟩

/-- What a load that found state makes of the instance. -/
theorem load_true {kvs : List (String × Etcd.Kv)} {i i' : Instance} (h : i.load S kvs = .ok (true, i')) :
    i'.written = recordsIn S.keyPrefix kvs ∧ ∃ fed, applyRecords S.codecs i.fed (recordsIn S.keyPrefix kvs) = .ok fed ∧
      ∃ n, i'.fed = { fed with revision := n } := by
  simp only [Instance.load] at h
  cases hm : metaIn S.codecs S.keyPrefix kvs with
  | error e => rw [hm] at h; cases h
  | ok o =>
    rw [hm] at h
    cases o with
    | none => cases h
    | some p =>
      cases ha : applyRecords S.codecs i.fed (recordsIn S.keyPrefix kvs) with
      | error e => simp only [ha] at h; cases h
      | ok fed =>
        simp only [ha] at h
        cases h
        exact ⟨rfl, fed, rfl, _, rfl⟩

/-- The revision is not among the records. -/
theorem recordsOf_revision (c : Codecs) (fed : FedState) (n : Nat) :
    recordsOf c { fed with revision := n } = recordsOf c fed := rfl

/-- The whole of the records is this version's, and none is a registered node
that the instance with state `fed` configures itself. -/
structure Understood (fed : FedState) (records : Records) : Prop where
  kinds : ∀ k : String, records[k]?.isSome → known k
  nodes : ∀ n, records[(RecordKey.node n).text]?.isSome → configuresItself fed n = false
  orphans : records["orphans"]?.isSome
  staleHeads : records["stale_heads"]?.isSome

/-- After records of leaders were taken up, a state writes the same records if
and only if it understood them. -/
theorem recordsOf_applyRecords {c : Codecs} {records : Records} (h : FromLeaders c records)
    {fed fed' : FedState} (ha : applyRecords c fed records = .ok fed') :
    records = recordsOf c fed' ↔ Understood fed records := by
  obtain ⟨fed₁, ha₁, hr⟩ := applyRecords_record h fed
  obtain rfl : fed₁ = fed' := Except.ok.inj (ha₁.symm.trans ha)
  have hread (rk : RecordKey) : (recordsOf c fed₁)[rk.text]? = takenUp c fed records rk :=
    (recordsOf_text fed₁ rk).trans (hr rk)
  constructor
  · intro he
    refine ⟨fun k hk => ?_, fun n hn => ?_, ?_, ?_⟩
    · by_contra hu
      rw [he, recordsOf_other fun rk hrk => hu (by rw [← hrk]; exact rk.known_text)] at hk
      cases hk
    · rw [he, hread, takenUp] at hn
      cases hc : configuresItself fed n with
      | false => rfl
      | true => rw [hc] at hn; cases hn
    · rw [he, show "orphans" = RecordKey.orphans.text from rfl, hread]
      rfl
    · rw [he, show "stale_heads" = RecordKey.staleHeads.text from rfl, hread]
      rfl
  · rintro ⟨hknown, hnodes, ho, hs⟩
    refine KeyMap.ext fun k => ?_
    by_cases hk : ∃ rk : RecordKey, rk.text = k
    · obtain ⟨rk, rfl⟩ := hk
      rw [hread]
      cases rk with
      | node n =>
        rw [takenUp]
        cases hn : records[(RecordKey.node n).text]? with
        | none => split <;> rfl
        | some v => rw [hnodes n (by rw [hn]; rfl)]; rfl
      | orphans =>
        obtain ⟨v, hv⟩ := Option.isSome_iff_exists.mp ho
        rw [takenUp, show RecordKey.orphans.text = "orphans" from rfl, hv]
        rfl
      | staleHeads =>
        obtain ⟨v, hv⟩ := Option.isSome_iff_exists.mp hs
        rw [takenUp, show RecordKey.staleHeads.text = "stale_heads" from rfl, hv]
        rfl
      | _ n => rfl
    · have hno : ∀ rk : RecordKey, rk.text ≠ k := fun rk he => hk ⟨rk, he⟩
      rw [recordsOf_other hno]
      cases hv : records[k]? with
      | none => rfl
      | some v =>
        obtain ⟨rk, hrk, _⟩ := h.legible hv (hknown k (by rw [hv]; rfl))
        exact absurd hrk (hno rk)

/-- With nothing pending a sync sends nothing. -/
theorem sync_ends_nil {x : Except String Unit}
    (hp : (w.inst me.name).pending S = []) (h : Ends (me.sync S) w x w') :
    w'.etcd = w.etcd ∧ w'.late = w.late := by
  simp only [Me.sync, Task.bind_eq, Me.read, ends_bind, ends_await, reduceCtorEq, and_false, false_and,
    exists_false, or_false] at h
  obtain ⟨_, w₁, ⟨_, _, _, hw₁⟩, h⟩ := h
  rw [hw₁] at h
  split at h
  · obtain ⟨rfl, rfl⟩ := ends_ret.mp h
    exact ⟨rfl, rfl⟩
  · simp only [Me.lock, Me.syncLocked, Task.bind_eq, ends_bind, ends_await, reduceCtorEq, and_false,
      false_and, exists_false, or_false] at h
    obtain ⟨_, _, ⟨_, _, hw, rfl⟩, _, _, ⟨_, ch, htook, rfl⟩, h⟩ := h
    obtain rfl := Except.ok.inj hw
    obtain rfl := Except.ok.inj htook
    have hnil : (diff (w.inst me.name).written (recordsOf S.codecs (w.inst me.name).fed)).isEmpty = true :=
      List.isEmpty_iff.mpr hp
    simp only [setInst_self, hnil, ↓reduceIte, Me.finish, ends_await] at h
    obtain ⟨_, _, _, rfl⟩ := h
    exact ⟨rfl, rfl⟩

/-- A load of records of leaders, then a sync with no change between them: it
has nothing to send if and only if the records were understood. -/
theorem load_then_sync (hc : FromLeaders S.codecs (w.records S)) (h : Ends (me.load S) w (.ok true) w') :
    ((w'.inst me.name).pending S = [] ↔
      Understood (w.inst me.name).fed (w.records S)) ∧
    (Understood (w.inst me.name).fed (w.records S) →
      ∀ x w'', Ends (me.sync S) w' x w'' → w''.etcd = w'.etcd ∧ w''.late = w'.late) := by
  obtain ⟨i, hl, hf, hw, _⟩ := load_ends h
  obtain ⟨hwritten, fed, ha, n, hfed⟩ := load_true hl
  have hp : (w'.inst me.name).pending S = [] ↔
      Understood (w.inst me.name).fed (w.records S) := by
    rw [Instance.pending, hf, hw, hwritten, hfed, recordsOf_revision, diff_eq_nil]
    exact recordsOf_applyRecords hc ha
  exact ⟨hp, fun hu x w'' hs => sync_ends_nil (hp.mpr hu) hs⟩

/-! ## A small fleet -/

def jsonString (s : String) : String := "\"" ++ s ++ "\""

def jsonOption : Option String → String
  | none => "null"
  | some s => jsonString s

def jsonObject (fields : List (String × String)) : String :=
  "\x7b" ++ ",".intercalate (fields.map fun p => jsonString p.1 ++ ":" ++ p.2) ++ "\x7d"

def jsonTime (t : SystemTime) : String :=
  jsonObject [("secs_since_epoch", toString (t / 1000)), ("nanos_since_epoch", toString (t % 1000 * 1000000))]

def jsonMeta (m : Meta) : String :=
  jsonObject [("revision", toString m.revision), ("by", jsonString m.by), ("at", jsonTime m.at)]

def jsonNode (nc : NodeConfig) : String :=
  jsonObject [("name", jsonString nc.name), ("engine_url", jsonString nc.engineUrl),
    ("api_token", jsonOption nc.apiToken), ("token_file", jsonOption nc.tokenFile),
    ("ca_file", jsonOption nc.caFile),
    ("labels", jsonObject (nc.labels.toList.map fun p => (p.1, jsonString p.2))),
    ("tier", jsonOption nc.tier)]

def jsonLeader (l : LeaderInfo) : String :=
  jsonObject [("instance", jsonString l.instance), ("url", jsonString l.url)]

/-- A reader of the texts that `write` makes of `xs`. -/
def readOf {α : Type} (write : α → String) (xs : List α) (s : String) : Except String α :=
  match xs.find? fun x => write x = s with
  | some x => .ok x
  | none => .error "expected value at line 1 column 1"

/-- The serializer on states of registered nodes only, as the examples of
this development have them; it reads the metas and leaders given. -/
def smallCodecs (metas : List Meta) (leaders : List LeaderInfo) (nodes : List NodeConfig) : Codecs where
  volume := ⟨fun v => jsonObject [("name", jsonString v.name)], fun _ => .error "missing field"⟩
  snapshot := ⟨fun v => jsonObject [("id", jsonString v.id)], fun _ => .error "missing field"⟩
  groupSnapshot := ⟨fun v => jsonObject [("id", jsonString v.id)], fun _ => .error "missing field"⟩
  backup := ⟨fun v => jsonObject [("volume", jsonString v.volume)], fun _ => .error "missing field"⟩
  vmMigration := ⟨fun v => jsonObject [("id", jsonString v.id)], fun _ => .error "missing field"⟩
  node := ⟨jsonNode, readOf jsonNode nodes⟩
  orphans := ⟨fun l => "[" ++ ",".intercalate (l.map fun o => jsonString o.volumeId) ++ "]",
    fun s => if s = "[]" then .ok [] else .error "missing field"⟩
  staleHeads := ⟨fun l => "[" ++ ",".intercalate (l.map fun h => jsonString h.node) ++ "]",
    fun s => if s = "[]" then .ok [] else .error "missing field"⟩
  metaRecord := ⟨jsonMeta, readOf jsonMeta metas⟩
  leaderInfo := ⟨jsonLeader, readOf jsonLeader leaders⟩

def smallMeta : Meta := { revision := 3, «by» := "a", «at» := 0 }

def smallConfig : StoreConfig where
  keyPrefix := "/stormstorage/"
  endpoints := ["http://e1:2379"]
  leaseTtlSecs := 15
  url n := "http://" ++ n ++ ":9093"
  codecs := smallCodecs [smallMeta] [] []

/-- A store with `meta` and these records, and instances that just started. -/
def smallFleet (records : List (String × String)) : Fleet where
  etcd := {
    kvs := (("meta", jsonMeta smallMeta) :: records).foldl
      (fun m p => m.insert (smallConfig.key p.1) ⟨p.2, 5, 5, none⟩) ∅
    revision := 7
    leases := []
    lastLease := 0 }
  inst _ := {}

def smallMe : Me := { name := "a", life := 0, task := 0 }

def smallLoad (w : Fleet) : Fleet := (smallMe.load smallConfig).finalState [{}, {}, {}, {}] w

/-- Records of an empty state. -/
def smallRecords : List (String × String) := [("orphans", "[]"), ("stale_heads", "[]")]

theorem readsBack_empty : smallConfig.codecs.ReadsBack {} where
  volumes n v h := by simp at h
  snapshots n v h := by simp at h
  groupSnapshots n v h := by simp at h
  backups n v h := by simp at h
  vmMigrations n v h := by simp at h
  nodes n v h := by simp at h
  orphans := by decide
  staleHeads := by decide

theorem smallRecords_fromLeaders :
    FromLeaders smallConfig.codecs ((smallFleet smallRecords).records smallConfig) := by
  intro k v hv _
  have hr : (smallFleet smallRecords).records smallConfig = recordsOf smallConfig.codecs {} := by decide
  exact ⟨{}, readsBack_empty, hr ▸ hv⟩

theorem load_then_sync_small :
    (((smallLoad (smallFleet smallRecords)).inst "a").pending smallConfig = [] ↔
      Understood {} ((smallFleet smallRecords).records smallConfig)) ∧
    (Understood {} ((smallFleet smallRecords).records smallConfig) →
      ∀ x w'', Ends (smallMe.sync smallConfig) (smallLoad (smallFleet smallRecords)) x w'' →
        w''.etcd = (smallLoad (smallFleet smallRecords)).etcd ∧
          w''.late = (smallLoad (smallFleet smallRecords)).late) :=
  have hl : Ends (smallMe.load smallConfig) (smallFleet smallRecords) (.ok true) (smallLoad (smallFleet smallRecords)) :=
    ends_finalState (by decide)
  load_then_sync smallRecords_fromLeaders hl

/-- Beside a key of a newer version a load leaves something to send: its
delete. -/
theorem not_load_then_sync_nothing :
    ¬ ∀ (S : StoreConfig) (me : Me) (w w' : Fleet), FromLeaders S.codecs (w.records S) →
      Ends (me.load S) w (.ok true) w' →
        (w'.inst me.name).pending S = [] := by
  intro h
  let w := smallFleet (("quotas/v1", "5") :: smallRecords)
  have hc : FromLeaders smallConfig.codecs (w.records smallConfig) := by
    intro k v hv hk
    refine ⟨{}, readsBack_empty, ?_⟩
    have hr : w.records smallConfig = (recordsOf smallConfig.codecs {}).insert "quotas/v1" "5" := by decide
    rw [hr, get_insert] at hv
    split at hv
    · rename_i he
      subst he
      exact absurd hk (by decide)
    · exact hv
  have hl : Ends (smallMe.load smallConfig) w (.ok true) (smallLoad w) := ends_finalState (by decide)
  have hp := h smallConfig smallMe w (smallLoad w) hc hl
  revert hp
  decide

end StormStorage
