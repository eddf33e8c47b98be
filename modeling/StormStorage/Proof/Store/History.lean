import StormStorage.Proof.Store.Keys

/-!
# What a request does to the fleet

`serve_effect` says once all that a request of the fleet can do: nothing, a
lease begins or ends, guarded records are written, or the leader key is
created. `FleetInv` is the invariant of the shared store and its history, and
`FleetInv.effect` shows that every effect keeps it.
-/

namespace StormStorage

open KeyMap

variable {S : StoreConfig} {w w' : Fleet} {who : String}

/-! ## Effects -/

/-- A request that the fleet's programs send: a write is guarded by a revision
its sender won. -/
def Sound (S : StoreConfig) (log : List StoreEvent) (who : String) : Etcd.Request → Prop
  | .txn t =>
    (∃ rev metaText chunk, t = syncTxn S rev metaText chunk ∧ Proper chunk ∧ .won who rev ∈ log) ∨
      ∃ lease, t = campaignTxn S who lease
  | _ => True

theorem key_meta_ne : S.key "meta" ≠ S.key "leader" := fun h => absurd (key_inj h) (by decide)

theorem writesRecords_sync (rev : Nat) (metaText : String) (chunk : List Op) :
    S.writesRecords (syncTxn S rev metaText chunk) = true := by
  refine List.any_eq_true.mpr ⟨S.putOp "meta" metaText none, List.mem_append_right _ (List.mem_singleton_self _), ?_⟩
  exact decide_eq_true key_meta_ne

theorem writesRecords_campaign (lease : Nat) : S.writesRecords (campaignTxn S who lease) = false := by
  simp [StoreConfig.writesRecords, campaignTxn, StoreConfig.putOp, Etcd.Op.key]

theorem sound_sync {log : List StoreEvent} {rev : Nat} (metaText : String) {chunk : List Op} (hc : Proper chunk)
    (hw : .won who rev ∈ log) : Sound S log who (.txn (syncTxn S rev metaText chunk)) :=
  .inl ⟨rev, metaText, chunk, rfl, hc, hw⟩

theorem recordOp_inj {e e' : Op} (h : recordOp S e = recordOp S e') : e = e' := by
  cases e with
  | put k v =>
    cases e' with
    | put k' v' =>
      obtain ⟨hk, hv, _⟩ := Etcd.Op.put.inj h
      rw [key_inj hk, hv]
    | delete k' => cases h
  | delete k =>
    cases e' with
    | put k' v' => cases h
    | delete k' => rw [key_inj (Etcd.Op.delete.inj h)]

theorem syncTxn_inj {rev rev' : Nat} {m m' : String} {chunk chunk' : List Op}
    (h : syncTxn S rev m chunk = syncTxn S rev' m' chunk') : rev = rev' ∧ chunk = chunk' := by
  have hg : S.guard rev = S.guard rev' := List.singleton_inj.mp (congrArg Etcd.Txn.compare h)
  have hops := (List.append_inj' (congrArg Etcd.Txn.success h) rfl).1
  exact ⟨congrArg Etcd.Compare.createRevision hg, (List.map_inj_right fun _ _ => recordOp_inj).mp hops⟩

/-- A guarded write is sent under a revision that its sender won. -/
theorem Sound.won {log : List StoreEvent} {rev : Nat} {metaText : String} {chunk : List Op}
    (h : Sound S log who (.txn (syncTxn S rev metaText chunk))) : .won who rev ∈ log := by
  rcases h with ⟨rev', m, chunk', ht, _, hw⟩ | ⟨lease, ht⟩
  · exact (syncTxn_inj ht).1 ▸ hw
  · have hw := congrArg S.writesRecords ht
    rw [writesRecords_sync, writesRecords_campaign] at hw
    cases hw

/-- A request that writes no records. -/
def Plain (S : StoreConfig) (who : String) : Etcd.Request → Prop
  | .txn t => ∃ lease, t = campaignTxn S who lease
  | _ => True

theorem Plain.sound {req : Etcd.Request} (h : Plain S who req) (log : List StoreEvent) : Sound S log who req := by
  cases req with
  | txn t => exact .inr h
  | _ => trivial

theorem Plain.ne_sync {req : Etcd.Request} (h : Plain S who req) (rev : Nat) (metaText : String) (chunk : List Op) :
    req ≠ .txn (syncTxn S rev metaText chunk) := by
  rintro rfl
  obtain ⟨lease, ht⟩ := h
  have hw := congrArg S.writesRecords ht
  rw [writesRecords_sync, writesRecords_campaign] at hw
  cases hw

theorem Sound.mono {log log' : List StoreEvent} {req : Etcd.Request} (h : Sound S log who req)
    (hl : log <+: log') : Sound S log' who req := by
  cases req with
  | txn t =>
    rcases h with ⟨rev, m, chunk, ht, hc, hw⟩ | h
    · exact .inl ⟨rev, m, chunk, ht, hc, hl.subset hw⟩
    · exact .inr h
  | _ => trivial

def Fleet.commit (w : Fleet) (ops : List Etcd.Op) : Fleet := { w with etcd := w.etcd.commit ops }

/-- What a request of `who` makes of the fleet. -/
inductive Effect (S : StoreConfig) (who : String) (req : Etcd.Request) (w : Fleet) : Fleet → Prop
  | none : Effect S who req w w
  | lease (leases : List (Nat × Nat)) (last : Nat) :
      Effect S who req w { w with etcd := { w.etcd with leases := leases, lastLease := last } }
  | ended (id : Nat) : Effect S who req w { w with etcd := w.etcd.endLease id }
  | wrote (rev : Nat) (metaText : String) (chunk : List Op) (hreq : req = .txn (syncTxn S rev metaText chunk))
      (hc : Proper chunk) (hwon : .won who rev ∈ w.log) (hg : w.leaderKey S = rev) :
      Effect S who req w ((w.commit (syncTxn S rev metaText chunk).success).note
        (.wrote {
          «by» := who
          guard := rev
          leader := w.etcd.kvs[S.key "leader"]?
          ops := (syncTxn S rev metaText chunk).success }))
  | won (lease : Nat) (hg : w.leaderKey S = 0) :
      Effect S who req w ((w.commit (campaignTxn S who lease).success).note (.won who (w.etcd.revision + 1)))

theorem commit_revision {e : Etcd.State} {ops : List Etcd.Op} (h : ops.any e.changes = true) :
    (e.commit ops).revision = e.revision + 1 := by
  simp only [Etcd.State.commit, h, ↓reduceIte]

/-- All that a sound request does. -/
theorem serve_effect {req : Etcd.Request} (h : Sound S w.log who req) :
    Effect S who req w (w.serve S who req).1 := by
  cases req with
  | range k => exact .none
  | rangePrefix k => exact .none
  | leaseGrant ttl => exact .lease _ _
  | leaseKeepAlive id => exact .none
  | leaseRevoke id =>
    simp only [Fleet.serve, Etcd.State.handle]
    by_cases hl : w.etcd.live id
    · simp only [hl, ↓reduceIte]
      exact .ended id
    · simp only [hl, Bool.false_eq_true, ↓reduceIte]
      exact .none
  | txn t =>
    by_cases hg : t.compare.all w.etcd.holds
    · by_cases ha : t.success.all w.etcd.accepts
      · simp only [Fleet.serve, Etcd.State.handle, hg, ha, ↓reduceIte]
        rcases h with ⟨rev, m, chunk, rfl, hc, hw⟩ | ⟨lease, rfl⟩
        · have hrev : w.leaderKey S = rev := by
            simpa [syncTxn, Etcd.State.holds, StoreConfig.guard, Fleet.leaderKey] using hg
          simp only [Fleet.eventOf, writesRecords_sync, ↓reduceIte]
          exact .wrote rev m chunk rfl hc hw hrev
        · have hrev : w.leaderKey S = 0 := by
            simpa [campaignTxn, Etcd.State.holds, StoreConfig.guard, Fleet.leaderKey] using hg
          have hr : (w.etcd.commit (campaignTxn S who lease).success).revision = w.etcd.revision + 1 :=
            commit_revision rfl
          simp only [Fleet.eventOf, writesRecords_campaign, Bool.false_eq_true, ↓reduceIte, hr]
          exact .won lease hrev
      · simp only [Fleet.serve, Etcd.State.handle, hg, ha, Bool.false_eq_true, ↓reduceIte]
        exact .none
    · simp only [Fleet.serve, Etcd.State.handle, hg, Bool.false_eq_true, ↓reduceIte]
      exact .none

/-! ## The invariant -/

/-- The values that the writes of a history leave. -/
def replay (log : List StoreEvent) : Reading String :=
  log.foldl (fun r e => match e with
    | .wrote wr => patch (wr.ops.map Etcd.Op.edit) r
    | _ => r) fun _ => none

/-- The records that a load read are those of the history up to some point
after the leader key of `rev` was created: with no state in the store, nothing
had been written by then. -/
def Informed (S : StoreConfig) (name : String) (rev : Nat) (log : List StoreEvent) : Prop :=
  ∃ a b c accepted records, log = a ++ .won name rev :: (b ++ .loaded name accepted records :: c) ∧
    ∃ b', b' <+: b ∧
      (∀ k, k ≠ "leader" → k ≠ "meta" → records[k]? = replay (a ++ .won name rev :: b') (S.key k)) ∧
      (accepted = false → ∀ wr, .wrote wr ∉ a ++ .won name rev :: b')

/-- What holds of the store, its history and every instance at every moment. -/
structure FleetInv (S : StoreConfig) (w : Fleet) : Prop where
  wf : w.etcd.Wf
  pos : 0 < w.etcd.revision
  won_le : ∀ n r, .won n r ∈ w.log → 0 < r ∧ r ≤ w.etcd.revision
  won_inj : ∀ n m r, .won n r ∈ w.log → .won m r ∈ w.log → n = m
  /-- The leader key is its creator's, the last that was created. -/
  holder : ∀ kv, w.etcd.kvs[S.key "leader"]? = some kv →
    ∃ n, .won n kv.createRevision ∈ w.log ∧ kv.value = S.leaderText n ∧
      ∀ m r, .won m r ∈ w.log → r ≤ kv.createRevision
  unleased : ∀ k kv, k ≠ S.key "leader" → w.etcd.kvs[k]? = some kv → kv.lease = none
  held : ∀ n r, (w.inst n).status.leaderRevision = some r → .won n r ∈ w.log
  clean : ∀ n, Clean (w.inst n).written
  late : ∀ l ∈ w.late, Sound S w.log l.by l.req
  writes : ∀ wr, .wrote wr ∈ w.log → .won wr.by wr.guard ∈ w.log ∧
    ∃ kv, wr.leader = some kv ∧ kv.createRevision = wr.guard ∧ kv.value = S.leaderText wr.by
  ordered : ∀ l₁ l₂ n r, w.log = l₁ ++ .won n r :: l₂ →
    (∀ wr, .wrote wr ∈ l₂ → r ≤ wr.guard) ∧ ∀ wr, .wrote wr ∈ l₁ → wr.guard < r
  metaKept : ∀ wr, .wrote wr ∈ w.log → (w.etcd.values (S.key "meta")).isSome
  replayed : ∀ k, k ≠ S.key "leader" → w.etcd.values k = replay w.log k
  informed : ∀ l₁ l₂ n r, w.log = l₁ ++ .leads n r :: l₂ → Informed S n r l₁

/-- An event that is no request's effect; who leads is informed. -/
def Private (S : StoreConfig) (log : List StoreEvent) : StoreEvent → Prop
  | .won .. | .wrote _ => False
  | .leads n r => Informed S n r log
  | _ => True

theorem replay_concat (log : List StoreEvent) (e : StoreEvent) :
    replay (log ++ [e]) = match e with
      | .wrote wr => patch (wr.ops.map Etcd.Op.edit) (replay log)
      | _ => replay log := by
  rw [replay, List.foldl_append]
  cases e <;> rfl

theorem Informed.mono {name : String} {rev : Nat} {log : List StoreEvent} (h : Informed S name rev log)
    (es : List StoreEvent) : Informed S name rev (log ++ es) := by
  obtain ⟨a, b, c, accepted, records, rfl, h⟩ := h
  exact ⟨a, b, c ++ es, accepted, records, by simp, h⟩

/-- A history with one more event splits at the new event or before it. -/
theorem concat_split {α : Type} {l l₁ l₂ : List α} {x y : α} (h : l ++ [x] = l₁ ++ y :: l₂) :
    (y = x ∧ l₁ = l ∧ l₂ = []) ∨ ∃ l₃, l₂ = l₃ ++ [x] ∧ l = l₁ ++ y :: l₃ := by
  rcases List.eq_nil_or_concat l₂ with rfl | ⟨l₃, z, rfl⟩
  · obtain ⟨h₁, h₂⟩ := List.append_inj' h rfl
    exact .inl ⟨(List.singleton_inj.mp h₂).symm, h₁.symm, rfl⟩
  · rw [List.concat_eq_append] at h ⊢
    have h' : l ++ [x] = (l₁ ++ y :: l₃) ++ [z] := by rw [h]; simp
    obtain ⟨h₁, h₂⟩ := List.append_inj' h' rfl
    obtain rfl := List.singleton_inj.mp h₂
    exact .inr ⟨l₃, rfl, h₁⟩

/-- The record writes in `log ++ [e]` are those of `log` when `e` is none. -/
theorem wrote_of_concat {log : List StoreEvent} {e : StoreEvent} {wr : Write} (he : ∀ wr, e ≠ .wrote wr)
    (h : .wrote wr ∈ log ++ [e]) : .wrote wr ∈ log := by
  rcases List.mem_append.mp h with h | h
  · exact h
  · exact absurd (List.mem_singleton.mp h).symm (he wr)

theorem won_of_concat {log : List StoreEvent} {e : StoreEvent} {n : String} {r : Nat}
    (he : ∀ n r, e ≠ .won n r) (h : .won n r ∈ log ++ [e]) : .won n r ∈ log := by
  rcases List.mem_append.mp h with h | h
  · exact h
  · exact absurd (List.mem_singleton.mp h).symm (he n r)

namespace FleetInv

/-- A step that sends nothing: it changes what instances remember, gives a
request up, or notes an event that is no request's effect. -/
theorem memory (h : FleetInv S w) (he : w'.etcd = w.etcd)
    (hlate : ∀ l ∈ w'.late, l ∈ w.late ∨ Sound S w.log l.by l.req)
    (hlog : w'.log = w.log ∨ ∃ e, Private S w.log e ∧ w'.log = w.log ++ [e])
    (hheld : ∀ n r, (w'.inst n).status.leaderRevision = some r → .won n r ∈ w.log)
    (hclean : ∀ n, Clean (w'.inst n).written) : FleetInv S w' := by
  have hsub : w.log <+: w'.log := by
    rcases hlog with hlog | ⟨e, _, hlog⟩
    · exact hlog ▸ List.prefix_refl _
    · exact hlog ▸ List.prefix_append _ _
  have hwon {n : String} {r : Nat} (hn : .won n r ∈ w'.log) : .won n r ∈ w.log := by
    rcases hlog with hlog | ⟨e, hp, hlog⟩
    · rwa [hlog] at hn
    · rw [hlog] at hn
      exact won_of_concat (fun n r hne => by rw [hne] at hp; exact hp) hn
  have hwrote {wr : Write} (hn : .wrote wr ∈ w'.log) : .wrote wr ∈ w.log := by
    rcases hlog with hlog | ⟨e, hp, hlog⟩
    · rwa [hlog] at hn
    · rw [hlog] at hn
      exact wrote_of_concat (fun wr hne => by rw [hne] at hp; exact hp) hn
  exact {
    wf := he ▸ h.wf
    pos := he ▸ h.pos
    won_le := fun n r hn => he ▸ h.won_le n r (hwon hn)
    won_inj := fun n m r hn hm => h.won_inj n m r (hwon hn) (hwon hm)
    holder := by
      intro kv hk
      rw [he] at hk
      obtain ⟨n, hn, hv, hmax⟩ := h.holder kv hk
      exact ⟨n, hsub.subset hn, hv, fun m r hr => hmax m r (hwon hr)⟩
    unleased := fun k kv hk hkv => h.unleased k kv hk (he ▸ hkv)
    held := fun n r hn => hsub.subset (hheld n r hn)
    clean := hclean
    late := by
      intro l hl
      rcases hlate l hl with hl | hl
      · exact (h.late l hl).mono hsub
      · exact hl.mono hsub
    writes := fun wr hwr => ⟨hsub.subset (h.writes wr (hwrote hwr)).1, (h.writes wr (hwrote hwr)).2⟩
    ordered := by
      intro l₁ l₂ n r hl
      rcases hlog with hlog | ⟨e, hp, hlog⟩
      · exact h.ordered l₁ l₂ n r (hlog ▸ hl)
      · rw [hlog] at hl
        rcases concat_split hl with ⟨hne, _⟩ | ⟨l₃, rfl, hlog⟩
        · rw [← hne] at hp
          exact hp.elim
        · obtain ⟨hafter, hbefore⟩ := h.ordered l₁ l₃ n r hlog
          exact ⟨fun wr hwr => hafter wr (wrote_of_concat (fun wr hne => by rw [hne] at hp; exact hp) hwr), hbefore⟩
    metaKept := fun wr hwr => he ▸ h.metaKept wr (hwrote hwr)
    replayed := by
      intro k hk
      rw [he, h.replayed k hk]
      rcases hlog with hlog | ⟨e, hp, hlog⟩
      · rw [hlog]
      · rw [hlog, replay_concat]
        cases e with
        | wrote wr => exact hp.elim
        | _ => rfl
    informed := by
      intro l₁ l₂ n r hl
      rcases hlog with hlog | ⟨e, hp, hlog⟩
      · exact h.informed l₁ l₂ n r (hlog ▸ hl)
      · rw [hlog] at hl
        rcases concat_split hl with ⟨hne, rfl, _⟩ | ⟨l₃, rfl, hlog⟩
        · rw [← hne] at hp
          exact hp
        · exact h.informed l₁ l₃ n r hlog }

/-- The leader key of a revision that was won is its winner's. -/
theorem leader_of_won (h : FleetInv S w) {rev : Nat} (hwon : .won who rev ∈ w.log)
    (hg : w.leaderKey S = rev) :
    ∃ kv, w.etcd.kvs[S.key "leader"]? = some kv ∧ kv.createRevision = rev ∧ kv.value = S.leaderText who ∧
      ∀ m r, .won m r ∈ w.log → r ≤ rev := by
  have hpos := (h.won_le who rev hwon).1
  rw [Fleet.leaderKey, Etcd.State.createRevision] at hg
  cases hk : w.etcd.kvs[S.key "leader"]? with
  | none => rw [hk] at hg; simp at hg; omega
  | some kv =>
    rw [hk] at hg
    simp only [Option.map_some, Option.getD_some] at hg
    obtain ⟨n, hn, hv, hmax⟩ := h.holder kv hk
    rw [hg] at hn hmax
    obtain rfl := h.won_inj n who rev hn hwon
    exact ⟨kv, rfl, hg, hv, hmax⟩

/-- Records are written. -/
theorem wrote (h : FleetInv S w) {rev : Nat} {metaText : String} {chunk : List Op} (hc : Proper chunk)
    (hwon : .won who rev ∈ w.log) (hg : w.leaderKey S = rev) :
    FleetInv S ((w.commit (syncTxn S rev metaText chunk).success).note
      (.wrote {
        «by» := who
        guard := rev
        leader := w.etcd.kvs[S.key "leader"]?
        ops := (syncTxn S rev metaText chunk).success })) := by
  obtain ⟨kv, hkv, hrev, htext, hmax⟩ := h.leader_of_won hwon hg
  have hle := Etcd.State.revision_le_commit w.etcd (syncTxn S rev metaText chunk).success
  have hleader : (w.etcd.commit (syncTxn S rev metaText chunk).success).kvs[S.key "leader"]? =
      w.etcd.kvs[S.key "leader"]? := by
    refine Etcd.State.kv_commit_of_notMem fun hm => ?_
    obtain ⟨o, ho, hk⟩ := List.mem_map.mp hm
    exact write_key hc o ho hk
  have hwon' {n : String} {r : Nat} (hn : .won n r ∈ (w.commit (syncTxn S rev metaText chunk).success).log ++
      [.wrote ⟨who, rev, w.etcd.kvs[S.key "leader"]?, (syncTxn S rev metaText chunk).success⟩]) :
      .won n r ∈ w.log := won_of_concat (by simp) hn
  exact {
    wf := h.wf.commit h.pos _
    pos := Nat.lt_of_lt_of_le h.pos hle
    won_le := fun n r hn => ⟨(h.won_le n r (hwon' hn)).1, Nat.le_trans (h.won_le n r (hwon' hn)).2 hle⟩
    won_inj := fun n m r hn hm => h.won_inj n m r (hwon' hn) (hwon' hm)
    holder := by
      intro kv hk
      rw [note_etcd, Fleet.commit, hleader] at hk
      obtain ⟨n, hn, hv, hm⟩ := h.holder kv hk
      exact ⟨n, List.mem_append_left _ hn, hv, fun m r hr => hm m r (hwon' hr)⟩
    unleased := by
      intro k kv hk hkv
      rcases Etcd.lease_foldl hkv with ⟨v, hv⟩ | hold
      · exact write_lease hv
      · exact h.unleased k kv hk hold
    held := fun n r hn => List.mem_append_left _ (h.held n r hn)
    clean := h.clean
    late := fun l hl => (h.late l hl).mono (List.prefix_append _ _)
    writes := by
      intro wr hwr
      rcases List.mem_append.mp hwr with hwr | hwr
      · exact ⟨List.mem_append_left _ (h.writes wr hwr).1, (h.writes wr hwr).2⟩
      · obtain rfl := StoreEvent.wrote.inj (List.mem_singleton.mp hwr)
        exact ⟨List.mem_append_left _ hwon, kv, hkv, hrev, htext⟩
    ordered := by
      intro l₁ l₂ n r hl
      rcases concat_split hl with ⟨he, _⟩ | ⟨l₃, rfl, hlog⟩
      · cases he
      obtain ⟨hafter, hbefore⟩ := h.ordered l₁ l₃ n r hlog
      refine ⟨fun wr hwr => ?_, hbefore⟩
      rcases List.mem_append.mp hwr with hwr | hwr
      · exact hafter wr hwr
      · obtain rfl := StoreEvent.wrote.inj (List.mem_singleton.mp hwr)
        refine hmax n r ?_
        rw [show w.log = l₁ ++ .won n r :: l₃ from hlog]
        exact List.mem_append_right _ (List.mem_cons_self ..)
    metaKept := by
      intro wr _
      rw [note_etcd, Fleet.commit, Etcd.State.values_commit, meta_write]
      rfl
    replayed := by
      intro k hk
      rw [note_etcd, note_log, replay_concat, Fleet.commit, Etcd.State.values_commit]
      exact patch_congr (h.replayed k hk) _
    informed := by
      intro l₁ l₂ n r hl
      rcases concat_split hl with ⟨he, _⟩ | ⟨l₃, rfl, hlog⟩
      · cases he
      · exact h.informed l₁ l₃ n r hlog }

/-- The leader key is created. -/
theorem won (h : FleetInv S w) (who : String) (lease : Nat) (hg : w.leaderKey S = 0) :
    FleetInv S ((w.commit (campaignTxn S who lease).success).note (.won who (w.etcd.revision + 1))) := by
  have hrev : (w.etcd.commit (campaignTxn S who lease).success).revision = w.etcd.revision + 1 :=
    commit_revision rfl
  have hnone : w.etcd.kvs[S.key "leader"]? = none := by
    rw [Option.eq_none_iff_forall_ne_some]
    intro kv hk
    have hpos := (h.wf _ kv hk).1
    rw [Fleet.leaderKey, Etcd.State.createRevision, hk] at hg
    simp only [Option.map_some, Option.getD_some] at hg
    omega
  have hkv {k : String} : (w.etcd.commit (campaignTxn S who lease).success).kvs[k]? =
      if S.key "leader" = k then some ⟨S.leaderText who, w.etcd.revision + 1, w.etcd.revision + 1, some lease⟩
      else w.etcd.kvs[k]? := by
    refine (get_insert _ _ _ _).trans ?_
    rw [hnone]
    rfl
  have hold {n : String} {r : Nat} (hn : .won n r ∈ w.log ++ [.won who (w.etcd.revision + 1)]) :
      .won n r ∈ w.log ∨ n = who ∧ r = w.etcd.revision + 1 := by
    rcases List.mem_append.mp hn with hn | hn
    · exact .inl hn
    · cases List.mem_singleton.mp hn
      exact .inr ⟨rfl, rfl⟩
  exact {
    wf := h.wf.commit h.pos _
    pos := Nat.lt_of_lt_of_le h.pos (Etcd.State.revision_le_commit _ _)
    won_le := by
      intro n r hn
      rw [note_etcd, Fleet.commit, hrev]
      rcases hold hn with hn | ⟨_, rfl⟩
      · have := h.won_le n r hn
        omega
      · omega
    won_inj := by
      intro n m r hn hm
      rcases hold hn with hn | ⟨hn, hnr⟩
      · rcases hold hm with hm | ⟨_, hmr⟩
        · exact h.won_inj n m r hn hm
        · have := (h.won_le n r hn).2
          omega
      · rcases hold hm with hm | ⟨hm, _⟩
        · have := (h.won_le m r hm).2
          omega
        · rw [hn, hm]
    holder := by
      intro kv hk
      rw [note_etcd, Fleet.commit, hkv, if_pos rfl] at hk
      cases hk
      refine ⟨who, List.mem_append_right _ (List.mem_singleton_self _), rfl, fun m r hr => ?_⟩
      rcases hold hr with hr | ⟨_, rfl⟩
      · exact Nat.le_succ_of_le (h.won_le m r hr).2
      · exact Nat.le_refl _
    unleased := by
      intro k kv hk he
      rw [note_etcd, Fleet.commit, hkv, if_neg (Ne.symm hk)] at he
      exact h.unleased k kv hk he
    held := fun n r hn => List.mem_append_left _ (h.held n r hn)
    clean := h.clean
    late := fun l hl => (h.late l hl).mono (List.prefix_append _ _)
    writes := by
      intro wr hwr
      have hwr := wrote_of_concat (by simp) hwr
      exact ⟨List.mem_append_left _ (h.writes wr hwr).1, (h.writes wr hwr).2⟩
    ordered := by
      intro l₁ l₂ n r hl
      rcases concat_split hl with ⟨he, hl₁, rfl⟩ | ⟨l₃, rfl, hlog⟩
      · obtain ⟨rfl, rfl⟩ := StoreEvent.won.inj he
        refine ⟨fun wr hwr => absurd hwr (List.not_mem_nil), fun wr hwr => ?_⟩
        rw [hl₁] at hwr
        exact Nat.lt_succ_of_le (h.won_le _ _ (h.writes wr hwr).1).2
      · obtain ⟨hafter, hbefore⟩ := h.ordered l₁ l₃ n r hlog
        exact ⟨fun wr hwr => hafter wr (wrote_of_concat (by simp) hwr), hbefore⟩
    metaKept := by
      intro wr hwr
      rw [note_etcd, Fleet.commit, Etcd.State.values, hkv, if_neg key_meta_ne.symm]
      exact h.metaKept wr (wrote_of_concat (by simp) hwr)
    replayed := by
      intro k hk
      rw [note_etcd, note_log, replay_concat, Fleet.commit, Etcd.State.values, hkv, if_neg (Ne.symm hk)]
      exact h.replayed k hk
    informed := by
      intro l₁ l₂ n r hl
      rcases concat_split hl with ⟨he, _⟩ | ⟨l₃, rfl, hlog⟩
      · cases he
      · exact h.informed l₁ l₃ n r hlog }

/-- A lease ends: only the leader key may go. -/
theorem ended (h : FleetInv S w) (id : Nat) : FleetInv S { w with etcd := w.etcd.endLease id } := by
  have hle := Etcd.State.revision_le_endLease w.etcd id
  have hsub {k : String} {kv : Etcd.Kv} (hk : (w.etcd.endLease id).kvs[k]? = some kv) :
      w.etcd.kvs[k]? = some kv := by
    rw [Etcd.State.kv_endLease, Option.filter_eq_some_iff] at hk
    exact hk.1
  have hkept {k : String} (hk : k ≠ S.key "leader") : (w.etcd.endLease id).values k = w.etcd.values k := by
    rw [Etcd.State.values, Etcd.State.values, Etcd.State.kv_endLease]
    cases hkv : w.etcd.kvs[k]? with
    | none => rfl
    | some kv => rw [Option.filter_some, h.unleased k kv hk hkv]; rfl
  exact { h with
    wf := h.wf.endLease id
    pos := Nat.lt_of_lt_of_le h.pos hle
    won_le := fun n r hn => ⟨(h.won_le n r hn).1, Nat.le_trans (h.won_le n r hn).2 hle⟩
    holder := fun kv hk => h.holder kv (hsub hk)
    unleased := fun k kv hk hkv => h.unleased k kv hk (hsub hkv)
    metaKept := fun wr hwr => (hkept key_meta_ne) ▸ h.metaKept wr hwr
    replayed := fun k hk => (hkept hk).trans (h.replayed k hk) }

/-- Every effect of a request keeps the invariant. -/
theorem effect (h : FleetInv S w) {req : Etcd.Request} (he : Effect S who req w w') : FleetInv S w' := by
  cases he with
  | none => exact h
  | lease leases last => exact { h with wf := h.wf }
  | ended id => exact h.ended id
  | wrote rev metaText chunk hreq hc hwon hg => exact h.wrote hc hwon hg
  | won lease hg => exact h.won who lease hg

end FleetInv

/-! ## What an effect leaves -/

/-- A chunk that takes effect edits the records. -/
theorem reading_commit {rev : Nat} {metaText : String} {chunk : List Op} (hc : Proper chunk) (e : StoreEvent) :
    reading (((w.commit (syncTxn S rev metaText chunk).success).note e).records S) =
      patch chunk (reading (w.records S)) := by
  have hvalues : ∀ k, ((w.commit (syncTxn S rev metaText chunk).success).note e).etcd.values k =
      patch ((syncTxn S rev metaText chunk).success.map Etcd.Op.edit) w.etcd.values k :=
    congrFun (Etcd.State.values_commit w.etcd _)
  funext k
  by_cases hl : k = "leader"
  · rw [patch_of_notMem, reading, reading, records_reserved _ (.inl hl), records_reserved _ (.inl hl)]
    intro hm
    obtain ⟨e, he, hk⟩ := List.mem_map.mp hm
    exact (hc e he).1 (hk.trans hl)
  by_cases hm : k = "meta"
  · rw [patch_of_notMem, reading, reading, records_reserved _ (.inr hm), records_reserved _ (.inr hm)]
    intro hm'
    obtain ⟨e, he, hk⟩ := List.mem_map.mp hm'
    exact (hc e he).2 (hk.trans hm)
  rw [reading, records_get _ hl hm, hvalues, values_write _ hm]
  exact patch_congr (records_get w hl hm).symm _

/-- A write that is answered with success took effect. -/
theorem serve_true {rev created : Nat} {metaText : String} {chunk : List Op} {found : List (String × Etcd.Kv)}
    (hc : Proper chunk) (h : (w.serve S who (.txn (syncTxn S rev metaText chunk))).2 = .ok (.txn true created found)) :
    reading ((w.serve S who (.txn (syncTxn S rev metaText chunk))).1.records S) =
      patch chunk (reading (w.records S)) := by
  simp only [Fleet.serve, Etcd.State.handle] at h ⊢
  by_cases hg : (syncTxn S rev metaText chunk).compare.all w.etcd.holds
  · by_cases ha : (syncTxn S rev metaText chunk).success.all w.etcd.accepts
    · simp only [hg, ha, ↓reduceIte]
      exact reading_commit hc _
    · simp only [hg, ha, Bool.false_eq_true, ↓reduceIte, reduceCtorEq] at h
  · simp only [hg, Bool.false_eq_true, ↓reduceIte, Except.ok.injEq, Etcd.Answer.txn.injEq, false_and] at h

/-- A campaign that is answered with success created the leader key. -/
theorem serve_campaign {lease created : Nat} {found : List (String × Etcd.Kv)}
    (h : (w.serve S who (.txn (campaignTxn S who lease))).2 = .ok (.txn true created found)) :
    .won who created ∈ (w.serve S who (.txn (campaignTxn S who lease))).1.log := by
  simp only [Fleet.serve, Etcd.State.handle] at h ⊢
  by_cases hg : (campaignTxn S who lease).compare.all w.etcd.holds
  · by_cases ha : (campaignTxn S who lease).success.all w.etcd.accepts
    · simp only [hg, ha, ↓reduceIte, Except.ok.injEq, Etcd.Answer.txn.injEq] at h ⊢
      rw [note_log, Fleet.eventOf, writesRecords_campaign, h.2.1]
      exact List.mem_append_right _ (List.mem_singleton_self _)
    · simp only [hg, ha, Bool.false_eq_true, ↓reduceIte, reduceCtorEq] at h
  · simp only [hg, Bool.false_eq_true, ↓reduceIte, Except.ok.injEq, Etcd.Answer.txn.injEq, false_and] at h

namespace Effect

variable {req : Etcd.Request}

theorem inst (he : Effect S who req w w') : w'.inst = w.inst := by cases he <;> rfl

theorem late (he : Effect S who req w w') : w'.late = w.late := by cases he <;> rfl

theorem log (he : Effect S who req w w') : w.log <+: w'.log := by
  cases he with
  | wrote => exact List.prefix_append _ _
  | won => exact List.prefix_append _ _
  | _ => exact List.prefix_refl _

/-- A history grows by what took effect. -/
theorem mem_log (he : Effect S who req w w') {e : StoreEvent} (hm : e ∈ w'.log) :
    e ∈ w.log ∨ (∃ wr, e = .wrote wr) ∨ ∃ n r, e = .won n r := by
  cases he with
  | wrote =>
    rcases List.mem_append.mp hm with hm | hm
    · exact .inl hm
    · exact .inr (.inl ⟨_, List.mem_singleton.mp hm⟩)
  | won =>
    rcases List.mem_append.mp hm with hm | hm
    · exact .inl hm
    · exact .inr (.inr ⟨_, _, List.mem_singleton.mp hm⟩)
  | _ => exact .inl hm

theorem createRevision_commit_ne {e : Etcd.State} {ops : List Etcd.Op} {k : String} (h : ∀ o ∈ ops, o.key ≠ k) :
    (e.commit ops).createRevision k = e.createRevision k := by
  rw [Etcd.State.createRevision, Etcd.State.createRevision, Etcd.State.kv_commit_of_notMem]
  intro hm
  obtain ⟨o, ho, hk⟩ := List.mem_map.mp hm
  exact h o ho hk

/-- A revision that was won is the leader key's after an effect only if it was before. -/
theorem leaderKey (h : FleetInv S w) (he : Effect S who req w w') {n : String} {r : Nat}
    (hwon : .won n r ∈ w.log) (hr : w'.leaderKey S = r) : w.leaderKey S = r := by
  cases he with
  | none => exact hr
  | lease => exact hr
  | ended id =>
    rw [Fleet.leaderKey, Etcd.State.createRevision, Etcd.State.kv_endLease] at hr
    rw [Fleet.leaderKey, Etcd.State.createRevision]
    cases hk : w.etcd.kvs[S.key "leader"]? with
    | none => rw [hk] at hr; exact hr
    | some kv =>
      rw [hk, Option.filter_some] at hr
      split at hr
      · exact hr
      · have := (h.won_le n r hwon).1
        simp only [Option.map_none, Option.getD_none] at hr
        omega
  | wrote rev metaText chunk hreq hc hw hg =>
    exact (createRevision_commit_ne (write_key hc)).symm.trans hr
  | won lease hg =>
    have hle := (h.won_le n r hwon).2
    have hw := FleetInv.won h who lease hg
    obtain ⟨kv, hkv, hcr, _⟩ := hw.leader_of_won (List.mem_append_left _ hwon) hr
    rw [note_etcd, Fleet.commit] at hkv
    rcases Etcd.State.created_foldl hkv with hnew | ⟨kv₀, hkv₀, hcr₀⟩
    · rw [show (campaignTxn S who lease).success.any w.etcd.changes = true from rfl, if_pos rfl] at hnew
      omega
    · rw [Fleet.leaderKey, Etcd.State.createRevision, hkv₀]
      exact hcr₀.trans hcr

/-- The records change by a chunk, or not at all. -/
theorem records (h : FleetInv S w) (he : Effect S who req w w') :
    (w'.records S = w.records S ∧ w'.etcd.values (S.key "meta") = w.etcd.values (S.key "meta")) ∨
    ∃ rev metaText chunk, req = .txn (syncTxn S rev metaText chunk) ∧ .won who rev ∈ w.log ∧
      w.leaderKey S = rev ∧ (∃ wr, w'.log = w.log ++ [.wrote wr]) ∧
      reading (w'.records S) = patch chunk (reading (w.records S)) := by
  have hsame (hv : ∀ k, k ≠ S.key "leader" → w'.etcd.values k = w.etcd.values k) :
      w'.records S = w.records S ∧ w'.etcd.values (S.key "meta") = w.etcd.values (S.key "meta") :=
    ⟨records_congr hv, hv _ key_meta_ne⟩
  cases he with
  | none => exact .inl ⟨rfl, rfl⟩
  | lease => exact .inl ⟨rfl, rfl⟩
  | ended id =>
    refine .inl (hsame fun k hk => ?_)
    exact ((h.ended id).replayed k hk).trans (h.replayed k hk).symm
  | won lease hg =>
    refine .inl (hsame fun k hk => ?_)
    refine ((FleetInv.won h who lease hg).replayed k hk).trans ?_
    rw [note_log, replay_concat]
    exact (h.replayed k hk).symm
  | wrote rev metaText chunk hreq hc hw hg =>
    exact .inr ⟨rev, metaText, chunk, hreq, hw, hg, ⟨_, rfl⟩, reading_commit hc _⟩

end Effect

end StormStorage
