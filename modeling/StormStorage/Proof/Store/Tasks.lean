import StormStorage.Proof.Store.Discipline

/-!
# Every program of the fleet keeps the discipline

One lemma for each program: `sync_safe`, `load_safe`, `campaign_safe`,
`follow_safe`, `renew_safe`, `step_safe`; and `env_kept` for what happens by
itself. `fleet_kept` puts them together: what the discipline's invariant says
holds in every run.
-/

namespace StormStorage

open Await Task KeyMap

variable {S : StoreConfig} {quiet neat : Prop} {me : Me}

/-! ## The chunks of a sync -/

/-- The chunks are the whole, in order. -/
theorem chunks_flatten {α : Type} (xs : List α) : (chunks txnOps xs).flatten = xs :=
  chunksFrom_flatten (by decide) (Nat.le_refl _)

/-- What one transaction carries is one chunk. -/
theorem chunks_whole {α : Type} {n : Nat} {xs : List α} (h : xs.length ≤ n) :
    ∀ chunk ∈ chunks n xs, chunk = xs := by
  intro chunk hc
  cases xs with
  | nil => cases hc
  | cons x xs =>
    rw [chunks_of_length_le h] at hc
    exact List.mem_singleton.mp hc

theorem Clean.applyMap {m : Records} (h : Clean m) {chunk : List Op} (hc : Proper chunk) :
    Clean (chunk.foldl (fun m e => e.applyMap m) m) := by
  have hkept {k : String} (hk : k ∉ chunk.map Edit.key) :
      (chunk.foldl (fun m e => e.applyMap m) m)[k]? = m[k]? :=
    (congrFun (reading_foldl_applyMap chunk m) k).trans (patch_of_notMem hk _)
  constructor
  · refine (hkept fun hm => ?_).trans h.1
    obtain ⟨e, he, hk⟩ := List.mem_map.mp hm
    exact (hc e he).1 hk
  · refine (hkept fun hm => ?_).trans h.2
    obtain ⟨e, he, hk⟩ := List.mem_map.mp hm
    exact (hc e he).2 hk

/-! ## Writing -/

namespace Me

/-- A sync has read its state and sent `done`: what this instance knows to be
written, and what the store's records read while it leads. -/
structure Syncing (S : StoreConfig) (quiet : Prop) (me : Me) (t : Took) (done : List Op)
    (R : Reading String → Prop) (w : Fleet) : Prop where
  took : .took t ∈ w.log
  won : .won me.name t.rev ∈ w.log
  holds : me.Holds (done.foldl (fun m e => e.applyMap m) t.written) w
  store : quiet → me.alive w → w.leaderKey S = t.rev → R (reading (w.records S))

variable {t : Took} {done : List Op} {R : Reading String → Prop} {w : Fleet}

theorem stable_syncing (me : Me) (t : Took) (done : List Op) (R : Reading String → Prop) :
    (storeDiscipline S quiet neat).Stable me.task (Syncing S quiet me t done R) := by
  intro w w' u hu hi hi' hg h
  refine ⟨hg.log.subset h.took, hg.log.subset h.won, stable_holds me _ w w' u hu hi hi' hg h.holds, ?_⟩
  intro q ha hr
  obtain ⟨ha₀, _⟩ := alive_of_guar hg h.holds.life ha
  obtain ⟨hr₀, hsame⟩ := hg.store me.name t.rev h.won hr
  have hheld := (h.holds.lock ha₀).1
  rcases hsame q with hsame | hnone | ⟨t', hu', ht'⟩
  · rw [hsame]
    exact h.store q ha₀ hr₀
  · rw [hheld] at hnone
    cases hnone
  · rw [hheld] at ht'
    exact absurd (hu'.trans ht'.symm) hu

theorem finish_safe {w : Fleet} (hi : (storeDiscipline S quiet neat).inv w)
    (h : Syncing S quiet me t (t.ops S) (· = patch (t.ops S) (reading t.stored)) w) :
    (me.finish S t).Safe (storeDiscipline S quiet neat) me.task (fun _ _ => True) w := by
  refine Safe.await (stable_syncing me t _ _) (fun _ => Discipline.stable_const _) (fun w _ hi h ha _ => ?_) hi h
  have hfair : Fair S quiet neat w.log (.synced t (w.records S) (w.leaderKey S = t.rev)) := by
    by_cases hr : w.leaderKey S = t.rev
    · rw [decide_eq_true hr]
      intro q
      have hstore := h.store q ha hr
      constructor
      · intro he
        exact Took.noRevert_of_patch (hstore.symm.trans (congrArg reading he))
      · intro hn
        exact KeyMap.ext fun k => congrFun (hstore.trans (Took.patch_ops hn)) k
    · rw [decide_eq_false hr]
      trivial
  have hkept : Kept (some me.task) me.name w.log (w.inst me.name) { w.inst me.name with held := none } := by
    refine ⟨Nat.le_refl _, fun t' ht' hne => ?_, fun _ h => .inl h, id⟩
    rw [(h.holds.lock ha).1] at ht'
    exact absurd ht' hne
  exact ⟨note_kept hi hfair hkept, trivial⟩

/-- One chunk is sent: after an answer of success the store holds it. -/
theorem chunk_safe (hnq : neat → quiet) (hwhole : neat → t.Whole S) {metaText : String} {chunk : List Op}
    (hc : Proper chunk) (hone : neat → chunk = t.ops S)
    (hdone : neat → patch (t.ops S) (patch done (reading t.stored)) = patch (t.ops S) (reading t.stored))
    (hi : (storeDiscipline S quiet neat).inv w)
    (h : Syncing S quiet me t done (· = patch done (reading t.stored)) w) :
    (me.call S (.txn (syncTxn S t.rev metaText chunk))).Safe (storeDiscipline S quiet neat) me.task
      (fun x w => match x with
        | .ok a => Syncing S quiet me t done (fun r => r = patch done (reading t.stored) ∨
            r = patch (done ++ chunk) (reading t.stored)) w ∧
          ∀ metaRev found, a = .txn true metaRev found →
            Syncing S quiet me t done (· = patch (done ++ chunk) (reading t.stored)) w
        | .error _ => Syncing S quiet me t done (fun r => r = patch done (reading t.stored) ∨
            r = patch (done ++ chunk) (reading t.stored)) w) w := by
  have hpatch {r : Reading String} (hr : r = patch done (reading t.stored) ∨
      r = patch (done ++ chunk) (reading t.stored)) : patch chunk r = patch (done ++ chunk) (reading t.stored) := by
    rcases hr with rfl | rfl
    · rw [patch_append]
    · rw [patch_append, patch_patch]
  have hsight {w : Fleet} (n : neat) (h : Syncing S quiet me t done (fun r => r = patch done (reading t.stored) ∨
      r = patch (done ++ chunk) (reading t.stored)) w) (ha : me.alive w) (hr : w.leaderKey S = t.rev) :
      reading (recordsOf S.codecs t.fed) = patch chunk (reading (w.records S)) := by
    rw [hpatch (h.store (hnq n) ha hr), patch_append, hone n, hdone n, Took.patch_ops (hwhole n).noRevert]
  refine callFrom_safe (Q := fun a w => Syncing S quiet me t done (fun r => r = patch done (reading t.stored) ∨
      r = patch (done ++ chunk) (reading t.stored)) w ∧
        ∀ metaRev found, a = .txn true metaRev found →
          Syncing S quiet me t done (· = patch (done ++ chunk) (reading t.stored)) w)
    (stable_syncing me t done _) (fun a => (stable_syncing me t done _).and ?_)
    (fun w h => sound_sync metaText hc h.won) (fun w hi h ha heff => ?_)
    (fun n w hi h ha rev m c hreq hrev => ?_) _ _ hi
    ⟨h.took, h.won, h.holds, fun q ha hr => .inl (h.store q ha hr)⟩
  · intro w w' u hu hi hi' hg h metaRev found hx
    exact stable_syncing me t done _ w w' u hu hi hi' hg (h metaRev found hx)
  · have hlocked (hr : w.leaderKey S = t.rev) {n : String} (hn : .won n (w.leaderKey S) ∈ w.log) :
        (w.inst n).held = some me.task := by
      obtain rfl := hi.1.won_inj n me.name t.rev (hr ▸ hn) h.won
      exact (h.holds.lock ha).1
    have hkept : (storeDiscipline S quiet neat).inv (w.serve S me.name (.txn (syncTxn S t.rev metaText chunk))).1 ∧
        Guar S quiet (some me.task) w (w.serve S me.name (.txn (syncTxn S t.rev metaText chunk))).1 := by
      refine serve_kept hi heff (fun q => ?_) (fun n rev m c hreq hrev _ => ?_)
      · rcases heff.records hi.1 with ⟨hsame, _⟩ | ⟨rev, m, c, hreq, _, hrev, _⟩
        · exact .inl hsame
        · obtain rfl := (syncTxn_inj (Etcd.Request.txn.inj hreq)).1
          exact .inr fun n hn => .inr ⟨me.task, rfl, hlocked hrev hn⟩
      · obtain ⟨rfl, rfl⟩ := syncTxn_inj (Etcd.Request.txn.inj hreq)
        exact ⟨_, hsight n h ha hrev, t, h.took, rfl⟩
    have hafter {R : Reading String → Prop} (hR : quiet → w.leaderKey S = t.rev →
        R (reading ((w.serve S me.name (.txn (syncTxn S t.rev metaText chunk))).1.records S))) :
        Syncing S quiet me t done R (w.serve S me.name (.txn (syncTxn S t.rev metaText chunk))).1 :=
      ⟨heff.log.subset h.took, heff.log.subset h.won,
        ⟨by rw [heff.inst]; exact h.holds.life, fun _ => by rw [heff.inst]; exact h.holds.lock ha⟩,
        fun q _ hr => hR q (heff.leaderKey hi.1 h.won hr)⟩
    have hstep : Syncing S quiet me t done (fun r => r = patch done (reading t.stored) ∨
        r = patch (done ++ chunk) (reading t.stored)) (w.serve S me.name (.txn (syncTxn S t.rev metaText chunk))).1 := by
      refine hafter fun q hr => ?_
      rcases heff.records hi.1 with ⟨hsame, _⟩ | ⟨rev, m, c, hreq, _, _, _, hrec⟩
      · rw [hsame]
        exact h.store q ha hr
      · obtain ⟨rfl, rfl⟩ := syncTxn_inj (Etcd.Request.txn.inj hreq)
        exact .inr (hrec.trans (hpatch (h.store q ha hr)))
    refine ⟨hkept, hstep, fun a hans => ⟨hstep, ?_⟩⟩
    rintro metaRev found rfl
    exact hafter fun q hr => (serve_true hc hans).trans (hpatch (h.store q ha hr))
  · obtain ⟨rfl, rfl⟩ := syncTxn_inj (Etcd.Request.txn.inj hreq)
    exact ⟨_, hsight n h ha hrev, t, h.took, rfl⟩

/-- After its own chunk, what this instance knows to be written. -/
theorem wrote_safe {chunk : List Op} {metaRev : Nat} (hc : Proper chunk)
    (hi : (storeDiscipline S quiet neat).inv w)
    (h : Syncing S quiet me t done (· = patch (done ++ chunk) (reading t.stored)) w) :
    (me.update (wrote chunk metaRev)).Safe (storeDiscipline S quiet neat) me.task
      (fun _ w => Syncing S quiet me t (done ++ chunk) (· = patch (done ++ chunk) (reading t.stored)) w) w := by
  refine update_safe (stable_syncing me t done _) (stable_syncing me t (done ++ chunk) _)
    (fun w _ h ha => ⟨⟨Nat.le_refl _, fun t' ht' hne => ?_, fun _ h => .inl h, fun hcl => hcl.applyMap hc⟩, ?_⟩) hi h
  · rw [(h.holds.lock ha).1] at ht'
    exact absurd ht' hne
  · obtain ⟨hheld, hw⟩ := h.holds.lock ha
    refine ⟨h.took, h.won, ⟨?_, fun _ => ⟨?_, ?_⟩⟩, fun q _ hr => h.store q ha hr⟩
    · rw [setInst_self]
      exact h.holds.life
    · rw [setInst_self]
      exact hheld
    · rw [setInst_self, wrote, hw, List.foldl_append]

/-- `written` is let go and the error reported. -/
theorem giveUp_safe {written : Records} {α : Type} (e : String) (hi : (storeDiscipline S quiet neat).inv w)
    (h : me.Holds written w) :
    (me.unlock.bind fun _ => (.fail e : Job α)).Safe (storeDiscipline S quiet neat) me.task (fun _ _ => True) w := by
  refine Safe.bind hi (unlock_safe (P := fun _ => True) (fun _ _ _ _ => trivial) hi h trivial) ?_ fun _ _ _ => trivial
  exact fun _ w hi _ => Safe.fail (Discipline.stable_const True) (fun _ _ _ => trivial) hi trivial

theorem syncChunks_safe (hnq : neat → quiet) (hwhole : neat → t.Whole S) (metaText : String)
    {rest : List (List Op)} (hsplit : done ++ rest.flatten = t.ops S) (hc : ∀ chunk ∈ rest, Proper chunk)
    (hone : neat → ∀ chunk ∈ rest, chunk = t.ops S)
    (hdone : neat → patch (t.ops S) (patch done (reading t.stored)) = patch (t.ops S) (reading t.stored))
    {w : Fleet} (hi : (storeDiscipline S quiet neat).inv w)
    (h : Syncing S quiet me t done (· = patch done (reading t.stored)) w) :
    (me.syncChunks S t metaText rest).Safe (storeDiscipline S quiet neat) me.task (fun _ _ => True) w := by
  induction rest generalizing done w with
  | nil =>
    rw [List.flatten_nil, List.append_nil] at hsplit
    subst hsplit
    exact finish_safe hi h
  | cons chunk rest ih =>
    have hchunk := hc chunk (List.mem_cons_self ..)
    have hone' : neat → chunk = t.ops S := fun n => hone n chunk (List.mem_cons_self ..)
    refine Safe.bind hi (Safe.attempt (chunk_safe hnq hwhole hchunk hone' hdone hi h)
      (R := fun x w => ∀ y, x = .ok y → me.Holds (done.foldl (fun m e => e.applyMap m) t.written) w ∧
        ∀ metaRev found, y = .ok (.txn true metaRev found) →
          Syncing S quiet me t done (· = patch (done ++ chunk) (reading t.stored)) w) ?_) ?_ fun _ _ _ => trivial
    · rintro x w hx y hy
      obtain rfl := Except.ok.inj hy
      cases x with
      | ok a => exact ⟨hx.1.holds, fun metaRev found ha => hx.2 metaRev found (Except.ok.inj ha)⟩
      | error e => exact ⟨hx.holds, nofun⟩
    · intro y w hi hq
      obtain ⟨hh, hok⟩ := hq y rfl
      split
      · refine Safe.bind hi (updateStatus_safe (stable_holds me _) (by exact fun s r h => h) hi hh) ?_ fun _ _ _ => trivial
        exact fun _ w hi hh => giveUp_safe _ hi hh
      · rename_i metaRev found
        refine Safe.bind hi (wrote_safe hchunk hi (hok metaRev found rfl)) ?_ fun _ _ _ => trivial
        intro _ w hi h
        refine ih ?_ (fun c hm => hc c (List.mem_cons_of_mem _ hm))
          (fun n c hm => hone n c (List.mem_cons_of_mem _ hm)) (fun n => ?_) hi h
        · rw [← hsplit, List.flatten_cons, List.append_assoc]
        · rw [patch_append, hone' n, hdone n, patch_patch]
      · refine Safe.bind hi (unlock_safe (P := fun _ => True) (fun _ _ _ _ => trivial) hi hh trivial) ?_
          fun _ _ _ => trivial
        intro _ w hi _
        refine Safe.bind hi (updateStatus_safe (Discipline.stable_const True) (fun s r h => by cases h) hi trivial) ?_
          fun _ _ _ => trivial
        exact fun _ w hi _ => Safe.fail (Discipline.stable_const True) (fun _ _ _ => trivial) hi trivial

theorem proper_ops (hc : Clean t.written) : Proper (t.ops S) :=
  fun _ he => hc.diff_key (clean_recordsOf S.codecs t.fed) he

theorem syncLocked_safe (hnq : neat → quiet) {rev : Nat} {written : Records} (hclean : Clean written)
    {w : Fleet} (hi : (storeDiscipline S quiet neat).inv w) (hh : me.Holds written w)
    (hwon : .won me.name rev ∈ w.log) :
    (me.syncLocked S rev written).Safe (storeDiscipline S quiet neat) me.task (fun _ _ => True) w := by
  refine Safe.bind hi (Safe.await ((stable_holds me written).and (stable_mem (.won me.name rev)))
    (Q := fun x w => ∀ t now, x = .ok (t, now) → t.written = written ∧ t.rev = rev ∧ (neat → t.Whole S) ∧
      Syncing S quiet me t [] (· = reading t.stored) w) ?_ ?_ hi ⟨hh, hwon⟩) ?_ fun _ _ _ => trivial
  · intro a w w' u hu hi hi' hg h t now hx
    obtain ⟨hw, hr, hn, hs⟩ := h t now hx
    exact ⟨hw, hr, hn, stable_syncing me t [] _ w w' u hu hi hi' hg hs⟩
  · intro w ch hi ⟨hh, hwon⟩ ha hok
    have hfair (t : Took) : Fair S quiet neat w.log (.took t) := trivial
    refine ⟨memory_kept _ hi rfl (fun _ => .inl) (.inr ⟨_, hfair _, rfl⟩) (fun n => .refl n _ _), fun t now hx => ?_⟩
    obtain ⟨rfl, rfl⟩ := Prod.mk.inj (Except.ok.inj hx)
    refine ⟨rfl, rfl, fun n => (hok.2 n).2 _ (List.mem_append_right _ (List.mem_singleton_self _)), ?_⟩
    exact ⟨List.mem_append_right _ (List.mem_singleton_self _), List.mem_append_left _ hwon,
      ⟨hh.life, hh.lock⟩, fun _ _ _ => rfl⟩
  · rintro ⟨t, now⟩ w hi hq
    obtain ⟨rfl, rfl, hn, hs⟩ := hq t now rfl
    have hproper : Proper (t.ops S) := proper_ops hclean
    dsimp only
    split
    · rename_i hnil
      have hops : t.ops S = [] := List.isEmpty_iff.mp hnil
      refine finish_safe hi ?_
      rw [hops]
      exact hs
    · have hflat : [] ++ (chunks txnOps (t.ops S)).flatten = t.ops S := chunks_flatten (t.ops S)
      refine syncChunks_safe hnq hn _ hflat (fun chunk hm e he => ?_)
        (fun n => chunks_whole (hn n).ops_le) (fun _ => rfl) hi hs
      refine hproper e ?_
      rw [← hflat]
      exact List.mem_flatten.mpr ⟨chunk, hm, he⟩

theorem sync_safe (hnq : neat → quiet) {w : Fleet} (hi : (storeDiscipline S quiet neat).inv w) :
    (me.sync S).Safe (storeDiscipline S quiet neat) me.task (fun _ _ => True) w := by
  refine Safe.bind hi (read_safe (Q := fun r w => ∀ rev, r = some rev → .won me.name rev ∈ w.log)
    (Discipline.stable_const True) (fun r => ?_) (fun w hi _ _ rev hr => ?_) hi trivial) ?_ fun _ _ _ => trivial
  · intro w w' u hu hi hi' hg h rev hr
    exact hg.log.subset (h rev hr)
  · split at hr
    · exact hi.1.held me.name rev hr
    · cases hr
  · intro r w hi hq
    cases r with
    | none => exact Safe.ret (Discipline.stable_const True) (fun _ _ _ => trivial) hi trivial
    | some rev =>
      refine Safe.bind hi (lock_safe (stable_mem (.won me.name rev)) hi (hq.2 rev rfl)) ?_ fun _ _ _ => trivial
      intro written w hi hq
      obtain ⟨hclean, hh⟩ := hq.2 written rfl
      exact syncLocked_safe hnq hclean hi hh hq.1

end Me

/-! ## Loading -/

/-- What a range of the prefix found when the history was `log`. -/
structure Seen (S : StoreConfig) (neat : Prop) (log : List StoreEvent) (kvs : List (String × Etcd.Kv)) : Prop where
  records : ∀ k, k ≠ "leader" → k ≠ "meta" → (recordsIn S.keyPrefix kvs)[k]? = replay log (S.key k)
  empty : (kvs.find? fun p => stripPrefix S.keyPrefix p.1 = some "meta") = none → ∀ wr, .wrote wr ∉ log
  sighted : neat → (kvs.find? fun p => stripPrefix S.keyPrefix p.1 = some "meta") ≠ none →
    Sighted S log (recordsIn S.keyPrefix kvs)

theorem seen_findPrefix {w : Fleet} (hi : (storeDiscipline S quiet neat).inv w) :
    Seen S neat w.log (w.etcd.findPrefix S.keyPrefix) := by
  refine ⟨fun k hl hm => ?_, fun hnone wr hwr => ?_, fun n hsome => ?_⟩
  · exact (records_get w hl hm).trans (hi.1.replayed _ fun he => hl (key_inj he))
  · obtain ⟨v, hv⟩ := Option.isSome_iff_exists.mp (hi.1.metaKept wr hwr)
    obtain ⟨kv, hkv, _⟩ := Option.map_eq_some_iff.mp hv
    refine List.find?_eq_none.mp hnone _ (mem_findPrefix.mpr hkv) (decide_eq_true ?_)
    exact stripPrefix_eq_some.mpr rfl
  · obtain ⟨⟨k, kv⟩, hp⟩ := Option.ne_none_iff_exists'.mp hsome
    have hat := List.find?_some hp
    have hk : k = S.keyPrefix ++ "meta" := stripPrefix_eq_some.mp (of_decide_eq_true hat)
    have hkv : w.etcd.kvs[S.key "meta"]? = some kv := mem_findPrefix.mp (hk ▸ List.mem_of_find?_eq_some hp)
    refine (hi.2.2 n).stored ?_
    rw [Etcd.State.values, hkv]
    rfl

/-- What a load makes of the instance, by whether it found `meta`. -/
theorem load_cases {kvs : List (String × Etcd.Kv)} {i i' : Instance} {accepted : Bool}
    (h : i.load S kvs = .ok (accepted, i')) :
    (accepted = false ∧ i' = i ∧ (kvs.find? fun p => stripPrefix S.keyPrefix p.1 = some "meta") = none) ∨
    (accepted = true ∧ (kvs.find? fun p => stripPrefix S.keyPrefix p.1 = some "meta") ≠ none ∧
      i'.written = recordsIn S.keyPrefix kvs ∧ i'.held = i.held ∧ i'.life = i.life ∧
      i'.status.leaderRevision = i.status.leaderRevision) := by
  simp only [Instance.load, metaIn] at h
  split at h
  · rename_i hnone
    cases h
    exact .inl ⟨rfl, rfl, hnone⟩
  · rename_i k kv hsome
    cases hm : S.codecs.metaRecord.fromStr kv.value with
    | error e => rw [hm] at h; cases h
    | ok m =>
      cases ha : applyRecords S.codecs i.fed (recordsIn S.keyPrefix kvs) with
      | error e => rw [hm, ha] at h; cases h
      | ok fed =>
        rw [hm, ha] at h
        cases h
        exact .inr ⟨rfl, by rw [hsome]; exact Option.some_ne_none _, rfl, rfl, rfl, rfl⟩

theorem informed_of_seen {log₀ l log : List StoreEvent} {kvs : List (String × Etcd.Kv)} {name : String}
    {rev : Nat} {accepted : Bool} (hs : Seen S neat l kvs) (h₀ : log₀ <+: l) (hl : l <+: log)
    (hacc : accepted = false → (kvs.find? fun p => stripPrefix S.keyPrefix p.1 = some "meta") = none)
    (hwon : .won name rev ∈ log₀) :
    Informed S name rev (log ++ [.loaded name accepted (recordsIn S.keyPrefix kvs)]) := by
  obtain ⟨a, b₀, rfl⟩ := List.append_of_mem hwon
  obtain ⟨x, rfl⟩ := h₀
  obtain ⟨y, rfl⟩ := hl
  refine ⟨a, b₀ ++ x ++ y, [], accepted, recordsIn S.keyPrefix kvs, by simp, b₀ ++ x, List.prefix_append _ _, ?_, fun hf => ?_⟩
  · intro k hl hm
    rw [hs.records k hl hm]
    congr 1
    simp
  · have hnone := hs.empty (hacc hf)
    simpa using hnone

namespace Me

variable {w : Fleet}

/-- A call that writes no records keeps the discipline. -/
theorem plain_safe (req : Etcd.Request) (hplain : Plain S me.name req) (hi : (storeDiscipline S quiet neat).inv w) :
    (me.call S req).Safe (storeDiscipline S quiet neat) me.task (fun _ _ => True) w := by
  refine Safe.mono (fun _ _ _ => trivial) (call_safe (P := fun _ => True) (Q := fun _ _ => True) req hplain
    (Discipline.stable_const True) (fun _ => Discipline.stable_const True) (fun _ _ _ _ _ => trivial) hi trivial)

/-- What was found replaces this instance's memory. -/
theorem loadKvs_safe {log₀ l : List StoreEvent} {kvs : List (String × Etcd.Kv)} {written : Records}
    (hi : (storeDiscipline S quiet neat).inv w) (hh : me.Holds written w) (h₀ : log₀ <+: l) (hl : l <+: w.log)
    (hs : Seen S neat l kvs) :
    ((Task.await me.alive fun _ w =>
      match (w.inst me.name).load S kvs with
      | .ok (loaded, i) =>
        (.ok loaded, (w.setInst me.name fun _ => i).note (.loaded me.name loaded (recordsIn S.keyPrefix kvs)))
      | .error e => (.error e, w) : Job (Except String Bool)).bind fun r =>
        me.unlock.bind fun _ => .ofExcept r).Safe (storeDiscipline S quiet neat) me.task
      (fun x w => ∀ accepted, x = .ok accepted → ∀ rev, .won me.name rev ∈ log₀ →
        Informed S me.name rev w.log) w := by
  refine Safe.bind hi (Safe.await ((stable_holds me written).and (stable_log (P := fun log => l <+: log) ?_))
    (Q := fun x w => ∀ r, x = .ok r → (∃ written, me.Holds written w) ∧ ∀ accepted, r = .ok accepted →
      ∀ rev, .won me.name rev ∈ log₀ → Informed S me.name rev w.log) (fun r => ?_)
    (fun w _ hi ⟨hh, hl⟩ ha _ => ?_) hi ⟨hh, hl⟩) ?_ fun _ _ _ => nofun
  · exact fun _ _ h h' => h'.trans h
  · intro w w' u hu hi hi' hg h r hr
    obtain ⟨⟨written, hh⟩, hin⟩ := h r hr
    refine ⟨⟨written, stable_holds me written w w' u hu hi hi' hg hh⟩, fun accepted ha rev hwon => ?_⟩
    obtain ⟨es, hes⟩ := hg.log
    exact hes ▸ (hin accepted ha rev hwon).mono es
  · cases hload : (w.inst me.name).load S kvs with
    | error e =>
      refine ⟨memory_kept w hi rfl (fun _ => .inl) (.inl rfl) (fun n => .refl n _ _), fun r hr => ⟨⟨written, hh⟩, ?_⟩⟩
      intro accepted ha
      cases hr
      cases ha
    | ok p =>
      obtain ⟨accepted, i⟩ := p
      obtain ⟨hheld, hwritten⟩ := hh.lock ha
      have hfair : Fair S quiet neat w.log (.loaded me.name accepted (recordsIn S.keyPrefix kvs)) := by
        rcases load_cases hload with ⟨rfl, _⟩ | ⟨rfl, hsome, _⟩
        · trivial
        · exact fun n => (hs.sighted n hsome).mono hl
      have hkept : Kept (some me.task) me.name w.log (w.inst me.name) i := by
        rcases load_cases hload with ⟨_, rfl, _⟩ | ⟨_, _, hw, _, hlife, hrev⟩
        · exact .refl _ _ _
        · refine ⟨Nat.le_of_eq hlife.symm, fun t ht hne => ?_, fun r hr => .inl (hrev ▸ hr), fun _ => ?_⟩
          · rw [hheld] at ht
            exact absurd ht hne
          · exact hw ▸ clean_recordsIn _ _
      have hholds : me.Holds i.written ((w.setInst me.name fun _ => i).note
          (.loaded me.name accepted (recordsIn S.keyPrefix kvs))) := by
        have hi : i.held = (w.inst me.name).held ∧ i.life = (w.inst me.name).life := by
          rcases load_cases hload with ⟨_, rfl, _⟩ | ⟨_, _, _, hh, hlife, _⟩
          · exact ⟨rfl, rfl⟩
          · exact ⟨hh, hlife⟩
        refine ⟨?_, fun _ => ?_⟩
        · rw [note_inst, setInst_self, hi.2]
          exact hh.life
        · rw [note_inst, setInst_self, hi.1]
          exact ⟨hheld, rfl⟩
      refine ⟨note_kept hi hfair hkept, fun r hr => ⟨⟨i.written, hholds⟩, fun accepted' ha rev hwon => ?_⟩⟩
      obtain rfl := Except.ok.inj ((Except.ok.inj hr).trans ha)
      refine informed_of_seen hs h₀ hl (fun hf => ?_) hwon
      rcases load_cases hload with ⟨_, _, hnone⟩ | ⟨ht, _⟩
      · exact hnone
      · rw [ht] at hf
        cases hf
  · intro r w hi hq
    obtain ⟨⟨written, hh⟩, hin⟩ := hq r rfl
    refine Safe.bind hi (unlock_safe (P := fun log => ∀ accepted, r = .ok accepted →
      ∀ rev, .won me.name rev ∈ log₀ → Informed S me.name rev log) ?_ hi hh hin) ?_ fun _ _ _ => nofun
    · rintro log _ ⟨es, rfl⟩ h accepted ha rev hwon
      exact (h accepted ha rev hwon).mono es
    · intro _ w hi h
      have hstable : (storeDiscipline S quiet neat).Stable me.task fun w => ∀ accepted, r = .ok accepted →
          ∀ rev, .won me.name rev ∈ log₀ → Informed S me.name rev w.log := by
        refine stable_log (P := fun log => ∀ accepted, r = .ok accepted →
          ∀ rev, .won me.name rev ∈ log₀ → Informed S me.name rev log) ?_
        rintro log _ ⟨es, rfl⟩ h accepted ha rev hwon
        exact (h accepted ha rev hwon).mono es
      cases r with
      | ok accepted =>
        exact Safe.ret hstable (fun w _ h accepted ha => h accepted ha) hi h
      | error e => exact Safe.fail hstable (fun _ _ _ => nofun) hi h

/-- The store was empty: nothing is known to be written. -/
theorem clear_safe {written : Records} (hi : (storeDiscipline S quiet neat).inv w) (hh : me.Holds written w) :
    (me.update fun i => { i with written := ∅ }).Safe (storeDiscipline S quiet neat) me.task
      (fun _ w => me.Holds ∅ w) w := by
  refine update_safe (stable_holds me written) (stable_holds me ∅)
    (fun w _ hh ha => ⟨⟨Nat.le_refl _, fun t ht hne => ?_, fun _ h => .inl h, fun _ => clean_empty⟩, ?_, ?_⟩) hi hh
  · rw [(hh.lock ha).1] at ht
    exact absurd ht hne
  · rw [setInst_self]
    exact hh.life
  · intro _
    rw [setInst_self]
    exact ⟨(hh.lock ha).1, rfl⟩

theorem load_safe {log₀ : List StoreEvent} (hi : (storeDiscipline S quiet neat).inv w) (h₀ : log₀ <+: w.log) :
    (me.load S).Safe (storeDiscipline S quiet neat) me.task
      (fun x w => ∀ accepted, x = .ok accepted → ∀ rev, .won me.name rev ∈ log₀ →
        Informed S me.name rev w.log) w := by
  refine Safe.bind hi (lock_safe (stable_log fun _ _ hl h => h.trans hl) hi h₀) ?_ fun _ _ _ => nofun
  intro written w hi ⟨h₀, hq⟩
  have hh := (hq written rfl).2
  have hseen (a : Etcd.Answer) : (storeDiscipline S quiet neat).Stable me.task fun w =>
      ∃ kvs l, a = .kvs kvs ∧ log₀ <+: l ∧ l <+: w.log ∧ Seen S neat l kvs :=
    stable_log (P := fun log => ∃ kvs l, a = .kvs kvs ∧ log₀ <+: l ∧ l <+: log ∧ Seen S neat l kvs)
      fun _ _ hl ⟨kvs, l, ha, h₀, h, hs⟩ => ⟨kvs, l, ha, h₀, h.trans hl, hs⟩
  refine Safe.bind hi (Safe.attempt (call_safe (.rangePrefix S.keyPrefix) trivial
    ((stable_holds me written).and (stable_log fun _ _ hl h => h.trans hl)) hseen ?_ hi ⟨hh, h₀⟩)
      (R := fun x w => ∀ y, x = .ok y → me.Holds written w ∧ ∀ a, y = .ok a → ∃ kvs l, a = .kvs kvs ∧ log₀ <+: l ∧ l <+: w.log ∧ Seen S neat l kvs) ?_) ?_
    fun _ _ _ => nofun
  · intro w a hi ⟨_, h₀⟩ ha
    rw [serve_rangePrefix] at ha
    exact ⟨_, w.log, (Except.ok.inj ha).symm, h₀, List.prefix_refl _, seen_findPrefix hi⟩
  · rintro x w hx y hy
    obtain rfl := Except.ok.inj hy
    cases x with
    | ok a => exact ⟨hx.1.1, fun b hb => Except.ok.inj hb ▸ hx.2⟩
    | error e => exact ⟨hx.1, nofun⟩
  · intro y w hi hq
    obtain ⟨hh, hok⟩ := hq y rfl
    split
    · rename_i kvs
      obtain ⟨_, l, hk, h₀, hl, hs⟩ := hok _ rfl
      obtain rfl := Etcd.Answer.kvs.inj hk
      exact loadKvs_safe hi hh h₀ hl hs
    · rename_i a hne
      obtain ⟨kvs, _, ha, _⟩ := hok a rfl
      exact absurd ha (hne kvs)
    · refine Safe.bind hi (unlock_safe (P := fun _ => True) (fun _ _ _ _ => trivial) hi hh trivial) ?_
        fun _ _ _ => nofun
      exact fun _ w hi _ => Safe.fail (Discipline.stable_const True) (fun _ _ _ => nofun) hi trivial

/-! ## Leading -/

/-- Who becomes leader is informed. -/
theorem lead_safe {lease created : Nat} (hi : (storeDiscipline S quiet neat).inv w)
    (hwon : .won me.name created ∈ w.log) (h : Informed S me.name created w.log) :
    (me.lead S lease created).Safe (storeDiscipline S quiet neat) me.task (fun _ _ => True) w := by
  refine Safe.await (stable_log (P := fun log => .won me.name created ∈ log ∧ Informed S me.name created log) ?_)
    (fun _ => Discipline.stable_const _) (fun w _ hi ⟨hwon, h⟩ _ _ => ?_) hi ⟨hwon, h⟩
  · rintro l _ ⟨es, rfl⟩ ⟨hwon, h⟩
    exact ⟨List.mem_append_left _ hwon, h.mono es⟩
  · have hfair : Fair S quiet neat w.log (.leads me.name created) := h
    refine ⟨note_kept hi hfair ⟨Nat.le_refl _, fun _ h _ _ => ⟨h, rfl⟩, fun r hr => .inr ?_, id⟩, trivial⟩
    exact Option.some.inj hr ▸ hwon

/-- A program of the rest of this section ends as it likes. -/
theorem fail_safe {α : Type} {e : String} (hi : (storeDiscipline S quiet neat).inv w) :
    (.fail e : Job α).Safe (storeDiscipline S quiet neat) me.task (fun _ _ => True) w :=
  Safe.fail (Discipline.stable_const True) (fun _ _ _ => trivial) hi trivial

theorem ret_safe {α : Type} {a : α} (hi : (storeDiscipline S quiet neat).inv w) :
    (.ret a : Job α).Safe (storeDiscipline S quiet neat) me.task (fun _ _ => True) w :=
  Safe.ret (Discipline.stable_const True) (fun _ _ _ => trivial) hi trivial

/-- A sequence of programs that keep the discipline keeps it. -/
theorem seq_safe {α β : Type} {t : Job α} {f : α → Job β}
    (ht : ∀ w, (storeDiscipline S quiet neat).inv w →
      t.Safe (storeDiscipline S quiet neat) me.task (fun _ _ => True) w)
    (hf : ∀ a w, (storeDiscipline S quiet neat).inv w →
      (f a).Safe (storeDiscipline S quiet neat) me.task (fun _ _ => True) w)
    (hi : (storeDiscipline S quiet neat).inv w) :
    (t.bind f).Safe (storeDiscipline S quiet neat) me.task (fun _ _ => True) w :=
  Safe.bind hi (ht w hi) (fun a w hi _ => hf a w hi) fun _ _ _ => trivial

theorem attempt_safe {α : Type} {t : Job α} (h : t.Safe (storeDiscipline S quiet neat) me.task (fun _ _ => True) w) :
    t.attempt.Safe (storeDiscipline S quiet neat) me.task (fun _ _ => True) w :=
  Safe.attempt h fun _ _ _ => trivial

theorem status_safe {f : StoreStatus → StoreStatus}
    (hf : ∀ s r, (f s).leaderRevision = some r → s.leaderRevision = some r)
    (hi : (storeDiscipline S quiet neat).inv w) :
    (me.updateStatus f).Safe (storeDiscipline S quiet neat) me.task (fun _ _ => True) w :=
  updateStatus_safe (Discipline.stable_const True) hf hi trivial

theorem takeOffice_safe (hnq : neat → quiet) {lease created : Nat} (hi : (storeDiscipline S quiet neat).inv w)
    (hwon : .won me.name created ∈ w.log) :
    (me.takeOffice S lease created).Safe (storeDiscipline S quiet neat) me.task (fun _ _ => True) w := by
  refine Safe.bind hi (Safe.attempt (load_safe hi (List.prefix_refl w.log))
    (R := fun x w => ∀ accepted, x = .ok (.ok accepted) → Informed S me.name created w.log) ?_) ?_ fun _ _ _ => trivial
  · intro x w hx accepted ha
    exact hx accepted (Except.ok.inj ha) created hwon
  · intro x w hi hx
    cases x with
    | error e =>
      exact seq_safe (fun w hi => attempt_safe (plain_safe (.leaseRevoke lease) trivial hi))
        (fun _ w hi => fail_safe hi) hi
    | ok accepted =>
      have hin := hx accepted rfl
      have hwon : .won me.name created ∈ w.log := by
        obtain ⟨a, b, c, _, _, hlog, _⟩ := hin
        rw [hlog]
        simp
      refine Safe.bind hi (lead_safe hi hwon hin) ?_ fun _ _ _ => trivial
      intro _ w hi _
      cases accepted with
      | true => exact sync_safe hnq hi
      | false =>
        refine Safe.bind hi (lock_safe (Discipline.stable_const True) hi trivial) ?_ fun _ _ _ => trivial
        intro written w hi hq
        refine Safe.bind hi (clear_safe hi (hq.2 written rfl).2) ?_ fun _ _ _ => trivial
        intro _ w hi hh
        refine Safe.bind hi (unlock_safe (P := fun _ => True) (fun _ _ _ _ => trivial) hi hh trivial) ?_
          fun _ _ _ => trivial
        exact fun _ w hi _ => sync_safe hnq hi

theorem followHolder_safe {kvs : List (String × Etcd.Kv)} (hi : (storeDiscipline S quiet neat).inv w) :
    (me.followHolder S kvs).Safe (storeDiscipline S quiet neat) me.task (fun _ _ => True) w :=
  status_safe (by exact fun s r h => h) hi

theorem stepDown_safe {why : String} (hi : (storeDiscipline S quiet neat).inv w) :
    (me.stepDown why).Safe (storeDiscipline S quiet neat) me.task (fun _ _ => True) w :=
  status_safe (by exact fun s r h => nomatch h) hi

theorem revoke_safe {lease : Nat} (hi : (storeDiscipline S quiet neat).inv w) :
    (me.call S (.leaseRevoke lease)).attempt.Safe (storeDiscipline S quiet neat) me.task (fun _ _ => True) w :=
  attempt_safe (plain_safe (.leaseRevoke lease) trivial hi)

/-- Campaigning: who created the leader key takes office. -/
theorem campaignTxn_safe {lease : Nat} (hi : (storeDiscipline S quiet neat).inv w) :
    (me.call S (.txn (campaignTxn S me.name lease))).attempt.Safe (storeDiscipline S quiet neat) me.task
      (fun x w => ∀ created found, x = .ok (.ok (.txn true created found)) → .won me.name created ∈ w.log) w := by
  refine Safe.attempt (call_safe (P := fun _ => True)
    (Q := fun a w => ∀ created found, a = .txn true created found → .won me.name created ∈ w.log)
    (.txn (campaignTxn S me.name lease)) ⟨lease, rfl⟩ (Discipline.stable_const True) (fun a => ?_) ?_ hi trivial) ?_
  · exact fun w w' u hu hi hi' hg h created found ha => hg.log.subset (h created found ha)
  · intro w a hi _ ha created found hw
    exact serve_campaign (hw ▸ ha)
  · intro x w hx created found ha
    obtain rfl := Except.ok.inj ha
    exact hx.2 created found rfl

theorem campaign_safe (hnq : neat → quiet) (hi : (storeDiscipline S quiet neat).inv w) :
    (me.campaign S).Safe (storeDiscipline S quiet neat) me.task (fun _ _ => True) w := by
  refine seq_safe (fun w hi => plain_safe (.range (S.key "leader")) trivial hi) (fun a w hi => ?_) hi
  split
  · exact followHolder_safe hi
  refine seq_safe (fun w hi => plain_safe (.leaseGrant S.leaseTtlSecs) trivial hi) (fun a w hi => ?_) hi
  split
  · rename_i lease _
    refine Safe.bind hi (campaignTxn_safe hi) (fun x w hi hx => ?_) fun _ _ _ => trivial
    split
    · exact seq_safe (fun w hi => revoke_safe hi) (fun _ w hi => fail_safe hi) hi
    · exact takeOffice_safe hnq hi (hx _ _ rfl)
    · exact seq_safe (fun w hi => revoke_safe hi) (fun _ w hi => followHolder_safe hi) hi
  · exact fail_safe hi

theorem reload_safe (hi : (storeDiscipline S quiet neat).inv w) :
    (me.load S).Safe (storeDiscipline S quiet neat) me.task (fun _ _ => True) w :=
  Safe.mono (fun _ _ _ => trivial) (load_safe hi (List.prefix_refl w.log))

theorem known_safe {α : Type} {f : Instance → α} (hi : (storeDiscipline S quiet neat).inv w) :
    (me.read f).Safe (storeDiscipline S quiet neat) me.task (fun _ _ => True) w :=
  Safe.mono (fun _ _ _ => trivial) (read_safe (P := fun _ => True) (Q := fun _ _ => True)
    (Discipline.stable_const True) (fun _ => Discipline.stable_const True) (fun _ _ _ _ => trivial) hi trivial)

theorem follow_safe (hi : (storeDiscipline S quiet neat).inv w) :
    (me.follow S).Safe (storeDiscipline S quiet neat) me.task (fun _ _ => True) w := by
  refine seq_safe (fun w hi => plain_safe (.range (S.key "meta")) trivial hi) (fun a w hi => ?_) hi
  extract_lets metaRev
  split
  · exact ret_safe hi
  refine seq_safe (fun w hi => known_safe hi) (fun known w hi => ?_) hi
  split
  · exact ret_safe hi
  · exact seq_safe (fun w hi => reload_safe hi) (fun _ w hi => ret_safe hi) hi

theorem renew_safe {lease : Nat} (hi : (storeDiscipline S quiet neat).inv w) :
    (me.renew S lease).Safe (storeDiscipline S quiet neat) me.task (fun _ _ => True) w := by
  refine seq_safe (fun w hi => attempt_safe (plain_safe (.leaseKeepAlive lease) trivial hi)) (fun a w hi => ?_) hi
  split
  · exact ret_safe hi
  · exact stepDown_safe hi
  · refine seq_safe (fun w hi => ?_) (fun since w hi => ?_) hi
    · exact Safe.await (Discipline.stable_const True) (fun _ => Discipline.stable_const True)
        (fun w _ hi _ _ _ => ⟨memory_kept w hi rfl (fun _ => .inl) (.inl rfl) (fun n => .refl n _ _), trivial⟩) hi trivial
    · dsimp only
      split
      · exact seq_safe (fun w hi => stepDown_safe hi) (fun _ w hi => fail_safe hi) hi
      · exact fail_safe hi

theorem tryStep_safe (hnq : neat → quiet) (hi : (storeDiscipline S quiet neat).inv w) :
    (me.tryStep S).Safe (storeDiscipline S quiet neat) me.task (fun _ _ => True) w := by
  refine seq_safe (fun w hi => known_safe hi) (fun st w hi => ?_) hi
  split
  · exact renew_safe hi
  refine seq_safe (fun w hi => campaign_safe hnq hi) (fun _ w hi => ?_) hi
  refine seq_safe (fun w hi => known_safe hi) (fun role w hi => ?_) hi
  split
  · exact ret_safe hi
  · exact follow_safe hi

theorem step_safe (hnq : neat → quiet) (hi : (storeDiscipline S quiet neat).inv w) :
    (me.step S).Safe (storeDiscipline S quiet neat) me.task (fun _ _ => True) w := by
  refine seq_safe (fun w hi => attempt_safe (tryStep_safe hnq hi)) (fun r w hi => ?_) hi
  split
  · exact ret_safe hi
  · exact status_safe (by exact fun s r h => h) hi

end Me

/-! ## What happens by itself -/

/-- A request given up by its sender takes effect. -/
theorem arrive_kept {w : Fleet} (hi : (storeDiscipline S quiet neat).inv w) {l : Late} (hl : l ∈ w.late)
    {late : List Late} (hlate : ∀ l' ∈ late, l' ∈ w.late)
    (hok : (storeDiscipline S quiet neat).ok w
      ((({ w with late := late } : Fleet).note (.arrived l.by l.stored)).serve S l.by l.req).1) :
    (storeDiscipline S quiet neat).inv
        ((({ w with late := late } : Fleet).note (.arrived l.by l.stored)).serve S l.by l.req).1 ∧
      Guar S quiet none w ((({ w with late := late } : Fleet).note (.arrived l.by l.stored)).serve S l.by l.req).1 := by
  have hnote := memory_kept (u := none) (({ w with late := late } : Fleet).note (.arrived l.by l.stored)) hi rfl
    (fun l' h => .inl (hlate l' h)) (.inr ⟨.arrived l.by l.stored, trivial, rfl⟩) (fun n => .refl n _ _)
  have hsound : Sound S (({ w with late := late } : Fleet).note (.arrived l.by l.stored)).log l.by l.req :=
    (hi.1.late l hl).mono (List.prefix_append _ _)
  have heff := serve_effect hsound
  obtain ⟨es, hes⟩ := heff.log
  have hlog {es : List StoreEvent} : (({ w with late := late } : Fleet).note (.arrived l.by l.stored)).log ++ es =
      w.log ++ .arrived l.by l.stored :: es := List.append_assoc _ _ _
  suffices h : (storeDiscipline S quiet neat).inv
        ((({ w with late := late } : Fleet).note (.arrived l.by l.stored)).serve S l.by l.req).1 ∧
      Guar S quiet none (({ w with late := late } : Fleet).note (.arrived l.by l.stored))
        ((({ w with late := late } : Fleet).note (.arrived l.by l.stored)).serve S l.by l.req).1 from
    ⟨h.1, (List.prefix_append _ _).trans h.2.log, h.2.life, h.2.lock,
      fun n r hw => h.2.store n r (List.mem_append_left _ hw)⟩
  refine serve_kept hnote.1 heff (fun q => ?_) (fun n rev metaText chunk hreq hrev ⟨wr, hwr⟩ => ?_)
  · refine (hok.1 q l.by l.stored es (hes.symm.trans hlog)).imp_right fun hfree n hwon => .inl ?_
    exact hfree n (won_of_concat (by simp) hwon)
  · have hstored := (hok.2 n).1 l.by l.stored wr (hwr.trans hlog)
    obtain ⟨records, hrec, hsee⟩ := (hi.2.2 n).late l hl rev metaText chunk hreq hrev
    exact ⟨records, hstored ▸ hrec, hsee.mono (List.prefix_append _ _)⟩

/-- The state changes, a lease ends, a late request arrives, an instance restarts. -/
theorem env_kept {w : Fleet} (hi : (storeDiscipline S quiet neat).inv w) (e : StoreEnv)
    (hok : (storeDiscipline S quiet neat).ok w (w.env S e)) :
    (storeDiscipline S quiet neat).inv (w.env S e) ∧ Guar S quiet none w (w.env S e) := by
  cases e with
  | change name fed =>
    refine memory_kept _ hi rfl (fun _ => .inl) (.inl rfl) (kept_setInst (f := fun i => { i with fed := fed }) ?_)
    exact ⟨Nat.le_refl _, fun _ h _ _ => ⟨h, rfl⟩, fun _ h => .inl h, id⟩
  | restart name fed =>
    refine memory_kept _ hi rfl (fun _ => .inl) (.inl rfl)
      (kept_setInst (f := fun i => { fed := fed, life := i.life + 1 }) ⟨Nat.le_succ _, fun _ _ _ hl => ?_, ?_, ?_⟩)
    · exact absurd hl (Nat.succ_ne_self _)
    · exact fun r h => nomatch h
    · exact fun _ => clean_empty
  | expire lease =>
    have heff : Effect S "" (.leaseRevoke lease) w (w.env S (.expire lease)) := .ended lease
    refine serve_kept hi heff (fun _ => .inl ?_) (fun _ _ _ _ h => nomatch h)
    rcases heff.records hi.1 with ⟨hr, _⟩ | ⟨_, _, _, hreq, _⟩
    · exact hr
    · cases hreq
  | arrive n =>
    cases hl : w.late[n]? with
    | none =>
      have hsame : w.env S (.arrive n) = w := by rw [Fleet.env, Fleet.arrive, hl]
      rw [hsame]
      exact memory_kept w hi rfl (fun _ => .inl) (.inl rfl) (fun n => .refl n _ _)
    | some l =>
      have hmem : l ∈ w.late := List.mem_of_getElem? hl
      have hw : w.env S (.arrive n) = (({ w with late := w.late.eraseIdx n } : Fleet).note
          (.arrived l.by l.stored) |>.serve S l.by l.req).1 := by rw [Fleet.env, Fleet.arrive, hl]
      rw [hw] at hok ⊢
      exact arrive_kept hi hmem (fun _ => List.mem_of_mem_eraseIdx) hok

/-! ## Every run -/

/-- The fleet as it starts: an empty store, each instance with a state of its own. -/
def Fleet.start (feds : String → FedState) : Pool Choice Fleet String where
  state := { etcd := .init, inst := fun n => { fed := feds n } }
  tasks := []

theorem inv_start (feds : String → FedState) : (storeDiscipline S quiet neat).inv (Fleet.start feds).state := by
  refine ⟨?_, fun _ _ _ h => absurd h List.not_mem_nil, fun _ => ⟨fun h => ?_, fun _ _ h => absurd h List.not_mem_nil,
    fun _ h => absurd h List.not_mem_nil⟩⟩
  · exact {
      wf := Etcd.State.wf_init
      pos := Nat.one_pos
      won_le := fun _ _ h => absurd h List.not_mem_nil
      won_inj := fun _ _ _ h => absurd h List.not_mem_nil
      holder := fun _ h => absurd h (by simp [Fleet.start, Etcd.State.init])
      unleased := fun _ _ _ h => absurd h (by simp [Fleet.start, Etcd.State.init])
      held := fun _ _ h => nomatch h
      clean := fun _ => clean_empty
      late := fun _ h => absurd h List.not_mem_nil
      writes := fun _ h => absurd h List.not_mem_nil
      ordered := fun l₁ l₂ _ _ h => absurd h (by simp [Fleet.start])
      metaKept := fun _ h => absurd h List.not_mem_nil
      replayed := fun _ _ => by simp [Fleet.start, Etcd.State.init, Etcd.State.values, replay]
      informed := fun l₁ l₂ _ _ h => absurd h (by simp [Fleet.start]) }
  · simp [Fleet.start, Etcd.State.init, Etcd.State.values] at h

/-- The discipline's invariant holds in every run from the start. -/
theorem fleet_kept (hnq : neat → quiet) {feds : String → FedState} {p : Pool Choice Fleet String}
    (h : (fleet S).Run (storeDiscipline S quiet neat).ok (Fleet.start feds) p) :
    (storeDiscipline S quiet neat).inv p.state := by
  refine (System.Run.safe (fun t op w hi => ?_) (fun e w hi hok => env_kept hi e hok) (inv_start feds) rfl h).1
  cases op with
  | sync name life =>
    let me : Me := { name := name, life := life, task := t }
    exact (Me.sync_safe hnq hi : (me.sync S).Safe (storeDiscipline S quiet neat) me.task _ w)
  | step name life =>
    let me : Me := { name := name, life := life, task := t }
    exact (Me.step_safe hnq hi : (me.step S).Safe (storeDiscipline S quiet neat) me.task _ w)

end StormStorage
