import StormStorage.Proof.Store.History

/-!
# What the tasks of a fleet may do to each other

`storeDiscipline S quiet neat` is the rely-guarantee discipline of the fleet.
Its invariant is `FleetInv`; in runs that are `quiet` it also says what a sync
that answered Ok left in the store, and in runs that are `neat` what the
records in the store and those that loads read are.

* `serve_kept`: what a request does, whoever sends it;
* `memory_kept`: what a step does that sends nothing;
* `callFrom_safe`, `call_safe`, `update_safe`, `lock_safe`, `unlock_safe`:
  the parts that every program of the fleet is made of.
-/

namespace StormStorage

open Await Task KeyMap

/-! ## Conditions on a run -/

namespace Took

variable (S : StoreConfig) (t : Took)

/-- What this sync has to send. -/
def ops : List Op := diff t.written (recordsOf S.codecs t.fed)

/-- Where the state is as this instance knows it to be written, so is the
store: no record whose write took effect unknown to this instance is back to
what it was. -/
def NoRevert : Prop :=
  ∀ k : String, (recordsOf S.codecs t.fed)[k]? = t.written[k]? → t.stored[k]? = t.written[k]?

/-- One transaction carries the whole of this sync. -/
structure Whole : Prop where
  ops_le : (t.ops S).length ≤ txnOps
  noRevert : t.NoRevert S

variable {S t}

/-- Only keys that either map holds can differ. -/
theorem noRevert_iff : t.NoRevert S ↔ ∀ k ∈ t.stored.keys ++ t.written.keys,
    (recordsOf S.codecs t.fed)[k]? = t.written[k]? → t.stored[k]? = t.written[k]? := by
  refine ⟨fun h k _ => h k, fun h k hk => ?_⟩
  by_cases hm : k ∈ t.stored.keys ++ t.written.keys
  · exact h k hm hk
  · simp only [List.mem_append, mem_keys, not_or, Option.not_isSome_iff_eq_none] at hm
    rw [hm.1, hm.2]

instance : Decidable (t.NoRevert S) := decidable_of_iff _ noRevert_iff.symm

instance : Decidable (t.Whole S) :=
  decidable_of_iff ((t.ops S).length ≤ txnOps ∧ t.NoRevert S) ⟨fun h => ⟨h.1, h.2⟩, fun h => ⟨h.1, h.2⟩⟩

theorem patch_ops (h : t.NoRevert S) :
    patch (t.ops S) (reading t.stored) = reading (recordsOf S.codecs t.fed) := by
  funext k
  rw [ops, patch_diff]
  split
  · rename_i hk
    exact (h k hk).trans hk.symm
  · rfl

theorem noRevert_of_patch (h : patch (t.ops S) (reading t.stored) = reading (recordsOf S.codecs t.fed)) :
    t.NoRevert S := by
  intro k hk
  have hr := congrFun h k
  rw [ops, patch_diff, if_pos hk] at hr
  exact hr.trans hk

end Took

/-- A request that its sender had given up changes no record while the
`written` of the instance that leads is locked. -/
def Undisturbed (S : StoreConfig) (w w' : Fleet) : Prop :=
  ∀ who stored es, w'.log = w.log ++ .arrived who stored :: es →
    w'.records S = w.records S ∨ ∀ n, .won n (w.leaderKey S) ∈ w.log → (w.inst n).held = none

/-- A write that its sender had given up takes effect only while the store
holds the records it held when the write was sent. -/
def Timely (S : StoreConfig) (w w' : Fleet) : Prop :=
  ∀ who stored wr, w'.log = w.log ++ [.arrived who stored, .wrote wr] → stored = w.records S

/-! ## The discipline -/

/-- What a sync that answered Ok left in the store while it led. -/
def Settled (S : StoreConfig) (log : List StoreEvent) : Prop :=
  ∀ t stored, .synced t stored true ∈ log → (stored = recordsOf S.codecs t.fed ↔ t.NoRevert S)

/-- Records of one state that a sync read. -/
def Sighted (S : StoreConfig) (log : List StoreEvent) (records : Records) : Prop :=
  ∃ t, .took t ∈ log ∧ records = recordsOf S.codecs t.fed

theorem Sighted.mono {S : StoreConfig} {log log' : List StoreEvent} {records : Records}
    (h : Sighted S log records) (hl : log <+: log') : Sighted S log' records := by
  obtain ⟨t, ht, hr⟩ := h
  exact ⟨t, hl.subset ht, hr⟩

/-- The records in the store, those that loads accepted, and those that a
write under way would leave, are of one state each. -/
structure Neat (S : StoreConfig) (w : Fleet) : Prop where
  stored : (w.etcd.values (S.key "meta")).isSome → Sighted S w.log (w.records S)
  loaded : ∀ n records, .loaded n true records ∈ w.log → Sighted S w.log records
  late : ∀ l ∈ w.late, ∀ rev metaText chunk, l.req = .txn (syncTxn S rev metaText chunk) →
    w.leaderKey S = rev → ∃ records, reading records = patch chunk (reading l.stored) ∧ Sighted S w.log records

/-- What the others may do: `u` is the task that steps. -/
structure Guar (S : StoreConfig) (quiet : Prop) (u : Option Nat) (w w' : Fleet) : Prop where
  log : w.log <+: w'.log
  life : ∀ n, (w.inst n).life ≤ (w'.inst n).life
  /-- What a lock holder has stays, unless the instance restarts. -/
  lock : ∀ n t, (w.inst n).held = some t → u ≠ some t → (w'.inst n).life = (w.inst n).life →
    (w'.inst n).held = some t ∧ (w'.inst n).written = (w.inst n).written
  /-- No leader key comes back, and under one only the lock holder of its
  winner writes. -/
  store : ∀ n r, .won n r ∈ w.log → w'.leaderKey S = r → w.leaderKey S = r ∧
    (quiet → w'.records S = w.records S ∨ (w.inst n).held = none ∨ ∃ t, u = some t ∧ (w.inst n).held = some t)

def storeDiscipline (S : StoreConfig) (quiet neat : Prop) : Discipline Fleet where
  inv w := FleetInv S w ∧ (quiet → Settled S w.log) ∧ (neat → Neat S w)
  ok w w' := (quiet → Undisturbed S w w') ∧
    (neat → Timely S w w' ∧ ∀ t, .took t ∈ w'.log → t.Whole S)
  guar := Guar S quiet

variable {S : StoreConfig} {quiet neat : Prop} {w w' : Fleet} {who : String} {u : Option Nat}

/-- What a request does, whoever sends it: the records change only by a write
of the records of one state, with the leader's lock held or free. -/
theorem serve_kept (hi : (storeDiscipline S quiet neat).inv w) {req : Etcd.Request}
    (he : Effect S who req w w')
    (hq : quiet → w'.records S = w.records S ∨ ∀ n, .won n (w.leaderKey S) ∈ w.log →
      (w.inst n).held = none ∨ ∃ t, u = some t ∧ (w.inst n).held = some t)
    (hn : neat → ∀ rev metaText chunk, req = .txn (syncTxn S rev metaText chunk) →
      w.leaderKey S = rev → (∃ wr, w'.log = w.log ++ [.wrote wr]) →
        ∃ records, reading records = patch chunk (reading (w.records S)) ∧ Sighted S w.log records) :
    (storeDiscipline S quiet neat).inv w' ∧ Guar S quiet u w w' := by
  obtain ⟨hf, hs, hneat⟩ := hi
  refine ⟨⟨hf.effect he, fun q => ?_, fun n => ?_⟩, ?_⟩
  · intro t stored hm
    rcases he.mem_log hm with hm | ⟨_, hne⟩ | ⟨_, _, hne⟩
    · exact hs q t stored hm
    · cases hne
    · cases hne
  · refine ⟨fun hm => ?_, fun m records hm => ?_, fun l hl rev metaText chunk hreq hrev => ?_⟩
    · rcases he.records hf with ⟨hr, hv⟩ | ⟨rev, metaText, chunk, hreq, _, hrev, hwr, hr⟩
      · rw [hr]
        exact ((hneat n).stored (hv ▸ hm)).mono he.log
      · obtain ⟨records, hrec, hsee⟩ := hn n rev metaText chunk hreq hrev hwr
        have heq : w'.records S = records := KeyMap.ext fun k => congrFun (hr.trans hrec.symm) k
        exact heq ▸ hsee.mono he.log
    · rcases he.mem_log hm with hm | ⟨_, hne⟩ | ⟨_, _, hne⟩
      · exact ((hneat n).loaded m records hm).mono he.log
      · cases hne
      · cases hne
    · have hl := he.late ▸ hl
      have hwon := (hreq ▸ hf.late l hl).won
      obtain ⟨records, hrec, hsee⟩ := (hneat n).late l hl rev metaText chunk hreq (he.leaderKey hf hwon hrev)
      exact ⟨records, hrec, hsee.mono he.log⟩
  · refine ⟨he.log, fun n => Nat.le_of_eq (by rw [he.inst]), fun n t ht _ _ => by rw [he.inst]; exact ⟨ht, rfl⟩, ?_⟩
    intro n r hwon hr
    have hkey := he.leaderKey hf hwon hr
    refine ⟨hkey, fun q => ?_⟩
    rcases hq q with h | h
    · exact .inl h
    · exact .inr (h n (hkey ▸ hwon))

/-- An event that a step may note which sends nothing. -/
def Fair (S : StoreConfig) (quiet neat : Prop) (log : List StoreEvent) : StoreEvent → Prop
  | .synced t stored true => quiet → (stored = recordsOf S.codecs t.fed ↔ t.NoRevert S)
  | .loaded _ true records => neat → Sighted S log records
  | e => Private S log e

/-- What a step that sends nothing may do to its instance; `u` is its task. -/
structure Kept (u : Option Nat) (name : String) (log : List StoreEvent) (i i' : Instance) : Prop where
  life : i.life ≤ i'.life
  lock : ∀ t, i.held = some t → u ≠ some t → i'.life = i.life → i'.held = some t ∧ i'.written = i.written
  revision : ∀ r, i'.status.leaderRevision = some r → i.status.leaderRevision = some r ∨ .won name r ∈ log
  clean : Clean i.written → Clean i'.written

theorem Kept.refl (name : String) (log : List StoreEvent) (i : Instance) : Kept u name log i i :=
  ⟨Nat.le_refl _, fun _ h _ _ => ⟨h, rfl⟩, fun _ h => .inl h, id⟩

/-- What a step does that sends nothing. -/
theorem memory_kept (w' : Fleet) (hi : (storeDiscipline S quiet neat).inv w) (he : w'.etcd = w.etcd)
    (hlate : ∀ l ∈ w'.late, l ∈ w.late ∨ Sound S w.log l.by l.req ∧
      (neat → ∀ rev metaText chunk, l.req = .txn (syncTxn S rev metaText chunk) → w.leaderKey S = rev →
        ∃ records, reading records = patch chunk (reading l.stored) ∧ Sighted S w.log records))
    (hlog : w'.log = w.log ∨ ∃ e, Fair S quiet neat w.log e ∧ w'.log = w.log ++ [e])
    (hinst : ∀ n, Kept u n w.log (w.inst n) (w'.inst n)) :
    (storeDiscipline S quiet neat).inv w' ∧ Guar S quiet u w w' := by
  obtain ⟨hf, hs, hneat⟩ := hi
  have hsub : w.log <+: w'.log := by
    rcases hlog with hlog | ⟨e, _, hlog⟩
    · exact hlog ▸ List.prefix_refl _
    · exact hlog ▸ List.prefix_append _ _
  have hrecords : w'.records S = w.records S := by rw [Fleet.records, he]; rfl
  refine ⟨⟨hf.memory he ?_ ?_ ?_ ?_, fun q => ?_, fun n => ?_⟩, ?_⟩
  · exact fun l hl => (hlate l hl).imp_right And.left
  · rcases hlog with hlog | ⟨e, hfair, hlog⟩
    · exact .inl hlog
    · refine .inr ⟨e, ?_, hlog⟩
      revert hfair
      rw [Fair.eq_def]
      split
      · exact fun _ => trivial
      · exact fun _ => trivial
      · exact id
  · intro n r hr
    rcases (hinst n).revision r hr with hr | hr
    · exact hf.held n r hr
    · exact hr
  · exact fun n => (hinst n).clean (hf.clean n)
  · intro t stored hm
    rcases hlog with hlog | ⟨e, hfair, hlog⟩
    · exact hs q t stored (hlog ▸ hm)
    · rw [hlog] at hm
      rcases List.mem_append.mp hm with hm | hm
      · exact hs q t stored hm
      · obtain rfl := List.mem_singleton.mp hm
        exact hfair q
  · refine ⟨fun hm => ?_, fun m records hm => ?_, fun l hl rev metaText chunk hreq hrev => ?_⟩
    · rw [he] at hm
      exact hrecords ▸ ((hneat n).stored hm).mono hsub
    · rcases hlog with hlog | ⟨e, hfair, hlog⟩
      · exact hlog ▸ (hneat n).loaded m records (hlog ▸ hm)
      · rw [hlog] at hm
        rcases List.mem_append.mp hm with hm | hm
        · exact ((hneat n).loaded m records hm).mono hsub
        · obtain rfl := List.mem_singleton.mp hm
          exact (hfair n).mono hsub
    · rw [Fleet.leaderKey, he] at hrev
      rcases hlate l hl with hl | ⟨_, hsent⟩
      · obtain ⟨records, hrec, hsee⟩ := (hneat n).late l hl rev metaText chunk hreq hrev
        exact ⟨records, hrec, hsee.mono hsub⟩
      · obtain ⟨records, hrec, hsee⟩ := hsent n rev metaText chunk hreq hrev
        exact ⟨records, hrec, hsee.mono hsub⟩
  · refine ⟨hsub, fun n => (hinst n).life, fun n t => (hinst n).lock t, fun n r _ hr => ?_⟩
    rw [Fleet.leaderKey, he] at hr
    exact ⟨hr, fun _ => .inl hrecords⟩

theorem kept_setInst {name : String} {f : Instance → Instance}
    (h : Kept u name w.log (w.inst name) (f (w.inst name))) (n : String) :
    Kept u n w.log (w.inst n) ((w.setInst name f).inst n) := by
  by_cases hn : n = name
  · subst hn
    rw [setInst_self]
    exact h
  · rw [Fleet.setInst]
    simp only [hn, ↓reduceIte]
    exact .refl n _ _

/-- An instance's memory changes and an event is noted. -/
theorem note_kept {name : String} {f : Instance → Instance} {e : StoreEvent}
    (hi : (storeDiscipline S quiet neat).inv w) (hf : Fair S quiet neat w.log e)
    (hk : Kept u name w.log (w.inst name) (f (w.inst name))) :
    (storeDiscipline S quiet neat).inv ((w.setInst name f).note e) ∧
      Guar S quiet u w ((w.setInst name f).note e) :=
  memory_kept _ hi rfl (fun _ => .inl) (.inr ⟨e, hf, rfl⟩) (kept_setInst hk)

/-! ## The parts of a program -/

/-- A fact about the history so far is kept. -/
theorem stable_log {t : Nat} {P : List StoreEvent → Prop} (h : ∀ l l', l <+: l' → P l → P l') :
    (storeDiscipline S quiet neat).Stable t fun w => P w.log :=
  fun w w' _ _ _ _ hg hp => h w.log w'.log hg.log hp

theorem stable_mem {t : Nat} (e : StoreEvent) : (storeDiscipline S quiet neat).Stable t fun w => e ∈ w.log :=
  stable_log fun _ _ hl he => hl.subset he

/-- A step of this task that any other could have taken keeps what the others keep. -/
theorem keep_of_none {t : Nat} {P : Fleet → Prop} (hP : (storeDiscipline S quiet neat).Stable t P)
    (h : (storeDiscipline S quiet neat).inv w' ∧ Guar S quiet none w w')
    (hi : (storeDiscipline S quiet neat).inv w) (hp : P w) : P w' :=
  hP w w' none nofun hi h.1 h.2 hp

theorem Guar.weaken (h : Guar S quiet none w w') : Guar S quiet u w w' where
  log := h.log
  life := h.life
  lock n t ht _ := h.lock n t ht nofun
  store n r hw hr := by
    obtain ⟨hk, hs⟩ := h.store n r hw hr
    refine ⟨hk, fun q => ?_⟩
    rcases hs q with hs | hs | ⟨t, ht, _⟩
    · exact .inl hs
    · exact .inr (.inl hs)
    · cases ht

namespace Me

variable {me : Me} {P : Fleet → Prop}

/-- A call, from an assertion `P` that the others keep and every attempt that
takes effect too. -/
theorem callFrom_safe {Q : Etcd.Answer → Fleet → Prop} {req : Etcd.Request}
    (hP : (storeDiscipline S quiet neat).Stable me.task P)
    (hQ : ∀ a, (storeDiscipline S quiet neat).Stable me.task (Q a))
    (hsound : ∀ w, P w → Sound S w.log me.name req)
    (hserve : ∀ w, (storeDiscipline S quiet neat).inv w → P w → me.alive w →
      Effect S me.name req w (w.serve S me.name req).1 →
      ((storeDiscipline S quiet neat).inv (w.serve S me.name req).1 ∧
        Guar S quiet (some me.task) w (w.serve S me.name req).1) ∧
      P (w.serve S me.name req).1 ∧
      ∀ a, (w.serve S me.name req).2 = .ok a → Q a (w.serve S me.name req).1)
    (hsent : neat → ∀ w, (storeDiscipline S quiet neat).inv w → P w → me.alive w →
      ∀ rev metaText chunk, req = .txn (syncTxn S rev metaText chunk) → w.leaderKey S = rev →
        ∃ records, reading records = patch chunk (reading (w.records S)) ∧ Sighted S w.log records)
    (urls errors : List String) {w : Fleet} (hi : (storeDiscipline S quiet neat).inv w) (hp : P w) :
    (me.callFrom S req urls errors).Safe (storeDiscipline S quiet neat) me.task
      (fun x w => match x with
        | .ok a => Q a w
        | .error _ => P w) w := by
  induction urls generalizing errors w with
  | nil => exact Safe.fail hP (fun _ _ h => h) hi hp
  | cons url urls ih =>
    refine Safe.step hP (fun w ch hi hp halive _ => ?_) hi hp
    have heff := serve_effect (hsound w hp)
    obtain ⟨hserved, hp', hq'⟩ := hserve w hi hp halive heff
    obtain ⟨net, now, since⟩ := ch
    cases net with
    | answered =>
      refine ⟨hserved.1, hserved.2, ?_⟩
      cases ha : (w.serve S me.name req).2 with
      | ok a => exact Safe.ret (hQ a) (fun _ _ h => h) hserved.1 (hq' a ha)
      | error e => exact Safe.fail hP (fun _ _ h => h) hserved.1 hp'
    | lost effect retry why =>
      have hnext {v : Fleet} (hi : (storeDiscipline S quiet neat).inv v) (hp : P v) :
          (if retry then me.callFrom S req urls (errors ++ [s!"{url}: {why}"])
            else .fail s!"{url}: {why}").Safe (storeDiscipline S quiet neat) me.task
            (fun x w => match x with
              | .ok a => Q a w
              | .error _ => P w) v := by
        split
        · exact ih _ hi hp
        · exact Safe.fail hP (fun _ _ h => h) hi hp
      cases effect with
      | true => exact ⟨hserved.1, hserved.2, hnext hserved.1 hp'⟩
      | false => exact ⟨hi, memory_kept _ hi rfl (fun _ => .inl) (.inl rfl) (fun n => .refl n _ _) |>.2, hnext hi hp⟩
    | late retry why =>
      have hlate (l : Late) (hl : l ∈ (me.attempted S req (.late retry why) w).late) :
          l ∈ w.late ∨ l = { «by» := me.name, req := req, stored := w.records S } :=
        (List.mem_append.mp hl).imp_right List.mem_singleton.mp
      have hkept := memory_kept (u := none) (me.attempted S req (.late retry why) w) hi rfl
        (fun l hl => (hlate l hl).imp_right (by rintro rfl; exact ⟨hsound w hp, fun n => hsent n w hi hp halive⟩))
        (.inl rfl) (fun n => .refl n _ _)
      have hp := keep_of_none hP hkept hi hp
      refine ⟨hkept.1, Guar.weaken hkept.2, ?_⟩
      dsimp only
      split
      · exact ih _ hkept.1 hp
      · exact Safe.fail hP (fun _ _ h => h) hkept.1 hp

/-- A call that writes no records, from an assertion the others keep. -/
theorem call_safe {Q : Etcd.Answer → Fleet → Prop} (req : Etcd.Request) (hplain : Plain S me.name req)
    (hP : (storeDiscipline S quiet neat).Stable me.task P)
    (hQ : ∀ a, (storeDiscipline S quiet neat).Stable me.task (Q a))
    (hans : ∀ w a, (storeDiscipline S quiet neat).inv w → P w → (w.serve S me.name req).2 = .ok a →
      Q a (w.serve S me.name req).1)
    {w : Fleet} (hi : (storeDiscipline S quiet neat).inv w) (hp : P w) :
    (me.call S req).Safe (storeDiscipline S quiet neat) me.task
      (fun x w => match x with
        | .ok a => P w ∧ Q a w
        | .error _ => P w) w := by
  refine callFrom_safe (Q := fun a w => P w ∧ Q a w) hP (fun a => hP.and (hQ a)) (fun w _ => hplain.sound w.log) ?_
    (fun _ _ _ _ _ rev metaText chunk hreq => absurd hreq (hplain.ne_sync rev metaText chunk)) _ _ hi hp
  intro w hi hp _ heff
  have hsame : (w.serve S me.name req).1.records S = w.records S := by
    rcases heff.records hi.1 with ⟨hr, _⟩ | ⟨rev, metaText, chunk, hreq, _⟩
    · exact hr
    · exact absurd hreq (hplain.ne_sync rev metaText chunk)
  have hkept := serve_kept (u := none) hi heff (fun _ => .inl hsame)
    (fun _ rev metaText chunk hreq => absurd hreq (hplain.ne_sync rev metaText chunk))
  have hp' := keep_of_none hP hkept hi hp
  exact ⟨⟨hkept.1, hkept.2.weaken⟩, hp', fun a ha => ⟨hp', hans w a hi hp ha⟩⟩

/-- A change of this instance's memory. -/
theorem update_safe {Q : Fleet → Prop} {f : Instance → Instance}
    (hP : (storeDiscipline S quiet neat).Stable me.task P)
    (hQ : (storeDiscipline S quiet neat).Stable me.task Q)
    (hf : ∀ w, (storeDiscipline S quiet neat).inv w → P w → me.alive w →
      Kept (some me.task) me.name w.log (w.inst me.name) (f (w.inst me.name)) ∧ Q (w.setInst me.name f))
    {w : Fleet} (hi : (storeDiscipline S quiet neat).inv w) (hp : P w) :
    (me.update f).Safe (storeDiscipline S quiet neat) me.task (fun _ w => Q w) w := by
  refine Safe.await hP (fun _ => hQ) (fun w _ hi hp ha _ => ?_) hi hp
  obtain ⟨hk, hq⟩ := hf w hi hp ha
  exact ⟨memory_kept _ hi rfl (fun _ => .inl) (.inl rfl) (kept_setInst hk), hq⟩

/-- A change of the status, with no leader revision gained. -/
theorem updateStatus_safe {f : StoreStatus → StoreStatus}
    (hP : (storeDiscipline S quiet neat).Stable me.task P)
    (hf : ∀ s r, (f s).leaderRevision = some r → s.leaderRevision = some r)
    {w : Fleet} (hi : (storeDiscipline S quiet neat).inv w) (hp : P w) :
    (me.updateStatus f).Safe (storeDiscipline S quiet neat) me.task (fun _ w => P w) w := by
  have hk (u : Option Nat) (w : Fleet) : Kept u me.name w.log (w.inst me.name)
      { w.inst me.name with status := f (w.inst me.name).status } :=
    ⟨Nat.le_refl _, fun _ h _ _ => ⟨h, rfl⟩, fun r h => .inl (hf _ r h), id⟩
  refine update_safe hP hP (fun w hi hp _ => ⟨hk _ w, ?_⟩) hi hp
  exact keep_of_none hP (memory_kept _ hi rfl (fun _ => .inl) (.inl rfl) (kept_setInst (hk none w))) hi hp

/-- What this instance's memory says, as far as the others keep it. -/
theorem read_safe {α : Type} {f : Instance → α} {Q : α → Fleet → Prop}
    (hP : (storeDiscipline S quiet neat).Stable me.task P)
    (hQ : ∀ a, (storeDiscipline S quiet neat).Stable me.task (Q a))
    (hf : ∀ w, (storeDiscipline S quiet neat).inv w → P w → me.alive w → Q (f (w.inst me.name)) w)
    {w : Fleet} (hi : (storeDiscipline S quiet neat).inv w) (hp : P w) :
    (me.read f).Safe (storeDiscipline S quiet neat) me.task
      (fun x w => match x with
        | .ok a => P w ∧ Q a w
        | .error _ => P w) w := by
  refine Safe.await hP (fun a => hP.and (hQ a)) (fun w _ hi hp ha _ => ?_) hi hp
  exact ⟨memory_kept w hi rfl (fun _ => .inl) (.inl rfl) (fun n => .refl n _ _), hp, hf w hi hp ha⟩

/-! ## The lock -/

/-- While this life of the instance lasts, this task holds `written`, which
reads so. -/
structure Holds (me : Me) (written : Records) (w : Fleet) : Prop where
  life : me.life ≤ (w.inst me.name).life
  lock : me.alive w → (w.inst me.name).held = some me.task ∧ (w.inst me.name).written = written

/-- Who is alive now was alive before. -/
theorem alive_of_guar (hg : Guar S quiet u w w') (hl : me.life ≤ (w.inst me.name).life)
    (ha : me.alive w') : me.alive w ∧ (w'.inst me.name).life = (w.inst me.name).life := by
  have hle := hg.life me.name
  simp only [alive, decide_eq_true_eq] at ha ⊢
  omega

theorem stable_holds (me : Me) (written : Records) :
    (storeDiscipline S quiet neat).Stable me.task (me.Holds written) := by
  intro w w' u hu _ _ hg ⟨hl, hlock⟩
  refine ⟨Nat.le_trans hl (hg.life me.name), fun ha => ?_⟩
  obtain ⟨ha₀, hlife⟩ := alive_of_guar hg hl ha
  obtain ⟨hheld, hw⟩ := hlock ha₀
  obtain ⟨hheld', hw'⟩ := hg.lock me.name me.task hheld hu hlife
  exact ⟨hheld', hw'.trans hw⟩

theorem lock_safe (hP : (storeDiscipline S quiet neat).Stable me.task P) {w : Fleet}
    (hi : (storeDiscipline S quiet neat).inv w) (hp : P w) :
    me.lock.Safe (storeDiscipline S quiet neat) me.task
      (fun x w => P w ∧ ∀ written, x = .ok written → Clean written ∧ me.Holds written w) w := by
  refine Safe.await hP (fun a => hP.and ?_) (fun w _ hi hp hr _ => ?_) hi hp
  · intro w w' u hu hi hi' hg h written hx
    exact ⟨(h written hx).1, stable_holds me written w w' u hu hi hi' hg (h written hx).2⟩
  · obtain ⟨ha, hfree⟩ := Bool.and_eq_true_iff.mp hr
    have hfree : (w.inst me.name).held = none := Option.isNone_iff_eq_none.mp hfree
    have hk (u : Option Nat) : Kept u me.name w.log (w.inst me.name)
        { w.inst me.name with held := some me.task } :=
      ⟨Nat.le_refl _, fun t ht => absurd (hfree.symm.trans ht) (by simp), fun _ h => .inl h, id⟩
    have hkept (u : Option Nat) := memory_kept (u := u)
      (w.setInst me.name fun i => { i with held := some me.task }) hi rfl (fun _ => .inl) (.inl rfl)
      (kept_setInst (hk u))
    refine ⟨hkept (some me.task), keep_of_none hP (hkept none) hi hp, ?_⟩
    rintro written hx
    obtain rfl := Except.ok.inj hx
    refine ⟨hi.1.clean me.name, ?_, fun _ => ⟨by rw [setInst_self], by rw [setInst_self]⟩⟩
    rw [setInst_self]
    exact Nat.le_of_eq (of_decide_eq_true ha).symm

/-- The lock holder lets `written` go. -/
theorem unlock_safe {written : Records} {P : List StoreEvent → Prop} (hP : ∀ l l', l <+: l' → P l → P l')
    {w : Fleet} (hi : (storeDiscipline S quiet neat).inv w) (hh : me.Holds written w) (hp : P w.log) :
    me.unlock.Safe (storeDiscipline S quiet neat) me.task (fun _ w => P w.log) w := by
  refine update_safe ((stable_holds me written).and (stable_log hP)) (stable_log hP)
    (fun w _ hp ha => ⟨⟨Nat.le_refl _, fun t ht hne => ?_, fun _ h => .inl h, id⟩, hp.2⟩) hi ⟨hh, hp⟩
  rw [(hp.1.lock ha).1] at ht
  exact absurd ht hne

end Me

end StormStorage
