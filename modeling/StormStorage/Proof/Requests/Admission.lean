import StormStorage.Operations
import StormStorage.Proof.Serves

/-!
# Creates side by side

A create is let in by what it checks in one step (`Admitted`), and records what
it made later, after its calls. What it is about to make and needs is its
undertaking, which the others leave alone (`requests`). `Bookkeeping` says of
an invariant that each of these steps keeps it; the programs of the creates are
walked once for all such invariants.

* `aside_publish`: serving a volume leaves names and parents alone;
* `safe_createSnapshot`, `safe_createGroup`, `safe_createClone`: the creates.
-/

namespace StormStorage

open Await Task Orchestrate

/-! ## What is left alone -/

/-- What the other records read of a volume's. -/
structure Kin where
  name : String
  cloneOf : Option CloneOf
  legless : Bool

def DistVolume.kin (v : DistVolume) : Kin := ⟨v.name, v.cloneOf, v.legs.isEmpty⟩

def FedState.kinAt (fed : FedState) (name : String) : Option Kin := (fed.volumes[name]?).map (·.kin)

/-- Names, parents and what is under way are left alone. -/
structure Aside (w w' : AppState) : Prop where
  undertakings : w'.undertakings = w.undertakings
  creations : w'.creations = w.creations
  snapshots : w'.fed.snapshots = w.fed.snapshots
  groups : w'.fed.groupSnapshots = w.fed.groupSnapshots
  kin : ∀ n, w'.fed.kinAt n = w.fed.kinAt n

theorem FedState.contains_eq (fed : FedState) (n : String) : fed.volumes.contains n = (fed.kinAt n).isSome := by
  rw [KeyMap.contains_eq, kinAt, Option.isSome_map]

theorem FedState.kinAt_insert (fed fed' : FedState) {name : String} {v : DistVolume} (n : String)
    (h : fed'.volumes = fed.volumes.insert name v) :
    fed'.kinAt n = if name = n then some v.kin else fed.kinAt n := by
  rw [kinAt, h, KeyMap.get_insert]
  split <;> rfl

section

variable {w w' : AppState} {name : String} {me : Nat}

theorem Aside.refl (w : AppState) : Aside w w := ⟨rfl, rfl, rfl, rfl, fun _ => rfl⟩

theorem aside_of_backed (h : Backed w w') : Aside w w' := by
  rw [h]
  exact ⟨rfl, rfl, rfl, rfl, fun _ => rfl⟩

theorem aside_backed {α : Type} {t : Async α} (h : t.Only Backed) : t.Only Aside := h.mono fun _ _ => aside_of_backed

theorem aside_remote {α : Type} {t : Async α} (h : t.Only Remote) : t.Only Aside := aside_backed (backed_remote h)

theorem aside_of_serves (h : Serves w w') : Aside w w' := by
  refine ⟨by rw [h.eq], by rw [h.eq], by rw [h.eq], by rw [h.eq], fun n => ?_⟩
  have hkin : ∀ fed : FedState, fed.kinAt n = ((fed.volumes[n]?).map DistVolume.bare).map DistVolume.kin := by
    intro fed
    rw [Option.map_map]
    refine congrArg (Option.map · _) (funext fun v => ?_)
    simp [DistVolume.kin, DistVolume.bare]
  rw [hkin, hkin, h.records]

/-- Serving a volume. -/
theorem aside_publish : (publish me name).Only Aside := serves_publish.mono fun _ _ => aside_of_serves

/-- Withdrawing it before its delete. -/
theorem aside_revoke {vol : DistVolume} : (revoke vol).Only Aside := serves_revoke.mono fun _ _ => aside_of_serves

end

/-! ## Letting in and recording -/

/-- Every volume's record is under its own name. -/
def Named (fed : FedState) : Prop := ∀ (n : String) v, fed.volumes[n]? = some v → v.name = n

/-- What the checks of an operation say of its undertaking. -/
structure Admitted (fed : FedState) (u : Undertaking) : Prop where
  unrecorded : u.recorded = false
  free : ∀ n ∈ u.creates, fed.taken n = false
  groupFree : ∀ g ∈ u.groups, fed.groupSnapshots.contains g = false
  /-- What is needed has legs of its own. -/
  needed : ∀ n ∈ u.needs, ∃ v, fed.volumes[n]? = some v ∧ v.cloneOf = none
  undepended : ∀ n ∈ u.deletes, fed.dependentsOf n = []

/-- Task `t` has this undertaking. -/
def Undertakes (t : Nat) (u : Undertaking) (w : AppState) : Prop := u ∈ w.undertakings ∧ u.task = t

/-- The snapshots that a commit records. -/
structure Snapped (members : List Snapshot) (groups : List String) (fed fed' : FedState) : Prop where
  volumes : fed'.volumes = fed.volumes
  names : ∀ n, fed'.snapshots.contains n = (fed.snapshots.contains n || n ∈ members.map (·.name))
  records : ∀ (n : String) s, fed'.snapshots[n]? = some s → fed.snapshots[n]? = some s ∨ s ∈ members
  groups : ∀ g, fed'.groupSnapshots.contains g = (fed.groupSnapshots.contains g || g ∈ groups)

/-- An invariant `I` kept by every step of creates that record volumes as `C`
says, along states with `ok`, where a step does no more than `G` to records. -/
structure Bookkeeping (C : DistVolume → Prop) (I ok : AppState → Prop) (G : AppState → AppState → Prop) : Prop where
  named : ∀ w, I w → Named w.fed
  aside : ∀ w w', I w → Aside w w' → ok w' → I w' ∧ G w w'
  enter : ∀ w u w', I w → Admitted w.fed u → w' = { w with undertakings := w.undertakings ++ [u] } → ok w' →
    I w' ∧ G w w'
  ended : ∀ w t w', I w → w' = { w with undertakings := w.undertakings.filter (·.task ≠ t) } → ok w' → I w' ∧ G w w'
  volume : ∀ w t u v w', I w → Undertakes t u w → u.recorded = false → v.name ∈ u.creates → C v →
    (∀ c, v.cloneOf = some c → c.parent ∈ u.needs) →
    w' = (w.recorded t [v.name] []).revise (fun fed => { fed with volumes := fed.volumes.insert v.name v }) → ok w' →
    I w' ∧ G w w'
  snapshots : ∀ w t u members groups f w', I w → Undertakes t u w → u.recorded = false →
    (∀ s ∈ members, s.name ∈ u.creates ∧ s.parent ∈ u.needs) → (∀ g ∈ groups, g ∈ u.groups) →
    Snapped members groups w.fed (f w.fed) → w' = (w.recorded t (members.map (·.name)) groups).revise f → ok w' →
    I w' ∧ G w w'

theorem contains_putSnapshots (members : List Snapshot) (fed : FedState) (n : String) :
    (Api.putSnapshots members fed).snapshots.contains n = (fed.snapshots.contains n || n ∈ members.map (·.name)) := by
  show (members.foldl (fun m s => m.insert s.name s) fed.snapshots).contains n = _
  generalize fed.snapshots = m
  induction members generalizing m with
  | nil => simp
  | cons s ss ih =>
    rw [List.foldl_cons, ih, KeyMap.contains_eq, KeyMap.get_insert, KeyMap.contains_eq, List.map_cons]
    by_cases hn : s.name = n
    · simp [hn]
    · have hn' : ¬ n = s.name := fun he => hn he.symm
      simp [hn, hn']

theorem mem_putSnapshots (members : List Snapshot) (fed : FedState) (n : String) (s : Snapshot)
    (h : (Api.putSnapshots members fed).snapshots[n]? = some s) : fed.snapshots[n]? = some s ∨ s ∈ members := by
  change (members.foldl (fun m s => m.insert s.name s) fed.snapshots)[n]? = some s at h
  generalize fed.snapshots = m at h ⊢
  induction members generalizing m with
  | nil => exact .inl h
  | cons x xs ih =>
    rcases ih _ h with h | h
    · rw [KeyMap.get_insert] at h
      split at h
      · exact .inr (Option.some.inj h ▸ List.mem_cons_self ..)
      · exact .inl h
    · exact .inr (List.mem_cons_of_mem _ h)

/-- What a task undertakes is marked once it has recorded. -/
theorem mem_recorded {t : Nat} {us : List Undertaking} {u : Undertaking}
    (h : u ∈ us.map fun i => if i.task = t then { i with recorded := true } else i) :
    ∃ i ∈ us, i.deletes = u.deletes ∧ (u.recorded = false → i = u ∧ u.task ≠ t) := by
  obtain ⟨i, hi, rfl⟩ := List.mem_map.mp h
  refine ⟨i, hi, ?_⟩
  split
  · exact ⟨rfl, fun h => nomatch h⟩
  · exact ⟨rfl, fun _ => ⟨rfl, ‹_›⟩⟩

/-- Beside the records, a task's steps leave the others' undertakings. -/
@[reducible] def requests (I ok : AppState → Prop) (G : AppState → AppState → Prop) : Discipline AppState where
  inv := I
  ok _ w' := ok w'
  guar u w w' := G w w' ∧
    ∀ t, u ≠ some t → w'.undertakings.filter (·.task = t) = w.undertakings.filter (·.task = t)

section

variable {C : DistVolume → Prop} {I ok : AppState → Prop} {G : AppState → AppState → Prop} {t : Nat} {α : Type}
  {w : AppState} {u : Undertaking} {name : String}

/-- A task of the requests that goes on beside the others. -/
abbrev RequestSafe (I ok : AppState → Prop) (G : AppState → AppState → Prop) (t : Nat) (task : Async α)
    (Q : Except Fault α → AppState → Prop) (w : AppState) : Prop := task.Safe (requests I ok G) t Q w

theorem stable_any : (requests I ok G).Stable t fun _ => True := fun _ _ _ _ _ _ _ _ => trivial

theorem stable_undertakes : (requests I ok G).Stable t (Undertakes t u) := by
  intro s s' v hv _ _ hg hs
  have hm : u ∈ s'.undertakings.filter (·.task = t) := by
    rw [hg.2 t hv]
    exact List.mem_filter.mpr ⟨hs.1, decide_eq_true hs.2⟩
  exact ⟨(List.mem_filter.mp hm).1, hs.2⟩

theorem undertakes_aside {w w' : AppState} (h : Aside w w') (hs : Undertakes t u w) : Undertakes t u w' :=
  ⟨h.undertakings ▸ hs.1, hs.2⟩

theorem filter_recorded {t' : Nat} (ht : t ≠ t') (us : List Undertaking) :
    (us.map fun i => if i.task = t then { i with recorded := true } else i).filter (·.task = t') =
      us.filter (·.task = t') := by
  induction us with
  | nil => rfl
  | cons i us ih =>
    rw [List.map_cons]
    by_cases hi : i.task = t
    · have hne : ¬ i.task = t' := fun he => ht (hi.symm.trans he)
      rw [if_pos hi, List.filter_cons_of_neg (by simpa using hne), List.filter_cons_of_neg (by simpa using hne), ih]
    · rw [if_neg hi, List.filter_cons, List.filter_cons, ih]

variable (hb : Bookkeeping C I ok G)

include hb

theorem Bookkeeping.step_aside {w w' : AppState} (v : Option Nat) (hi : I w) (h : Aside w w') (hok : ok w') :
    (requests I ok G).inv w' ∧ (requests I ok G).guar v w w' := by
  obtain ⟨hi', hg⟩ := hb.aside w w' hi h hok
  exact ⟨hi', hg, fun _ _ => by rw [h.undertakings]⟩

/-- A phase aside, whatever its task undertakes. -/
theorem safe_aside {task : Async α} (ht : task.Only Aside) (hi : I w) :
    RequestSafe I ok G t task (fun _ _ => True) w :=
  (Safe.of_only ht stable_any (fun _ _ hi _ h hok => ⟨(hb.step_aside none hi h hok).1, (hb.step_aside _ hi h hok).2,
    trivial⟩) hi trivial).mono fun _ _ _ => trivial

/-- A phase aside, under the task's undertaking. -/
theorem safe_calls {task : Async α} {Q : α → Prop} (ht : task.Only Aside) (hq : task.Answers Q) (hi : I w)
    (hu : Undertakes t u w) :
    RequestSafe I ok G t task (fun x s => Undertakes t u s ∧ ∀ a, x = .ok a → Q a) w :=
  Safe.of_answers ht hq stable_undertakes
    (fun _ _ hi hs h hok => ⟨(hb.step_aside none hi h hok).1, (hb.step_aside _ hi h hok).2, undertakes_aside h hs⟩) hi hu

theorem safe_enter {check : FedState → Except Fault α} {what : α → Undertaking} {Q : α → Prop}
    (h : ∀ fed a, Named fed → check fed = .ok a → Admitted fed (what a) ∧ (what a).task = t ∧ Q a) (hi : I w) :
    RequestSafe I ok G t (enter check what)
      (fun x s => ∀ a, x = .ok a → Undertakes t (what a) s ∧ (what a).recorded = false ∧ Q a) w := by
  refine Safe.step (P := fun _ => True) stable_any (fun s i hi _ _ hok => ?_) hi trivial
  dsimp only at hok ⊢
  split
  · rename_i a ha
    simp only [ha] at hok
    obtain ⟨hadm, htask, hq⟩ := h _ a (hb.named s hi) ha
    obtain ⟨hi', hg⟩ := hb.enter s _ _ hi hadm rfl hok
    refine ⟨hi', ⟨hg, fun t' ht' => ?_⟩, ?_⟩
    · have hne : (what a).task ≠ t' := fun he => ht' (by rw [← he, htask])
      rw [List.filter_append, List.filter_singleton, decide_eq_false hne]
      exact List.append_nil _
    · have hu : Undertakes t (what a) { s with undertakings := s.undertakings ++ [what a] } :=
        ⟨List.mem_append_right _ (List.mem_singleton_self _), htask⟩
      exact Safe.ret stable_undertakes (fun _ _ hs a' ha' => Except.ok.inj ha' ▸ ⟨hs, hadm.unrecorded, hq⟩) hi' hu
  · rename_i e he
    simp only [he] at hok
    obtain ⟨hi', hg⟩ := hb.step_aside (some t) hi (.refl s) hok
    exact ⟨hi', hg, Safe.fail stable_any (fun _ _ _ _ h => nomatch h) hi' trivial⟩

theorem safe_ended (hi : I w) : RequestSafe I ok G t (ended t) (fun _ _ => True) w := by
  refine Safe.step (P := fun _ => True) stable_any (fun s i hi _ _ hok => ?_) hi trivial
  obtain ⟨hi', hg⟩ := hb.ended s t _ hi rfl hok
  refine ⟨hi', ⟨hg, fun t' ht' => ?_⟩, Safe.ret stable_any (fun _ _ _ => trivial) hi' trivial⟩
  show (s.undertakings.filter _).filter _ = _
  rw [List.filter_filter]
  refine List.filter_congr fun x _ => ?_
  by_cases hx : x.task = t'
  · have hne : ¬ t' = t := fun he => ht' (by rw [he])
    simp [hx, hne]
  · simp [hx]

theorem safe_tracked {task : Async α} (h : RequestSafe I ok G t task (fun _ _ => True) w) (hi : I w) :
    RequestSafe I ok G t (tracked t task) (fun _ _ => True) w :=
  h.attempt_bind hi fun _ _ hi _ => safe_ended hb hi

/-- The end of a create that made a volume. -/
theorem safe_recordVolume {vol : SystemTime → DistVolume} (hi : I w) (hu : Undertakes t u w)
    (hopen : u.recorded = false) (hname : ∀ now, (vol now).name = name) (hcreates : name ∈ u.creates)
    (hC : ∀ now, C (vol now)) (hparent : ∀ now c, (vol now).cloneOf = some c → c.parent ∈ u.needs) :
    RequestSafe I ok G t (Api.recordVolume t name vol) (fun _ _ => True) w := by
  refine Safe.step stable_undertakes (fun s i hi hu _ hok => ?_) hi hu
  obtain ⟨hi', hg⟩ := hb.volume s t u (vol i.now) _ hi hu hopen ((hname i.now).symm ▸ hcreates) (hC _) (hparent _)
    (by rw [hname i.now]) hok
  refine ⟨hi', ⟨hg, fun t' ht' => filter_recorded (fun he => ht' (congrArg some he)) _⟩, ?_⟩
  exact Safe.ret stable_any (fun _ _ _ => trivial) hi' trivial

/-- The end of a create that took snapshots. -/
theorem safe_commit (members : List Snapshot) (groups : List String) {f : FedState → FedState} (hi : I w)
    (hu : Undertakes t u w) (hopen : u.recorded = false)
    (hmembers : ∀ s ∈ members, s.name ∈ u.creates ∧ s.parent ∈ u.needs) (hgroups : ∀ g ∈ groups, g ∈ u.groups)
    (hf : ∀ fed, Snapped members groups fed (f fed)) :
    RequestSafe I ok G t (Api.commit t (members.map (·.name)) groups f) (fun _ _ => True) w := by
  refine Safe.step stable_undertakes (fun s i hi hu _ hok => ?_) hi hu
  obtain ⟨hi', hg⟩ := hb.snapshots s t u members groups f _ hi hu hopen hmembers hgroups (hf _) rfl hok
  refine ⟨hi', ⟨hg, fun t' ht' => filter_recorded (fun he => ht' (congrArg some he)) _⟩, ?_⟩
  exact Safe.ret stable_any (fun _ _ _ => trivial) hi' trivial

/-! ## The creates -/

omit hb in
theorem nameFree_ok {fed : FedState} {name : String} (h : Api.nameFree fed name = .ok ()) : fed.taken name = false := by
  obtain ⟨_, -, h⟩ := check_bind.mp h
  obtain ⟨_, -, h⟩ := check_bind.mp h
  obtain ⟨_, hv, h⟩ := check_bind.mp h
  obtain ⟨_, hs, h⟩ := check_bind.mp h
  rw [require_ok] at hv hs
  simp only [decide_eq_true_eq, Bool.not_eq_true] at hv hs
  rw [FedState.taken, hv, hs]
  rfl

omit hb in
theorem asConflict_ok {x : Except Fault α} {a : α} : Api.asConflict x = .ok a ↔ x = .ok a := by
  cases x <;> simp [Api.asConflict, Except.mapError]

omit hb in
/-- The data of a volume is on a record with legs of its own. -/
theorem dataAt_ok {fed : FedState} (hn : Named fed) {n : String} {vol : DistVolume} (hv : fed.volumes[n]? = some vol)
    {place : DataAt} (h : dataAt fed vol = .ok place) :
    ∃ parent, fed.volumes[place.parent]? = some parent ∧ parent.cloneOf = none ∧ parent.name = place.parent := by
  unfold dataAt at h
  split at h
  · cases h
  · rename_i parent hp
    obtain ⟨hp, hlegs⟩ := Option.filter_eq_some_iff.mp hp
    have hin : fed.volumes[parent.name]? = some parent := by
      unfold FedState.parentOf at hp
      split at hp
      · obtain rfl := Option.some.inj hp
        rw [hn _ _ hv]
        exact hv
      · rw [hn _ _ hp]
        exact hp
    have hplace : place.parent = parent.name := by
      split at h
      all_goals first
        | cases h
        | obtain ⟨place', -, h⟩ := check_bind.mp h
          exact Except.ok.inj h ▸ rfl
    exact ⟨parent, hplace ▸ hin, Option.isNone_iff_eq_none.mp hlegs, hplace.symm⟩

omit hb in
theorem snapshotReady_ok {fed : FedState} (hn : Named fed) {name volumeId : String} {place : DataAt}
    (h : Api.snapshotReady name volumeId fed = .ok (some place)) :
    Admitted fed { task := t, creates := [name], needs := [place.parent] } := by
  unfold Api.snapshotReady at h
  split at h
  · split at h <;> cases h
  · obtain ⟨_, hfree, h⟩ := check_bind.mp h
    obtain ⟨vol, hvol, h⟩ := check_bind.mp h
    obtain ⟨place', hplace, h⟩ := check_bind.mp h
    obtain rfl := Option.some.inj (Except.ok.inj h)
    obtain ⟨parent, hp, hlegs, -⟩ := dataAt_ok hn (volumeIn_eq.mp hvol) (asConflict_ok.mp hplace)
    exact {
      unrecorded := rfl
      free := fun n hn => List.mem_singleton.mp hn ▸ nameFree_ok hfree
      groupFree := fun g hg => absurd hg List.not_mem_nil
      needed := fun n hn => List.mem_singleton.mp hn ▸ ⟨parent, hp, hlegs⟩
      undepended := fun n hn => absurd hn List.not_mem_nil }

omit hb in
theorem admitted_idle (fed : FedState) : Admitted fed { task := t } where
  unrecorded := rfl
  free _ hn := absurd hn List.not_mem_nil
  groupFree _ hg := absurd hg List.not_mem_nil
  needed _ hn := absurd hn List.not_mem_nil
  undepended _ hn := absurd hn List.not_mem_nil

theorem safe_createSnapshot {volumeId : String} (hi : I w) :
    RequestSafe I ok G t (Api.createSnapshot t name volumeId) (fun _ _ => True) w := by
  refine (safe_enter hb (Q := fun _ => True) (fun fed a hn h => ?_) hi).bind hi (fun place w hi h => ?_) fun _ _ _ => trivial
  · cases a with
    | some place => exact ⟨snapshotReady_ok hn h, rfl, trivial⟩
    | none => exact ⟨admitted_idle fed, rfl, trivial⟩
  · obtain ⟨hu, hopen, -⟩ := h place rfl
    cases place with
    | none => exact Safe.ret stable_any (fun _ _ _ => trivial) hi trivial
    | some place =>
      refine (safe_calls hb (aside_remote Api.remote_healthyHome) (answers_true _) hi hu).bind hi
        (fun _ w hi h => ?_) fun _ _ _ => trivial
      refine (safe_calls hb (aside_remote (remote_get _)) (answers_true _) hi h.1).bind hi
        (fun size w hi h => ?_) fun _ _ _ => trivial
      refine (safe_calls hb (aside_remote (only_asUpstream (Engine.remote_createVolume fun _ => rfl))) (answers_true _) hi h.1).bind hi
        (fun r w hi h => ?_) fun _ _ _ => trivial
      refine (safe_calls hb (aside_remote (remote_ask _)) (answers_true _) hi h.1).bind hi
        (fun now w hi h => ?_) fun _ _ _ => trivial
      let taken : Snapshot := {
        id := name
        name := name
        sourceVolumeId := volumeId
        sizeBytes := r.sizeBytes.getD size
        ready := r.ready.getD true
        createdAtMs := r.createdAtMs.getD now
        groupSnapshotId := none
        parent := place.parent
        node := place.node
        engineName := name
        engineId := r.id }
      refine safe_commit hb [taken] [] hi h.1 hopen (fun s hs => ?_) (fun g hg => ?_) fun fed => ?_
      · obtain rfl := List.mem_singleton.mp hs
        exact ⟨List.mem_singleton_self _, List.mem_singleton_self _⟩
      · exact absurd hg List.not_mem_nil
      · exact ⟨rfl, contains_putSnapshots [taken] fed, mem_putSnapshots [taken] fed, fun g => by simp⟩

omit hb in
/-- The group's checks, one volume after another. -/
theorem members_ok {fed : FedState} (hn : Named fed) {group : String} {volumeIds : List String} {ats : List DataAt}
    (h : (volumeIds.mapM fun v => do
      Api.nameFree fed (Api.memberName group v)
      let vol ← volumeIn fed v
      Api.asConflict (dataAt fed vol)) = .ok ats) :
    (∀ v ∈ volumeIds, fed.taken (Api.memberName group v) = false) ∧
      ∀ a ∈ ats, ∃ parent, fed.volumes[a.parent]? = some parent ∧ parent.cloneOf = none := by
  induction volumeIds generalizing ats with
  | nil =>
    obtain rfl := Except.ok.inj h
    exact ⟨fun _ hv => absurd hv List.not_mem_nil, fun _ ha => absurd ha List.not_mem_nil⟩
  | cons v vs ih =>
    rw [List.mapM_cons] at h
    obtain ⟨a, ha, h⟩ := check_bind.mp h
    obtain ⟨as, has, h⟩ := check_bind.mp h
    obtain rfl := Except.ok.inj h
    obtain ⟨hfree, hplaces⟩ := ih has
    obtain ⟨_, hname, ha⟩ := check_bind.mp ha
    obtain ⟨vol, hvol, ha⟩ := check_bind.mp ha
    obtain ⟨parent, hp, hlegs, -⟩ := dataAt_ok hn (volumeIn_eq.mp hvol) (asConflict_ok.mp ha)
    refine ⟨List.forall_mem_cons.mpr ⟨nameFree_ok hname, hfree⟩, List.forall_mem_cons.mpr ⟨⟨parent, hp, hlegs⟩, hplaces⟩⟩

omit hb in
theorem groupReady_ok {fed : FedState} (hn : Named fed) {volumeIds : List String} {ats : List DataAt}
    (h : Api.groupReady name volumeIds fed = .ok (some ats)) :
    Admitted fed {
      task := t
      creates := volumeIds.map (Api.memberName name)
      groups := [name]
      needs := ats.map (·.parent) } := by
  unfold Api.groupReady at h
  split at h
  · split at h <;> cases h
  · rename_i hnone
    obtain ⟨ats', hats, h⟩ := check_bind.mp h
    obtain rfl := Option.some.inj (Except.ok.inj h)
    obtain ⟨hfree, hplaces⟩ := members_ok hn hats
    refine ⟨rfl, fun n hm => ?_, fun g hg => ?_, fun n hm => ?_, fun _ hm => absurd hm List.not_mem_nil⟩
    · obtain ⟨v, hv, rfl⟩ := List.mem_map.mp hm
      exact hfree v hv
    · rw [List.mem_singleton.mp hg, KeyMap.contains_eq, hnone]
      rfl
    · obtain ⟨a, ha, rfl⟩ := List.mem_map.mp hm
      exact hplaces a ha

theorem safe_createGroup {volumeIds : List String} (hi : I w) :
    RequestSafe I ok G t (Api.createGroup t name volumeIds) (fun _ _ => True) w := by
  have hfail : ∀ (e : Fault) w, I w → RequestSafe I ok G t (.fail e : Async Unit) (fun _ _ => True) w :=
    fun e w hi => Safe.fail stable_any (fun _ _ _ => trivial) hi trivial
  unfold Api.createGroup
  split
  · exact hfail _ w hi
  · split
    · exact hfail _ w hi
    · refine (safe_enter hb (Q := fun _ => True) (fun fed a hn h => ?_) hi).bind hi (fun ats w hi h => ?_)
        fun _ _ _ => trivial
      · cases a with
        | some ats => exact ⟨groupReady_ok hn h, rfl, trivial⟩
        | none => exact ⟨admitted_idle fed, rfl, trivial⟩
      · obtain ⟨hu, hopen, -⟩ := h ats rfl
        cases ats with
        | none => exact Safe.ret stable_any (fun _ _ _ => trivial) hi trivial
        | some ats =>
          dsimp only [Api.takeGroup]
          split
          · exact hfail _ w hi
          · refine (safe_calls hb (aside_remote Api.remote_healthyHome) (answers_true _) hi hu).bind hi
              (fun _ w hi h => ?_) fun _ _ _ => trivial
            refine (safe_calls hb (aside_remote (only_asUpstream (remote_inquire _))) (answers_true _) hi h.1).bind hi
              (fun r w hi h => ?_) fun _ _ _ => trivial
            refine (safe_calls hb (aside_remote (remote_ask _)) (answers_true _) hi h.1).bind hi
              (fun now w hi h => ?_) fun _ _ _ => trivial
            refine (safe_calls hb (aside_remote (remote_get _)) (answers_true _) hi h.1).bind hi
              (fun sizes w hi h => ?_) fun _ _ _ => trivial
            refine safe_commit hb _ [name] hi h.1 hopen (fun s hs => ?_)
              (fun g hg => hg) fun fed => ?_
            · obtain ⟨⟨⟨v, a⟩, i⟩, hm, rfl⟩ := List.mem_map.mp hs
              obtain ⟨hv, ha⟩ := List.of_mem_zip (List.fst_mem_of_mem_zipIdx hm)
              exact ⟨List.mem_map_of_mem hv, List.mem_map_of_mem ha⟩
            · refine ⟨rfl, contains_putSnapshots _ fed, mem_putSnapshots _ fed, fun g => ?_⟩
              rw [KeyMap.contains_eq, KeyMap.get_insert, KeyMap.contains_eq]
              by_cases hg : name = g <;> simp [hg, eq_comm]

omit hb in
theorem cloneSource_ok {fed : FedState} {source : VolumeSource} {p : DistVolume × Nat}
    (h : Api.cloneSource fed source = .ok p) : ∃ n : String, fed.volumes[n]? = some p.1 := by
  unfold Api.cloneSource at h
  split at h
  · rename_i id
    obtain ⟨v, hv, h⟩ := check_bind.mp h
    exact Except.ok.inj h ▸ ⟨id, volumeIn_eq.mp hv⟩
  · split at h
    · cases h
    · split at h
      · cases h
      · exact Except.ok.inj h ▸ ⟨_, ‹_›⟩

omit hb in
theorem cloneReady_ok {fed : FedState} (hn : Named fed) {size : Nat} {source : VolumeSource} {c : Api.Cloneable}
    (h : Api.cloneReady name size source fed = .ok c) :
    Admitted fed { task := t, creates := [name], needs := [c.place.parent] } ∧ c.parent.name = c.place.parent := by
  obtain ⟨_, hfree, h⟩ := check_bind.mp h
  obtain ⟨p, hp, h⟩ := check_bind.mp h
  obtain ⟨n, hvol⟩ := cloneSource_ok hp
  obtain ⟨_, -, h⟩ := check_bind.mp h
  obtain ⟨place, hplace, h⟩ := check_bind.mp h
  obtain ⟨parent, hparent, h⟩ := check_bind.mp h
  obtain rfl := Except.ok.inj h
  obtain ⟨parent', hp', hlegs, -⟩ := dataAt_ok hn hvol (asConflict_ok.mp hplace)
  refine ⟨⟨rfl, fun n hn => ?_, fun _ hg => absurd hg List.not_mem_nil, fun n hn => ?_,
    fun _ hn => absurd hn List.not_mem_nil⟩, hn _ _ (volumeIn_eq.mp hparent)⟩
  · exact List.mem_singleton.mp hn ▸ nameFree_ok hfree
  · exact List.mem_singleton.mp hn ▸ ⟨parent', hp', hlegs⟩

/-- What follows once a create has recorded what it made. -/
theorem safe_served (hi : I w) :
    RequestSafe I ok G t (do
      let _ ← (publish t name).attempt : Async Unit) (fun _ _ => True) w :=
  (safe_aside hb aside_publish hi).attempt_bind hi fun _ _ hi _ => Safe.ret stable_any (fun _ _ _ => trivial) hi trivial

theorem safe_createClone {size : Nat} {source : VolumeSource} {hosts : List HostServe}
    (hC : ∀ v : DistVolume, v.cloneOf.isSome → C v) (hi : I w) :
    RequestSafe I ok G t (Api.createClone t name size source hosts) (fun _ _ => True) w := by
  refine (safe_enter hb (Q := fun c => c.parent.name = c.place.parent) (fun fed c hn h => ?_) hi).bind hi
    (fun c w hi h => ?_) fun _ _ _ => trivial
  · obtain ⟨hadm, hname⟩ := cloneReady_ok hn h
    exact ⟨hadm, rfl, hname⟩
  · obtain ⟨hu, hopen, hname⟩ := h c rfl
    refine Safe.bind (Q := fun _ _ => True) hi ?_ (fun _ w hi _ => safe_served hb hi) fun _ _ _ => trivial
    refine (safe_calls hb (aside_remote Api.remote_healthyHome) (answers_true _) hi hu).bind hi
      (fun _ w hi h => ?_) fun _ _ _ => trivial
    split
    · exact Safe.fail stable_any (fun _ _ _ => trivial) hi trivial
    · refine (safe_calls hb (aside_remote (only_asUpstream (Engine.remote_createVolume fun _ => rfl))) (answers_true _) hi h.1).bind hi
        (fun r w hi h => ?_) fun _ _ _ => trivial
      split
      · exact Safe.fail stable_any (fun _ _ _ => trivial) hi trivial
      · refine safe_recordVolume hb hi h.1 hopen (fun _ => rfl) (List.mem_singleton_self _) (fun _ => hC _ rfl)
          fun now x hx => ?_
        obtain rfl := Option.some.inj hx
        exact List.mem_singleton.mpr hname

omit hb in
theorem restoreReady_ok {fed : FedState} {volume point : String} {p : Api.Restorable}
    (h : Api.restoreReady volume point name fed = .ok p) : Admitted fed { task := t, creates := [name] } := by
  have hfree : fed.taken name = false := by
    unfold Api.restoreReady at h
    split at h
    · cases h
    · obtain ⟨_, -, h⟩ := check_bind.mp h
      obtain ⟨_, -, h⟩ := check_bind.mp h
      obtain ⟨_, hfree, h⟩ := check_bind.mp h
      simpa [require_ok] using hfree
  exact { admitted_idle (t := t) fed with free := fun n hn => List.mem_singleton.mp hn ▸ hfree }

theorem safe_restore {cfg : Config} {volume point : String} (hC : ∀ v : DistVolume, C v) (hi : I w) :
    RequestSafe I ok G t (Api.restore cfg t volume point name) (fun _ _ => True) w := by
  refine (safe_enter hb (Q := fun _ => True) (fun fed p hn h => ⟨restoreReady_ok h, rfl, trivial⟩) hi).bind hi
    (fun p w hi h => ?_) fun _ _ _ => trivial
  obtain ⟨hu, hopen, -⟩ := h p rfl
  refine (safe_calls hb (aside_remote (only_asUpstream (Engine.remote_createVolume fun _ => rfl))) (answers_true _) hi hu).bind hi
    (fun r w hi h => ?_) fun _ _ _ => trivial
  split
  · exact Safe.fail stable_any (fun _ _ _ => trivial) hi trivial
  · refine Safe.bind (Q := fun _ _ => True) hi ?_ (fun _ w hi _ => safe_served hb hi) fun _ _ _ => trivial
    exact safe_recordVolume hb hi h.1 hopen (fun _ => rfl) (List.mem_singleton_self _) (fun _ => hC _)
      fun now c hc => nomatch hc

omit hb in
theorem legNameFree_ok {fed : FedState} (h : Api.legNameFree name fed = .ok ()) :
    Admitted fed { task := t, creates := [name] } := by
  obtain ⟨_, hv, h⟩ := check_bind.mp h
  obtain ⟨_, hs, h⟩ := check_bind.mp h
  rw [require_ok] at hv hs
  simp only [decide_eq_true_eq, Bool.not_eq_true] at hv hs
  refine { admitted_idle (t := t) fed with free := fun n hn => List.mem_singleton.mp hn ▸ ?_ }
  rw [FedState.taken, hv, hs]
  rfl

end

end StormStorage
