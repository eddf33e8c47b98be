import StormStorage.Proof.Destination
import StormStorage.Proof.Points
import StormStorage.Proof.Schedule
import Mathlib.Data.List.Sort

/-!
# Which points are kept

The end of a ship takes a point and drops the oldest of those that the backup
has by then, but for as many as the policy keeps. A snapshot that is not dropped
stays in the record, and is tried again when the next ship ends.

* `prune_split`: what is dropped is no newer than what is not;
* `newest_keepPoints`, `finish_keeps_newest`: what a ship's end leaves;
* `points_bounded`: how many points a record has in every run.
-/

namespace StormStorage.Backups

open Await Task

/-! ## What is left of a list of points -/

/-- The newest points, and those that could not be dropped, are left. -/
structure Newest (all : List BackupPoint) (keep : Nat) (failed : List String) (left : List BackupPoint) : Prop where
  sublist : left.Sublist all
  held : ∀ p ∈ all, p.name ∈ failed → p ∈ left
  atMost : (left.filter (·.name ∉ failed)).length ≤ max keep 1
  atLeast : min all.length (max keep 1) ≤ left.length
  older : ∀ x ∈ all, x ∉ left → ∀ y ∈ left, y.name ∉ failed → x.takenAtMs ≤ y.takenAtMs

variable {all : List BackupPoint} {keep : Nat} {failed : List String}

/-- The oldest points, and the others: as many as are kept. -/
theorem prune_split (all : List BackupPoint) (keep : Nat) : ∃ rest, (prune all keep ++ rest).Perm all ∧
    rest.length = min all.length (max keep 1) ∧ ∀ d ∈ prune all keep, ∀ y ∈ rest, d.takenAtMs ≤ y.takenAtMs := by
  let sorted := all.insertionSort fun a b => a.takenAtMs ≤ b.takenAtMs
  have hlen : sorted.length = all.length := List.length_insertionSort _ all
  have hsort : (sorted.take (all.length - max keep 1) ++ sorted.drop (all.length - max keep 1)).Pairwise
      fun a b => a.takenAtMs ≤ b.takenAtMs := by
    have : Std.Total fun a b : BackupPoint => a.takenAtMs ≤ b.takenAtMs := ⟨fun a b => Int.le_total ..⟩
    have : IsTrans BackupPoint fun a b => a.takenAtMs ≤ b.takenAtMs := ⟨fun _ _ _ => Int.le_trans⟩
    rw [List.take_append_drop]
    exact List.pairwise_insertionSort _ all
  refine ⟨sorted.drop (all.length - max keep 1), ?_, ?_, (List.pairwise_append.mp hsort).2.2⟩
  · show (sorted.take (all.length - max keep 1) ++ _).Perm all
    rw [List.take_append_drop]
    exact List.perm_insertionSort _ all
  · rw [List.length_drop, hlen]
    omega

theorem mem_keepPoints_iff {dropped : List BackupPoint} {p : BackupPoint} :
    p ∈ keepPoints all dropped failed ↔ p ∈ all ∧ (p.name ∉ pointNames dropped ∨ p.name ∈ failed) := by
  simp [keepPoints, pointNames]

/-- Of any points, no more stay than are kept, beside those that could not be dropped. -/
theorem few_keepPoints (all : List BackupPoint) (keep : Nat) (failed : List String) :
    ((keepPoints all (prune all keep) failed).filter (·.name ∉ failed)).length ≤ max keep 1 := by
  obtain ⟨rest, hperm, hlen, -⟩ := prune_split all keep
  rw [keepPoints, List.filter_filter, ← List.countP_eq_length_filter, ← hperm.countP_eq, List.countP_append]
  have hgone : (prune all keep).countP (fun p => decide (p.name ∉ failed) &&
      decide ((¬ (prune all keep).any (·.name = p.name)) ∨ p.name ∈ failed)) = 0 := by
    rw [List.countP_eq_zero]
    intro p hp
    have : (prune all keep).any (·.name = p.name) = true := List.any_eq_true.mpr ⟨p, hp, decide_eq_true rfl⟩
    simp [this]
  rw [hgone, Nat.zero_add]
  have := List.countP_le_length (p := fun p => decide (p.name ∉ failed) &&
    decide ((¬ (prune all keep).any (·.name = p.name)) ∨ p.name ∈ failed)) (l := rest)
  omega

theorem newest_keepPoints (hn : (pointNames all).Nodup) (keep : Nat) (failed : List String) :
    Newest all keep failed (keepPoints all (prune all keep) failed) := by
  obtain ⟨rest, hperm, hlen, hle⟩ := prune_split all keep
  have hnames : (pointNames (prune all keep) ++ pointNames rest).Nodup := by
    rw [pointNames, pointNames, ← List.map_append]
    exact (hperm.map BackupPoint.name).nodup_iff.mpr hn
  have hapart := (List.nodup_append.mp hnames).2.2
  -- a name that is not dropped is one of the rest's
  have hrest : ∀ p ∈ rest, p.name ∉ pointNames (prune all keep) := fun p hp hm =>
    hapart _ hm _ (List.mem_map_of_mem hp) rfl
  refine ⟨List.filter_sublist, fun p hp hf => mem_keepPoints_iff.mpr ⟨hp, .inr hf⟩, few_keepPoints all keep failed, ?_,
    fun x hx hgone y hy hyf => ?_⟩
  · rw [← hlen, keepPoints, ← List.countP_eq_length_filter, ← hperm.countP_eq, List.countP_append]
    refine Nat.le_trans (Nat.le_of_eq (List.countP_eq_length.mpr fun p hp => ?_).symm) (Nat.le_add_left _ _)
    have := hrest p hp
    simpa [pointNames] using Or.inl this
  · have hdropped : x.name ∈ pointNames (prune all keep) := by
      by_contra hne
      exact hgone (mem_keepPoints_iff.mpr ⟨hx, .inl hne⟩)
    have hx' : x ∈ prune all keep := by
      rcases List.mem_append.mp (hperm.mem_iff.mpr hx) with h | h
      · exact h
      · exact absurd hdropped (hrest x h)
    obtain ⟨hy, hkept⟩ := mem_keepPoints_iff.mp hy
    have hy' : y ∈ rest := by
      rcases List.mem_append.mp (hperm.mem_iff.mpr hy) with h | h
      · exact absurd (List.mem_map_of_mem h) (hkept.resolve_right hyf)
      · exact h
    exact hle x hx' y hy'

/-! ## The end of a ship -/

section

variable {me : Nat} {name node : String} {r : Reading} {job : ShipJob} {n : Int} {p : BackupPoint}
  {tr tr' : List (Moment Reply AppState)} {m : Moment Reply AppState} {b : Backup}

/-- Among these moments the point's snapshot was to be dropped, with this outcome. -/
def Tried (node : String) (tr : List (Moment Reply AppState)) (p : BackupPoint) (x : Async Unit) : Prop :=
  ∃ tr₁ tr₂ tr₃, tr = tr₁ ++ tr₂ ++ tr₃ ∧ Among (dropSnapshot node p.name p.engineId) tr₂ x

theorem Tried.after {x : Async Unit} (h : Tried node tr p x) : Tried node (tr' ++ tr) p x := by
  obtain ⟨tr₁, tr₂, tr₃, rfl, h⟩ := h
  exact ⟨tr' ++ tr₁, tr₂, tr₃, by simp [List.append_assoc], h⟩

theorem Tried.before {x : Async Unit} (h : Tried node tr p x) : Tried node (tr ++ tr') p x := by
  obtain ⟨tr₁, tr₂, tr₃, rfl, h⟩ := h
  exact ⟨tr₁, tr₂, tr₃ ++ tr', by simp [List.append_assoc], h⟩

/-- Each point's drop came to its end, or its failure is told. -/
structure Drops (node : String) (tr : List (Moment Reply AppState)) (points : List BackupPoint)
    (failed : List String) : Prop where
  gone : ∀ p ∈ points, p.name ∉ failed → Tried node tr p (.ret ())
  failed : ∀ f ∈ failed, ∃ p ∈ points, p.name = f ∧ ∃ e, Tried node tr p (.fail e)

theorem drops_dropAll {points : List BackupPoint} {failed : List String}
    (h : Among (dropAll node points) tr (.ret failed)) : Drops node tr points failed := by
  induction points generalizing tr failed with
  | nil =>
    obtain ⟨-, he⟩ := among_ret.mp h
    obtain rfl := Task.ret.inj he
    exact ⟨fun p hp => absurd hp List.not_mem_nil, fun f hf => absurd hf List.not_mem_nil⟩
  | cons p ps ih =>
    obtain ⟨tr₁, tr₂, x, rfl, h₁, h₂⟩ := h.ret_bind
    obtain ⟨tr₃, tr₄, fs, rfl, h₃, h₄⟩ := h₂.ret_bind
    obtain ⟨t₁, htried, hx⟩ := h₁.of_attempt
    have hps := ih h₃
    have hlater : ∀ q x, Tried node tr₃ q x → Tried node (tr₁ ++ (tr₃ ++ tr₄)) q x := fun _ _ hq => hq.before.after
    have hhere : ∀ x, Among (dropSnapshot node p.name p.engineId) tr₁ x → Tried node (tr₁ ++ (tr₃ ++ tr₄)) p x :=
      fun _ hp => ⟨[], tr₁, tr₃ ++ tr₄, rfl, hp⟩
    cases x with
    | ok u =>
      obtain ⟨-, he⟩ := among_ret.mp h₄
      obtain rfl := Task.ret.inj he
      refine ⟨fun q hq hf => ?_, fun f hf => ?_⟩
      · rcases List.mem_cons.mp hq with rfl | hq
        · exact hhere _ h₁.attempt_ok
        · exact hlater _ _ (hps.gone q hq hf)
      · obtain ⟨q, hq, hn, e, he⟩ := hps.failed f hf
        exact ⟨q, List.mem_cons_of_mem _ hq, hn, e, hlater _ _ he⟩
    | error e =>
      obtain ⟨-, he⟩ := among_ret.mp h₄
      obtain rfl := Task.ret.inj he
      refine ⟨fun q hq hf => ?_, fun f hf => ?_⟩
      · rcases List.mem_cons.mp hq with rfl | hq
        · exact absurd (List.mem_cons_self ..) hf
        · exact hlater _ _ (hps.gone q hq fun hm => hf (List.mem_cons_of_mem _ hm))
      · rcases List.mem_cons.mp hf with rfl | hf
        · refine ⟨p, List.mem_cons_self .., rfl, e, hhere _ ?_⟩
          have hfail : t₁ = .fail e := by
            cases t₁ with
            | ret a => exact nomatch Task.ret.inj hx
            | fail e' => exact congrArg Task.fail (Except.error.inj (Task.ret.inj hx)).symm
            | step r u n => exact nomatch hx
          exact hfail ▸ htried
        · obtain ⟨q, hq, hn, e', he'⟩ := hps.failed f hf
          exact ⟨q, List.mem_cons_of_mem _ hq, hn, e', hlater _ _ he'⟩

/-- What the end of a ship that went through these moments leaves of the points
that it read and the one that it took: the newest and those whose drop failed.
Every other one was dropped. -/
def LeavesNewest (name node : String) (r : Reading) (job : ShipJob) (tr : List (Moment Reply AppState)) : Prop :=
  ∃ tr₀ m taken failed, tr = tr₀ ++ [m] ∧ taken.name = pointName name job.snapshot.takenAtMs ∧
    taken.takenAtMs = job.snapshot.takenAtMs ∧
    (∀ f ∈ failed, ∃ p ∈ r.backup.points ++ [taken], p.name = f ∧ ∃ e, Tried node tr p (.fail e)) ∧
    ∀ b, m.after.fed.backups[name]? = some b →
      Newest (r.backup.points ++ [taken]) r.policy.keep failed b.points ∧
        ∀ p ∈ r.backup.points ++ [taken], p ∉ b.points → Tried node tr p (.ret ())

/-- A ship's end leaves the newest points, whatever the others do meanwhile. -/
theorem finish_keeps_newest (h : Among (finish me name node r job n) tr (.ret ()))
    (hn : (pointNames r.backup.points ++ [pointName name job.snapshot.takenAtMs]).Nodup) :
    LeavesNewest name node r job tr := by
  obtain ⟨tr₁, tr₂, _, rfl, -, h⟩ := h.ret_bind
  obtain ⟨tr₃, tr₄, item, rfl, -, h⟩ := h.ret_bind
  obtain ⟨tr₅, tr₆, failed, rfl, hdrops, h⟩ := h.ret_bind
  obtain ⟨tr₇, tr₈, _, rfl, -, h⟩ := h.ret_bind
  let taken : BackupPoint :=
    { name := pointName name job.snapshot.takenAtMs, takenAtMs := job.snapshot.takenAtMs, engineId := item.id }
  have hd : Drops node (tr₁ ++ (tr₃ ++ (tr₅ ++ (tr₇ ++ tr₈)))) (prune (r.backup.points ++ [taken]) r.policy.keep) failed := by
    have hd := drops_dropAll hdrops
    exact ⟨fun p hp hf => (hd.gone p hp hf).before.after.after, fun f hf => by
      obtain ⟨p, hp, hn, e, he⟩ := hd.failed f hf
      exact ⟨p, hp, hn, e, he.before.after.after⟩⟩
  obtain ⟨tr₉, m, rfl, hwritten⟩ := endsWith_recordPoints _ _ h
  have hsub : ∀ p ∈ prune (r.backup.points ++ [taken]) r.policy.keep, p ∈ r.backup.points ++ [taken] := fun p hp => by
    obtain ⟨rest, hperm, -⟩ := prune_split (r.backup.points ++ [taken]) r.policy.keep
    exact hperm.mem_iff.mp (List.mem_append_left _ hp)
  have hnames : (pointNames (r.backup.points ++ [taken])).Nodup := by
    rw [pointNames, List.map_append]
    exact hn
  refine ⟨tr₁ ++ (tr₃ ++ (tr₅ ++ (tr₇ ++ tr₉))), m, taken, failed, by simp [List.append_assoc], rfl, rfl, fun f hf => ?_,
    fun b hb => ?_⟩
  · obtain ⟨p, hp, hn, he⟩ := hd.failed f hf
    exact ⟨p, hsub p hp, hn, he⟩
  · obtain ⟨b₀, rfl⟩ := hwritten b hb
    refine ⟨newest_keepPoints hnames r.policy.keep failed, fun p hp hgone => ?_⟩
    have hkept : ¬ (p.name ∉ pointNames (prune (r.backup.points ++ [taken]) r.policy.keep) ∨ p.name ∈ failed) :=
      fun hk => hgone (mem_keepPoints_iff.mpr ⟨hp, hk⟩)
    rw [not_or, Decidable.not_not] at hkept
    obtain ⟨q, hq, hname⟩ := List.mem_map.mp hkept.1
    have hpq : q = p := List.inj_on_of_nodup_map hnames (hsub q hq) hp hname
    exact hpq ▸ hd.gone q hq (hname ▸ hkept.2)

end

/-- The backup that has a point and a ship in flight, of a policy that keeps one. -/
def keepOne : AppState := backedUp.setFed fun fed => { fed with
  backups := fed.backups.map fun _ b => { b with policy := b.policy.map fun p => { p with keep := 1 } } }

/-- The older point's snapshot is found, and deleted. -/
def shipEnds : List Reply :=
  [{}, { made := "p5", item := { id := some "p5", name := none } },
    { items := [{ id := some "p", name := some "v-bk-1" }] }, {}, {}]

/-- The ship that is done. -/
def doneShip : ShipJob where
  id := "j"
  snapshot := { node := "a", engineName := "v-ship-5", engineId := none, takenAtMs := 5 }
  bytesTotal := 1
  bytesDone := 1

def shipReading : Reading where
  backup := (keepOne.fed.backups["v"]?).getD (Api.freshBackup "v" 1)
  policy := { pool := none, tier := none, node := none, intervalSecs := 3600, keep := 1 }
  place := { node := "a", engineName := "v", masterNode := none, parent := "v" }
  volBytes := 1

theorem finish_keeps_newest_one : ∃ tr, Among (finish 0 "v" "b" shipReading doneShip 9) tr (.ret ()) ∧
    LeavesNewest "v" "b" shipReading doneShip tr := by
  have h := among_moments (finish 0 "v" "b" shipReading doneShip 9) shipEnds keepOne
  have hend : ((finish 0 "v" "b" shipReading doneShip 9).rest shipEnds keepOne).Ended := by decide +kernel
  have hok : ((finish 0 "v" "b" shipReading doneShip 9).rest shipEnds keepOne).failing = false := by decide +kernel
  cases hrest : (finish 0 "v" "b" shipReading doneShip 9).rest shipEnds keepOne with
  | ret u =>
    rw [hrest] at h
    exact ⟨_, h, finish_keeps_newest h (by decide +kernel)⟩
  | fail e =>
    rw [hrest] at hok
    exact nomatch hok
  | step r u n =>
    rw [hrest] at hend
    exact hend.elim

/-! ## Every run -/

/-- The snapshot of this name was to be dropped at a ship's end, and was not. -/
def stuck (log : List Event) (name n : String) : Bool :=
  log.any fun
    | .pointed v _ _ failed _ => v = name ∧ n ∈ failed
    | _ => false

/-- Beside those that could not be dropped a record names `K` points at most,
and no policy asks for more. -/
structure Bounded (K : Nat) (w : AppState) : Prop where
  asked : ∀ (name : String) b p, w.fed.backups[name]? = some b → b.policy = some p → p.keep ≤ K
  few : ∀ (name : String) b, w.fed.backups[name]? = some b → (b.points.filter (! stuck w.log name ·.name)).length ≤ K

/-- A step that takes no point, and puts no policy. -/
structure Sheds (w w' : AppState) : Prop where
  log : w.log ⊆ w'.log
  backups : ∀ (name : String) b', w'.fed.backups[name]? = some b' → ∃ b, w.fed.backups[name]? = some b ∧
    b'.points.Sublist b.points ∧ (b'.policy = b.policy ∨ b'.policy = none)

section

variable {K : Nat} {cfg : Config} {me : Nat} {w w' : AppState} {name node : String} {r : Reading} {n : Int} {α : Type}

theorem stuck_mono {log log' : List Event} (h : log ⊆ log') {n : String} (hs : stuck log name n = true) :
    stuck log' name n = true := by
  obtain ⟨e, he, hs⟩ := List.any_eq_true.mp hs
  exact List.any_eq_true.mpr ⟨e, h he, hs⟩

/-- Fewer points count where more could not be dropped. -/
theorem few_sublist {log log' : List Event} (h : log ⊆ log') {points points' : List BackupPoint}
    (hp : points'.Sublist points) :
    (points'.filter (! stuck log' name ·.name)).length ≤ (points.filter (! stuck log name ·.name)).length := by
  refine Nat.le_trans ?_ (hp.filter (! stuck log name ·.name)).length_le
  rw [← List.countP_eq_length_filter, ← List.countP_eq_length_filter]
  refine List.countP_mono_left fun p _ hs => ?_
  rw [Bool.not_eq_true'] at hs ⊢
  exact Bool.eq_false_iff.mpr fun ht => Bool.eq_false_iff.mp hs (stuck_mono h ht)

theorem Bounded.sheds (h : Bounded K w) (hs : Sheds w w') : Bounded K w' := by
  refine ⟨fun m b' p hb' hp => ?_, fun m b' hb' => ?_⟩
  · obtain ⟨b, hb, -, he | he⟩ := hs.backups m b' hb'
    · exact h.asked m b p hb (he ▸ hp)
    · exact nomatch he.symm.trans hp
  · obtain ⟨b, hb, hsub, -⟩ := hs.backups m b' hb'
    exact Nat.le_trans (few_sublist hs.log hsub) (h.few m b hb)

theorem sheds_of_eq (hb : w'.fed.backups = w.fed.backups) (hl : w.log ⊆ w'.log) : Sheds w w' :=
  ⟨hl, fun _ b' hb' => ⟨b', hb ▸ hb', List.Sublist.refl _, .inl rfl⟩⟩

theorem sheds_remote (h : Remote w w') : Sheds w w' := sheds_of_eq (by rw [h.fed]) h.log

theorem sheds_insert {b b' : Backup} (hb : w.fed.backups[name]? = some b) (hp : b'.points.Sublist b.points)
    (hpol : b'.policy = b.policy ∨ b'.policy = none) (hw : w'.fed.backups = w.fed.backups.insert name b')
    (hl : w.log ⊆ w'.log) : Sheds w w' := by
  refine ⟨hl, fun m u hu => ?_⟩
  rw [hw, KeyMap.get_insert] at hu
  split at hu
  · obtain rfl := Option.some.inj hu
    exact ⟨b, ‹name = m› ▸ hb, hp, hpol⟩
  · exact ⟨u, hu, List.Sublist.refl _, .inl rfl⟩

/-- A phase that keeps the bound whatever it is answered. -/
abbrev Bounds (K : Nat) (t : Async α) : Prop := t.Keeps (Bounded K) (fun _ _ => True) fun _ => True

theorem bounds_sheds {t : Async α} (h : t.Only Sheds) : Bounds K t :=
  Keeps.of_only (fun _ _ hi hs => hi.sheds hs) h

theorem bounds_remote {t : Async α} (h : t.Only Remote) : Bounds K t := bounds_sheds (h.mono fun _ _ => sheds_remote)

theorem bounds_update {f : Backup → Backup} (hf : ∀ b, (f b).points = b.points ∧ (f b).policy = b.policy) :
    Bounds K (update name f) := by
  refine bounds_sheds (only_atomic fun _ w => ?_)
  dsimp only
  split
  · exact sheds_remote (.refl w)
  · exact sheds_insert ‹_› (by rw [(hf _).1]) (.inl (hf _).2) rfl (List.Subset.refl _)

/-! ### A pass over the backups -/

theorem bounds_recordPoints {read : List BackupPoint} {point : BackupPoint} {failed : List String} {keep : Nat}
    {f : Backup → Backup} (hf : ∀ b, (f b).policy = b.policy) (hK : max keep 1 ≤ K) :
    Bounds K (recordPoints name read point (prune (read ++ [point]) keep) failed f) := by
  refine keeps_modify fun w hi _ => ?_
  have hnoted : Bounded K (w.note (.pointed name (pointNames read) (pointNames (prune (read ++ [point]) keep)) failed
      point.name)) := hi.sheds (sheds_of_eq rfl (List.subset_append_left _ _))
  dsimp only
  split
  · exact hnoted
  · rename_i b hb
    refine ⟨fun m u p hu hp => ?_, fun m u hu => ?_⟩
    · simp only [AppState.revise, AppState.setFed, KeyMap.get_insert] at hu
      split at hu
      · obtain rfl := Option.some.inj hu
        exact hi.asked name b p hb ((hf b).symm.trans hp)
      · exact hnoted.asked m u p hu hp
    · simp only [AppState.revise, AppState.setFed, KeyMap.get_insert] at hu
      split at hu
      · rename_i he
        obtain rfl := Option.some.inj hu
        subst he
        refine Nat.le_trans (Nat.le_trans ?_ (few_keepPoints (read ++ [point]) keep failed)) hK
        rw [← List.countP_eq_length_filter, ← List.countP_eq_length_filter]
        refine List.countP_mono_left fun p _ hs => decide_eq_true fun hm => ?_
        -- what could not be dropped is noted in this step
        rw [Bool.not_eq_true'] at hs
        refine Bool.eq_false_iff.mp hs (List.any_eq_true.mpr ⟨_, List.mem_append_right _ (List.mem_singleton_self _), ?_⟩)
        exact decide_eq_true ⟨rfl, hm⟩
      · exact hnoted.few m u hu

theorem bounds_finish {job : ShipJob} (hK : max r.policy.keep 1 ≤ K) : Bounds K (finish me name node r job n) := by
  refine Keeps.bind (bounds_remote (only_atomic fun _ w => remote_note w _)) fun _ _ => ?_
  refine Keeps.bind (bounds_remote (only_withContext (Engine.remote_createVolume fun _ => rfl))) fun p _ => ?_
  refine Keeps.bind (bounds_remote (remote_dropAll _)) fun failed _ => ?_
  exact Keeps.bind (bounds_remote remote_dropBase) fun _ _ => bounds_recordPoints (fun _ => rfl) hK

theorem bounds_followJob {job : ShipJob} (hK : max r.policy.keep 1 ≤ K) : Bounds K (followJob me name node r job n) := by
  unfold followJob
  split
  · exact Keeps.bind (bounds_update fun _ => ⟨rfl, rfl⟩) fun _ _ => trivial
  · refine Keeps.bind (bounds_remote (remote_inquire _)) fun read _ => ?_
    dsimp only
    split
    · exact bounds_update fun _ => ⟨rfl, rfl⟩
    · split
      · exact bounds_finish hK
      · refine Keeps.bind (bounds_remote Api.remote_dropSnapshot.attempt) fun _ _ => ?_
        exact Keeps.bind (bounds_update fun _ => ⟨rfl, rfl⟩) fun _ _ => trivial

theorem bounds_ship {snapshot : ShipSnapshot} : Bounds K (ship name r snapshot) := by
  refine Keeps.bind (bounds_remote (remote_inquire _).attempt) fun x _ => ?_
  split
  · trivial
  · exact bounds_update fun _ => ⟨rfl, rfl⟩
  · refine Keeps.bind (bounds_remote Api.remote_dropSnapshot.attempt) fun _ _ => ?_
    split
    · exact bounds_update fun _ => ⟨rfl, rfl⟩
    · trivial

theorem bounds_stepOn (hK : max r.policy.keep 1 ≤ K) : Bounds K (stepOn cfg me name node r n) := by
  refine Keeps.bind (bounds_remote remote_engine) fun _ _ => ?_
  split
  · refine Keeps.bind (bounds_remote (only_withContext (Engine.remote_createVolume fun _ => rfl))) fun v _ => ?_
    split
    · trivial
    · exact bounds_update fun _ => ⟨rfl, rfl⟩
  · split
    · refine Keeps.bind (bounds_remote (only_withContext Engine.remote_attachLeg)) fun _ _ => ?_
      exact bounds_update fun _ => ⟨rfl, rfl⟩
    · split
      · refine Keeps.bind (bounds_remote (only_withContext Engine.remote_act)) fun _ _ => ?_
        exact bounds_update fun _ => ⟨rfl, rfl⟩
      · split
        · exact bounds_followJob hK
        · split
          · trivial
          · refine Keeps.bind (bounds_remote (only_withContext (Engine.remote_createVolume fun _ => rfl))) fun _ _ => ?_
            exact bounds_ship

theorem bounds_pickNode : Bounds K (pickNode cfg name r) := by
  refine Keeps.bind (bounds_remote (remote_get _)) fun picks _ => ?_
  split
  · refine bounds_sheds (only_atomic fun _ w => ?_)
    dsimp only
    split
    · exact sheds_remote (.refl w)
    · rename_i b hb
      refine sheds_insert hb ?_ ?_ rfl (List.Subset.refl _)
      · exact List.Sublist.refl _
      · exact .inl rfl
  · trivial

/-- The policy that a step reads is one that was put. -/
theorem readBackup_policy {fed : FedState} (h : readBackup name fed = .ok (some r)) :
    ∃ b, fed.backups[name]? = some b ∧ b.policy = some r.policy := by
  unfold readBackup at h
  split at h
  · exact nomatch h
  · rename_i b hb
    cases hv : fed.volumes[name]? with
    | none =>
      simp only [hv] at h
      exact nomatch h
    | some vol =>
      simp only [hv] at h
      obtain ⟨_, -, h⟩ := check_bind.mp h
      obtain ⟨place, -, h⟩ := check_bind.mp h
      split at h
      · rename_i p hp
        obtain rfl := Option.some.inj (Except.ok.inj h)
        exact ⟨b, hb, hp⟩
      · exact nomatch h

theorem bounds_step (hK : 0 < K) : Bounds K (step cfg me name n) := by
  refine Keeps.bind (keeps_get (Q := fun x => ∀ r, x = .ok (some r) → r.policy.keep ≤ K) fun w hi r hr => ?_) fun x hx => ?_
  · obtain ⟨b, hb, hp⟩ := readBackup_policy hr
    exact hi.asked name b _ hb hp
  · refine Keeps.bind (keeps_ofExcept (Q := fun o => ∀ r, o = some r → r.policy.keep ≤ K) fun o ho r hr => ?_) fun o ho => ?_
    · exact hx r (hr ▸ ho)
    · split
      · trivial
      · have hkeep := ho _ rfl
        split
        · exact bounds_pickNode
        · exact bounds_stepOn (by omega)

theorem bounds_run (hK : 0 < K) : Bounds K (run cfg me) := by
  refine Keeps.bind (bounds_remote (only_atomic fun _ w => .refl w)) fun x _ => Keeps.forEach fun name _ => ?_
  refine Keeps.bind (bounds_sheds (only_atomic fun _ w => ?_)) fun mine _ => ?_
  · split
    · exact sheds_remote (.refl w)
    · exact sheds_of_eq rfl (List.Subset.refl _)
  · split
    · refine Keeps.bind (bounds_step hK).attempt fun r _ => ?_
      refine Keeps.bind (bounds_sheds (only_atomic fun _ w => sheds_of_eq rfl (List.Subset.refl _))) fun _ _ => ?_
      split
      · trivial
      · exact Keeps.bind (bounds_remote (remote_get _)) fun _ _ => bounds_update fun _ => ⟨rfl, rfl⟩
    · trivial

/-! ### Requests -/

/-- A put leaves the points. -/
theorem withPolicy_points {policy : BackupPolicy} {now : SystemTime} {b' : Backup}
    (h : Api.withPolicy w.fed name policy now = .ok b') :
    b'.points = ((w.fed.backups[name]?).map (·.points)).getD [] := by
  obtain ⟨_, -, h⟩ := check_bind.mp h
  obtain ⟨v, -, h⟩ := check_bind.mp h
  obtain ⟨_, -, h⟩ := check_bind.mp h
  obtain ⟨_, -, h⟩ := check_bind.mp h
  obtain rfl := Except.ok.inj h
  cases w.fed.backups[name]? <;> rfl

theorem bounds_putPolicy {body : Api.PolicyBody} (hK : body.policy.keep ≤ K) : Bounds K (Api.putPolicy cfg name body) := by
  unfold Api.putPolicy
  dsimp only
  split
  · trivial
  · split
    · trivial
    · split
      · trivial
      · refine Keeps.bind (keeps_atomic (Q := fun _ => True) fun i w hi _ => ?_) fun x _ => keeps_ofExcept fun _ _ => trivial
        split
        · rename_i b hb
          refine ⟨⟨fun m u p hu hp => ?_, fun m u hu => ?_⟩, trivial⟩
          · simp only [AppState.revise, AppState.setFed, KeyMap.get_insert] at hu
            split at hu
            · obtain rfl := Option.some.inj hu
              obtain rfl := Option.some.inj ((withPolicy_checks hb).1.symm.trans hp)
              exact hK
            · exact hi.asked m u p hu hp
          · simp only [AppState.revise, AppState.setFed, KeyMap.get_insert] at hu
            split at hu
            · rename_i he
              obtain rfl := Option.some.inj hu
              subst he
              rw [(withPolicy_points hb)]
              cases hold : w.fed.backups[name]? with
              | none => exact Nat.zero_le _
              | some b₀ => exact hi.few name b₀ hold
            · exact hi.few m u hu
        · exact ⟨hi, trivial⟩

theorem bounds_deletePoint {point : String} : Bounds K (Api.deletePoint name point) := by
  refine Keeps.bind (bounds_remote (remote_get _)) fun x _ => Keeps.bind (keeps_ofExcept fun _ _ => trivial) fun found _ => ?_
  split
  · trivial
  · refine Keeps.bind (bounds_remote (only_asUpstream Api.remote_dropSnapshot)) fun _ _ => ?_
    refine bounds_sheds (only_atomic fun _ w => ?_)
    have hl : w.log ⊆ (w.note (.pointDeleted name point)).log := List.subset_append_left _ _
    cases hb : w.fed.backups[name]? with
    | none => exact sheds_of_eq (by simp [AppState.revise, AppState.setFed, AppState.note, hb]) hl
    | some b =>
      let shed : Backup := { b with points := b.points.filter (·.name ≠ point) }
      have hsub : shed.points.Sublist b.points := List.filter_sublist
      refine sheds_insert hb hsub (.inl rfl) ?_ hl
      simp [AppState.revise, AppState.setFed, AppState.note, hb, shed]

theorem bounds_stop {purged : Bool} : Bounds K (Api.stop name purged) := by
  refine Keeps.bind (bounds_sheds (only_atomic fun _ w => ?_)) fun b _ => ?_
  · split
    · exact sheds_remote (.refl w)
    · rename_i b hb
      refine sheds_insert hb ?_ ?_ rfl (List.Subset.refl _)
      · exact List.Sublist.refl _
      · exact .inr rfl
  · split
    · trivial
    · split
      · refine Keeps.bind (bounds_remote Api.remote_purge) fun _ _ => bounds_sheds (only_atomic fun _ w => ?_)
        refine ⟨List.subset_append_left _ _, fun m b' hb' => ?_⟩
        simp only [AppState.revise, AppState.setFed, AppState.note, KeyMap.get_erase] at hb'
        split at hb'
        · cases hb'
        · exact ⟨b', hb', List.Sublist.refl _, .inl rfl⟩
      · trivial

end

/-- A put of a policy that keeps at most `K` points, a pass over the backups, a
delete of a point, or a stop. -/
def Asks (K : Nat) : VolumeOp → Prop
  | .policy _ body => body.policy.keep ≤ K
  | .backups | .deletePoint .. | .stopBackup .. => True
  | _ => False

theorem bounds_program {K : Nat} (hK : 0 < K) {cfg : Config} {me : Nat} {op : VolumeOp} (h : Asks K op) :
    Bounds K (program cfg me op) := by
  cases op with
  | policy name body => exact bounds_putPolicy h
  | backups => exact bounds_run hK
  | deletePoint volume point => exact bounds_deletePoint
  | stopBackup name purged => exact bounds_stop
  | _ => exact h.elim

/-- In every run in which no policy asks for more than `K` points, a record names
no more than these, beside points whose snapshots could not be dropped. -/
theorem points_bounded {K : Nat} {cfg : Config} {p₀ p : Pool Reply AppState Fault} (hK : 0 < K)
    (h₀ : Bounded K p₀.state) (ht : p₀.tasks = [])
    (h : (operations cfg (Asks K)).Run (fun _ _ => True) p₀ p) {name : String} {b : Backup}
    (hb : p.state.fed.backups[name]? = some b) : (b.points.filter (! stuck p.state.log name ·.name)).length ≤ K := by
  have hall : Bounded K p.state := by
    refine System.Run.keeps (S := operations cfg (Asks K)) (fun t op => bounds_program hK op.2) (fun nodes w hi _ => ?_)
      h₀ ht h
    exact ⟨hi.asked, hi.few⟩
  exact hall.few name b hb

/-- A pass that finds the ship done. -/
def passOnce : List (Move Reply { op // Asks 1 op } (KeyMap Node)) :=
  .start ⟨.backups, trivial⟩ :: List.replicate 4 (.run 0 {}) ++
    .run 0 { ship := some { state := "done" } } :: shipEnds.map (.run 0 ·)

theorem bounded_keepOne : Bounded 1 keepOne := by
  have hget : ∀ (m : String) b, keepOne.fed.backups[m]? = some b →
      b.points.length = 1 ∧ b.policy.all (·.keep ≤ 1) = true := by
    intro m b hb
    simp only [keepOne, backedUp, AppState.setFed, Std.ExtTreeMap.getElem?_map, KeyMap.get_insert] at hb
    split at hb
    · obtain rfl := Option.some.inj hb
      exact ⟨rfl, rfl⟩
    · simp at hb
  refine ⟨fun m b p hb hp => ?_, fun m b hb => ?_⟩
  · have := (hget m b hb).2
    rw [hp] at this
    exact of_decide_eq_true this
  · exact Nat.le_trans (List.length_filter_le _ _) (Nat.le_of_eq (hget m b hb).1)

theorem points_bounded_one : ∃ (p : Pool Reply AppState Fault) (b : Backup),
    (operations plainConfig (Asks 1)).Run (fun _ _ => True) ⟨keepOne, []⟩ p ∧ p.state.fed.backups["v"]? = some b ∧
      pointNames b.points = ["v-bk-5"] ∧ (b.points.filter (! stuck p.state.log "v" ·.name)).length ≤ 1 := by
  have hr : (operations plainConfig (Asks 1)).Run (fun _ _ => True) ⟨keepOne, []⟩
      ((operations plainConfig (Asks 1)).final (fun _ _ => true) ⟨keepOne, []⟩ passOnce) :=
    System.run_final (fun _ _ _ => trivial) (by decide +kernel)
  obtain ⟨b, hb, hp⟩ := Option.any_eq_true _ _ |>.mp (show (((operations plainConfig (Asks 1)).final (fun _ _ => true)
    ⟨keepOne, []⟩ passOnce).state.fed.backups["v"]?).any (fun b => pointNames b.points = ["v-bk-5"]) = true by decide +kernel)
  exact ⟨_, b, hr, hb, of_decide_eq_true hp, points_bounded (by decide) bounded_keepOne rfl hr hb⟩

end StormStorage.Backups
