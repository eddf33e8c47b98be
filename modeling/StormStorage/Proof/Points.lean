import StormStorage.Proof.Points.Held
import StormStorage.Proof.Volumes.Degraded

/-!
# Points, neither resurrected nor leaked

The programs of a ship's end, a delete of a point and a purge, side by side.

* `safe_dropSnapshot`: a snapshot that was dropped is gone;
* `safe_createPoint`, `Rewrites.named`, `Rewrites.gone`: a ship's end makes a
  snapshot, and writes what is there and nothing that was deleted;
* `Writes.shed`: a delete and a purge write points off that are gone;
* `points_kept`: every run.
-/

namespace StormStorage.Backups

open Await Task

section

variable {α : Type} {w w' : AppState} {t : Nat} {v n node name : String} {P R : AppState → Prop}

/-! ## What others leave alone -/

/-- Kept by other tasks, and by plain steps. -/
structure Firm (t : Nat) (P : AppState → Prop) : Prop where
  stable : pointsDiscipline.Stable t P
  plain : ∀ w w', Plain w w' → P w → P w'

/-- Where `P` holds, other tasks make no snapshot of the point. -/
def Fixed (t : Nat) (v n : String) (P : AppState → Prop) : Prop :=
  ∀ s s' u, u ≠ some t → PointsGuar u s s' → P s → ∀ node id, PointOn s' v n node id → PointOn s v n node id

/-- No snapshot of these points is on the node. -/
def Absent (v : String) (ns : List String) (node : String) (w : AppState) : Prop :=
  ∀ n ∈ ns, ∀ id, ¬ PointOn w v n node id

/-- What holds after an answer, and after a failure. -/
def Post (A : α → AppState → Prop) (B : AppState → Prop) : Except Fault α → AppState → Prop
  | .ok a, s => A a s
  | .error _, s => B s

theorem firm_const (p : Prop) : Firm t fun _ => p := ⟨Discipline.stable_const p, fun _ _ _ h => h⟩

theorem firm_claiming {o : Option String} : Firm t (Claiming t o) := ⟨stable_claiming, fun _ _ h => h.claiming⟩

theorem firm_under (hR : ∀ w w', Shrinks v w w' → R w → R w') : Firm t (Under t v R) :=
  ⟨stable_under hR, fun w w' h hs => ⟨h.claiming hs.1, hR w w' (h.shrinks v) hs.2⟩⟩

theorem Firm.and {P' : AppState → Prop} (h : Firm t P) (h' : Firm t P') : Firm t fun s => P s ∧ P' s :=
  ⟨h.stable.and h'.stable, fun w w' hp hs => ⟨h.plain w w' hp hs.1, h'.plain w w' hp hs.2⟩⟩

theorem fixed_under : Fixed t v n (Under t v R) := fun _ _ _ hu hg h node id hp =>
  (hg.alone v _ ((h.1 v).mpr rfl) hu).points n node id hp

theorem fixed_used : Fixed t v n (Used · v n) := fun _ _ _ _ hg h node id hp =>
  (hg.fresh v n node id hp).resolve_right (not_not_intro h)

theorem Fixed.mono {P' : AppState → Prop} (h : Fixed t v n P) (hp : ∀ s, P' s → P s) : Fixed t v n P' :=
  fun s s' u hu hg hs => h s s' u hu hg (hp s hs)

theorem Firm.absent {ns : List String} (hP : Firm t P) (hf : ∀ n ∈ ns, Fixed t v n P) :
    Firm t fun s => P s ∧ Absent v ns node s := by
  refine ⟨fun s s' u hu hi hi' hg h => ⟨hP.stable s s' u hu hi hi' hg h.1, fun n hn id hp => ?_⟩,
    fun s s' hs h => ⟨hP.plain s s' hs h.1, fun n hn id hp => h.2 n hn id (hs.kept hp)⟩⟩
  exact h.2 n hn id (hf n hn s s' u hu hg h.1 node id hp)

/-- A phase of plain steps. -/
theorem safe_plain {task : Async α} (hP : Firm t P) (ht : task.Only Plain) (hi : PointsInv w) (hs : P w) :
    PointsSafe t task (fun _ s => P s) w :=
  (Safe.of_only ht hP.stable (fun s s' hi hs h _ => ⟨h.inv hi, h.guar _, hP.plain s s' h hs⟩) hi hs).mono fun _ _ h => h.2

theorem safe_ret {a : α} (hP : Firm t P) (hi : PointsInv w) (hs : P w) : PointsSafe t (.ret a) (fun _ s => P s) w :=
  Safe.ret hP.stable (fun _ _ h => h) hi hs

theorem safe_fail {e : Fault} (hP : Firm t P) (hi : PointsInv w) (hs : P w) :
    PointsSafe t (.fail e : Async α) (fun _ s => P s) w :=
  Safe.fail hP.stable (fun _ _ h => h) hi hs

theorem safe_withContext {A : α → AppState → Prop} {B : AppState → Prop} {task : Async α} {what : String}
    (hA : ∀ a, Firm t (A a)) (hB : Firm t B) (h : PointsSafe t task (Post A B) w) (hi : PointsInv w) :
    PointsSafe t (withContext what task) (Post A B) w := by
  refine h.attempt_bind hi fun x s hi hs => ?_
  cases x with
  | ok a => exact Safe.ret (hA a).stable (fun _ _ h => h) hi hs
  | error e => exact Safe.fail hB.stable (fun _ _ h => h) hi hs

theorem safe_asUpstream {A : α → AppState → Prop} {B : AppState → Prop} {task : Async α} {what : String}
    (hA : ∀ a, Firm t (A a)) (hB : Firm t B) (h : PointsSafe t task (Post A B) w) (hi : PointsInv w) :
    PointsSafe t (Api.asUpstream what task) (Post A B) w := by
  refine (safe_withContext hA hB h hi).attempt_bind hi fun x s hi hs => ?_
  cases x with
  | ok a => exact Safe.ret (hA a).stable (fun _ _ h => h) hi hs
  | error e => exact Safe.fail hB.stable (fun _ _ h => h) hi hs

/-! ## Dropping snapshots -/

theorem mem_ids {name id : String} {items : List EngineItem}
    (h : id ∈ items.filterMap fun v => if v.name = some name then v.id else none) :
    ∃ x ∈ items, x.name = some name ∧ x.id = some id := by
  obtain ⟨x, hx, he⟩ := List.mem_filterMap.mp h
  split at he
  · exact ⟨x, hx, ‹_›, he⟩
  · cases he

theorem noted_append {w' : AppState} {es : List Event} (h : w'.log = w.log ++ es) : noted w w' = es := by
  rw [noted, h, List.drop_left]

theorem answers_append {w' : AppState} {as : List IdAnswer} (h : w'.answered = w.answered ++ as) : answers w w' = as := by
  rw [answers, h, List.drop_left]

/-- What an honest list says of the volume of that name. -/
theorem listed_honest {i : Reply} (hw : i.wire = .answered) (ho : Honest w ((w.heard node i).noteUnlisted node name i)) :
    (∀ id, id ∈ (i.items.filterMap fun v => if v.name = some name then v.id else none) →
      ∀ id', Live w node name id' → id' = id) ∧
    ((i.items.filterMap fun v => if v.name = some name then v.id else none) = [] → ∀ id, ¬ Live w node name id) := by
  have hanswers : answers w ((w.heard node i).noteUnlisted node name i) =
      i.items.filterMap (fun v => do some ⟨node, ← v.name, ← v.id⟩) := by
    refine answers_append ?_
    rw [AppState.noteUnlisted_answered, AppState.heard, hw]
  constructor
  · rintro id hid id' ⟨e, he, hn, hm, rfl, hd⟩
    obtain ⟨x, hx, hxn, hxi⟩ := mem_ids hid
    have hmem : (⟨node, name, id⟩ : IdAnswer) ∈ answers w ((w.heard node i).noteUnlisted node name i) := by
      rw [hanswers]
      exact List.mem_filterMap.mpr ⟨x, hx, by simp [hxn, hxi]⟩
    refine ho.answered _ hmem e ?_ hn hm hd
    unfold AppState.noteUnlisted AppState.heard
    rw [hw]
    dsimp only
    split <;> exact he
  · rintro hnone id ⟨e, he, hn, hm, -, hd⟩
    have hany : (i.items.any fun v => v.name = some name ∧ v.id.isSome) = false := by
      rw [List.any_eq_false]
      intro x hx hc
      obtain ⟨hxn, hxi⟩ := of_decide_eq_true hc
      obtain ⟨id', hid⟩ := Option.isSome_iff_exists.mp hxi
      have hmem : id' ∈ i.items.filterMap fun v => if v.name = some name then v.id else none :=
        List.mem_filterMap.mpr ⟨x, hx, by rw [if_pos hxn, hid]⟩
      rw [hnone] at hmem
      exact absurd hmem List.not_mem_nil
    have hnoted : noted w ((w.heard node i).noteUnlisted node name i) = [.unlisted node name] := by
      refine noted_append ?_
      unfold AppState.noteUnlisted AppState.heard
      simp only [hw, hany]
      rfl
    have hdel := ho.unlisted (.unlisted node name) (by rw [hnoted]; exact List.mem_singleton_self _) e he (by rw [hn, hm])
    rw [hd] at hdel
    cases hdel

/-- The id that is found is that of the point's snapshot; if none is, there is no
snapshot. -/
def Finds (v n node : String) (x : Except Fault String) (s : AppState) : Prop :=
  (∀ found, x = .ok found → ∀ id, PointOn s v n node id → id = found) ∧
    ∀ e, x = .error e → e.isNotFound = true → Absent v [n] node s

theorem Fixed.finds (hP : Firm t P) (hf : Fixed t v n P) (x : Except Fault String) :
    pointsDiscipline.Stable t fun s => P s ∧ Finds v n node x s := by
  intro s s' u hu hi hi' hg h
  refine ⟨hP.stable s s' u hu hi hi' hg h.1, fun found hx id hp => ?_, fun e hx he m hm id hp => ?_⟩
  · exact h.2.1 found hx id (hf s s' u hu hg h.1 node id hp)
  · obtain rfl := List.mem_singleton.mp hm
    exact h.2.2 e hx he m hm id (hf s s' u hu hg h.1 node id hp)

theorem safe_localVolumeId (hP : Firm t P) (hf : Fixed t v n P) (hi : PointsInv w) (hs : P w) :
    PointsSafe t (Engine.localVolumeId node n) (fun x s => P s ∧ Finds v n node x s) w := by
  refine Safe.step hP.stable (fun s i hi hs _ hok => ?_) hi hs
  have hp : Plain s ((s.heard node i).noteUnlisted node n i) := (plain_heard s node i).trans (plain_noteUnlisted _ node n i)
  have hi' := hp.inv hi
  have hs' := hP.plain _ _ hp hs
  have hfail {e : Fault} (he : e.isNotFound = false) : PointsSafe t (.fail e : Async String)
      (fun x s => P s ∧ Finds v n node x s) ((s.heard node i).noteUnlisted node n i) := by
    refine Safe.fail (hf.finds hP _) (fun _ _ h => h) hi' ⟨hs', fun _ hx => ?_, fun e' hx hgone => ?_⟩
    · cases hx
    · cases hx
      rw [he] at hgone
      cases hgone
  refine ⟨hi', hp.guar _, ?_⟩
  cases hw : i.wire with
  | answered =>
    obtain ⟨hids, hnone⟩ := listed_honest hw (Careful.toHonest hok)
    dsimp only
    split
    · exact hfail rfl
    · cases he : i.items.filterMap fun v => if v.name = some n then v.id else none with
      | nil =>
        refine Safe.fail (hf.finds hP _) (fun _ _ h => h) hi' ⟨hs', fun _ hx => ?_, fun _ _ _ m hm id hpoint => ?_⟩
        · cases hx
        · obtain rfl := List.mem_singleton.mp hm
          exact hnone he id (hp.kept hpoint).2
      | cons id ids =>
        cases ids with
        | nil =>
          refine Safe.ret (hf.finds hP _) (fun _ _ h => h) hi' ⟨hs', fun _ hx id' hpoint => ?_, fun _ hx => ?_⟩
          · obtain rfl := Except.ok.inj hx
            exact hids id (by rw [he]; exact List.mem_singleton_self _) id' (hp.kept hpoint).2
          · cases hx
        | cons _ _ => exact hfail rfl
  | refused => exact hfail rfl
  | lost => exact hfail rfl

/-- A snapshot that was dropped is gone. -/
theorem safe_dropSnapshot {eid : Option String} (hP : Firm t P) (hf : Fixed t v n P) (hi : PointsInv w) (hs : P w) :
    PointsSafe t (dropSnapshot node n eid) (Post (fun _ s => P s ∧ Absent v [n] node s) P) w := by
  have hplain : (deleteById node eid).Only Plain := by
    cases eid with
    | none => trivial
    | some id => exact plain_deleteVolume
  have habsent : Firm t fun s => P s ∧ Absent v [n] node s := hP.absent (by simpa using hf)
  refine (safe_plain hP hplain hi hs).bind hi (fun _ s hi hs => ?_) fun _ _ hs => hs
  refine (safe_localVolumeId hP hf hi hs).attempt_bind hi fun x s hi hs => ?_
  cases x with
  | ok found =>
    refine safe_callOr (hf.finds hP _) (fun x => ?_) (fun s i hi hs _ => ?_) hi hs
    · cases x with
      | ok _ => exact habsent.stable
      | error _ => exact hP.stable
    · have hp : Plain s (i.wire.effect (s.destroyOn node found) (id s)) := by
        cases i.wire with
        | refused => exact .refl s
        | answered => exact plain_of_eq rfl rfl rfl fun _ _ _ => live_destroyOn
        | lost => exact plain_of_eq rfl rfl rfl fun _ _ _ => live_destroyOn
      have hs' := hP.plain _ _ hp hs.1
      refine ⟨⟨hp.inv hi, hp.guar _⟩, ?_⟩
      cases hw : i.wire with
      | answered =>
        rw [hw] at hp hs'
        refine ⟨hs', fun m hm id hpoint => ?_⟩
        obtain rfl := List.mem_singleton.mp hm
        obtain rfl := hs.2.1 found rfl id (hp.kept hpoint)
        exact not_live_destroyOn hpoint.2
      | refused => exact hs.1
      | lost =>
        rw [hw] at hs'
        exact hs'
  | error e =>
    dsimp only
    split
    · rename_i he
      exact Safe.ret habsent.stable (fun _ _ h => h) hi ⟨hs.1, hs.2.2 e rfl he⟩
    · exact Safe.fail hP.stable (fun _ _ h => h) hi hs.1

/-- Of the points that are dropped, those that are not said to be left are gone. -/
theorem safe_dropAll {ps : List BackupPoint} (hP : Firm t P) (hf : ∀ n, Fixed t v n P) (hi : PointsInv w) (hs : P w) :
    PointsSafe t (dropAll node ps) (Post (fun failed s => P s ∧
      Absent v ((pointNames ps).filter (· ∉ failed)) node s) fun _ => False) w := by
  induction ps generalizing P w with
  | nil => exact Safe.ret hP.stable (fun _ _ h => ⟨h, fun _ hn => absurd hn List.not_mem_nil⟩) hi hs
  | cons p ps ih =>
    refine (safe_dropSnapshot hP (hf p.name) hi hs).attempt_bind hi fun x s hi hs => ?_
    cases x with
    | ok _ =>
      have hfirm : Firm t fun s => P s ∧ Absent v [p.name] node s := hP.absent fun n _ => hf n
      refine (ih hfirm (fun n => (hf n).mono fun _ h => h.1) hi hs).bind hi (fun failed s hi hs => ?_) fun _ _ h => h
      refine Safe.ret (hfirm.absent fun n _ => (hf n).mono fun _ h => h.1).stable (fun s _ h => ?_) hi hs
      refine ⟨h.1.1, fun n hn => ?_⟩
      obtain ⟨hn, hkept⟩ := List.mem_filter.mp hn
      rcases List.mem_cons.mp hn with rfl | hn
      · exact h.1.2 _ (List.mem_singleton_self _)
      · exact h.2 n (List.mem_filter.mpr ⟨hn, hkept⟩)
    | error e =>
      refine (ih hP hf hi hs).bind hi (fun failed s hi hs => ?_) fun _ _ h => h
      refine Safe.ret (hP.absent fun n _ => hf n).stable (fun s _ h => ⟨h.1, fun n hn => ?_⟩) hi hs
      obtain ⟨hn, hkept⟩ := List.mem_filter.mp hn
      have hkept := of_decide_eq_true hkept
      rw [List.mem_cons, not_or] at hkept
      rcases List.mem_cons.mp hn with rfl | hn
      · exact absurd rfl hkept.1
      · exact h.2 n (List.mem_filter.mpr ⟨hn, decide_eq_true hkept.2⟩)

/-! ## A ship's end -/

/-- The record is as it was read, but for points that were deleted since. -/
structure AsRead (v : String) (r : Reading) (w : AppState) : Prop where
  record : ∀ b, w.fed.backups[v]? = some b → b.node = r.backup.node ∧ pointNames b.points ⊆ pointNames r.backup.points
  used : ∀ n ∈ pointNames r.backup.points, Used w v n

/-- The snapshots of points are of names that are in use, but for `made`. -/
def Known (v : String) (made : Option (String × String)) (w : AppState) : Prop :=
  ∀ n node id, PointOn w v n node id → Used w v n ∨ made = some (node, n)

/-- A point's name is not in use yet. -/
structure Fresh (v : String) (made : Option (String × String)) (r : Reading) (n : String) (w : AppState) : Prop where
  read : AsRead v r w
  known : Known v made w
  fresh : ¬ Used w v n

variable {r : Reading} {made : Option (String × String)}

theorem AsRead.shrinks (hr : AsRead v r w) (h : Shrinks v w w') : AsRead v r w' where
  record b' hb' := by
    obtain ⟨b, hb, hnode, hpoints⟩ := h.record b' hb'
    obtain ⟨hn, hp⟩ := hr.record b hb
    exact ⟨hnode.trans hn, List.Subset.trans hpoints hp⟩
  used n hn := (h.used n).mpr (hr.used n hn)

theorem Known.shrinks (hk : Known v made w) (h : Shrinks v w w') : Known v made w' := fun n node id hp =>
  (hk n node id (h.points n node id hp)).imp_left (h.used n).mpr

theorem Fresh.shrinks (hf : Fresh v made r n w) (h : Shrinks v w w') : Fresh v made r n w' :=
  ⟨hf.read.shrinks h, hf.known.shrinks h, fun hu => hf.fresh ((h.used n).mp hu)⟩

theorem firm_known : Firm t (Under t v (Known v made)) := firm_under fun _ _ h hk => hk.shrinks h

theorem firm_fresh : Firm t (Under t v (Fresh v made r n)) := firm_under fun _ _ h hf => hf.shrinks h

theorem firm_read : Firm t (Under t v fun s => Known v none s ∧ AsRead v r s) :=
  firm_under fun _ _ h hs => ⟨hs.1.shrinks h, hs.2.shrinks h⟩

/-- The claim's holder makes the snapshot of a point. -/
theorem PlainBut.make (h : PlainBut (some (node, n)) w w') (hn : ∃ taken, n = pointName v taken) (hi : PointsInv w)
    (hs : Under t v (Fresh v none r n) w) :
    PointsInv w' ∧ PointsGuar (some t) w w' ∧ Under t v (Fresh v (some (node, n)) r n) w' := by
  obtain ⟨hc, hf⟩ := hs
  -- what is made is of this volume alone
  have hpoint : ∀ v' m x id, PointOn w' v' m x id → PointOn w v' m x id ∨ v' = v ∧ m = n ∧ x = node := by
    intro v' m x id hp
    rcases h.points v' m x id hp with hp' | he
    · exact .inl hp'
    · obtain ⟨rfl, rfl⟩ := Prod.mk.inj (Option.some.inj he)
      obtain ⟨taken, hn⟩ := hn
      obtain ⟨taken', hn'⟩ := hp.1
      exact .inr ⟨pointName_volume (hn'.symm.trans hn), rfl, rfl⟩
  have hother : ∀ v', v' ≠ v → Shrinks v' w w' := fun v' hne =>
    ⟨fun m x id hp => (hpoint v' m x id hp).resolve_right fun h => hne h.1, h.used v', fun b' hb' =>
      have ⟨b, hb, hnode, hpoints⟩ := h.read hb'
      ⟨b, hb, hnode, hpoints ▸ List.Subset.refl _⟩⟩
  refine ⟨⟨h.gone hi, fun v' m x id hp hu => ?_, fun v' hv' m x id hp => ?_⟩, ⟨fun v' m => (h.used v' m).mpr,
    fun v' m x id hp => ?_, fun v' c hv' _ => by rwa [h.replacing], fun v' c hv' => .inl (by rwa [h.replacing] at hv'),
    fun v' c hv' hu => hother v' (not_claiming hc hv' hu)⟩, h.claiming hc, ⟨⟨fun b' hb' => ?_, fun m hm => ?_⟩,
      fun m x id hp => ?_, fun hu => hf.fresh ((h.used v n).mp hu)⟩⟩
  · rw [h.namedOn]
    rw [h.used] at hu
    rcases hpoint v' m x id hp with hp | ⟨rfl, rfl, rfl⟩
    · exact hi.named v' m x id hp hu
    · exact absurd hu hf.fresh
  · rw [h.used]
    rw [h.replacing] at hv'
    rcases hpoint v' m x id hp with hp | ⟨rfl, -, -⟩
    · exact hi.free v' hv' m x id hp
    · rw [(hc v').mpr rfl] at hv'
      cases hv'
  · rcases hpoint v' m x id hp with hp | ⟨rfl, rfl, -⟩
    · exact .inl hp
    · exact .inr hf.fresh
  · obtain ⟨b, hb, hnode, hpoints⟩ := h.read hb'
    obtain ⟨hbn, hbp⟩ := hf.read.record b hb
    exact ⟨hnode.trans hbn, hpoints ▸ hbp⟩
  · exact (h.used v m).mpr (hf.read.used m hm)
  · rw [h.used]
    rcases hpoint v m x id hp with hp | ⟨-, rfl, rfl⟩
    · exact .inl ((hf.known m x id hp).resolve_right (by simp))
    · exact .inr rfl

/-- What a create leaves, and answers. -/
def created (me : Nat) (node n : String) (i : Reply) (w : AppState) : AppState :=
  if i.names then (w.createOn me node n false i.made).told node n (w.createdId node n i.made)
  else (w.createOn me node n false i.made).noteLeft .unanswered fun e => e.node = node ∧ w.given node e.id = false

theorem created_but (me : Nat) (node n : String) (i : Reply) (w : AppState) :
    PlainBut (some (node, n)) w (created me node n i w) := by
  have hc : PlainBut (some (node, n)) w (w.createOn me node n false i.made) :=
    plain_createOn w me node n false i.made (.inr rfl)
  unfold created
  split
  · exact hc.trans (plain_told _ _ _ _)
  · exact hc.trans (plain_noteLeft _ _ _)

theorem createOn_answered (w : AppState) (me : Nat) (node n given : String) :
    (w.createOn me node n false given).answered = w.answered := by
  unfold AppState.createOn
  split
  · rfl
  · split <;> rfl

/-- Nothing is told by a create that names no volume. -/
theorem created_answered {i : Reply} (h : i.names = false ∨ w.createdId node n i.made = none) :
    (created t node n i w).answered = w.answered := by
  unfold created
  split
  · rename_i hnames
    rw [h.resolve_left (by simp [hnames])]
    simp [AppState.told, createOn_answered]
  · unfold AppState.noteLeft
    split <;> exact createOn_answered ..

/-- A snapshot that is made is answered, so that a create that fails made none. -/
theorem safe_createPoint (hn : ∃ taken, n = pointName v taken) (hi : PointsInv w) (hs : Under t v (Fresh v none r n) w) :
    PointsSafe t (Engine.createSnapshot t node n) (Post (fun _ => Under t v (Fresh v (some (node, n)) r n))
      (Under t v (Fresh v none r n))) w := by
  refine safe_callOr firm_fresh.stable (fun x => ?_) (fun s i hi hs hok => ?_) hi hs
  · cases x <;> exact firm_fresh.stable
  · change Careful s (i.wire.effect (created t node n i s) s) at hok
    change (PointsInv (i.wire.effect (created t node n i s) s) ∧
      PointsGuar (some t) s (i.wire.effect (created t node n i s) s)) ∧ Post _ _ _ (i.wire.effect (created t node n i s) s)
    have hbut := created_but t node n i s
    cases hw : i.wire with
    | refused => exact ⟨⟨hi, (PlainBut.refl s).guar _⟩, hs⟩
    | lost =>
      rw [hw] at hok
      have hp : Plain s (created t node n i s) := hbut.unanswered hok (created_answered (.inl (by simp [Reply.names, hw])))
      exact ⟨⟨hp.inv hi, hp.guar _⟩, firm_fresh.plain _ _ hp hs⟩
    | answered =>
      rw [hw] at hok
      cases hid : s.createdId node n i.made with
      | some id =>
        obtain ⟨hi', hg, hs'⟩ := hbut.make hn hi hs
        exact ⟨⟨hi', hg⟩, hs'⟩
      | none =>
        have hp : Plain s (created t node n i s) := hbut.unanswered hok (created_answered (.inr hid))
        exact ⟨⟨hp.inv hi, hp.guar _⟩, firm_fresh.plain _ _ hp hs⟩

theorem mem_keepPoints {points dropped : List BackupPoint} {failed : List String} :
    n ∈ pointNames (keepPoints points dropped failed) ↔
      n ∈ pointNames points ∧ (n ∉ pointNames dropped ∨ n ∈ failed) := by
  simp only [pointNames, keepPoints, List.mem_map, List.mem_filter, List.any_eq_true, decide_eq_true_eq]
  constructor
  · rintro ⟨p, ⟨hp, hk⟩, rfl⟩
    exact ⟨⟨p, hp, rfl⟩, hk.imp_left fun h ⟨q, hq, he⟩ => h ⟨q, hq, he⟩⟩
  · rintro ⟨⟨p, hp, rfl⟩, hk⟩
    exact ⟨p, ⟨hp, hk.imp_left fun h ⟨q, hq, he⟩ => h ⟨q, hq, he⟩⟩, rfl⟩

/-- The point's snapshot is taken, and of the dropped points those are left that
are said to be. -/
def Swept (v node : String) (r : Reading) (n : String) (dropped : List BackupPoint) (failed : List String)
    (w : AppState) : Prop :=
  Fresh v (some (node, n)) r n w ∧ Absent v ((pointNames dropped).filter (· ∉ failed)) node w

theorem firm_swept {dropped : List BackupPoint} {failed : List String} :
    Firm t (Under t v (Swept v node r n dropped failed)) :=
  firm_under fun _ _ h hs => ⟨hs.1.shrinks h, fun n hn id hp => hs.2 n hn id (h.points n node id hp)⟩

/-- A ship's end writes the points: those that it read and the one that it took,
without the dropped ones. -/
structure Rewrites (v : String) (r : Reading) (point : BackupPoint) (dropped : List BackupPoint) (failed : List String)
    (w w' : AppState) : Prop
    extends Writes v [.pointed v (pointNames r.backup.points) (pointNames dropped) failed point.name] w w' where
  record : ∃ b b', w.fed.backups[v]? = some b ∧ w'.fed.backups[v]? = some b' ∧ b'.node = b.node ∧
    b'.points = keepPoints (r.backup.points ++ [point]) dropped failed
  /-- What is kept of those that it read is there still. -/
  there : ∀ n ∈ pointNames r.backup.points, n ∉ pointNames dropped ∨ n ∈ failed → n ∈ recordedPoints w v

namespace Rewrites

variable {point : BackupPoint} {dropped : List BackupPoint} {failed : List String} {id : String}

theorem mem_recorded (h : Rewrites v r point dropped failed w w') : n ∈ recordedPoints w' v ↔
    (n ∈ pointNames r.backup.points ∨ n = point.name) ∧ (n ∉ pointNames dropped ∨ n ∈ failed) := by
  obtain ⟨b, b', -, hb', -, hpoints⟩ := h.record
  rw [recordedPoints, hb', Option.map_some, Option.getD_some, hpoints, mem_keepPoints, pointNames, List.map_append,
    List.mem_append]
  exact and_congr_left' (or_congr_right List.mem_singleton)

theorem used_written (h : Rewrites v r point dropped failed w w') (hn : n ∈ pointNames r.backup.points ∨ n = point.name) :
    Used w' v n := by
  rw [h.used_iff]
  exact .inr (.inr ⟨_, List.mem_singleton_self _, decide_eq_true ⟨rfl, hn.symm.imp_left Eq.symm⟩⟩)

theorem used (h : Rewrites v r point dropped failed w w') (hr : AsRead v r w) (hu : Used w v n) : Used w' v n := by
  obtain ⟨b, b', hb, -⟩ := h.record
  rcases hu with hu | hu
  · rw [recordedPoints, hb] at hu
    exact h.used_written (.inl ((hr.record b hb).2 hu))
  · exact h.used_iff.mpr (.inr (.inl hu))

/-- Every snapshot that is there is written. -/
theorem named (h : Rewrites v r point dropped failed w w') (hi : PointsInv w) (hnode : r.backup.node = some node)
    (hs : Swept v node r point.name dropped failed w) {x : String} (hp : PointOn w v n x id) : NamedOn w' v n x := by
  obtain ⟨b, b', hb, hb', hsame, hpoints⟩ := h.record
  obtain ⟨hread, hsub⟩ := hs.1.read.record b hb
  have hmem : x = node ∧ (n ∈ pointNames r.backup.points ∨ n = point.name) := by
    rcases hs.1.known n x id hp with hu | hm
    · obtain ⟨b₀, hb₀, hx, hn⟩ := hi.named v n x id hp hu
      obtain rfl := Option.some.inj (hb.symm.trans hb₀)
      exact ⟨Option.some.inj (hx.symm.trans (hread.trans hnode)), .inl (hsub hn)⟩
    · obtain ⟨rfl, rfl⟩ := Prod.mk.inj (Option.some.inj hm)
      exact ⟨rfl, .inr rfl⟩
  obtain ⟨rfl, hn⟩ := hmem
  have hrec : n ∈ recordedPoints w' v := by
    refine h.mem_recorded.mpr ⟨hn, ?_⟩
    by_contra hlost
    obtain ⟨hd, hnf⟩ := not_or.mp hlost
    exact hs.2 n (List.mem_filter.mpr ⟨not_not.mp hd, decide_eq_true hnf⟩) id hp
  rw [recordedPoints, hb'] at hrec
  exact ⟨b', hb', hsame.trans (hread.trans hnode), hrec⟩

/-- What was deleted was read, and is not there any more. -/
theorem gone (h : Rewrites v r point dropped failed w w') (hi : PointsInv w) (hfresh : ¬ Used w v point.name)
    (hn : .pointDeleted v n ∈ w'.log) : n ∉ recordedPoints w' v := by
  intro hmem
  have hdel : .pointDeleted v n ∈ w.log := by
    rw [h.log] at hn
    rcases List.mem_append.mp hn with hn | hn
    · exact hn
    · exact absurd (List.mem_singleton.mp hn) (by simp)
  obtain ⟨hin | rfl, hkeep⟩ := h.mem_recorded.mp hmem
  · exact hi.gone v n hdel (h.there n hin hkeep)
  · exact hfresh (.inr ⟨_, hdel, by simp [namesPoint]⟩)

end Rewrites

/-- The points are written where the record is there, with those that are kept. -/
theorem rewrites_of_careful {point : BackupPoint} {dropped : List BackupPoint} {failed : List String} {f : Backup → Backup}
    (hf : ∀ b, (f b).node = b.node)
    (hw : w' = let w := w.note (.pointed v (pointNames r.backup.points) (pointNames dropped) failed point.name)
      match w.fed.backups[v]? with
      | none => w
      | some b => w.revise fun fed => { fed with
          backups := fed.backups.insert v { f b with points := keepPoints (r.backup.points ++ [point]) dropped failed } })
    (hok : Careful w w') : Rewrites v r point dropped failed w w' := by
  set e : Event := .pointed v (pointNames r.backup.points) (pointNames dropped) failed point.name with he
  have hlog : w'.log = w.log ++ [e] := by
    rw [hw]
    dsimp only
    split <;> rfl
  obtain ⟨hthere, hread⟩ := hok.pointed _ _ _ _ _ (by rw [noted_append hlog]; exact List.mem_singleton_self e)
  rw [KeyMap.contains_eq] at hthere
  obtain ⟨b, hb⟩ := Option.isSome_iff_exists.mp hthere
  have hb₀ : (w.note e).fed.backups[v]? = some b := hb
  simp only [hb₀] at hw
  subst hw
  refine ⟨⟨hlog, fun x hx v' n hn => ?_, rfl, rfl, fun v' hne => KeyMap.get_insert_ne _ _ (Ne.symm hne)⟩,
    ⟨b, _, hb, KeyMap.get_insert_self .., hf b, rfl⟩, hread⟩
  rw [List.mem_singleton.mp hx] at hn
  exact (of_decide_eq_true hn).1.symm

theorem safe_recordPoints {point : BackupPoint} {dropped : List BackupPoint} {failed : List String} {f : Backup → Backup}
    (hf : ∀ b, (f b).node = b.node) (hnode : r.backup.node = some node) (hi : PointsInv w)
    (hs : Under t v (Swept v node r point.name dropped failed) w) :
    PointsSafe t (recordPoints v r.backup.points point dropped failed f) (fun _ s => Under t v (Known v none) s) w := by
  refine Safe.step firm_swept.stable (fun s _ hi hs _ hok => ?_) hi hs
  obtain ⟨hc, hswept⟩ := hs
  have hfresh := hswept.1
  have h := rewrites_of_careful hf rfl hok
  obtain ⟨hi', hg⟩ := h.kept (t := t) hi (fun n => h.used hfresh.read) (fun n => h.gone hi hfresh.fresh)
    (fun n x id hp _ => h.named hi hnode hswept hp) (.inr hc)
  refine ⟨hi', hg, Safe.ret firm_known.stable (fun _ _ h => h) hi' ⟨h.claiming hc, fun n x id hp => .inl ?_⟩⟩
  rcases hfresh.known n x id (h.pointOn.mp hp) with hu | hm
  · exact h.used hfresh.read hu
  · exact h.used_written (.inr (Prod.mk.inj (Option.some.inj hm)).2.symm)

theorem plain_dropBase {base : Option ShipSnapshot} : (dropBase name base).Only Plain := by
  unfold dropBase
  split
  · trivial
  · exact only_ignore plain_dropSnapshot

theorem total_dropBase {base : Option ShipSnapshot} : (dropBase name base).Total := by
  unfold dropBase
  split
  · trivial
  · exact (total_attempt _).bind fun _ => trivial

variable {cfg : Config} {now : Int} {job : ShipJob}

theorem safe_finish (hnode : r.backup.node = some node) (hi : PointsInv w)
    (hs : Under t v (fun s => Known v none s ∧ AsRead v r s) w) :
    PointsSafe t (finish t v node r job now) (fun _ s => Under t v (Known v none) s) w := by
  have hweak : ∀ s, Under t v (Fresh v none r (pointName v job.snapshot.takenAtMs)) s → Under t v (Known v none) s :=
    fun s h => ⟨h.1, h.2.known⟩
  have htake : PointsSafe t (.modify fun s => s.note (.taking v (pointName v job.snapshot.takenAtMs)) : Async Unit)
      (fun _ => Under t v (Fresh v none r (pointName v job.snapshot.takenAtMs))) w := by
    refine Safe.step firm_read.stable (fun s _ hi hs _ hok => ?_) hi hs
    have hp : Plain s (s.note (.taking v (pointName v job.snapshot.takenAtMs))) := plain_note s rfl
    have hfresh : ¬ Used s v (pointName v job.snapshot.takenAtMs) :=
      Careful.taking hok v _ (by rw [noted_append rfl]; exact List.mem_singleton_self _)
    have hs' := firm_read.plain _ _ hp hs
    exact ⟨hp.inv hi, hp.guar _, Safe.ret firm_fresh.stable (fun _ _ h => h) (hp.inv hi)
      ⟨hs'.1, hs'.2.2, hs'.2.1, fun hu => hfresh ((hp.used v _).mp hu)⟩⟩
  refine htake.bind hi (fun _ s hi hs => ?_) fun _ => hweak
  refine (safe_withContext (fun _ => firm_fresh) firm_fresh (safe_createPoint ⟨_, rfl⟩ hi hs) hi).bind hi
    (fun p s hi hs => ?_) fun _ => hweak
  refine (safe_dropAll (v := v) firm_fresh (fun _ => fixed_under) hi hs).bind hi
    (fun failed s hi hs => ?_) fun _ _ h => h.elim
  refine Safe.bind_total hi total_dropBase (safe_plain firm_swept plain_dropBase hi ⟨hs.1.1, hs.1.2, hs.2⟩)
    fun _ s hi hs => ?_
  exact safe_recordPoints (fun _ => rfl) hnode hi hs

/-! ## A pass -/

theorem safe_get {f : AppState → α} {Q : α → AppState → Prop} (hP : Firm t P) (hQ : ∀ a, Firm t (Q a))
    (h : ∀ s, PointsInv s → P s → Q (f s) s) (hi : PointsInv w) (hs : P w) :
    PointsSafe t (.get f) (Post Q fun _ => False) w := by
  refine Safe.step hP.stable (fun s _ hi hs _ _ => ?_) hi hs
  exact ⟨hi, (PlainBut.refl s).guar _, Safe.ret (hQ _).stable (fun _ _ h => h) hi (h s hi hs)⟩

/-- What follows a read, where it is plain. -/
theorem safe_beside {task : Async α} (ht : task.Only Plain) (hi : PointsInv w)
    (hs : Under t v (fun s => Known v none s ∧ AsRead v r s) w) :
    PointsSafe t task (fun _ s => Under t v (Known v none) s) w :=
  safe_plain firm_known ht hi ⟨hs.1, hs.2.1⟩

theorem safe_followJob (hnode : r.backup.node = some node) (hi : PointsInv w)
    (hs : Under t v (fun s => Known v none s ∧ AsRead v r s) w) :
    PointsSafe t (followJob t v node r job now) (fun _ s => Under t v (Known v none) s) w := by
  unfold followJob
  split
  · exact safe_beside (Only.bind (C := Plain) (plain_update fun _ => rfl) fun _ => trivial) hi hs
  · refine (safe_plain firm_read (plain_inquire _) hi hs).bind hi (fun read s hi hs => ?_) fun _ _ h => ⟨h.1, h.2.1⟩
    dsimp only
    split
    · exact safe_beside (plain_update fun _ => rfl) hi hs
    · split
      · exact safe_finish hnode hi hs
      · refine safe_beside (plain_dropSnapshot.attempt.bind fun _ => ?_) hi hs
        exact Only.bind (C := Plain) (plain_update fun _ => rfl) fun _ => trivial

theorem plain_ship {snapshot : ShipSnapshot} : (ship v r snapshot).Only Plain := by
  refine (plain_inquire _).attempt.bind fun x => ?_
  split
  · trivial
  · exact plain_update fun _ => rfl
  · refine plain_dropSnapshot.attempt.bind fun _ => ?_
    split
    · exact plain_update fun _ => rfl
    · trivial

theorem plain_shipDue : (shipDue t v r now).Only Plain :=
  (only_withContext (plain_createVolume (shipName_ne_pointName _ · _ ·))).bind fun _ => plain_ship

theorem safe_stepOn (hnode : r.backup.node = some node) (hi : PointsInv w)
    (hs : Under t v (fun s => Known v none s ∧ AsRead v r s) w) :
    PointsSafe t (stepOn cfg t v node r now) (fun _ s => Under t v (Known v none) s) w := by
  refine (safe_plain firm_read ((plain_get _).bind fun _ => only_ofExcept _) hi hs).bind hi (fun _ s hi hs => ?_)
    fun _ _ h => ⟨h.1, h.2.1⟩
  split
  · refine safe_beside ((only_withContext (plain_createVolume (targetName_ne_pointName _))).bind fun x => ?_) hi hs
    split
    · trivial
    · exact plain_update fun _ => rfl
  · split
    · refine safe_beside ((only_withContext (plain_call fun _ s => plain_note s rfl)).bind fun _ => ?_) hi hs
      exact plain_update fun _ => rfl
    · split
      · exact safe_beside ((only_withContext (plain_inquire _)).bind fun _ => plain_update fun _ => rfl) hi hs
      · split
        · exact safe_followJob hnode hi hs
        · split
          · exact safe_beside trivial hi hs
          · exact safe_beside plain_shipDue hi hs

/-- The node is recorded where none was: no point is there. -/
theorem safe_recordNode {p : BackupPolicy} (hnode : r.backup.node = none) (hi : PointsInv w)
    (hs : Under t v (fun s => Known v none s ∧ AsRead v r s) w) :
    PointsSafe t (recordNode v node p) (fun _ s => Under t v (Known v none) s) w := by
  refine Safe.step firm_read.stable (fun s _ hi hs _ _ => ?_) hi hs
  obtain ⟨hc, hk, hr⟩ := hs
  have hret {s : AppState} (hi : PointsInv s) (hs : Under t v (Known v none) s) :
      PointsSafe t (.ret ()) (fun _ s => Under t v (Known v none) s) s := Safe.ret firm_known.stable (fun _ _ h => h) hi hs
  cases hb : s.fed.backups[v]? with
  | none =>
    simp only [hb]
    exact ⟨hi, (PlainBut.refl s).guar _, hret hi ⟨hc, hk⟩⟩
  | some b =>
    simp only [hb]
    set s' := AppState.revise { s with choices := ⟨v, p⟩ :: s.choices } fun fed =>
      { fed with backups := fed.backups.insert v { b with node := some node } }
    have hget : s'.fed.backups[v]? = some { b with node := some node } := KeyMap.get_insert_self ..
    have hwrites : Writes v [] s s' :=
      ⟨(List.append_nil _).symm, by simp, rfl, rfl, fun v' hne => KeyMap.get_insert_ne _ _ (Ne.symm hne)⟩
    have hrec : recordedPoints s' v = recordedPoints s v := by
      rw [recordedPoints, recordedPoints, hget, hb]
      rfl
    have hnone : ∀ n node id, ¬ PointOn s v n node id := fun n node id hp => by
      obtain ⟨b', hb', hx, -⟩ := hi.named v n node id hp ((hk n node id hp).resolve_right (by simp))
      obtain rfl := Option.some.inj (hb.symm.trans hb')
      rw [(hr.record b hb).1, hnode] at hx
      cases hx
    obtain ⟨hi', hg⟩ := hwrites.kept (t := t) hi (fun n => hwrites.used_iff.mpr ∘ by rw [hrec]; exact Or.imp_right .inl)
      (fun n hn => hrec ▸ hi.gone v n hn) (fun n x id hp _ => absurd hp (hnone n x id)) (.inr hc)
    exact ⟨hi', hg, hret hi' ⟨hwrites.claiming hc, fun n x id hp => absurd (hwrites.pointOn.mp hp) (hnone n x id)⟩⟩

theorem readBackup_some {fed : FedState} (h : readBackup v fed = .ok (some r)) : fed.backups[v]? = some r.backup := by
  unfold readBackup at h
  split at h
  · cases h
  · rename_i b hb
    cases hv : fed.volumes[v]? with
    | none =>
      simp only [hv] at h
      cases h
    | some vol =>
      simp only [hv] at h
      obtain ⟨_, -, h⟩ := check_bind.mp h
      obtain ⟨place, -, h⟩ := check_bind.mp h
      split at h
      · obtain rfl := Option.some.inj (Except.ok.inj h)
        exact hb
      · cases h

theorem safe_step (hi : PointsInv w) (hs : Under t v (Known v none) w) :
    PointsSafe t (step cfg t v now) (fun _ s => Under t v (Known v none) s) w := by
  have hread : PointsSafe t (.get fun s => readBackup v s.fed) (Post (fun x => Under t v fun s =>
      Known v none s ∧ ∀ r, x = .ok (some r) → AsRead v r s) fun _ => False) w := by
    refine safe_get firm_known (fun x => firm_under fun _ _ h hs => ⟨hs.1.shrinks h, fun r hx => (hs.2 r hx).shrinks h⟩)
      (fun s _ hs => ⟨hs.1, hs.2, fun r hx => ?_⟩) hi hs
    have hb := readBackup_some hx
    refine ⟨fun b hb' => ?_, fun n hn => .inl ?_⟩
    · obtain rfl := Option.some.inj (hb.symm.trans hb')
      exact ⟨rfl, List.Subset.refl _⟩
    · rw [recordedPoints, hb]
      exact hn
  refine hread.bind hi (fun x s hi hs => ?_) fun _ _ h => h.elim
  obtain ⟨hc, hk, hr⟩ := hs
  cases x with
  | error e => exact safe_fail firm_known hi ⟨hc, hk⟩
  | ok o =>
    cases o with
    | none => exact safe_ret firm_known hi ⟨hc, hk⟩
    | some r =>
      have hs : Under t v (fun s => Known v none s ∧ AsRead v r s) s := ⟨hc, hk, hr r rfl⟩
      cases hnode : r.backup.node with
      | none =>
        simp only [bind_eq, Task.ofExcept, ret_bind, hnode]
        refine (safe_plain firm_read (plain_get _) hi hs).bind hi (fun picks s hi hs => ?_) fun _ _ h => ⟨h.1, h.2.1⟩
        split
        · exact safe_recordNode hnode hi hs
        · exact safe_beside trivial hi hs
      | some node =>
        simp only [bind_eq, Task.ofExcept, ret_bind, hnode]
        exact safe_stepOn hnode hi hs

/-- A claim changes what its holder alone goes by. -/
theorem shrinks_claims (s : AppState) (claims : KeyMap Claim) (v : String) : Shrinks v s { s with replacing := claims } :=
  ⟨fun _ _ _ h => h, fun _ => .rfl, fun b hb => ⟨b, hb, rfl, List.Subset.refl _⟩⟩

/-- A claim that is free is taken where every snapshot is of a name in use. -/
theorem safe_claim (hi : PointsInv w) (hs : Claiming t none w) :
    PointsSafe t (claim t (claimKey v)) (Post (fun mine s => if mine then Under t v (Known v none) s else Claiming t none s)
      fun _ => False) w := by
  refine Safe.step stable_claiming (fun s _ hi hs _ _ => ?_) hi hs
  dsimp only
  split
  · exact ⟨hi, (PlainBut.refl s).guar _, Safe.ret stable_claiming (fun _ _ h => h) hi hs⟩
  · rename_i hfree
    have hfree : s.replacing[claimKey v]? = none := by
      rw [KeyMap.contains_eq] at hfree
      simpa using hfree
    set claims := s.replacing.insert (claimKey v) { task := t }
    have hself : claims[claimKey v]? = some { task := t } := KeyMap.get_insert_self ..
    have hne {v' : String} (h : v' ≠ v) : claims[claimKey v']? = s.replacing[claimKey v']? :=
      KeyMap.get_insert_ne _ _ fun he => h (claimKey_inj he).symm
    have hi' : PointsInv { s with replacing := claims } := by
      refine ⟨hi.gone, hi.named, fun v' hv' => ?_⟩
      by_cases h : v' = v
      · rw [h, hself] at hv'
        cases hv'
      · exact hi.free v' ((hne h).symm.trans hv')
    refine ⟨hi', ⟨fun _ _ h => h, fun _ _ _ _ h => .inl h, fun v' c hc _ => ?_, fun v' c hc => ?_,
      fun v' _ _ _ => shrinks_claims s claims v'⟩, Safe.ret firm_known.stable (fun _ _ h => h) hi'
        ⟨fun v' => ?_, fun n node id hp => .inl (hi.free v hfree n node id hp)⟩⟩
    · have h : v' ≠ v := fun h => by
        rw [h, hfree] at hc
        cases hc
      exact (hne h).trans hc
    · by_cases h : v' = v
      · subst v'
        exact .inr (congrArg (some ∘ Claim.task) (Option.some.inj (hself.symm.trans hc)))
      · exact .inl ((hne h).symm.trans hc)
    · by_cases h : v' = v
      · subst v'
        exact iff_of_true hself rfl
      · rw [hne h, hs v']
        simpa using Ne.symm h

/-- A claim is let go where every snapshot is of a name in use. -/
theorem safe_release (hi : PointsInv w) (hs : Under t v (Known v none) w) :
    PointsSafe t (release (claimKey v)) (fun _ => Claiming t none) w := by
  refine Safe.step firm_known.stable (fun s _ hi hs _ _ => ?_) hi hs
  obtain ⟨hc, hk⟩ := hs
  have hself : (s.release (claimKey v)).replacing[claimKey v]? = none := by simp [AppState.release]
  have hne {v' : String} (h : v' ≠ v) : (s.release (claimKey v)).replacing[claimKey v']? = s.replacing[claimKey v']? := by
    simp only [AppState.release, KeyMap.get_erase]
    rw [if_neg fun he => h (claimKey_inj he).symm]
  have hi' : PointsInv (s.release (claimKey v)) := by
    refine ⟨hi.gone, hi.named, fun v' hv' n node id hp => ?_⟩
    by_cases h : v' = v
    · subst v'
      exact (hk n node id hp).resolve_right (by simp)
    · exact hi.free v' ((hne h).symm.trans hv') n node id hp
  refine ⟨hi', ⟨fun _ _ h => h, fun _ _ _ _ h => .inl h, fun v' c hv' hu => ?_, fun v' c hv' => ?_,
    fun v' _ _ _ => shrinks_claims s _ v'⟩, Safe.ret stable_claiming (fun _ _ h => h) hi' fun v' => ?_⟩
  · exact (hne (not_claiming hc hv' hu)).trans hv'
  · by_cases h : v' = v
    · rw [h, hself] at hv'
      cases hv'
    · exact .inl ((hne h).symm.trans hv')
  · by_cases h : v' = v
    · subst v'
      exact iff_of_false (by simp [hself]) (by simp)
    · rw [hne h, hc v']
      simpa using Ne.symm h

theorem safe_runOne (hi : PointsInv w) (hs : Claiming t none w) :
    PointsSafe t (runOne cfg t now v) (fun _ => Claiming t none) w := by
  refine (safe_claim hi hs).bind hi (fun mine s hi hs => ?_) fun _ _ h => h.elim
  cases mine with
  | false => exact safe_ret firm_claiming hi hs
  | true =>
    refine (safe_step hi hs).attempt_bind hi fun x s hi hs => ?_
    refine (safe_release hi hs).bind hi (fun _ s hi hs => ?_) fun _ _ h => h
    cases x with
    | ok _ => exact safe_ret firm_claiming hi hs
    | error e => exact safe_plain firm_claiming ((plain_get _).bind fun _ => plain_update fun _ => rfl) hi hs

theorem safe_run (hi : PointsInv w) (hs : Claiming t none w) : PointsSafe t (run cfg t) (fun _ => Claiming t none) w := by
  refine (safe_plain firm_claiming (only_atomic fun _ s => .refl s) hi hs).bind hi (fun x s hi hs => ?_) fun _ _ h => h
  exact Safe.rounds stable_claiming (fun _ _ s hi hs => safe_runOne hi hs) hi hs

/-! ## Deletes and purges -/

/-- These are names of points, and their snapshots are where the record has them. -/
def Copied (v : String) (ns : List String) (home : Option String) (w : AppState) : Prop :=
  ∀ n ∈ ns, Used w v n ∧ ∀ node id, PointOn w v n node id → home = some node

/-- No snapshot of these points is left. -/
def Gone (v : String) (ns : List String) (w : AppState) : Prop := ∀ n ∈ ns, ∀ node id, ¬ PointOn w v n node id

variable {ns : List String} {home : Option String}

theorem fixed_copied (hn : n ∈ ns) : Fixed t v n (Copied v ns home) := fixed_used.mono fun _ h => (h n hn).1

theorem firm_copied : Firm t (Copied v ns home) := by
  refine ⟨fun s s' u hu _ _ hg h n hn => ⟨PointsGuar.used hg v n (h n hn).1, fun node id hp => ?_⟩,
    fun s s' hp h n hn => ⟨(hp.used v n).mpr (h n hn).1, fun node id hpoint => (h n hn).2 node id (hp.kept hpoint)⟩⟩
  exact (h n hn).2 node id (fixed_copied hn s s' u hu hg h node id hp)

/-- A task without a claim is to drop these points. -/
abbrev Dropping (t : Nat) (v : String) (ns : List String) (home : Option String) (w : AppState) : Prop :=
  Claiming t none w ∧ Copied v ns home w

theorem firm_dropping : Firm t (Dropping t v ns home) := firm_claiming.and firm_copied

theorem fixed_dropping : ∀ n ∈ ns, Fixed t v n (Dropping t v ns home) := fun _ hn => (fixed_copied hn).mono fun _ h => h.2

theorem Firm.gone (hP : Firm t P) (hf : ∀ n ∈ ns, Fixed t v n P) : Firm t fun s => P s ∧ Gone v ns s := by
  refine ⟨fun s s' u hu hi hi' hg h => ⟨hP.stable s s' u hu hi hi' hg h.1, fun n hn node id hp => ?_⟩,
    fun s s' hs h => ⟨hP.plain s s' hs h.1, fun n hn node id hp => h.2 n hn node id (hs.kept hp)⟩⟩
  exact h.2 n hn node id (hf n hn s s' u hu hg h.1 node id hp)

/-- What the record names is a copy. -/
theorem copied_record (hi : PointsInv w) {b : Backup} (hb : w.fed.backups[v]? = some b) (hns : ns ⊆ pointNames b.points) :
    Copied v ns b.node w := by
  intro n hn
  have hu : Used w v n := .inl (by rw [recordedPoints, hb]; exact hns hn)
  refine ⟨hu, fun node id hp => ?_⟩
  obtain ⟨b', hb', hnode, -⟩ := hi.named v n node id hp hu
  obtain rfl := Option.some.inj (hb.symm.trans hb')
  exact hnode

/-- Points that are gone are taken from the record. -/
theorem Writes.shed {e : Event} (h : Writes v [e] w w') (hi : PointsInv w) (hcopied : Copied v ns home w)
    (hgone : Gone v ns w) (hnames : ∀ n, namesPoint v n e = true ↔ n ∈ ns)
    (hrec : ∀ b', w'.fed.backups[v]? = some b' → ∃ b, w.fed.backups[v]? = some b ∧ b'.node = b.node ∧
      ∀ n, n ∈ pointNames b'.points ↔ n ∈ pointNames b.points ∧ n ∉ ns)
    (hleft : w'.fed.backups[v]? = none → recordedPoints w v ⊆ ns) : PointsInv w' ∧ PointsGuar (some t) w w' := by
  have hmem : ∀ n, n ∈ recordedPoints w' v ↔ n ∈ recordedPoints w v ∧ n ∉ ns := fun n => by
    cases hb' : w'.fed.backups[v]? with
    | none =>
      rw [recordedPoints, hb']
      exact iff_of_false List.not_mem_nil fun hn => hn.2 (hleft hb' hn.1)
    | some b' =>
      obtain ⟨b, hb, -, hp⟩ := hrec b' hb'
      rw [recordedPoints, recordedPoints, hb', hb]
      exact hp n
  have hused : ∀ n, Used w' v n ↔ Used w v n := fun n => by
    rw [h.used_iff, hmem]
    simp only [List.mem_singleton, exists_eq_left, hnames]
    constructor
    · rintro (⟨hn, -⟩ | hn | hn)
      · exact .inl hn
      · exact .inr hn
      · exact (hcopied n hn).1
    · rintro (hn | hn)
      · exact (em (n ∈ ns)).elim (fun h => .inr (.inr h)) fun h => .inl ⟨hn, h⟩
      · exact .inr (.inl hn)
  refine h.kept hi (fun n => (hused n).mpr) (fun n hn hr => ?_) (fun n node id hp hu => ?_)
    (.inl ⟨fun _ _ _ hp => h.pointOn.mp hp, hused, fun b' hb' => ?_⟩)
  · obtain ⟨hr, hns⟩ := (hmem n).mp hr
    rw [h.log] at hn
    rcases List.mem_append.mp hn with hn | hn
    · exact hi.gone v n hn hr
    · exact hns ((hnames n).mp (by rw [← List.mem_singleton.mp hn]; simp [namesPoint]))
  · obtain ⟨b, hb, hnode, hn⟩ := hi.named v n node id hp ((hused n).mp hu)
    have hns : n ∉ ns := fun hns => hgone n hns node id hp
    have hr : n ∈ recordedPoints w v := by
      rw [recordedPoints, hb]
      exact hn
    cases hb' : w'.fed.backups[v]? with
    | none => exact absurd (hleft hb' hr) hns
    | some b' =>
      obtain ⟨b₀, hb₀, hnode', hp'⟩ := hrec b' hb'
      obtain rfl := Option.some.inj (hb.symm.trans hb₀)
      exact ⟨b', hb', hnode'.trans hnode, (hp' n).mpr ⟨hn, hns⟩⟩
  · obtain ⟨b, hb, hnode, hp⟩ := hrec b' hb'
    exact ⟨b, hb, hnode, fun n hn => ((hp n).mp hn).1⟩

theorem pointToDelete_some {fed : FedState} {point : String} {p : BackupPoint}
    (h : Api.pointToDelete v point fed = .ok (some (node, p))) :
    ∃ b, fed.backups[v]? = some b ∧ node = b.node.getD "" ∧ p ∈ b.points ∧ p.name = point := by
  unfold Api.pointToDelete at h
  split at h
  · cases h
  · rename_i b p' hfind
    obtain ⟨b', hb, hmap⟩ := Option.bind_eq_some_iff.mp hfind
    obtain ⟨p'', hfound, he⟩ := Option.map_eq_some_iff.mp hmap
    obtain ⟨rfl, rfl⟩ := Prod.mk.inj he
    obtain ⟨_, -, h⟩ := check_bind.mp h
    obtain ⟨rfl, rfl⟩ := Prod.mk.inj (Option.some.inj (Except.ok.inj h))
    exact ⟨_, hb, rfl, List.mem_of_find?_eq_some hfound, by simpa using List.find?_some hfound⟩

/-- The record without the point, as a delete writes it. -/
theorem kept_deleted {home : Option String} (hi : PointsInv w) (hcopied : Copied v [n] home w) (hgone : Gone v [n] w)
    (hw : w' = (w.note (.pointDeleted v n)).revise fun fed =>
      match fed.backups[v]? with
      | none => fed
      | some b => { fed with backups := fed.backups.insert v { b with points := b.points.filter (·.name ≠ n) } }) :
    Writes v [.pointDeleted v n] w w' ∧ PointsInv w' ∧ PointsGuar (some t) w w' := by
  have habout : ∀ v' m, namesPoint v' m (.pointDeleted v n) = true ↔ v = v' ∧ n = m := fun v' m => decide_eq_true_iff
  have hback : w'.fed.backups = match w.fed.backups[v]? with
      | none => w.fed.backups
      | some b => w.fed.backups.insert v { b with points := b.points.filter (·.name ≠ n) } := by
    rw [hw]
    show FedState.backups (match w.fed.backups[v]? with
      | none => _
      | some b => _) = _
    split <;> rfl
  have hwrites : Writes v [.pointDeleted v n] w w' := by
    refine ⟨by rw [hw]; rfl, fun e he v' m hm => ?_, by rw [hw]; rfl, by rw [hw]; rfl, fun v' hne => ?_⟩
    · rw [List.mem_singleton.mp he] at hm
      exact ((habout v' m).mp hm).1.symm
    · rw [hback]
      split
      · rfl
      · exact KeyMap.get_insert_ne _ _ (Ne.symm hne)
  refine ⟨hwrites, hwrites.shed hi hcopied hgone (fun m => ?_) (fun b' hb' => ?_) fun hb' => ?_⟩
  · rw [habout, List.mem_singleton]
    exact ⟨fun h => h.2.symm, fun h => ⟨rfl, h.symm⟩⟩
  · rw [hback] at hb'
    cases hb : w.fed.backups[v]? with
    | none =>
      simp only [hb] at hb'
      cases hb'
    | some b =>
      simp only [hb, KeyMap.get_insert_self] at hb'
      obtain rfl := Option.some.inj hb'
      refine ⟨b, rfl, rfl, fun m => ?_⟩
      simp only [pointNames, List.mem_map, List.mem_filter, decide_eq_true_eq, List.mem_singleton]
      constructor
      · rintro ⟨p, ⟨hp, hne⟩, rfl⟩
        exact ⟨⟨p, hp, rfl⟩, hne⟩
      · rintro ⟨⟨p, hp, rfl⟩, hne⟩
        exact ⟨p, ⟨hp, hne⟩, rfl⟩
  · cases hb : w.fed.backups[v]? with
    | none =>
      rw [recordedPoints, hb]
      exact List.nil_subset _
    | some b =>
      rw [hback] at hb'
      simp only [hb, KeyMap.get_insert_self] at hb'
      cases hb'

theorem safe_deletePoint {point : String} (hi : PointsInv w) (hs : Claiming t none w) :
    PointsSafe t (Api.deletePoint v point) (fun _ => Claiming t none) w := by
  have hread : PointsSafe t (.get fun s => Api.pointToDelete v point s.fed) (Post (fun x s => Claiming t none s ∧
      ∀ node p, x = .ok (some (node, p)) → p.name = point ∧ Copied v [point] (some node) s) fun _ => False) w := by
    refine safe_get firm_claiming (fun x => ⟨fun s s' u hu hi hi' hg h => ?_, fun s s' hp h => ?_⟩)
      (fun s hi hs => ⟨hs, fun node p hx => ?_⟩) hi hs
    · exact ⟨stable_claiming s s' u hu hi hi' hg h.1, fun node p hx =>
        ⟨(h.2 node p hx).1, firm_copied.stable s s' u hu hi hi' hg (h.2 node p hx).2⟩⟩
    · exact ⟨hp.claiming h.1, fun node p hx =>
        ⟨(h.2 node p hx).1, (firm_copied (t := t)).plain s s' hp (h.2 node p hx).2⟩⟩
    · obtain ⟨b, hb, rfl, hmem, hname⟩ := pointToDelete_some hx
      refine ⟨hname, fun n hn => ?_⟩
      have hns : [point] ⊆ pointNames b.points := by
        rintro m hm
        rw [List.mem_singleton.mp hm, ← hname]
        exact List.mem_map_of_mem hmem
      obtain ⟨hu, hhome⟩ := copied_record hi hb hns n hn
      exact ⟨hu, fun node id hp => by rw [hhome node id hp]; rfl⟩
  refine hread.bind hi (fun x s hi hs => ?_) fun _ _ h => h.elim
  obtain ⟨hc, hx⟩ := hs
  cases x with
  | error e => exact safe_fail firm_claiming hi hc
  | ok o =>
    cases o with
    | none => exact safe_ret firm_claiming hi hc
    | some found =>
      obtain ⟨node, p⟩ := found
      obtain ⟨rfl, hcopied⟩ := hx node p rfl
      have hdrop : PointsSafe t (dropSnapshot node p.name p.engineId) (Post (fun _ s =>
          Dropping t v [p.name] (some node) s ∧ Absent v [p.name] node s) (Dropping t v [p.name] (some node))) s :=
        safe_dropSnapshot firm_dropping (fixed_dropping p.name (List.mem_singleton_self _)) hi ⟨hc, hcopied⟩
      have hafter : Firm t fun s => Dropping t v [p.name] (some node) s ∧ Absent v [p.name] node s :=
        firm_dropping.absent fixed_dropping
      show PointsSafe t ((Api.asUpstream node (dropSnapshot node p.name p.engineId)).bind fun _ => _) _ s
      refine (safe_asUpstream (fun _ => hafter) firm_dropping hdrop hi).bind hi (fun _ s hi hs => ?_) fun _ _ h => h.1
      refine Safe.step hafter.stable (fun s _ hi hs _ _ => ?_) hi hs
      obtain ⟨⟨hc, hcopied⟩, habsent⟩ := hs
      have hgone : Gone v [p.name] s := fun n hn node' id hp => by
        obtain rfl := Option.some.inj ((hcopied n hn).2 node' id hp)
        exact habsent n hn id hp
      obtain ⟨hwrites, hi', hg⟩ := kept_deleted (t := t) hi hcopied hgone rfl
      exact ⟨hi', hg, Safe.ret stable_claiming (fun _ _ h => h) hi' (hwrites.claiming hc)⟩

/-- Each of the points is dropped, or the whole fails. -/
theorem safe_dropEach {ps : List BackupPoint} (hP : Firm t P) (hf : ∀ n ∈ pointNames ps, Fixed t v n P) (hi : PointsInv w)
    (hs : P w) :
    PointsSafe t (.forEach ps fun p => Api.asUpstream s!"point {p.name}" (dropSnapshot node p.name p.engineId))
      (Post (fun _ s => P s ∧ Absent v (pointNames ps) node s) P) w := by
  induction ps generalizing P w with
  | nil => exact Safe.ret hP.stable (fun _ _ h => ⟨h, fun _ hn => absurd hn List.not_mem_nil⟩) hi hs
  | cons p ps ih =>
    have hp : Fixed t v p.name P := hf p.name (List.mem_cons_self ..)
    have hrest : ∀ n ∈ pointNames ps, Fixed t v n P := fun n hn => hf n (List.mem_cons_of_mem _ hn)
    have hfirm : Firm t fun s => P s ∧ Absent v [p.name] node s := hP.absent (by simpa using hp)
    refine (safe_asUpstream (fun _ => hfirm) hP (safe_dropSnapshot hP hp hi hs) hi).bind hi
      (fun _ s hi hs => ?_) fun _ _ h => h
    refine (ih hfirm (fun n hn => (hrest n hn).mono fun _ h => h.1) hi hs).mono fun x s h => ?_
    cases x with
    | error e => exact h.1
    | ok _ =>
      refine ⟨h.1.1, fun n hn => ?_⟩
      rcases List.mem_cons.mp hn with rfl | hn
      · exact h.1.2 _ (List.mem_singleton_self _)
      · exact h.2 n hn

variable {b : Backup}

theorem safe_purgePoints (hi : PointsInv w) (hs : Dropping t v (pointNames b.points) (some node) w) :
    PointsSafe t (Api.purgePoints node b) (Post (fun _ s => Dropping t v (pointNames b.points) (some node) s ∧
      Gone v (pointNames b.points) s) (Claiming t none)) w := by
  refine (safe_dropEach firm_dropping fixed_dropping hi hs).bind hi (fun _ s hi hs => ?_) fun _ _ h => h.1
  refine (safe_plain (firm_dropping.absent fixed_dropping) ?_ hi hs).mono fun x s h => ?_
  · split
    · trivial
    · refine Only.bind (C := Plain) ?_ fun _ => only_asUpstream plain_deleteVolume
      unfold Api.detachTarget
      split
      · exact only_ignore (plain_inquire _)
      · trivial
  cases x with
  | error e => exact h.1.1
  | ok _ =>
    refine ⟨h.1, fun n hn node' id hp => ?_⟩
    obtain rfl := Option.some.inj ((h.1.2 n hn).2 node' id hp)
    exact h.2 n hn id hp

/-- A purge leaves no snapshot of the points that it was given. -/
theorem safe_purge (hi : PointsInv w) (hs : Dropping t v (pointNames b.points) b.node w) :
    PointsSafe t (Api.purge b) (Post (fun _ s => Dropping t v (pointNames b.points) b.node s ∧
      Gone v (pointNames b.points) s) (Claiming t none)) w := by
  refine (safe_plain firm_dropping (plain_get _) hi hs).bind hi (fun x s hi hs => ?_) fun _ _ h => h.1
  refine (safe_plain firm_dropping (only_ofExcept _) hi hs).bind hi (fun held s hi hs => ?_) fun _ _ h => h.1
  refine (safe_plain firm_dropping (only_forEach (fun _ => only_ignore plain_dropSnapshot) _) hi hs).bind hi
    (fun _ s hi hs => ?_) fun _ _ h => h.1
  cases hnode : b.node with
  | none =>
    rw [hnode] at hs
    refine Safe.ret firm_dropping.stable (fun s _ h => ⟨h, fun n hn node id hp => ?_⟩) hi hs
    cases (h.2 n hn).2 node id hp
  | some node =>
    rw [hnode] at hs
    exact safe_purgePoints hi hs

/-- The record is gone, as a purge leaves it. -/
theorem kept_purged (hi : PointsInv w) (hcopied : Copied v ns home w) (hgone : Gone v ns w) (hall : recordedPoints w v ⊆ ns)
    (hw : w' = (w.note (.purged v ns)).revise fun fed => { fed with backups := fed.backups.erase v }) :
    Writes v [.purged v ns] w w' ∧ PointsInv w' ∧ PointsGuar (some t) w w' := by
  have habout : ∀ v' m, namesPoint v' m (.purged v ns) = true ↔ v = v' ∧ m ∈ ns := fun v' m => decide_eq_true_iff
  have hback : ∀ v' : String, w'.fed.backups[v']? = if v = v' then none else w.fed.backups[v']? := fun v' => by
    rw [hw]
    exact KeyMap.get_erase ..
  have hwrites : Writes v [.purged v ns] w w' := by
    refine ⟨by rw [hw]; rfl, fun e he v' m hm => ?_, by rw [hw]; rfl, by rw [hw]; rfl, fun v' hne => ?_⟩
    · rw [List.mem_singleton.mp he] at hm
      exact ((habout v' m).mp hm).1.symm
    · rw [hback, if_neg (Ne.symm hne)]
  refine ⟨hwrites, hwrites.shed hi hcopied hgone (fun m => ?_) (fun b' hb' => ?_) fun _ => hall⟩
  · rw [habout]
    exact and_iff_right rfl
  · rw [hback, if_pos rfl] at hb'
    cases hb'

theorem safe_stop {purged : Bool} (hi : PointsInv w) (hs : Claiming t none w) :
    PointsSafe t (Api.stop v purged) (fun _ => Claiming t none) w := by
  have hstop : PointsSafe t (Api.stopBackup v) (Post (fun o s => Claiming t none s ∧
      ∀ b, o = some b → Copied v (pointNames b.points) b.node s) fun _ => False) w := by
    refine Safe.step stable_claiming (fun s _ hi hs _ _ => ?_) hi hs
    cases hb : s.fed.backups[v]? with
    | none =>
      simp only [hb]
      exact ⟨hi, (PlainBut.refl s).guar _, Safe.ret stable_claiming (fun _ _ h => ⟨h, by simp⟩) hi hs⟩
    | some b =>
      simp only [hb]
      have hp : Plain s (s.revise fun fed => { fed with backups := fed.backups.insert v (Api.stopped b) }) :=
        plain_insert hb rfl
      have hcopied : Copied v (pointNames (Api.stopped b).points) (Api.stopped b).node
          (s.revise fun fed => { fed with backups := fed.backups.insert v (Api.stopped b) }) :=
        copied_record (hp.inv hi) (KeyMap.get_insert_self ..) (List.Subset.refl _)
      refine ⟨hp.inv hi, hp.guar _, Safe.ret firm_dropping.stable (fun _ _ h => ⟨h.1, fun b' hb' => ?_⟩) (hp.inv hi)
        ⟨hp.claiming hs, hcopied⟩⟩
      obtain rfl := Option.some.inj hb'
      exact h.2
  refine hstop.bind hi (fun o s hi hs => ?_) fun _ _ h => h.elim
  cases o with
  | none => exact safe_ret firm_claiming hi hs.1
  | some b =>
    cases purged with
    | false => exact safe_ret firm_claiming hi hs.1
    | true =>
      show PointsSafe t ((Api.purge b).bind fun _ => _) _ s
      refine (safe_purge hi ⟨hs.1, hs.2 b rfl⟩).bind hi (fun _ s hi hs => ?_) fun _ _ h => h
      refine Safe.step (firm_dropping.gone fixed_dropping).stable (fun s _ hi hs _ hok => ?_) hi hs
      obtain ⟨⟨hc, hcopied⟩, hgone⟩ := hs
      have hall := Careful.purged hok v (pointNames b.points) (by rw [noted_append rfl]; exact List.mem_singleton_self _)
      obtain ⟨hwrites, hi', hg⟩ := kept_purged (t := t) hi hcopied hgone hall rfl
      exact ⟨hi', hg, Safe.ret stable_claiming (fun _ _ h => h) hi' (hwrites.claiming hc)⟩

end

/-! ## Runs -/

/-- A pass over the backups, a delete of a point, or a stop. -/
def IsPointOp : VolumeOp → Prop
  | .backups | .deletePoint .. | .stopBackup .. => True
  | _ => False

theorem safe_pointOp {cfg : Config} {t : Nat} {op : VolumeOp} {w : AppState} (h : IsPointOp op) (hi : PointsInv w)
    (hs : Claiming t none w) : PointsSafe t (program cfg t op) (fun _ => Claiming t none) w := by
  cases op with
  | backups => exact safe_run hi hs
  | deletePoint volume point => exact safe_deletePoint hi hs
  | stopBackup name purged => exact safe_stop hi hs
  | _ => exact h.elim

/-- A volume on `a` with a point on `b`, and a ship that is done. -/
def backedUp : AppState where
  fed := {
    nodes := nodesOf [("a", true), ("b", true)]
    volumes := (∅ : KeyMap DistVolume).insert "v" {
      name := "v"
      sizeBytes := 1
      pool := none
      replicas := 1
      rung := "node"
      legs := [{ node := "a", volumeId := some "d", state := .created }]
      assembly := .singleLeg
      createdAt := 0 }
    backups := (∅ : KeyMap Backup).insert "v" {
      volume := "v"
      sizeBytes := 1
      policy := some { pool := none, tier := none, node := none, intervalSecs := 3600, keep := 7 }
      node := some "b"
      targetVolumeId := some "t"
      targetMaster := none
      targetAttach := some { nqn := "q", traddr := "b", trsvcid := 4420, nsid := 1 }
      attachedFor := some "a"
      base := none
      job := some {
        id := "j"
        snapshot := { node := "a", engineName := "v-ship-5", engineId := none, takenAtMs := 5 }
        bytesTotal := 1
        bytesDone := 1 }
      points := [{ name := "v-bk-1", takenAtMs := 1, engineId := none }]
      state := .shipping
      message := none
      nextAtMs := 0
      sourceDeleted := false } }
  engines := [{ node := "b", name := "v-bk-1", id := "p" }]

theorem unresurrected_backedUp : Unresurrected backedUp := fun _ _ h => absurd h List.not_mem_nil

theorem unleaked_backedUp : Unleaked backedUp := by
  rintro v n node id ⟨⟨t, ht⟩, e, he, rfl, rfl, -, -⟩
  obtain rfl := List.mem_singleton.mp he
  obtain rfl : "v" = v := pointName_volume (t := 1) ht
  exact ⟨_, KeyMap.get_insert_self .., rfl, List.mem_singleton_self _⟩

theorem free_backedUp (v : String) : backedUp.replacing[claimKey v]? = none := by simp [backedUp]

/-- Nothing is made, and what is noted is no change of points but a delete. -/
def harmless (w w' : AppState) : Bool :=
  decide (Honest w w') &&
    (w'.engines.all fun e => e.deleted || w.engines.any fun e' =>
      e'.node = e.node ∧ e'.name = e.name ∧ e'.id = e.id ∧ e'.deleted = false) &&
    (noted w w').all fun
      | .taking .. | .pointed .. | .purged .. => false
      | _ => true

theorem careful_of_harmless {w w' : AppState} (h : harmless w w' = true) : Careful w w' := by
  simp only [harmless, Bool.and_eq_true, decide_eq_true_eq, List.all_eq_true] at h
  obtain ⟨⟨hhonest, hmade⟩, hnoted⟩ := h
  refine ⟨hhonest, fun v n node id hp hnew => ?_, fun v n hn => ?_, fun v read dropped failed n hn => ?_, fun v ns hn => ?_⟩
  · obtain ⟨hof, e, he, rfl, rfl, rfl, hd⟩ := hp
    rcases Bool.or_eq_true_iff.mp (hmade e he) with hdel | hold
    · rw [hd] at hdel
      cases hdel
    · obtain ⟨e', he', hsame⟩ := List.any_eq_true.mp hold
      exact absurd ⟨hof, e', he', of_decide_eq_true hsame⟩ hnew
  · cases hnoted _ hn
  · cases hnoted _ hn
  · cases hnoted _ hn

/-- A delete of the point, by the task `t`. -/
def pointDelete (t : Nat) : List (Move Reply { op // IsPointOp op } (KeyMap Node)) :=
  [.start ⟨.deletePoint "v" "v-bk-1", trivial⟩, .run t {}, .run t { items := [{ id := some "p", name := some "v-bk-1" }] },
    .run t {}, .run t {}]

def pointless : Pool Reply AppState Fault :=
  (operations plainConfig IsPointOp).final harmless ⟨backedUp, []⟩ (pointDelete 0)

/-- A pass that has read the record. -/
def passBegins : List (Move Reply { op // IsPointOp op } (KeyMap Node)) :=
  .start ⟨.backups, trivial⟩ :: List.replicate 3 (.run 0 {})

/-- It finds the ship done. -/
def passEnds : List (Move Reply { op // IsPointOp op } (KeyMap Node)) :=
  [.run 0 {}, .run 0 { ship := some { state := "done" } }, .run 0 {},
    .run 0 { made := "p5", item := { id := some "p5", name := none } }, .run 0 {}, .run 0 {}]

def purgeOf : List (Move Reply { op // IsPointOp op } (KeyMap Node)) :=
  .start ⟨.stopBackup "v" true, trivial⟩ :: List.replicate 3 (.run 1 {}) ++
    [.run 1 { items := [{ id := some "p", name := some "v-bk-1" }] }, .run 1 {}, .run 1 {}, .run 1 {}]

/-- The point is deleted while the ship ends. -/
def resurrected : Pool Reply AppState Fault :=
  (operations plainConfig IsPointOp).final (fun w w' => decide (Honest w w')) ⟨backedUp, []⟩
    (passBegins ++ pointDelete 1 ++ passEnds)

/-- The backup is purged while the ship ends. -/
def leaked : Pool Reply AppState Fault :=
  (operations plainConfig IsPointOp).final (fun w w' => decide (Honest w w')) ⟨backedUp, []⟩
    (passBegins ++ purgeOf ++ passEnds)

end StormStorage.Backups
