import StormStorage.Operations
import StormStorage.Proof.Remote

/-!
# The points of a backup

A point is a snapshot on the backup node, and an entry of the backup's record.
A ship's end makes the one and later the other, from a copy of the record that
it read before; a delete and a purge drop the one and then the other.

* `Unresurrected`, `Unleaked`: what is to hold of points;
* `Careful`: the steps that keep to it;
* `PlainBut.inv`, `PlainBut.guar`: steps that leave points alone, or make the
  snapshot of one;
* `Writes.kept`: a write of points that leaves in the record what is there.
-/

namespace StormStorage.Backups

open Await Task

/-! ## Names -/

/-- A name up to its last letter, backwards. -/
def letters (s : String) : List Char := s.toList.reverse.dropWhile fun c => ¬ c.isAlpha

theorem digit_not_alpha {c : Char} (h : c.isDigit = true) : c.isAlpha = false := by
  simp only [Char.isDigit, Bool.and_eq_true, decide_eq_true_eq, ge_iff_le, UInt32.le_iff_toNat_le] at h
  have h9 : ('9' : Char).val.toNat = 57 := rfl
  have hA : ('A' : Char).val.toNat = 65 := rfl
  have ha : ('a' : Char).val.toNat = 97 := rfl
  show (decide (c.val ≥ 'A'.val ∧ c.val ≤ 'Z'.val) || decide (c.val ≥ 'a'.val) && decide (c.val ≤ 'z'.val)) = false
  simp only [Bool.or_eq_false_iff, Bool.and_eq_false_iff, decide_eq_false_iff_not, ge_iff_le, UInt32.le_iff_toNat_le]
  omega

theorem nat_not_alpha (n : Nat) : ∀ c ∈ (toString n).toList, c.isAlpha = false := fun c hc =>
  digit_not_alpha (Nat.isDigit_of_mem_toDigits (b := 10) (n := n) (by decide) (by decide) (by simpa using hc))

theorem int_not_alpha (t : Int) : ∀ c ∈ (toString t).toList, c.isAlpha = false := by
  intro c hc
  cases t with
  | ofNat n => exact nat_not_alpha n c hc
  | negSucc n =>
    rw [show toString (Int.negSucc n) = "-" ++ toString (n + 1) from rfl, String.toList_append] at hc
    rcases List.mem_append.mp hc with hc | hc
    · obtain rfl := List.mem_singleton.mp hc
      rfl
    · exact nat_not_alpha _ c hc

theorem letters_append_int (s : String) (t : Int) : letters (s ++ toString t) = letters s := by
  unfold letters
  rw [String.toList_append, List.reverse_append, List.dropWhile_append_of_pos]
  intro c hc
  simp [int_not_alpha t c (List.mem_reverse.mp hc)]

theorem letters_pointName (volume : String) (taken : Int) :
    letters (pointName volume taken) = 'k' :: 'b' :: '-' :: volume.toList.reverse := by
  rw [pointName, letters_append_int, letters, String.toList_append, List.reverse_append]
  rfl

/-- A point's name says which volume it is of. -/
theorem pointName_volume {v v' : String} {t t' : Int} (h : pointName v t = pointName v' t') : v = v' := by
  have h := congrArg letters h
  rw [letters_pointName, letters_pointName] at h
  exact String.toList_injective (List.reverse_injective (by simpa using h))

/-- What is shipped is no point. -/
theorem shipName_ne_pointName (v v' : String) (t t' : Int) : shipName v t ≠ pointName v' t' := by
  intro h
  have h := congrArg letters h
  rw [letters_pointName, shipName, letters_append_int, letters, String.toList_append, List.reverse_append] at h
  exact absurd (List.cons.inj h).1 (by decide)

/-- Nor is what the points are taken of. -/
theorem targetName_ne_pointName (v v' : String) (t : Int) : backupTargetName v ≠ pointName v' t := by
  intro h
  have h := congrArg letters h
  rw [letters_pointName, backupTargetName, letters, String.toList_append, List.reverse_append] at h
  exact absurd (List.cons.inj h).1 (by decide)

/-- One claim for each backup. -/
theorem claimKey_inj {v v' : String} (h : claimKey v = claimKey v') : v = v' := by
  have h := congrArg String.toList h
  simp only [claimKey, String.toList_append, List.append_cancel_left_eq] at h
  exact String.toList_injective h

/-! ## Points -/

/-- The points of a volume's backup, by its record. -/
def recordedPoints (w : AppState) (volume : String) : List String :=
  ((w.fed.backups[volume]?).map fun b => pointNames b.points).getD []

/-- A volume of this name and id is on the node's engine. -/
def Live (w : AppState) (node name id : String) : Prop :=
  ∃ e ∈ w.engines, e.node = node ∧ e.name = name ∧ e.id = id ∧ e.deleted = false

/-- A snapshot that is a point of the volume's backup is on the node. -/
def PointOn (w : AppState) (volume point node id : String) : Prop :=
  (∃ t, point = pointName volume t) ∧ Live w node point id

/-- The record names the point, on the node. -/
def NamedOn (w : AppState) (volume point node : String) : Prop :=
  ∃ b, w.fed.backups[volume]? = some b ∧ b.node = some node ∧ point ∈ pointNames b.points

/-- No point whose delete was answered is in the record. -/
def Unresurrected (w : AppState) : Prop :=
  ∀ volume point, .pointDeleted volume point ∈ w.log → point ∉ recordedPoints w volume

/-- Every snapshot that is a point is named by the record. -/
def Unleaked (w : AppState) : Prop :=
  ∀ volume point node id, PointOn w volume point node id → NamedOn w volume point node

/-- The event says that the volume had a point of this name. -/
def namesPoint (volume point : String) : Event → Bool
  | .pointDeleted v p => v = volume ∧ p = point
  | .pointed v read _ _ p => v = volume ∧ (p = point ∨ point ∈ read)
  | .purged v points => v = volume ∧ point ∈ points
  | _ => false

/-- The volume has a point of this name, or had one. -/
def Used (w : AppState) (volume point : String) : Prop :=
  point ∈ recordedPoints w volume ∨ ∃ e ∈ w.log, namesPoint volume point e = true

/-! ## What is asked of the steps -/

/-- What a step notes. -/
def noted (w w' : AppState) : List Event := w'.log.drop w.log.length

/-- What a step is answered. -/
def answers (w w' : AppState) : List IdAnswer := w'.answered.drop w.answered.length

/-- Engines list what they have: an id that is answered is that of the volume of
its name, and a name that is not listed is of none. -/
structure Honest (w w' : AppState) : Prop where
  answered : ∀ a ∈ answers w w', ∀ e ∈ w'.engines, e.node = a.node → e.name = a.name → e.deleted = false → e.id = a.id
  unlisted : ∀ x ∈ noted w w', ∀ e ∈ w.engines, x = .unlisted e.node e.name → e.deleted = true

instance (w w' : AppState) : Decidable (Honest w w') :=
  decidable_of_iff
    ((∀ a ∈ answers w w', ∀ e ∈ w'.engines, e.node = a.node → e.name = a.name → e.deleted = false → e.id = a.id) ∧
      ∀ x ∈ noted w w', ∀ e ∈ w.engines, x = .unlisted e.node e.name → e.deleted = true)
    ⟨fun h => ⟨h.1, h.2⟩, fun h => ⟨h.1, h.2⟩⟩

/-- What a step must not do to the points of a backup. -/
structure Careful (w w' : AppState) : Prop extends Honest w w' where
  /-- A snapshot of a point that is made is answered. -/
  made : ∀ volume point node id, PointOn w' volume point node id → ¬ PointOn w volume point node id →
    ∃ a ∈ answers w w', a.node = node ∧ a.name = point
  /-- A point is taken under a name that none has had. -/
  taking : ∀ volume point, .taking volume point ∈ noted w w' → ¬ Used w volume point
  /-- Points are written while the record is there, and names those that were
  read and are kept: all but the dropped ones, and those of them that could not
  be dropped. -/
  pointed : ∀ volume read dropped failed point, .pointed volume read dropped failed point ∈ noted w w' →
    w.fed.backups.contains volume ∧ ∀ p ∈ read, p ∉ dropped ∨ p ∈ failed → p ∈ recordedPoints w volume
  /-- A purge ends while the record names no point but those that it dropped. -/
  purged : ∀ volume points, .purged volume points ∈ noted w w' → recordedPoints w volume ⊆ points

/-! ## Rely and guarantee -/

section

variable {w w' : AppState} {t : Nat} {v n node id : String}

/-- What the operations keep. A snapshot without a name in the record is that of a
point that is being taken, under the backup's claim. -/
structure PointsInv (w : AppState) : Prop where
  gone : Unresurrected w
  named : ∀ v n node id, PointOn w v n node id → Used w v n → NamedOn w v n node
  free : ∀ v, w.replacing[claimKey v]? = none → ∀ n node id, PointOn w v n node id → Used w v n

/-- What others do to a backup whose claim a task holds: points go. -/
structure Shrinks (v : String) (w w' : AppState) : Prop where
  points : ∀ n node id, PointOn w' v n node id → PointOn w v n node id
  used : ∀ n, Used w' v n ↔ Used w v n
  record : ∀ b', w'.fed.backups[v]? = some b' → ∃ b, w.fed.backups[v]? = some b ∧ b'.node = b.node ∧
    pointNames b'.points ⊆ pointNames b.points

structure PointsGuar (u : Option Nat) (w w' : AppState) : Prop where
  used : ∀ v n, Used w v n → Used w' v n
  fresh : ∀ v n node id, PointOn w' v n node id → PointOn w v n node id ∨ ¬ Used w v n
  claims : ∀ v (c : Claim), w.replacing[claimKey v]? = some c → u ≠ some c.task → w'.replacing[claimKey v]? = some c
  mine : ∀ v (c : Claim), w'.replacing[claimKey v]? = some c → w.replacing[claimKey v]? = some c ∨ u = some c.task
  alone : ∀ v (c : Claim), w.replacing[claimKey v]? = some c → u ≠ some c.task → Shrinks v w w'

def pointsDiscipline : Discipline AppState where
  inv := PointsInv
  ok := Careful
  guar := PointsGuar

abbrev PointsSafe {α : Type} (t : Nat) (task : Async α) (Q : Except Fault α → AppState → Prop) (w : AppState) : Prop :=
  task.Safe pointsDiscipline t Q w

theorem Shrinks.refl (v : String) (w : AppState) : Shrinks v w w :=
  ⟨fun _ _ _ h => h, fun _ => .rfl, fun b hb => ⟨b, hb, rfl, List.Subset.refl _⟩⟩

/-- The backup whose claim the task holds, if any. -/
def Claiming (t : Nat) (o : Option String) (w : AppState) : Prop :=
  ∀ v, w.replacing[claimKey v]? = some { task := t } ↔ o = some v

theorem stable_claiming {o : Option String} : pointsDiscipline.Stable t (Claiming t o) := by
  intro s s' u hu _ _ (hg : PointsGuar u s s') h v
  constructor
  · intro h'
    rcases hg.mine v _ h' with h' | h'
    · exact (h v).mp h'
    · exact absurd h' hu
  · exact fun ho => hg.claims v _ ((h v).mpr ho) hu

/-- What is said of a backup under its claim. -/
abbrev Under (t : Nat) (v : String) (R : AppState → Prop) (w : AppState) : Prop := Claiming t (some v) w ∧ R w

theorem stable_under {R : AppState → Prop} (hR : ∀ w w', Shrinks v w w' → R w → R w') :
    pointsDiscipline.Stable t (Under t v R) := by
  intro s s' u hu hi hi' hg h
  have hc := (h.1 v).mpr rfl
  exact ⟨stable_claiming s s' u hu hi hi' hg h.1, hR s s' (PointsGuar.alone hg v _ hc hu) h.2⟩

/-- Other tasks than the claim's holder, of its backup. -/
theorem not_claiming (h : Claiming t (some v) w) {v' : String} {c : Claim} (hc : w.replacing[claimKey v']? = some c)
    (hu : some t ≠ some c.task) : v' ≠ v := by
  rintro rfl
  obtain rfl := Option.some.inj (hc.symm.trans ((h v').mpr rfl))
  exact hu rfl

end

/-! ## Plain steps -/

/-- An event of points. -/
def ofPoints : Event → Bool
  | .pointDeleted .. | .pointed .. | .purged .. => true
  | _ => false

/-- What a record says of points. -/
def holding (b : Backup) : Option String × List String := (b.node, pointNames b.points)

/-- Claims, records and what is noted of points stay, and no snapshot of a point
is made but `made`, on its node. -/
structure PlainBut (made : Option (String × String)) (w w' : AppState) : Prop where
  record : ∀ v : String, (w'.fed.backups[v]?).map holding = (w.fed.backups[v]?).map holding
  replacing : w'.replacing = w.replacing
  log : w'.log.filter ofPoints = w.log.filter ofPoints
  points : ∀ v n node id, PointOn w' v n node id → PointOn w v n node id ∨ made = some (node, n)

abbrev Plain := PlainBut none

namespace PlainBut

variable {made : Option (String × String)} {w w' w'' : AppState} {t : Nat} {v n node : String}

theorem refl (w : AppState) : PlainBut made w w := ⟨fun _ => rfl, rfl, rfl, fun _ _ _ _ h => .inl h⟩

theorem trans (h : PlainBut made w w') (h' : PlainBut made w' w'') : PlainBut made w w'' where
  record v := (h'.record v).trans (h.record v)
  replacing := h'.replacing.trans h.replacing
  log := h'.log.trans h.log
  points v n node id hp := (h'.points v n node id hp).elim (h.points v n node id) .inr

theorem read (h : PlainBut made w w') {b' : Backup} (hb' : w'.fed.backups[v]? = some b') :
    ∃ b, w.fed.backups[v]? = some b ∧ b'.node = b.node ∧ pointNames b'.points = pointNames b.points := by
  have hr := h.record v
  rw [hb', Option.map_some] at hr
  obtain ⟨b, hb, he⟩ := Option.map_eq_some_iff.mp hr.symm
  obtain ⟨hnode, hpoints⟩ := Prod.mk.inj he
  exact ⟨b, hb, hnode.symm, hpoints.symm⟩

theorem kept {id : String} (h : Plain w w') (hp : PointOn w' v n node id) : PointOn w v n node id := by
  rcases h.points v n node id hp with hp | he
  · exact hp
  · cases he

theorem recordedPoints (h : PlainBut made w w') (v : String) : recordedPoints w' v = recordedPoints w v := by
  have hr := congrArg (Option.map Prod.snd) (h.record v)
  simp only [Option.map_map] at hr
  exact congrArg (Option.getD · []) hr

theorem mem_log (h : PlainBut made w w') {e : Event} (he : ofPoints e = true) : e ∈ w'.log ↔ e ∈ w.log := by
  have hf : e ∈ w'.log.filter ofPoints ↔ e ∈ w.log.filter ofPoints := by rw [h.log]
  simpa [List.mem_filter, he] using hf

theorem used (h : PlainBut made w w') (v n : String) : Used w' v n ↔ Used w v n := by
  have hof : ∀ e, namesPoint v n e = true → ofPoints e = true := by
    intro e he
    cases e <;> first | rfl | cases he
  unfold Used
  rw [h.recordedPoints]
  refine or_congr_right ⟨fun ⟨e, he, hn⟩ => ⟨e, ?_, hn⟩, fun ⟨e, he, hn⟩ => ⟨e, ?_, hn⟩⟩
  · exact (h.mem_log (hof e hn)).mp he
  · exact (h.mem_log (hof e hn)).mpr he

theorem namedOn (h : PlainBut made w w') (v n node : String) : NamedOn w' v n node ↔ NamedOn w v n node := by
  have hr := h.record v
  unfold NamedOn
  cases hb : w.fed.backups[v]? with
  | none =>
    rw [hb, Option.map_none, Option.map_eq_none_iff] at hr
    simp [hr]
  | some b =>
    rw [hb, Option.map_some] at hr
    obtain ⟨b', hb', he⟩ := Option.map_eq_some_iff.mp hr
    obtain ⟨hnode, hpoints⟩ := Prod.mk.inj he
    simp [hb', hnode, hpoints]

theorem claiming {o : Option String} (h : PlainBut made w w') (hc : Claiming t o w) : Claiming t o w' := by
  unfold Claiming
  rw [h.replacing]
  exact hc

theorem gone (h : PlainBut made w w') (hi : PointsInv w) : Unresurrected w' := by
  intro v n hn
  rw [h.recordedPoints]
  exact hi.gone v n ((h.mem_log rfl).mp hn)

theorem shrinks (h : Plain w w') (v : String) : Shrinks v w w' where
  points _ _ _ := h.kept
  used := h.used v
  record b' hb' := by
    obtain ⟨b, hb, hnode, hpoints⟩ := h.read hb'
    exact ⟨b, hb, hnode, hpoints ▸ List.Subset.refl _⟩

theorem inv (h : Plain w w') (hi : PointsInv w) : PointsInv w' where
  gone := h.gone hi
  named v n node id hp hu := by
    rw [h.namedOn]
    exact hi.named v n node id (h.kept hp) ((h.used v n).mp hu)
  free v hv n node id hp := by
    rw [h.used]
    exact hi.free v (h.replacing ▸ hv) n node id (h.kept hp)

theorem guar (h : Plain w w') (u : Option Nat) : PointsGuar u w w' where
  used v n := (h.used v n).mpr
  fresh _ _ _ _ hp := .inl (h.kept hp)
  claims v c hc _ := by rwa [h.replacing]
  mine v c hc := .inl (by rwa [h.replacing] at hc)
  alone v _ _ _ := h.shrinks v

/-- A snapshot that is made is answered, so that none is made where nothing is. -/
theorem unanswered (h : PlainBut made w w') (ho : Careful w w') (ha : w'.answered = w.answered) : Plain w w' where
  record := h.record
  replacing := h.replacing
  log := h.log
  points v n node id hp := by
    by_contra hno
    obtain ⟨a, hmem, -⟩ := ho.made v n node id hp fun hw => hno (.inl hw)
    rw [answers, ha, List.drop_length] at hmem
    exact absurd hmem List.not_mem_nil

end PlainBut

/-! ## Writes of points -/

/-- A step writes the record of one backup, and notes `es` of it. -/
structure Writes (v : String) (es : List Event) (w w' : AppState) : Prop where
  log : w'.log = w.log ++ es
  about : ∀ e ∈ es, ∀ v' n, namesPoint v' n e = true → v' = v
  engines : w'.engines = w.engines
  replacing : w'.replacing = w.replacing
  others : ∀ v' : String, v' ≠ v → w'.fed.backups[v']? = w.fed.backups[v']?

namespace Writes

variable {w w' : AppState} {t : Nat} {v n node id : String} {es : List Event}

theorem pointOn (h : Writes v es w w') {v' : String} : PointOn w' v' n node id ↔ PointOn w v' n node id := by
  unfold PointOn Live
  rw [h.engines]

theorem recordedPoints_ne (h : Writes v es w w') {v' : String} (hne : v' ≠ v) :
    recordedPoints w' v' = recordedPoints w v' := by
  unfold recordedPoints
  rw [h.others v' hne]

theorem used_iff (h : Writes v es w w') {v' : String} : Used w' v' n ↔
    n ∈ recordedPoints w' v' ∨ (∃ e ∈ w.log, namesPoint v' n e = true) ∨ ∃ e ∈ es, namesPoint v' n e = true := by
  unfold Used
  rw [h.log]
  simp only [List.mem_append, or_and_right, exists_or]

theorem used_ne (h : Writes v es w w') {v' : String} (hne : v' ≠ v) : Used w' v' n ↔ Used w v' n := by
  rw [h.used_iff, h.recordedPoints_ne hne]
  exact or_congr_right (or_iff_left fun ⟨e, he, hn⟩ => hne (h.about e he v' n hn))

theorem claiming (h : Writes v es w w') {o : Option String} (hc : Claiming t o w) : Claiming t o w' := by
  unfold Claiming
  rw [h.replacing]
  exact hc

/-- A write that leaves in the record what is there of its points, by the claim's
holder or by a task that takes points away. -/
theorem kept (h : Writes v es w w') (hi : PointsInv w) (hused : ∀ n, Used w v n → Used w' v n)
    (hgone : ∀ n, .pointDeleted v n ∈ w'.log → n ∉ recordedPoints w' v)
    (hnamed : ∀ n node id, PointOn w v n node id → Used w' v n → NamedOn w' v n node)
    (hwho : Shrinks v w w' ∨ Claiming t (some v) w) : PointsInv w' ∧ PointsGuar (some t) w w' := by
  refine ⟨⟨fun v' n hn => ?_, fun v' n node id hp hu => ?_, fun v' hv' n node id hp => ?_⟩,
    ⟨fun v' n hu => ?_, fun _ _ _ _ hp => .inl (h.pointOn.mp hp), fun _ c hc _ => by rwa [h.replacing],
      fun _ c hc => .inl (by rwa [h.replacing] at hc), fun v' c hc hu => ?_⟩⟩
  · by_cases hv : v' = v
    · exact hv ▸ hgone n (hv ▸ hn)
    · rw [h.recordedPoints_ne hv]
      rw [h.log] at hn
      rcases List.mem_append.mp hn with hn | hn
      · exact hi.gone v' n hn
      · exact absurd (h.about _ hn v' n (by simp [namesPoint])) hv
  · by_cases hv : v' = v
    · subst v'
      exact hnamed n node id (h.pointOn.mp hp) hu
    · unfold NamedOn
      rw [h.others v' hv]
      exact hi.named v' n node id (h.pointOn.mp hp) ((h.used_ne hv).mp hu)
  · rw [h.replacing] at hv'
    by_cases hv : v' = v
    · subst v'
      rcases hwho with hs | hc
      · exact (hs.used n).mpr (hi.free v hv' n node id (h.pointOn.mp hp))
      · rw [(hc v).mpr rfl] at hv'
        cases hv'
    · exact (h.used_ne hv).mpr (hi.free v' hv' n node id (h.pointOn.mp hp))
  · by_cases hv : v' = v
    · exact hv ▸ hused n (hv ▸ hu)
    · exact (h.used_ne hv).mpr hu
  · by_cases hv : v' = v
    · subst v'
      exact hwho.resolve_right fun hc' => not_claiming hc' hc hu rfl
    · exact ⟨fun _ _ _ hp => h.pointOn.mp hp, fun _ => h.used_ne hv, fun b' hb' =>
        ⟨b', (h.others v' hv).symm.trans hb', rfl, List.Subset.refl _⟩⟩

end Writes

/-! ## Calls -/

section

variable {w : AppState} {made : Option (String × String)} {me : Nat} {node name id : String}

theorem plain_of_eq {w' : AppState} (hf : w'.fed = w.fed) (hr : w'.replacing = w.replacing)
    (hl : w'.log.filter ofPoints = w.log.filter ofPoints) (he : ∀ n m i, Live w' n m i → Live w n m i) :
    PlainBut made w w' where
  record v := by rw [hf]
  replacing := hr
  log := hl
  points v n m i hp := .inl ⟨hp.1, he m n i hp.2⟩

theorem plain_note (w : AppState) {e : Event} (h : ofPoints e = false) : PlainBut made w (w.note e) :=
  plain_of_eq rfl rfl (by simp [AppState.note, h]) fun _ _ _ h => h

theorem plain_told (w : AppState) (node name : String) (id : Option String) : PlainBut made w (w.told node name id) :=
  plain_of_eq rfl rfl rfl fun _ _ _ h => h

theorem plain_heard (w : AppState) (node : String) (i : Reply) : PlainBut made w (w.heard node i) := by
  unfold AppState.heard
  split
  · exact plain_of_eq rfl rfl rfl fun _ _ _ h => h
  · exact .refl w
  · exact .refl w

theorem plain_noteUnlisted (w : AppState) (node name : String) (i : Reply) :
    PlainBut made w (w.noteUnlisted node name i) := by
  unfold AppState.noteUnlisted
  split
  · split
    · exact .refl w
    · exact plain_note w rfl
  · exact .refl w
  · exact .refl w

theorem plain_noteLeft (w : AppState) (why : Left) (p : EngineVolume → Bool) : PlainBut made w (w.noteLeft why p) := by
  unfold AppState.noteLeft
  split
  · exact plain_note w rfl
  · exact .refl w

/-- A change of an engine volume that keeps what it is. -/
theorem live_mapVolume {f : EngineVolume → EngineVolume} {n m i : String}
    (hf : ∀ e, (f e).node = e.node ∧ (f e).name = e.name ∧ (f e).id = e.id ∧ ((f e).deleted = false → e.deleted = false))
    (h : Live (w.mapVolume node id f) n m i) : Live w n m i := by
  obtain ⟨e', he', hn, hm, hi, hd⟩ := h
  obtain ⟨e, he, rfl⟩ := List.mem_map.mp he'
  obtain ⟨fnode, fname, fid, fdel⟩ := hf e
  split at hn
  · rw [if_pos ‹_›] at hm hi hd
    exact ⟨e, he, fnode.symm.trans hn, fname.symm.trans hm, fid.symm.trans hi, fdel hd⟩
  · rw [if_neg ‹_›] at hm hi hd
    exact ⟨e, he, hn, hm, hi, hd⟩

theorem live_destroyOn {n m i : String} (h : Live (w.destroyOn node id) n m i) : Live w n m i := by
  refine live_mapVolume ?_ h
  exact fun e => ⟨rfl, rfl, rfl, by simp⟩

/-- What was deleted is not there. -/
theorem not_live_destroyOn {m : String} : ¬ Live (w.destroyOn node id) node m id := by
  rintro ⟨e', he', hn, -, hi, hd⟩
  obtain ⟨e, he, rfl⟩ := List.mem_map.mp he'
  split at hd
  · cases hd
  · rename_i hne
    rw [if_neg hne] at hn hi
    exact hne ⟨hn, hi⟩

theorem live_createOn {leg : Bool} {given n m i : String} (h : Live (w.createOn me node name leg given) n m i) :
    Live w n m i ∨ (node, name) = (n, m) := by
  unfold AppState.createOn at h
  split at h
  · refine .inl (live_mapVolume ?_ h)
    exact fun e => ⟨rfl, rfl, rfl, fun hd => hd⟩
  · split at h
    · exact .inl h
    · obtain ⟨e, he, hn, hm, hi, hd⟩ := h
      rcases List.mem_append.mp he with he | he
      · exact .inl ⟨e, he, hn, hm, hi, hd⟩
      · obtain rfl := List.mem_singleton.mp he
        exact .inr (Prod.ext hn hm)

theorem plain_createOn (w : AppState) (me : Nat) (node name : String) (leg : Bool) (given : String)
    (h : (∀ v t, name ≠ pointName v t) ∨ made = some (node, name)) :
    PlainBut made w (w.createOn me node name leg given) := by
  have hf : (w.createOn me node name leg given).fed = w.fed ∧
      (w.createOn me node name leg given).replacing = w.replacing ∧
      (w.createOn me node name leg given).log = w.log := by
    unfold AppState.createOn
    split
    · exact ⟨rfl, rfl, rfl⟩
    · split <;> exact ⟨rfl, rfl, rfl⟩
  refine ⟨fun v => by rw [hf.1], hf.2.1, by rw [hf.2.2], fun v n m i hp => ?_⟩
  obtain ⟨⟨t, rfl⟩, hl⟩ := hp
  rcases live_createOn hl with hl | he
  · exact .inl ⟨⟨t, rfl⟩, hl⟩
  · obtain ⟨rfl, rfl⟩ := Prod.mk.inj he
    exact .inr (h.resolve_left fun hne => hne v t rfl)

theorem plain_call {α : Type} {eff : Reply → AppState → AppState} {answer : Reply → AppState → Except Fault α}
    (h : ∀ i w, Plain w (eff i w)) : (call eff answer).Only Plain := only_callOr h .refl

theorem plain_inquire {α : Type} (answer : Reply → Except Fault α) : (inquire answer).Only Plain :=
  plain_call fun _ => .refl

theorem plain_get {α : Type} (f : AppState → α) : (Await.Task.get f : Async α).Only Plain := only_atomic fun _ => .refl

theorem plain_createVolume {leg : Bool} (h : ∀ v t, name ≠ pointName v t) :
    (Engine.createVolume me node name leg).Only Plain :=
  plain_call fun i w => by
    have hc : Plain w (w.createOn me node name leg i.made) := plain_createOn w me node name leg i.made (.inl h)
    dsimp only
    split
    · exact hc.trans (plain_told _ _ _ _)
    · exact hc.trans (plain_noteLeft _ _ _)

theorem plain_deleteVolume : (Engine.deleteVolume node id).Only Plain :=
  plain_call fun _ _ => plain_of_eq rfl rfl rfl fun _ _ _ => live_destroyOn

theorem plain_dropSnapshot {eid : Option String} : (dropSnapshot node name eid).Only Plain :=
  only_dropSnapshot (fun _ => plain_deleteVolume)
    (only_localVolumeId fun i w => (plain_heard w node i).trans (plain_noteUnlisted _ node name i))

/-- A record that goes where it went, with the points that it had. -/
theorem plain_insert {b b' : Backup} (hb : w.fed.backups[name]? = some b) (h : holding b' = holding b) :
    Plain w (w.revise fun fed => { fed with backups := fed.backups.insert name b' }) := by
  refine ⟨fun v => ?_, rfl, rfl, fun _ _ _ _ h => .inl h⟩
  show ((w.fed.backups.insert name b')[v]?).map holding = _
  rw [KeyMap.get_insert]
  split
  · subst v
    rw [hb, Option.map_some, Option.map_some, h]
  · rfl

theorem plain_update {f : Backup → Backup} (hf : ∀ b, holding (f b) = holding b) : (update name f).Only Plain := by
  refine only_atomic fun _ w => ?_
  dsimp only
  split
  · exact .refl w
  · exact plain_insert ‹_› (hf _)

end

end StormStorage.Backups
