import StormStorage.Proof.Remote
import StormStorage.Proof.VmMigrate

/-!
# Starts of migrations beside one another

A start records its migration in the step that finds no other of the same
source. For the target it only asks the target's engine, before that, whether
it holds a volume of the name.

* `update_step`, `opened_step`, `erased_step`: the steps that change a record;
* `advance_safe`, `start_safe`: the program;
* `exclusive_iff`: no two open migrations have one source, nor one target as
  long as no start is let in for a target that an open one has.
-/

namespace StormStorage.VmMigrate.Starts

open Await Task

/-! ## Sources and targets -/

def SameSource (m m' : VmMigration) : Prop := m.sourceNode = m'.sourceNode ∧ m.sourceVolumeId = m'.sourceVolumeId

def NamedAlike (m m' : VmMigration) : Prop := m.targetNode = m'.targetNode ∧ m.targetName = m'.targetName

/-- The ids of T's volume that are recorded. -/
def targetIds (m : VmMigration) : List String := m.targetVolumeId.toList ++ m.targetLocalId.toList

def SameTarget (m m' : VmMigration) : Prop :=
  m.targetNode = m'.targetNode ∧ (m.targetName = m'.targetName ∨ ∃ id, id ∈ targetIds m ∧ id ∈ targetIds m')

/-- Two migrations that are not finished have different sources and different targets. -/
def Exclusive (fed : FedState) : Prop :=
  ∀ (i j : String) m m', i ≠ j → fed.vmMigrations[i]? = some m → fed.vmMigrations[j]? = some m' →
    m.state.terminal = false → m'.state.terminal = false → ¬SameSource m m' ∧ ¬SameTarget m m'

theorem exclusive_entries (fed : FedState) : Exclusive fed ↔
    ∀ x ∈ fed.vmMigrations.toList, ∀ y ∈ fed.vmMigrations.toList, x.1 ≠ y.1 →
      x.2.state.terminal = false → y.2.state.terminal = false → ¬SameSource x.2 y.2 ∧ ¬SameTarget x.2 y.2 :=
  ⟨fun h x hx y hy hne => h x.1 y.1 x.2 y.2 hne (KeyMap.mem_toList.mp hx) (KeyMap.mem_toList.mp hy),
    fun h i j m m' hij hm hm' => h (i, m) (KeyMap.mem_toList.mpr hm) (j, m') (KeyMap.mem_toList.mpr hm') hij⟩

instance (m m' : VmMigration) : Decidable (SameSource m m') := inferInstanceAs (Decidable (_ ∧ _))

instance (m m' : VmMigration) : Decidable (SameTarget m m') :=
  inferInstanceAs (Decidable (_ ∧ (_ ∨ ∃ id, id ∈ targetIds m ∧ id ∈ targetIds m')))

instance (fed : FedState) : Decidable (Exclusive fed) := decidable_of_iff _ (exclusive_entries fed).symm

/-- A migration that a step records has a target that no open one has. -/
def Spaced (fed fed' : FedState) : Prop :=
  ∀ (id : String) m, fed.vmMigrations[id]? = none → fed'.vmMigrations[id]? = some m →
    ∀ (j : String) o, fed.vmMigrations[j]? = some o → o.state.terminal = false → ¬NamedAlike o m

/-- An id of a node's engine is one volume's. -/
def IdsNamed (engines : List EngineVolume) : Prop :=
  ∀ e ∈ engines, ∀ e' ∈ engines, e.node = e'.node → e.id = e'.id → e.name = e'.name

/-- The node's engine gave this id to a volume of this name. -/
def Known (w : AppState) (node id name : String) : Prop :=
  ∃ e ∈ w.engines, e.node = node ∧ e.id = id ∧ e.name = name

/-- What a record never changes. -/
structure Same (m m' : VmMigration) : Prop where
  id : m'.id = m.id
  sourceNode : m'.sourceNode = m.sourceNode
  sourceVolumeId : m'.sourceVolumeId = m.sourceVolumeId
  targetNode : m'.targetNode = m.targetNode
  targetName : m'.targetName = m.targetName

structure Inv (w : AppState) : Prop where
  going : ∀ (id : String) m, w.fed.vmMigrations[id]? = some m → m.state.terminal = false
  sources : ∀ (i j : String) m m', i ≠ j → w.fed.vmMigrations[i]? = some m → w.fed.vmMigrations[j]? = some m' →
    ¬SameSource m m'
  issued : ∀ (id : String) m, w.fed.vmMigrations[id]? = some m → m.id = id ∧ Issued w id
  ids : IdsNamed w.engines
  known : ∀ (id : String) m, w.fed.vmMigrations[id]? = some m → ∀ v ∈ targetIds m, Known w m.targetNode v m.targetName

structure Guar (_u : Option Nat) (w w' : AppState) : Prop where
  seq : w.seq ≤ w'.seq
  known : ∀ node id name, Known w node id name → Known w' node id name
  records : ∀ id : String, Issued w id → ∀ m', w'.fed.vmMigrations[id]? = some m' →
    ∃ m, w.fed.vmMigrations[id]? = some m ∧ Same m m'
  /-- A step that records a migration leaves the others alone. -/
  new : ∀ (id : String) m, w.fed.vmMigrations[id]? = none → w'.fed.vmMigrations[id]? = some m →
    ∀ j ≠ id, w'.fed.vmMigrations[j]? = w.fed.vmMigrations[j]?

def discipline : Discipline AppState where
  inv := Inv
  ok _ _ := True
  guar := Guar

variable {me : Nat} {w w' : AppState} {id : String} {u : Option Nat}

theorem Same.refl (m : VmMigration) : Same m m := ⟨rfl, rfl, rfl, rfl, rfl⟩

theorem Same.trans {m m' m'' : VmMigration} (h : Same m m') (h' : Same m' m'') : Same m m'' :=
  ⟨h'.id.trans h.id, h'.sourceNode.trans h.sourceNode, h'.sourceVolumeId.trans h.sourceVolumeId,
    h'.targetNode.trans h.targetNode, h'.targetName.trans h.targetName⟩

/-- Two records that were not of one target are not: what tells them apart
never changes. -/
theorem Same.namedAlike {m m' n n' : VmMigration} (hm : Same m m') (hn : Same n n') :
    NamedAlike m' n' ↔ NamedAlike m n := by
  rw [NamedAlike, NamedAlike, hm.targetNode, hm.targetName, hn.targetNode, hn.targetName]

theorem Same.sameSource {m m' n n' : VmMigration} (hm : Same m m') (hn : Same n n') :
    SameSource m' n' ↔ SameSource m n := by
  rw [SameSource, SameSource, hm.sourceNode, hm.sourceVolumeId, hn.sourceNode, hn.sourceVolumeId]

/-- No two records name one target. -/
def TargetsApart (fed : FedState) : Prop :=
  ∀ (i j : String) m m', i ≠ j → fed.vmMigrations[i]? = some m → fed.vmMigrations[j]? = some m' → ¬NamedAlike m m'

/-- A volume of the same id has the same name, so targets are apart by name. -/
theorem Inv.exclusive (hi : Inv w) : Exclusive w.fed ↔ TargetsApart w.fed := by
  refine ⟨fun h i j m m' hij hm hm' ha => ?_, fun h i j m m' hij hm hm' _ _ => ⟨hi.sources i j m m' hij hm hm', ?_⟩⟩
  · exact (h i j m m' hij hm hm' (hi.going i m hm) (hi.going j m' hm')).2 ⟨ha.1, .inl ha.2⟩
  · rintro ⟨hnode, hname | ⟨v, hv, hv'⟩⟩
    · exact h i j m m' hij hm hm' ⟨hnode, hname⟩
    · obtain ⟨e, he, hen, hei, hname⟩ := hi.known i m hm v hv
      obtain ⟨e', he', hen', hei', hname'⟩ := hi.known j m' hm' v hv'
      refine h i j m m' hij hm hm' ⟨hnode, ?_⟩
      rw [← hname, ← hname']
      exact hi.ids e he e' he' (by rw [hen, hen', hnode]) (by rw [hei, hei'])

theorem Known.mono (h : EnginesLater true w w') {node name : String} (hk : Known w node id name) :
    Known w' node id name := by
  obtain ⟨e, he, hn, hi, hname⟩ := hk
  obtain ⟨e', he', hl⟩ := h.forth e he
  exact ⟨e', he', hl.node.trans hn, hl.id.trans hi, hl.name.trans hname⟩

/-! ## Calls -/

/-- Only engines are changed, and an id stays one volume's. -/
structure Beside (w w' : AppState) : Prop where
  calls : Calls true w w'
  ids : IdsNamed w.engines → IdsNamed w'.engines

theorem Beside.of_eq (h : w' = { w with access := w'.access, log := w'.log }) (hl : w.log ⊆ w'.log) : Beside w w' :=
  ⟨.of_eq h hl, fun hi => by rw [h]; exact hi⟩

theorem Beside.note (w : AppState) (e : Event) : Beside w (w.note e) := .of_eq rfl (List.subset_append_left _ _)

theorem Beside.refl (w : AppState) : Beside w w := .of_eq rfl (List.Subset.refl _)

theorem Beside.trans {w'' : AppState} (h : Beside w w') (h' : Beside w' w'') : Beside w w'' :=
  ⟨h.calls.trans h'.calls, fun hi => h'.ids (h.ids hi)⟩

theorem Beside.inv (h : Beside w w') (hi : Inv w) : Inv w' := by
  have hfed := h.calls.fed
  have hseq : w'.seq = w.seq := by rw [h.calls.eq]
  refine ⟨?_, ?_, ?_, h.ids hi.ids, ?_⟩
  · rw [hfed]
    exact hi.going
  · rw [hfed]
    exact hi.sources
  · rw [hfed]
    exact fun id m hm => (hi.issued id m hm).imp_right (·.mono (Nat.le_of_eq hseq.symm))
  · rw [hfed]
    exact fun id m hm v hv => (hi.known id m hm v hv).mono h.calls.engines

theorem Beside.guar (h : Beside w w') : Guar u w w' where
  seq := Nat.le_of_eq (by rw [h.calls.eq])
  known _ _ _ := .mono h.calls.engines
  records id _ m' hm' := ⟨m', by rwa [← h.calls.fed], .refl m'⟩
  new _ _ _ _ _ _ := by rw [h.calls.fed]

theorem idsNamed_mapVolume (w : AppState) (node id : String) {f : EngineVolume → EngineVolume}
    (hf : ∀ e : EngineVolume, e.Later (f e)) (h : IdsNamed w.engines) : IdsNamed (w.mapVolume node id f).engines := by
  intro e he e' he'
  obtain ⟨a, ha, rfl⟩ := List.mem_map.mp he
  obtain ⟨b, hb, rfl⟩ := List.mem_map.mp he'
  have hl (e : EngineVolume) : e.Later (if e.node = node ∧ e.id = id then f e else e) := by
    split
    · exact hf e
    · exact .refl e
  rw [(hl a).node, (hl a).id, (hl a).name, (hl b).node, (hl b).id, (hl b).name]
  exact h a ha b hb

/-- A new volume has an id of its own. -/
theorem idsNamed_add {e : EngineVolume} (hfresh : w.given e.node e.id = false) (h : IdsNamed w.engines) :
    IdsNamed (w.engines ++ [e]) := by
  have hnot (a : EngineVolume) (ha : a ∈ w.engines) (hn : a.node = e.node) (hid : a.id = e.id) : False := by
    rw [AppState.given_iff.mpr ⟨a, ha, hn, hid⟩] at hfresh
    cases hfresh
  intro a ha b hb hn hid
  rcases List.mem_append.mp ha with ha | ha <;> rcases List.mem_append.mp hb with hb | hb
  · exact h a ha b hb hn hid
  · cases List.mem_singleton.mp hb
    exact (hnot a ‹_› hn hid).elim
  · cases List.mem_singleton.mp ha
    exact (hnot b ‹_› hn.symm hid.symm).elim
  · rw [List.mem_singleton.mp ha, List.mem_singleton.mp hb]

theorem beside_destroyOn (w : AppState) (node id : String) : Beside w (w.destroyOn node id) :=
  ⟨remote_destroyOn w node id, idsNamed_mapVolume w node id fun _ => ⟨rfl, rfl, rfl, rfl, rfl, fun _ => rfl, fun h => h⟩⟩

theorem beside_noteLeft (w : AppState) (why : Left) (p : EngineVolume → Bool) : Beside w (w.noteLeft why p) := by
  unfold AppState.noteLeft
  split
  · exact .note w _
  · exact .refl w

theorem beside_createOn (me : Nat) (w : AppState) (node name : String) (leg : Bool) (made : String) :
    Beside w (w.createOn me node name leg made) := by
  refine ⟨remote_createOn w me node name (fun _ => rfl) made, fun h => ?_⟩
  unfold AppState.createOn
  split
  · exact idsNamed_mapVolume w _ _ (fun e => ⟨rfl, rfl, rfl, rfl, rfl, fun h => h, fun h => by simp at h⟩) h
  · split
    · exact h
    · exact idsNamed_add (by simpa using ‹¬w.given node made = true›) h

theorem Beside.effect (wire : Wire) {did : AppState} (h : Beside w did) : Beside w (wire.effect did w) := by
  cases wire with
  | refused status why => exact .refl w
  | answered | lost => exact h

theorem beside_created (me : Nat) (w : AppState) (node name : String) (leg : Bool) (i : Reply) :
    Beside w (let w' := w.createOn me node name leg i.made
      if i.names then w'.told node name (w.createdId node name i.made)
      else w'.noteLeft .unanswered fun e => e.node = node ∧ w.given node e.id = false) := by
  have h := beside_createOn me w node name leg i.made
  dsimp only
  split
  · exact h.trans ⟨remote_told _ _ _ _, fun hi => hi⟩
  · exact h.trans (beside_noteLeft _ _ _)

/-- A delete of a copy of a migrated volume. -/
theorem beside_deleteCopy (id : String) (copy : Copy) (node volume : String) :
    (deleteCopy id copy node volume).Only Beside := by
  refine Only.bind (Only.attempt fun i w => ?_) fun x => ?_
  · have h : Beside w ((w.destroyOn node volume).note (.copyDeleted id copy node volume)) :=
      (beside_destroyOn w node volume).trans (.note _ _)
    refine ⟨h.effect _, ?_⟩
    cases hw : i.wire with
    | answered => simpa only [hw] using only_ofExcept _
    | refused status why => simp only [hw, only_fail]
    | lost why => simp only [hw, only_fail]
  · cases x with
    | ok _ => trivial
    | error e => dsimp only; split <;> trivial

theorem beside_quiet {α : Type} {t : Async α} (h : t.Quiet) : t.Only Beside :=
  h.mono fun w _ he => he ▸ .refl w

theorem beside_call {α : Type} {eff : Reply → AppState → AppState} {answer : Reply → AppState → Except Fault α}
    (h : ∀ i w, Beside w (eff i w)) : (call eff answer).Only Beside := by
  intro i w
  refine ⟨(h i w).effect i.wire, ?_⟩
  cases hw : i.wire with
  | answered => simpa only [hw] using only_ofExcept _
  | refused status why => simp only [hw, only_fail]
  | lost why => simp only [hw, only_fail]

theorem beside_startMirror (m : VmMigration) (uri : String) : (startMirror m uri).Only Beside := by
  refine Only.bind (beside_quiet (quiet_engine _)) fun _ => Only.bind (beside_quiet (quiet_inquire _)).attempt fun x => ?_
  split
  · trivial
  · refine Only.bind (Only.bind (beside_call fun _ w => .note w _).attempt fun x => ?_) fun _ => trivial
    cases x <;> trivial

theorem beside_undoTarget (m : VmMigration) : (undoTarget m).Only Beside := by
  have hdelete (volume : Option String) : (deleteTarget m volume).Only Beside := by
    cases volume with
    | none => trivial
    | some v => exact beside_deleteCopy _ _ _ _
  unfold undoTarget
  split
  · trivial
  · refine Only.bind (beside_quiet (quiet_engine _)) fun _ => ?_
    refine Only.bind (beside_quiet (quiet_withdrawTarget m)) fun _ => ?_
    exact Only.bind (hdelete _) fun _ => hdelete _

/-! ## Putting programs together -/

/-- Every step keeps it. -/
def Lasting (P : AppState → Prop) : Prop := ∀ u w w', Inv w → Inv w' → Guar u w w' → P w → P w'

theorem Lasting.stable {P : AppState → Prop} (h : Lasting P) : discipline.Stable me P := fun w w' u _ => h u w w'

/-- A phase, and what follows it. -/
theorem then_safe {α β : Type} {P : AppState → Prop} {t : Async α} {f : α → Async β} (hP : Lasting P)
    (ht : t.Safe discipline me (fun _ _ => True) w)
    (hf : ∀ a w, Inv w → P w → (f a).Safe discipline me (fun _ _ => True) w) (hi : Inv w) (hp : P w) :
    (t.bind f).Safe discipline me (fun _ _ => True) w :=
  Safe.bind hi (Safe.frame (d := discipline) hP hi ht hp) (fun a w hi h => hf a w hi h.2) fun _ _ _ => trivial

theorem beside_safe {α : Type} {t : Async α} (hb : t.Only Beside) (hi : Inv w) :
    t.Safe discipline me (fun _ _ => True) w :=
  (Safe.of_only hb (Discipline.stable_const True) (fun _ _ hi _ h _ => ⟨h.inv hi, h.guar, trivial⟩) hi trivial).mono
    fun _ _ _ => trivial

theorem beside_then {α β : Type} {P : AppState → Prop} {t : Async α} {f : α → Async β} (hP : Lasting P)
    (ht : t.Only Beside) (hf : ∀ a w, Inv w → P w → (f a).Safe discipline me (fun _ _ => True) w) (hi : Inv w)
    (hp : P w) : (t.bind f).Safe discipline me (fun _ _ => True) w :=
  then_safe hP (beside_safe ht hi) hf hi hp

/-! ## Changes of a record -/

/-- A record as it was read: it never changes otherwise, nor comes back. -/
def Read (m : VmMigration) (w : AppState) : Prop :=
  Issued w m.id ∧ ∀ m', w.fed.vmMigrations[m.id]? = some m' → Same m m'

theorem lasting_read (m : VmMigration) : Lasting (Read m) := by
  rintro u w w' _ _ hg ⟨hissued, h⟩
  refine ⟨hissued.mono hg.seq, fun m'' hm'' => ?_⟩
  obtain ⟨m', hm', hs⟩ := hg.records m.id hissued m'' hm''
  exact (h m' hm').trans hs

theorem lasting_known (node id name : String) : Lasting (Known · node id name) :=
  fun _ _ _ _ _ hg h => hg.known _ _ _ h

theorem Lasting.and {P P' : AppState → Prop} (h : Lasting P) (h' : Lasting P') : Lasting fun w => P w ∧ P' w :=
  fun u w w' hi hi' hg hp => ⟨h u w w' hi hi' hg hp.1, h' u w w' hi hi' hg hp.2⟩

/-- What a change of the record that was read as `m` may do. -/
structure Edit (m : VmMigration) (f : VmMigration → VmMigration) (w : AppState) : Prop where
  same : ∀ r, Same r (f r)
  going : ∀ r, r.state.terminal = false → (f r).state.terminal = false
  ids : ∀ r, ∀ v ∈ targetIds (f r), v ∈ targetIds r ∨ Known w m.targetNode v m.targetName

theorem get_revise_insert (w : AppState) (id : String) (m : VmMigration) (j : String) :
    (w.revise fun fed => { fed with vmMigrations := fed.vmMigrations.insert id m }).fed.vmMigrations[j]? =
      if id = j then some m else w.fed.vmMigrations[j]? := by
  simp only [AppState.revise, AppState.setFed, KeyMap.get_insert]

/-- A record changed where it stands. -/
theorem update_step {m r r' : VmMigration} (hi : Inv w) (hread : Read m w) (hr : w.fed.vmMigrations[m.id]? = some r)
    (hsame : Same r r') (hgoing : r'.state.terminal = false)
    (hids : ∀ v ∈ targetIds r', v ∈ targetIds r ∨ Known w m.targetNode v m.targetName)
    (hw : w' = w.revise fun fed => { fed with vmMigrations := fed.vmMigrations.insert m.id r' }) :
    Inv w' ∧ Guar u w w' := by
  have hget (j : String) : w'.fed.vmMigrations[j]? = if m.id = j then some r' else w.fed.vmMigrations[j]? :=
    hw ▸ get_revise_insert w m.id r' j
  have hengines : w'.engines = w.engines := by rw [hw]; rfl
  have hseq : w'.seq = w.seq := by rw [hw]; rfl
  -- each record now is one from before, but for what may change
  have hback (j : String) (n : VmMigration) (hn : w'.fed.vmMigrations[j]? = some n) :
      ∃ o, w.fed.vmMigrations[j]? = some o ∧ Same o n ∧ n.state.terminal = false ∧
        ∀ v ∈ targetIds n, v ∈ targetIds o ∨ Known w o.targetNode v o.targetName := by
    rw [hget] at hn
    split at hn
    · rename_i h
      subst h
      obtain rfl := Option.some.inj hn
      have hs := hread.2 r hr
      exact ⟨r, hr, hsame, hgoing, by rwa [hs.targetNode, hs.targetName]⟩
    · exact ⟨n, hn, .refl n, hi.going j n hn, fun _ => .inl⟩
  have hknown {node v name : String} (h : Known w node v name) : Known w' node v name := by
    rwa [Known, hengines]
  refine ⟨⟨fun j n hn => ?_, fun i j n n' hij hn hn' => ?_, fun j n hn => ?_, ?_, fun j n hn v hv => ?_⟩,
    Nat.le_of_eq hseq.symm, fun _ _ _ => hknown, fun j _ n hn => ?_, fun j n hnone hn => ?_⟩
  · exact (hback j n hn).elim fun _ h => h.2.2.1
  · obtain ⟨o, ho, hs, -⟩ := hback i n hn
    obtain ⟨o', ho', hs', -⟩ := hback j n' hn'
    rw [hs.sameSource hs']
    exact hi.sources i j o o' hij ho ho'
  · obtain ⟨o, ho, hs, -⟩ := hback j n hn
    obtain ⟨hid, hissued⟩ := hi.issued j o ho
    exact ⟨hs.id.trans hid, hissued.mono (Nat.le_of_eq hseq.symm)⟩
  · rw [hengines]
    exact hi.ids
  · obtain ⟨o, ho, hs, -, hids⟩ := hback j n hn
    rw [hs.targetNode, hs.targetName]
    rcases hids v hv with hv | hv
    · exact hknown (hi.known j o ho v hv)
    · exact hknown hv
  · obtain ⟨o, ho, hs, -⟩ := hback j n hn
    exact ⟨o, ho, hs⟩
  · obtain ⟨o, ho, -⟩ := hback j n hn
    cases hnone.symm.trans ho

theorem update_safe {m : VmMigration} {f : VmMigration → VmMigration} {P : AppState → Prop} (hP : Lasting P)
    (hread : ∀ w, P w → Read m w) (hf : ∀ w, P w → Edit m f w) (hi : Inv w) (hp : P w) :
    (update m.id f).Safe discipline me (fun _ _ => True) w := by
  refine Safe.await hP.stable (fun _ => Discipline.stable_const True) (fun w i hi hp _ _ => ⟨?_, trivial⟩) hi hp
  dsimp only
  split
  · exact ⟨hi, (Beside.refl w).guar⟩
  · rename_i r hr
    have he := hf w hp
    have hs : Same r { f r with updatedAtMs := i.now } := ⟨(he.same r).id, (he.same r).sourceNode,
      (he.same r).sourceVolumeId, (he.same r).targetNode, (he.same r).targetName⟩
    exact update_step hi (hread w hp) hr hs (he.going r (hi.going _ r hr)) (he.ids r) rfl

/-! ## The steps of a start -/

variable {hostNqnFor : String → String}

/-- A change that records no id of T's volume. -/
theorem edit_plain {m : VmMigration} {f : VmMigration → VmMigration} (hsame : ∀ r, Same r (f r))
    (hgoing : ∀ r, r.state.terminal = false → (f r).state.terminal = false)
    (hids : ∀ r, targetIds (f r) = targetIds r) (w : AppState) : Edit m f w :=
  ⟨hsame, hgoing, fun r _ hv => .inl (hids r ▸ hv)⟩

theorem known_created {node name made v : String} {leg : Bool} (h : w.createdId node name made = some v) :
    Known (w.createOn me node name leg made) node v name := by
  unfold AppState.createdId at h
  unfold AppState.createOn
  split at h
  · rename_i e he
    obtain rfl := Option.some.inj h
    have hmem := List.mem_of_find?_eq_some he
    have hp := List.find?_some he
    simp only [decide_eq_true_eq] at hp
    refine ⟨_, List.mem_map_of_mem hmem, ?_⟩
    split
    · exact ⟨hp.1, rfl, hp.2.1⟩
    · exact ⟨hp.1, rfl, hp.2.1⟩
  · rename_i he
    split at h
    · cases h
    · rename_i hfresh
      obtain rfl := Option.some.inj h
      simp only [if_neg hfresh]
      exact ⟨_, List.mem_append_right _ (List.mem_singleton_self _), rfl, rfl, rfl⟩

/-- The id that a create answers is one that the engine gave a volume of this name. -/
theorem createVolume_safe {P : AppState → Prop} (hP : Lasting P) (node name : String) (hi : Inv w) (hp : P w) :
    (Engine.createVolume me node name false).Safe discipline me
      (fun x w => P w ∧ ∀ item v, x = .ok item → item.id = some v → Known w node v name) w := by
  have hQ (x : Except Fault EngineItem) : discipline.Stable me
      fun w => P w ∧ ∀ item v, x = .ok item → item.id = some v → Known w node v name :=
    fun w w' u _ hi hi' hg h => ⟨hP u w w' hi hi' hg h.1, fun item v hx hv => hg.known _ _ _ (h.2 item v hx hv)⟩
  refine safe_callOr hP.stable hQ (fun w i hi hp _ => ?_) hi hp
  have hb := (beside_created me w node name false i).effect i.wire
  refine ⟨⟨hb.inv hi, hb.guar⟩, hP (some me) _ _ hi (hb.inv hi) hb.guar hp, fun item v hx hv => ?_⟩
  unfold Wire.outcome at hx
  cases hw : i.wire with
  | refused status why =>
    rw [hw] at hx
    cases hx
  | lost why =>
    rw [hw] at hx
    cases hx
  | answered =>
    simp only [hw] at hx
    split at hx
    · rename_i id hid
      obtain rfl := Except.ok.inj hx
      obtain ⟨_, -, rfl⟩ := Option.map_eq_some_iff.mp hv
      have hk : Known (w.createOn me node name false i.made) node id name := known_created hid
      simp only [Wire.effect]
      split
      · exact hk
      · exact hk.mono (beside_noteLeft _ _ _).calls.engines
    · cases hx

theorem withContext_safe {α : Type} {Q : α → AppState → Prop} {t : Async α} {what : String}
    (hQ : ∀ a, discipline.Stable me (Q a)) (ht : t.Safe discipline me (fun x w => ∀ a, x = .ok a → Q a w) w)
    (hi : Inv w) : (withContext what t).Safe discipline me (fun x w => ∀ a, x = .ok a → Q a w) w := by
  refine Safe.attempt_bind hi ht fun x w hi h => ?_
  cases x with
  | ok a => exact Safe.ret (hQ a) (fun _ _ h b hb => Except.ok.inj hb ▸ h) hi (h a rfl)
  | error e => exact Safe.fail (Discipline.stable_const True) (fun _ _ _ _ ha => nomatch ha) hi trivial

theorem makeTarget_safe {m : VmMigration} (hi : Inv w) (hm : Read m w) :
    (makeTarget me m).Safe discipline me (fun _ _ => True) w := by
  unfold makeTarget
  split
  · exact beside_safe trivial hi
  · have hQ (item : EngineItem) : discipline.Stable me fun w =>
        ∀ v, item.id = some v → Known w m.targetNode v m.targetName :=
      fun w w' u _ _ _ hg h v hv => hg.known _ _ _ (h v hv)
    have hcreate : (Engine.createVolume me m.targetNode m.targetName false).Safe discipline me
        (fun x w => ∀ item, x = .ok item → ∀ v, item.id = some v → Known w m.targetNode v m.targetName) w :=
      (createVolume_safe (lasting_read m) _ _ hi hm).mono fun _ _ h item hx v hv => h.2 item v hx hv
    refine Safe.bind hi (Safe.frame (d := discipline) (lasting_read m) hi (withContext_safe hQ hcreate hi) hm)
      (fun item w hi h => ?_) fun _ _ _ => trivial
    obtain ⟨hknown, hm⟩ := h
    split
    · exact beside_safe trivial hi
    · rename_i vid hvid
      refine then_safe (lasting_read m) ?_ (fun _ _ hi _ => beside_safe trivial hi) hi hm
      refine update_safe ((lasting_read m).and (lasting_known m.targetNode vid m.targetName)) (fun _ h => h.1)
        (fun w h => ⟨fun r => ⟨rfl, rfl, rfl, rfl, rfl⟩, fun _ h => h, fun r v hv => ?_⟩) hi
        ⟨hm, hknown item rfl vid hvid⟩
      simp only [targetIds, Option.toList_some, List.cons_append, List.nil_append, List.mem_cons] at hv
      rcases hv with rfl | hv
      · exact .inr h.2
      · exact .inl (List.mem_append_right _ hv)

/-- The id found is one that the engine gave a volume of this name. -/
theorem localVolumeId_safe (node name : String) (hi : Inv w) :
    (localVolumeId node name).Safe discipline me (fun x w => ∀ id, x = .ok id → Known w node id name) w := by
  have hQ (x : Except Fault String) : discipline.Stable me fun w => ∀ id, x = .ok id → Known w node id name :=
    fun w w' u _ _ _ hg h id hx => hg.known _ _ _ (h id hx)
  refine safe_callOr (Discipline.stable_const True) hQ (fun w i hi _ _ => ?_) hi trivial
  have hb := (Beside.refl w).effect i.wire
  refine ⟨⟨hb.inv hi, hb.guar⟩, fun id hx => ?_⟩
  unfold Wire.outcome at hx
  cases hw : i.wire with
  | refused status why =>
    rw [hw] at hx
    cases hx
  | lost why =>
    rw [hw] at hx
    cases hx
  | answered =>
    simp only [hw] at hx
    split at hx
    · rename_i only hids
      obtain rfl := Except.ok.inj hx
      have hmem : only ∈ (w.engines.filter fun e => e.node = node ∧ e.name = name ∧ e.deleted = false).map (·.id) := by
        rw [hids]
        exact List.mem_singleton_self _
      obtain ⟨e, he, hid⟩ := List.mem_map.mp hmem
      obtain ⟨he, hp⟩ := List.mem_filter.mp he
      simp only [decide_eq_true_eq] at hp
      exact ⟨e, he, hp.1, hid, hp.2.1⟩
    · cases hx
    · cases hx

theorem findLocal_safe {m : VmMigration} (hi : Inv w) (hm : Read m w) :
    (findLocal m).Safe discipline me (fun _ _ => True) w := by
  unfold findLocal
  split
  · exact beside_safe trivial hi
  · have hQ (id : String) : discipline.Stable me (Known · m.targetNode id m.targetName) := (lasting_known _ _ _).stable
    refine Safe.bind hi (Safe.frame (d := discipline) (lasting_read m) hi
      (withContext_safe hQ (localVolumeId_safe _ _ hi) hi) hm) (fun l w hi h => ?_) fun _ _ _ => trivial
    refine then_safe (lasting_read m) ?_ (fun _ _ hi _ => beside_safe trivial hi) hi h.2
    refine update_safe ((lasting_read m).and (lasting_known m.targetNode l m.targetName)) (fun _ h => h.1)
      (fun w h => ⟨fun r => ⟨rfl, rfl, rfl, rfl, rfl⟩, fun _ h => h, fun r v hv => ?_⟩) hi ⟨h.2, h.1 l rfl⟩
    simp only [targetIds, Option.toList_some, List.mem_append, List.mem_singleton] at hv
    rcases hv with hv | rfl
    · exact .inl (List.mem_append_left _ hv)
    · exact .inr h.2

theorem serveTarget_safe {m : VmMigration} (hi : Inv w) (hm : Read m w) :
    (serveTarget hostNqnFor m).Safe discipline me (fun _ _ => True) w := by
  unfold serveTarget
  split
  · exact beside_safe trivial hi
  · refine beside_then (lasting_read m) (beside_quiet (quiet_withContext (quiet_inquire _) _)) (fun a w hi hm => ?_) hi hm
    refine then_safe (lasting_read m) ?_ (fun _ _ hi _ => beside_safe trivial hi) hi hm
    refine update_safe (lasting_read m) (fun _ h => h) (fun w _ => edit_plain (fun r => ?_) (fun r h => ?_) (fun r => ?_) w)
      hi hm
    · exact ⟨rfl, rfl, rfl, rfl, rfl⟩
    · exact h
    · rfl

/-- A reading changes no more than how far the copy is. -/
theorem edit_applyReading (m : VmMigration) (reading : Option MirrorReading) :
    Same m (applyReading m reading).1 ∧ targetIds (applyReading m reading).1 = targetIds m ∧
      (m.state.terminal = false → (applyReading m reading).1.state.terminal = false) := by
  unfold applyReading
  repeat' split
  all_goals exact ⟨⟨rfl, rfl, rfl, rfl, rfl⟩, rfl, fun h => by first | exact h | rfl⟩

theorem getMigration_safe (hi : Inv w) :
    (getMigration id).Safe discipline me (fun x w => ∀ m, x = .ok m → m.id = id ∧ Read m w) w := by
  refine Safe.step (Discipline.stable_const True) (fun w i hi _ _ _ => ⟨hi, (Beside.refl w).guar, ?_⟩) hi trivial
  simp only [ret_bind]
  split
  · rename_i m hm
    obtain ⟨hid, hissued⟩ := hi.issued id m hm
    have hread : Read m w := by
      subst hid
      exact ⟨hissued, fun m' hm' => Option.some.inj (hm.symm.trans hm') ▸ .refl m⟩
    exact Safe.ret (lasting_read m).stable (fun _ _ h n hn => Except.ok.inj hn ▸ ⟨hid, h⟩) hi hread
  · exact Safe.fail (Discipline.stable_const True) (fun _ _ _ _ h => nomatch h) hi trivial

theorem advance_safe (hi : Inv w) : (advance hostNqnFor me id).Safe discipline me (fun _ _ => True) w := by
  refine Safe.bind hi (getMigration_safe hi) (fun m w hi h => ?_) fun _ _ _ => trivial
  obtain ⟨rfl, hm⟩ := h m rfl
  split
  · exact beside_safe trivial hi
  · have hl := lasting_read m
    refine beside_then hl (beside_quiet (quiet_engine _)) (fun _ w hi hm => ?_) hi hm
    refine then_safe hl (makeTarget_safe hi hm) (fun _ w hi hm => ?_) hi hm
    refine then_safe hl (findLocal_safe hi hm) (fun _ w hi hm => ?_) hi hm
    refine then_safe hl (serveTarget_safe hi hm) (fun a w hi hm => ?_) hi hm
    refine beside_then hl (beside_startMirror m _) (fun reading w hi hm => ?_) hi hm
    refine then_safe hl ?_ (fun _ _ hi _ => beside_safe trivial hi) hi hm
    refine update_safe hl (fun _ h => h) (fun w _ => edit_plain (fun r => ?_) (fun r _ => ?_) (fun r => ?_) w) hi hm
    · have h := (edit_applyReading
        { r with mirrorTarget := some a.driveUri, state := .copying, message := none } (some reading)).1
      exact ⟨h.id, h.sourceNode, h.sourceVolumeId, h.targetNode, h.targetName⟩
    · exact (edit_applyReading _ _).2.2 rfl
    · exact (edit_applyReading _ _).2.1

/-! ## A start from its beginning to its end -/

/-- A start let in: no other migration has its source. -/
theorem opened_step (me : Nat) (u : Option Nat) {m : VmMigration} {ms : SystemTime} (hi : Inv w) (hid : m.id = VmMigration.newId ms w.seq)
    (hgoing : m.state.terminal = false) (hids : targetIds m = [])
    (hapart : ∀ (j : String) o, w.fed.vmMigrations[j]? = some o → ¬SameSource o m) :
    Inv (opened w me m) ∧ Guar u w (opened w me m) := by
  have hget (j : String) : (opened w me m).fed.vmMigrations[j]? = if m.id = j then some m else w.fed.vmMigrations[j]? :=
    get_revise_insert w m.id m j
  have hseq : w.seq ≤ (opened w me m).seq := Nat.le_succ _
  have hissued : Issued (opened w me m) m.id := ⟨ms, w.seq, Nat.lt_succ_self _, hid⟩
  refine ⟨⟨fun j n hn => ?_, fun i j n n' hij hn hn' => ?_, fun j n hn => ?_, hi.ids, fun j n hn v hv => ?_⟩,
    hseq, fun _ _ _ h => h, fun j hj n hn => ?_, fun j n hnone hn k hk => ?_⟩
  · rw [hget] at hn
    split at hn
    · exact Option.some.inj hn ▸ hgoing
    · exact hi.going j n hn
  · rw [hget] at hn hn'
    split at hn
    · rename_i h
      obtain rfl := Option.some.inj hn
      rw [if_neg fun h' => hij (h ▸ h')] at hn'
      exact fun h' => hapart j n' hn' ⟨h'.1.symm, h'.2.symm⟩
    · split at hn'
      · obtain rfl := Option.some.inj hn'
        exact hapart i n hn
      · exact hi.sources i j n n' hij hn hn'
  · rw [hget] at hn
    split at hn
    · rename_i h
      obtain rfl := Option.some.inj hn
      exact ⟨h, h ▸ hissued⟩
    · exact (hi.issued j n hn).imp_right (·.mono hseq)
  · rw [hget] at hn
    split at hn
    · obtain rfl := Option.some.inj hn
      rw [hids] at hv
      cases hv
    · exact hi.known j n hn v hv
  · rw [hget, if_neg] at hn
    · exact ⟨n, hn, .refl n⟩
    · rintro rfl
      exact fresh_not_issued w ms (hid ▸ hj)
  · rw [hget, if_neg]
    rintro rfl
    rw [hget, if_neg hk] at hn
    cases hnone.symm.trans hn

theorem openMigration_safe {node target : String} {planned : Planned} (hi : Inv w) :
    (openMigration me node target planned).Safe discipline me (fun _ _ => True) w := by
  refine Safe.step (Discipline.stable_const True) (fun w i hi _ _ _ => ?_) hi trivial
  simp only [ret_bind]
  split
  · have hi' : Inv { w with seq := w.seq + 1 } :=
      ⟨hi.going, hi.sources, fun j m hm => (hi.issued j m hm).imp_right (·.mono (Nat.le_succ _)), hi.ids, hi.known⟩
    exact ⟨hi', ⟨Nat.le_succ _, fun _ _ _ h => h, fun _ _ m hm => ⟨m, hm, .refl m⟩, fun _ _ _ _ _ _ => rfl⟩,
      beside_safe trivial hi'⟩
  · rename_i hfind
    obtain ⟨m, hm⟩ : ∃ m, m = planned.migration node target (VmMigration.newId i.now w.seq) i.now := ⟨_, rfl⟩
    have hid : m.id = VmMigration.newId i.now w.seq := by rw [hm]; rfl
    have hstep := opened_step me (some me) hi hid (by rw [hm]; rfl) (by rw [hm]; rfl) fun j o ho hnv => by
      have := List.find?_eq_none.mp hfind (j, o) (KeyMap.mem_toList.mpr ho)
      simp [hnv.1, hnv.2, hi.going j o ho, hm, Planned.migration] at this
    subst hm
    exact ⟨hstep.1, hstep.2, beside_safe trivial hstep.1⟩

/-- The record of a start that failed is dropped. -/
theorem erased_step {id : String} (hi : Inv w) {claims : KeyMap Claim} (hw : w' =
    { w.revise fun fed => { fed with vmMigrations := fed.vmMigrations.erase id } with replacing := claims }) :
    Inv w' ∧ Guar u w w' := by
  have hback (j : String) (n : VmMigration) (hn : w'.fed.vmMigrations[j]? = some n) : w.fed.vmMigrations[j]? = some n := by
    rw [hw] at hn
    simp only [AppState.revise, AppState.setFed, KeyMap.get_erase] at hn
    split at hn
    · cases hn
    · exact hn
  have hengines : w'.engines = w.engines := by rw [hw]; rfl
  have hseq : w.seq = w'.seq := by rw [hw]; rfl
  have hknown {node v name : String} (h : Known w node v name) : Known w' node v name := by
    rwa [Known, hengines]
  refine ⟨⟨fun j n hn => hi.going j n (hback j n hn), fun i j n n' hij hn hn' => ?_, fun j n hn => ?_, hengines ▸ hi.ids,
    fun j n hn v hv => hknown (hi.known j n (hback j n hn) v hv)⟩, Nat.le_of_eq hseq, fun _ _ _ => hknown,
    fun j _ n hn => ⟨n, hback j n hn, .refl n⟩, fun j n hnone hn => ?_⟩
  · exact hi.sources i j n n' hij (hback i n hn) (hback j n' hn')
  · exact (hi.issued j n (hback j n hn)).imp_right (·.mono (Nat.le_of_eq hseq))
  · cases hnone.symm.trans (hback j n hn)

theorem lasting_true : Lasting fun _ => True := fun _ _ _ _ _ _ _ => trivial

theorem begin_safe {m : VmMigration} (hi : Inv w) : (begin hostNqnFor me m).Safe discipline me (fun _ _ => True) w := by
  refine Safe.attempt_bind hi (advance_safe hi) fun x w hi _ => ?_
  cases x with
  | ok _ =>
    refine Safe.step (Discipline.stable_const True) (fun w _ hi _ _ _ => ?_) hi trivial
    have hi' : Inv (w.release (VmMigration.claimKey m.id)) := ⟨hi.going, hi.sources, hi.issued, hi.ids, hi.known⟩
    refine ⟨hi', ⟨Nat.le_refl _, fun _ _ _ h => h, fun _ _ n hn => ⟨n, hn, .refl n⟩, fun _ _ _ _ _ _ => rfl⟩, ?_⟩
    simp only [ret_bind]
    exact beside_safe (beside_quiet (Only.bind (quiet_get _) fun _ => trivial)) hi'
  | error e =>
    refine then_safe lasting_true ?_ (fun _ w hi _ => ?_) hi trivial
    · refine beside_then lasting_true (only_atomic fun _ w => .note w _) (fun o w hi _ => ?_) hi trivial
      split
      · exact beside_then lasting_true (beside_undoTarget _).attempt (fun _ _ hi _ => beside_safe trivial hi) hi trivial
      · exact beside_safe trivial hi
    · refine Safe.step (Discipline.stable_const True) (fun w _ hi _ _ _ => ?_) hi trivial
      obtain ⟨hi', hg⟩ := erased_step (u := some me) hi rfl
      exact ⟨hi', hg, beside_safe trivial hi'⟩

theorem start_safe {op : StartOp} (hi : Inv w) :
    ((starts hostNqnFor).prog me op).Safe discipline me (fun _ _ => True) w := by
  have hstart : (start hostNqnFor me op.node op.vol op.body).Safe discipline me (fun _ _ => True) w := by
    refine beside_then lasting_true (beside_quiet (quiet_planMigration _ _ _)) (fun _ w hi _ => ?_) hi trivial
    exact then_safe lasting_true (openMigration_safe hi) (fun m w hi _ => begin_safe hi) hi trivial
  exact then_safe lasting_true hstart (fun _ _ hi _ => beside_safe trivial hi) hi trivial

/-- What happens elsewhere leaves every record as it is. -/
theorem elsewhere_step (hi : Inv w) (e : Elsewhere) :
    Inv ((starts hostNqnFor).env e w) ∧ Guar u w ((starts hostNqnFor).env e w) := by
  cases e with
  | nodes nodes =>
    exact ⟨⟨hi.going, hi.sources, hi.issued, hi.ids, hi.known⟩, Nat.le_refl _, fun _ _ _ h => h,
      fun _ _ m hm => ⟨m, hm, .refl m⟩, fun _ _ _ _ _ _ => rfl⟩
  | made e =>
    simp only [starts]
    split
    · exact ⟨hi, (Beside.refl w).guar⟩
    · rename_i hfresh
      have hknown {node v name : String} : Known w node v name → Known { w with engines := w.engines ++ [e] } node v name :=
        fun ⟨a, ha, h⟩ => ⟨a, List.mem_append_left _ ha, h⟩
      exact ⟨⟨hi.going, hi.sources, hi.issued, idsNamed_add (by simpa using hfresh) hi.ids,
        fun id m hm v hv => hknown (hi.known id m hm v hv)⟩, Nat.le_refl _, fun _ _ _ => hknown,
        fun _ _ m hm => ⟨m, hm, .refl m⟩, fun _ _ _ _ _ _ => rfl⟩
  | gone node id =>
    have hb := beside_destroyOn w node id
    exact ⟨hb.inv hi, hb.guar⟩

/-- No migration yet, and these volumes on the engines. -/
def begun (fed : FedState) (engines : List EngineVolume) : AppState := { AppState.start fed with engines := engines }

theorem inv_begun (fed : FedState) {engines : List EngineVolume} (h : IdsNamed engines) : Inv (begun fed engines) := by
  have hr (id : String) (m : VmMigration) (hm : (begun fed engines).fed.vmMigrations[id]? = some m) : False := by
    cases (KeyMap.get_empty id).symm.trans hm
  exact ⟨fun id m hm => (hr id m hm).elim, fun i _ m _ _ hm => (hr i m hm).elim, fun id m hm => (hr id m hm).elim, h,
    fun id m hm => (hr id m hm).elim⟩

theorem kept_run {ok : AppState → AppState → Prop} {fed : FedState} {engines : List EngineVolume}
    {p : Pool Reply AppState Fault} (hids : IdsNamed engines)
    (h : (starts hostNqnFor).Run ok ⟨begun fed engines, []⟩ p) : System.Run.Kept discipline p := by
  refine System.Run.safe (d := discipline) ?_ ?_ ?_ rfl (h.mono fun _ _ _ => trivial)
  · exact fun _ op w hi => start_safe hi
  · exact fun e w hi _ => elsewhere_step hi e
  · exact inv_begun fed hids

theorem guar_move {p p' : Pool Reply AppState Fault} {mv : Move Reply StartOp Elsewhere} (hk : System.Run.Kept discipline p)
    (hm : (starts hostNqnFor).step p mv = some p') : Inv p'.state ∧ ∃ u, Guar u p.state p'.state := by
  obtain ⟨hk', -, h⟩ := System.Run.kept_step (d := discipline) (fun op => start_safe hk.1)
    (fun e w hi _ => elsewhere_step hi e) hk hm trivial
  refine ⟨hk'.1, ?_⟩
  rcases h with h | ⟨u, -, hg⟩
  · exact ⟨none, h ▸ (Beside.refl _).guar⟩
  · exact ⟨u, hg⟩

/-- A step keeps targets apart if what it records has a target of its own. -/
theorem targetsApart_step (hi : Inv w) (hg : Guar u w w') (h : TargetsApart w.fed) :
    TargetsApart w'.fed ↔ Spaced w.fed w'.fed := by
  -- a record is new, or the one that was there
  have hback (j : String) (n : VmMigration) (hn : w'.fed.vmMigrations[j]? = some n) :
      w.fed.vmMigrations[j]? = none ∨ ∃ o, w.fed.vmMigrations[j]? = some o ∧ Same o n := by
    cases ho : w.fed.vmMigrations[j]? with
    | none => exact .inl rfl
    | some o =>
      obtain ⟨o', ho', hs⟩ := hg.records j (hi.issued j o ho).2 n hn
      exact .inr ⟨o, rfl, by rwa [Option.some.inj (ho.symm.trans ho')]⟩
  refine ⟨fun h' id m hnone hm j o ho _ ha => ?_, fun hs i j m m' hij hm hm' ha => ?_⟩
  · have hj : j ≠ id := by
      rintro rfl
      cases hnone.symm.trans ho
    exact h' j id o m hj ((hg.new id m hnone hm j hj).trans ho) hm ha
  · have hsymm : NamedAlike m' m := ⟨ha.1.symm, ha.2.symm⟩
    rcases hback i m hm with hi₀ | ⟨o, ho, hos⟩
    · have hj := (hg.new i m hi₀ hm j (Ne.symm hij)).symm.trans hm'
      exact hs i m hi₀ hm j m' hj (hi.going j m' hj) hsymm
    · rcases hback j m' hm' with hj₀ | ⟨o', ho', hos'⟩
      · have hi₁ := (hg.new j m' hj₀ hm' i hij).symm.trans hm
        exact hs j m' hj₀ hm' i m hi₁ (hi.going i m hi₁) ha
      · exact h i j o o' hij ho ho' ((hos.namedAlike hos').mp ha)

/-- However starts are interleaved: of the migrations that are not finished no
two ever have one source or one target just as long as no start is recorded
for a target that an open migration has. -/
theorem exclusive_iff {fed : FedState} {engines : List EngineVolume} {p : Pool Reply AppState Fault}
    (hids : IdsNamed engines) :
    (starts hostNqnFor).Run (fun _ w' => Exclusive w'.fed) ⟨begun fed engines, []⟩ p ↔
      (starts hostNqnFor).Run (fun w w' => Spaced w.fed w'.fed) ⟨begun fed engines, []⟩ p := by
  have hstart : TargetsApart (begun fed engines).fed := fun i j m m' _ hm =>
    nomatch (KeyMap.get_empty i).symm.trans hm
  constructor
  · intro h
    suffices hs : (starts hostNqnFor).Run (fun w w' => Spaced w.fed w'.fed) ⟨begun fed engines, []⟩ p ∧
        TargetsApart p.state.fed from hs.1
    induction h with
    | refl => exact ⟨.refl, hstart⟩
    | step mv _ hm hok ih =>
      obtain ⟨hr, ha⟩ := ih
      have hk := kept_run hids hr
      obtain ⟨hi', u, hg⟩ := guar_move hk hm
      have ha' := hi'.exclusive.mp hok
      exact ⟨hr.step mv hm ((targetsApart_step hk.1 hg ha).mp ha'), ha'⟩
  · intro h
    suffices hs : (starts hostNqnFor).Run (fun _ w' => Exclusive w'.fed) ⟨begun fed engines, []⟩ p ∧
        TargetsApart p.state.fed from hs.1
    induction h with
    | refl => exact ⟨.refl, hstart⟩
    | step mv _ hm hok ih =>
      obtain ⟨hr, ha⟩ := ih
      have hk := kept_run hids hr
      obtain ⟨hi', u, hg⟩ := guar_move hk hm
      have ha' := (targetsApart_step hk.1 hg ha).mpr hok
      exact ⟨hr.step mv hm (hi'.exclusive.mpr ha'), ha'⟩

/-! ### Two starts -/

/-- Task `t` starts the migration of the volume numbered `n` of node s to node
t, up to the step that records it. -/
def opens (t n : Nat) (name : String) : List (Move Reply StartOp Elsewhere) :=
  [.start { node := "s", vol := disk, body := { «to» := "t", name := some name } }, .run t {},
    .run t { item := { id := some disk, name := some disk, sizeBytes := some 10 } }, .run t {}, .run t {}]
where
  disk : String := "disk-" ++ toString n

/-- Two starts to targets of different names. -/
theorem exclusive_pair : ∃ p, (starts fun _ => "h").Run (fun w w' => Spaced w.fed w'.fed) ⟨begun smallFed [], []⟩ p ∧
    p.state.fed.vmMigrations.toList.map (·.2.targetName) = ["x", "y"] := by
  have hr : (starts fun _ => "h").Run (fun _ w' => Exclusive w'.fed) ⟨begun smallFed [], []⟩
      ((starts fun _ => "h").final (fun _ w' => decide (Exclusive w'.fed)) ⟨begun smallFed [], []⟩
        (opens 0 1 "x" ++ opens 1 2 "y")) :=
    System.run_final (fun _ _ => of_decide_eq_true) (by decide +kernel)
  exact ⟨_, (exclusive_iff (by simp [IdsNamed])).mp hr, by decide +kernel⟩

/-- Two starts to one name: the target's engine holds no such volume when
either asks, and both are recorded. -/
theorem not_exclusive : ¬ ∀ (fed : FedState) (p : Pool Reply AppState Fault),
    (starts fun _ => "h").Run (fun _ _ => True) ⟨begun fed [], []⟩ p → Exclusive p.state.fed := by
  intro h
  have hr : (starts fun _ => "h").Run (fun _ _ => True) ⟨begun smallFed [], []⟩
      ((starts fun _ => "h").final (fun _ _ => true) ⟨begun smallFed [], []⟩ (opens 0 1 "x" ++ opens 1 2 "x")) :=
    System.run_final (fun _ _ _ => trivial) (by decide +kernel)
  exact absurd (h _ _ hr) (by decide +kernel)

end StormStorage.VmMigrate.Starts
