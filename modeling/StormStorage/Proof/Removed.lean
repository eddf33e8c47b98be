import Mathlib.Data.List.Dedup
import StormStorage.Operations
import StormStorage.Proof.Answers
import StormStorage.Proof.Rebalance
import StormStorage.Proof.Serves

/-!
# A delete that is answered

What never comes back is proved over every run. Here is what a delete
comes to: of any volume that can be deleted, with every call answered and its
legs' nodes known, its record goes, and of each leg nothing is left but what is
an orphan to reap, its node being down (`delete_completes`).
-/

namespace StormStorage

open Await Task

theorem Serves.nodes {w w' : AppState} (h : Serves w w') : w'.fed.nodes = w.fed.nodes := by rw [h.eq]

theorem Serves.orphans {w w' : AppState} (h : Serves w w') : w'.fed.orphans = w.fed.orphans := by rw [h.eq]

theorem Serves.trans {w w' w'' : AppState} (h : Serves w w') (h' : Serves w' w'') : Serves w w'' := by
  refine ⟨?_, h.engines.trans h'.engines, fun n => (h'.records n).trans (h.records n)⟩
  rw [h'.eq, h.eq]

/-- What a phase that serves leaves alone, beside what it comes to. -/
theorem Comes.serves {α : Type} {good : Reply → AppState → Prop} {Q : α → AppState → Prop} {t : Async α} {w : AppState}
    (ht : t.Only Serves) (h : t.Comes good Q w) : t.Comes good (fun a w' => Q a w' ∧ Serves w w') w :=
  h.only Serves.refl (fun _ _ _ => Serves.trans) ht

namespace Api

open Orchestrate

/-- The calls of a delete are answered, and a list in an answer has no name
twice and every volume that is served. -/
structure Told (i : Reply) (w : AppState) : Prop where
  wire : i.wire = .answered
  once : ∀ name, (i.items.filterMap fun v => if v.name = some name then v.id else none).length ≤ 1
  served : ∀ a ∈ w.access, ∃ v ∈ i.items, v.name = some a.name ∧ v.id.isSome

theorem answering_told : Answering Told := fun _ _ h => h.wire

variable {me : Nat} {name node : String} {vol : DistVolume} {w : AppState}

theorem comes_asUpstream {α : Type} {good : Reply → AppState → Prop} {Q : α → AppState → Prop} {what : String}
    {t : Async α} (h : t.Comes good Q w) : (asUpstream what t).Comes good Q w :=
  (comes_withContext h).attempt_bind fun _ _ hq => comes_ret hq

/-! ## Its backups -/

/-- A volume is found by its name, or is not there. -/
theorem comes_localVolumeId :
    (Engine.localVolumeId node name).attempt.Comes Told (fun x _ => ∀ e, x = .error e → e.isNotFound = true) w := by
  refine ⟨rfl, fun i hi => ?_⟩
  have honce := hi.once name
  simp only [hi.wire]
  cases hids : i.items.filterMap fun v => if v.name = some name then v.id else none with
  | nil =>
    have hunserved : ¬ (w.access.any fun a => a.node = node ∧ a.name = name) = true := by
      intro h
      obtain ⟨a, ha, hname⟩ := List.any_eq_true.mp h
      obtain ⟨v, hv, hvn, hid⟩ := hi.served a ha
      obtain ⟨id, hid⟩ := Option.isSome_iff_exists.mp hid
      have hm : id ∈ i.items.filterMap fun v => if v.name = some name then v.id else none := by
        refine List.mem_filterMap.mpr ⟨v, hv, ?_⟩
        rw [if_pos (by rw [hvn, (of_decide_eq_true hname).2]), hid]
      rw [hids] at hm
      cases hm
    rw [if_neg (fun h => hunserved h.2)]
    exact fun e he => Except.error.inj he ▸ rfl
  | cons id rest =>
    rw [if_neg (by simp)]
    cases rest with
    | nil => exact fun e he => by cases he
    | cons id' rest =>
      rw [hids] at honce
      simp at honce

theorem comes_dropSnapshot {id : Option String} :
    (Backups.dropSnapshot node name id).Comes Told (fun _ _ => True) w := by
  have hdelete : ∀ id w, (Engine.deleteVolume node id).Comes Told (fun _ _ => True) w := fun _ _ =>
    (comes_deleteVolume answering_told).mono fun _ _ _ => trivial
  have hid : (Backups.deleteById node id).Comes Told (fun _ _ => True) w := by
    cases id with
    | none => trivial
    | some id => exact hdelete id w
  refine hid.bind fun _ w _ => comes_localVolumeId.bind fun x w hx => ?_
  cases x with
  | ok found => exact hdelete found w
  | error e =>
    dsimp only
    rw [if_pos (hx e rfl)]
    trivial

/-- What is held is dropped, on nodes that answer. -/
theorem comes_onVolumeDelete
    (hup : ∀ b ∈ w.fed.backups[name]?, ∀ s ∈ heldSnapshots b, healthyIn w.fed s.node = true) :
    (onVolumeDelete name).Comes Told (fun _ _ => True) w := by
  refine Comes.bind (comes_get (Q := fun x _ => x = (w.fed.backups[name]?).map fun b =>
    (heldSnapshots b).map fun s => (s, healthyIn w.fed s.node)) rfl) fun x w₁ hx => ?_
  subst hx
  cases hb : w.fed.backups[name]? with
  | none => trivial
  | some b =>
    refine (comes_forEach (I := fun _ => True) (fun x hx w _ => ?_) trivial).bind fun _ w _ => comes_modify trivial
    obtain ⟨s, hs, rfl⟩ := List.mem_map.mp hx
    unfold dropHeld
    dsimp only
    rw [if_pos (hup b hb s hs)]
    exact comes_asUpstream comes_dropSnapshot

/-! ## What it serves -/

/-- The served volume is gone, where its node is up: but for one that is a leg,
or one that came across with its array. -/
theorem comes_revoke {w₀ : AppState} (hup : ∀ n, healthyIn w.fed n = healthyIn w₀.fed n) :
    (revoke vol).Comes Told (fun _ w' => ∀ node vid, vol.export.node = some node → vol.export.volumeId = some vid →
      ¬ (vol.legs.any (·.volumeId = some vid)) = true → healthyIn w₀.fed node = true → vol.export.adopted = false →
        NoneLeft node vid w') w := by
  unfold revoke
  split
  · rename_i node vid hnode hvid
    split
    · rename_i hleg
      intro n v hn hv hno
      rw [hvid] at hv
      exact absurd (Option.some.inj hv ▸ hleg) hno
    · refine Comes.bind (comes_get (Q := fun up _ => up = healthyIn w.fed node) rfl) fun up w₁ hup₁ => ?_
      split
      · have hserved : ∀ w, (deleteServed vol node vid).Comes Told
            (fun _ w' => vol.export.adopted = false → NoneLeft node vid w') w := by
          intro w
          refine (comes_act answering_told).attempt_bind fun _ w _ => ?_
          split
          · next h => exact (comes_act answering_told).mono fun _ _ _ hno => absurd h (by simp [hno])
          · exact (comes_deleteVolume answering_told).mono fun _ _ hw _ => hw ▸ noneLeft_destroyOn _ node vid
        refine (comes_modify (Q := fun _ _ => True) trivial).bind fun _ w _ => ?_
        refine (comes_withContext (hserved w)).attempt_bind fun _ w' hgone => ?_
        intro n v hn hv _ _ hadopted
        rw [hnode] at hn
        rw [hvid] at hv
        exact Option.some.inj hn ▸ Option.some.inj hv ▸ hgone hadopted
      · next hdown =>
        intro n v hn hv _ hu _
        rw [hnode] at hn
        rw [hup₁, hup, Option.some.inj hn, hu] at hdown
        exact absurd rfl hdown
  · rename_i hnone
    intro n v hn hv
    exact absurd hv (hnone n v hn)

/-! ## Its array and legs -/

theorem comes_teardown : (teardown vol).Comes Told (fun _ w' => w' = w) w := by
  have hact : ∀ w, (Engine.act.attempt.bind fun _ => .ret () : Async Unit).Comes Told (fun _ w' => w' = w) w := fun w =>
    (comes_act answering_told).attempt_bind fun _ _ hw => hw
  have hacts : ∀ xs : List (Leg × Bool), (Task.forEach xs fun _ => do
      let _ ← Engine.act.attempt : Async Unit).Comes Told (fun _ w' => w' = w) w := fun xs =>
    comes_forEach (I := (· = w)) (fun _ _ s hs => hs ▸ hact s) rfl
  refine Comes.bind (comes_get (Q := fun _ w' => w' = w) rfl) fun up w₁ hw => ?_
  subst hw
  refine Comes.bind (comes_get (Q := fun _ w' => w' = w₁) rfl) fun there w₂ hw => ?_
  subst hw
  split
  · refine (comes_act answering_told).attempt_bind fun _ w₃ hw => ?_
    subst hw
    refine (comes_forEach (I := (· = w₃)) (fun _ _ s hs => hs ▸ hact s) rfl).bind fun _ w₄ hw => ?_
    subst hw
    exact hacts _
  · exact hacts _

/-- What became of a leg is so: nothing is left of it, or an orphan to reap. -/
inductive TakenDown (leg : Leg) (w : AppState) : Gone → Prop
  | deleted : (∀ vid ∈ leg.volumeId, NoneLeft leg.node vid w) → TakenDown leg w .deleted
  | orphaned {o : Orphan} : o.node = leg.node → leg.volumeId = some o.volumeId → healthyIn w.fed o.node = false →
      TakenDown leg w (.orphaned o)

/-- What is gone stays so. -/
def StillGone (w w' : AppState) : Prop := ∀ node vid, NoneLeft node vid w → NoneLeft node vid w'

theorem comes_deleteLeg {leg : Leg} (hknown : w.fed.nodes.contains leg.node = true) :
    (deleteLeg name leg).Comes Told (fun gone w' => TakenDown leg w' gone ∧ StillGone w w') w := by
  unfold deleteLeg
  split
  · next hnone =>
    refine ⟨.deleted fun vid hvid => ?_, fun _ _ h => h⟩
    rw [hnone] at hvid
    cases hvid
  · next id hid =>
    rw [KeyMap.contains_eq] at hknown
    obtain ⟨n, hn⟩ := Option.isSome_iff_exists.mp hknown
    refine Comes.bind (comes_atomic (Q := fun x w' => x.1 = some n.status.healthy ∧ w' = w)
      fun _ _ => ⟨by rw [hn]; rfl, rfl⟩) fun x w₁ hx => ?_
    obtain ⟨up, now⟩ := x
    obtain ⟨rfl, rfl⟩ := hx
    cases hup : n.status.healthy with
    | false =>
      refine ⟨.orphaned rfl hid ?_, fun _ _ h => h⟩
      show healthyIn w₁.fed leg.node = false
      rw [healthyIn, hn, Option.any_some, hup]
    | true =>
      refine (comes_deleteVolume answering_told).attempt_bind fun _ w₂ hw => ?_
      subst hw
      refine ⟨.deleted fun vid hvid => ?_, fun _ _ h => h.destroyOn⟩
      rw [hid] at hvid
      exact Option.some.inj hvid ▸ noneLeft_destroyOn _ _ _

theorem comes_deleteLegs {legs : List Leg} (hknown : ∀ leg ∈ legs, w.fed.nodes.contains leg.node = true) :
    (deleteLegs name legs).Comes Told (fun r w' => r.2 = [] ∧ StillGone w w' ∧ ∀ leg ∈ legs, ∀ vid ∈ leg.volumeId,
      NoneLeft leg.node vid w' ∨
        ∃ o ∈ r.1, o.node = leg.node ∧ o.volumeId = vid ∧ healthyIn w.fed leg.node = false) w := by
  induction legs generalizing w with
  | nil => exact ⟨rfl, fun _ _ h => h, by simp⟩
  | cons leg legs ih =>
    have hleg : (deleteLeg name leg).Comes Told _ w := comes_deleteLeg (hknown leg List.mem_cons_self)
    refine (Comes.calls (remote_deleteLeg (b := true)) hleg).bind fun gone w₁ h₁ => ?_
    obtain ⟨⟨hdown, hstill⟩, hcalls⟩ := h₁
    have hrest := ih (w := w₁) fun l hl => by rw [hcalls.fed, hknown l (List.mem_cons_of_mem _ hl)]
    refine hrest.bind fun r w₂ h₂ => ?_
    obtain ⟨orphans, errors⟩ := r
    obtain ⟨rfl, hstill₂, hlegs⟩ := h₂
    rw [hcalls.fed] at hlegs
    cases hdown with
    | deleted hgone =>
      refine ⟨rfl, fun _ _ h => hstill₂ _ _ (hstill _ _ h), fun l hl vid hvid => ?_⟩
      rcases List.mem_cons.mp hl with rfl | hl
      · exact .inl (hstill₂ _ _ (hgone vid hvid))
      · exact hlegs l hl vid hvid
    | @orphaned o hnode hvol hup =>
      refine ⟨rfl, fun _ _ h => hstill₂ _ _ (hstill _ _ h), fun l hl vid hvid => ?_⟩
      rcases List.mem_cons.mp hl with rfl | hl
      · rw [hvol] at hvid
        refine .inr ⟨o, List.mem_cons_self, hnode, Option.some.inj hvid, ?_⟩
        rw [← hnode, ← hcalls.fed, hup]
      · rcases hlegs l hl vid hvid with h | ⟨o', ho', h⟩
        · exact .inl h
        · exact .inr ⟨o', List.mem_cons_of_mem _ ho', h⟩

/-! ## The delete -/

/-- Every leg of the volume, a new one that is still to take its place included. -/
def allLegs (vol : DistVolume) : List Leg := vol.legs ++ (vol.replacing.map (·.leg)).toList

/-- The volume is gone: its record, what it served and its legs, but for legs on
nodes that are down, which are left to reap. The other records are as they were,
but for what they export. -/
structure Removed (name : String) (vol : DistVolume) (w w' : AppState) : Prop where
  record : w'.fed.volumes[name]? = none
  others : ∀ n : String, n ≠ name → (w'.fed.volumes[n]?).map DistVolume.bare = (w.fed.volumes[n]?).map DistVolume.bare
  nodes : w'.fed.nodes = w.fed.nodes
  orphans : w.fed.orphans ⊆ w'.fed.orphans
  legs : ∀ leg ∈ allLegs vol, ∀ vid ∈ leg.volumeId, NoneLeft leg.node vid w' ∨
    ∃ o ∈ w'.fed.orphans, o.node = leg.node ∧ o.volumeId = vid ∧ healthyIn w.fed leg.node = false
  served : ∀ node vid, vol.export.node = some node → vol.export.volumeId = some vid →
    ¬ (vol.legs.any (·.volumeId = some vid)) = true → healthyIn w.fed node = true → vol.export.adopted = false →
      NoneLeft node vid w'

/-- A delete that is answered takes the volume away. -/
theorem delete_completes (hd : deletable name w.fed = .ok vol)
    (hknown : ∀ leg ∈ allLegs vol, w.fed.nodes.contains leg.node = true)
    (hheld : ∀ b ∈ w.fed.backups[name]?, ∀ s ∈ heldSnapshots b, healthyIn w.fed s.node = true) :
    (Api.deleteVolume me name).Comes Told (fun _ w' => Removed name vol w w') w := by
  refine (comes_enter hd).bind fun v w₁ h₁ => ?_
  obtain ⟨rfl, hfed⟩ := h₁
  refine (Comes.serves serves_onVolumeDelete (comes_onVolumeDelete (by rw [hfed]; exact hheld))).bind fun _ w₂ h₂ => ?_
  obtain ⟨-, hs₂⟩ := h₂
  have hup : ∀ n, healthyIn w₂.fed n = healthyIn w.fed n := fun n => by rw [healthyIn, hs₂.nodes, hfed]; rfl
  refine (Comes.serves serves_revoke (comes_revoke hup)).attempt_bind fun _ w₃ h₃ => ?_
  obtain ⟨hserved, hs₃⟩ := h₃
  refine comes_teardown.bind fun _ w₄ h₄ => ?_
  subst h₄
  have hknown' : ∀ leg ∈ allLegs v, w₄.fed.nodes.contains leg.node = true := fun leg hl => by
    rw [hs₃.nodes, hs₂.nodes, hfed, hknown leg hl]
  refine (Comes.calls (remote_deleteLegs (b := true) _) (comes_deleteLegs hknown')).bind fun r w₅ h₅ => ?_
  obtain ⟨⟨herrors, hstill, hlegs⟩, hcalls⟩ := h₅
  obtain ⟨orphans, errors⟩ := r
  obtain rfl : errors = [] := herrors
  have hnodes : w₄.fed.nodes = w.fed.nodes := by rw [hs₃.nodes, hs₂.nodes, hfed]
  have horphans : w₄.fed.orphans = w.fed.orphans := by rw [hs₃.orphans, hs₂.orphans, hfed]
  refine comes_modify ⟨?_, fun n hn => ?_, ?_, ?_, fun leg hl vid hvid => ?_, ?_⟩
  · show (w₅.fed.volumes.erase name)[name]? = none
    rw [KeyMap.get_erase, if_pos rfl]
  · show ((w₅.fed.volumes.erase name)[n]?).map DistVolume.bare = _
    rw [KeyMap.get_erase, if_neg (Ne.symm hn), hcalls.fed, hs₃.records, hs₂.records, hfed]
  · rw [← hnodes, ← hcalls.fed]
    rfl
  · show w.fed.orphans ⊆ w₅.fed.orphans ++ orphans
    rw [hcalls.fed, horphans]
    exact List.subset_append_left _ _
  · rcases hlegs leg hl vid hvid with h | ⟨o, ho, hnode, hvol, hdown⟩
    · exact .inl h
    · refine .inr ⟨o, List.mem_append_right _ ho, hnode, hvol, ?_⟩
      rw [healthyIn, ← hnodes]
      exact hdown
  · intro node vid hnode hvid hleg hup hadopted
    exact hstill node vid (hserved node vid hnode hvid hleg hup hadopted)

/-- There is always an answer that lists what is served. -/
theorem exists_told (w : AppState) : ∃ i, Told i w := by
  let names := (w.access.map (·.name)).dedup
  refine ⟨{ items := names.map fun n => { (default : EngineItem) with name := some n, id := some "" } }, rfl, ?_, ?_⟩
  · intro name
    have honce : names.count name ≤ 1 := List.nodup_iff_count_le_one.mp (List.nodup_dedup _) name
    rw [List.length_filterMap_eq_countP, List.countP_map]
    refine Nat.le_trans (Nat.le_of_eq (List.countP_congr fun n _ => ?_)) honce
    by_cases h : n = name <;> simp [h]
  · intro a ha
    refine ⟨_, List.mem_map.mpr ⟨a.name, List.mem_dedup.mpr (List.mem_map_of_mem ha), rfl⟩, rfl, rfl⟩

theorem delete_completes_pair : ∃ w',
    Ends (Api.deleteVolume 0 "v") { fed := Rebalance.fullNodes } (.ok ()) w' ∧ w'.fed.volumes["v"]? = none := by
  have hok : (deletable "v" Rebalance.fullNodes).toOption.any
      (fun v => (allLegs v).all fun leg => Rebalance.fullNodes.nodes.contains leg.node) = true := by
    decide +kernel
  cases hd : deletable "v" Rebalance.fullNodes with
  | error e =>
    rw [hd] at hok
    cases hok
  | ok vol =>
    rw [hd] at hok
    have hcomes : (Api.deleteVolume 0 "v").Comes Told _ { fed := Rebalance.fullNodes } :=
      delete_completes hd (List.all_eq_true.mp hok) fun b hb => by cases hb
    obtain ⟨_, w', hend, hremoved⟩ := hcomes.ends exists_told
    exact ⟨w', hend, hremoved.record⟩

end Api

end StormStorage
