import Mathlib.Data.List.Perm.Subperm
import StormStorage.Orchestrate.Replacement

/-!
# What a recovery pass decides

`planRecovery` marks the legs of unhealthy nodes lost and says which volumes
to work on.

* `marks_iff`: a record changes exactly when something is marked;
* `afterLoss_afterLoss`: marking again changes nothing;
* `mem_start`: which volumes have a replacement started;
* `planRecovery_spec`: all of it together.
-/

namespace StormStorage.Orchestrate

/-! ## Marking losses -/

theorem loseLeg_eq_self {fed : FedState} {l : Leg} : loseLeg fed l = l ↔ (l.state = .created → healthyIn fed l.node) := by
  unfold loseLeg
  split
  · rename_i h
    refine ⟨fun he => ?_, fun hh => absurd (hh h.1) h.2⟩
    have hs := congrArg Leg.state he
    rw [h.1] at hs
    cases hs
  · rename_i h
    exact ⟨fun _ hc => by_contra fun hh => h ⟨hc, hh⟩, fun _ => rfl⟩

/-- The record is changed exactly when something is marked. -/
theorem marks_iff {fed : FedState} {v : DistVolume} : marks fed v = true ↔ afterLoss fed v ≠ v := by
  rw [marks, decide_eq_true_eq]
  unfold losing afterLoss
  split
  · rename_i ha
    have hlegs : v.legs.map (loseLeg fed) = v.legs ↔
        v.legs.filter (fun l => decide (l.state = .created ∧ ¬ healthyIn fed l.node)) = [] := by
      have hmap : v.legs.map (loseLeg fed) = v.legs ↔ ∀ l ∈ v.legs, loseLeg fed l = l := by
        simpa using List.map_inj_left (l := v.legs) (f := loseLeg fed) (g := id)
      rw [hmap, List.filter_eq_nil_iff]
      simp [loseLeg_eq_self]
    constructor
    · rintro (hne | ⟨hs, hl⟩) he
      · exact hne (hlegs.mp (congrArg DistVolume.legs he))
      · have hd := congrArg DistVolume.assembly he
        dsimp only at hd
        rw [if_pos ⟨hl, hs⟩, hs] at hd
        cases hd
    · intro hne
      by_contra hno
      rw [not_or, not_not, ← hlegs] at hno
      refine hne ?_
      dsimp only
      rw [if_neg fun h => hno.2 ⟨h.2, h.1⟩, hno.1]
  · rename_i ha
    simp [not_or.mp ha]

/-- The revision counts the passes that change a record. -/
theorem planRecovery_fst (fed : FedState) (enabled : Bool) (now : SystemTime) (busy : String → Bool) :
    (planRecovery fed enabled now busy).1 = { fed with
      volumes := fed.volumes.map fun _ v => afterLoss fed v
      revision := if (fed.volumes.map fun _ v => afterLoss fed v) = fed.volumes then fed.revision else fed.revision + 1 } := by
  have hiff : (fed.volumes.map fun _ v => afterLoss fed v) = fed.volumes ↔
      ¬ (fed.volumes.toList.map Prod.snd).any (marks fed) = true := by
    rw [List.any_eq_true]
    constructor
    · rintro he ⟨v, hv, hm⟩
      obtain ⟨⟨n, v⟩, hp, rfl⟩ := List.mem_map.mp hv
      have hn := KeyMap.mem_toList.mp hp
      have hn' := hn
      rw [← he, Std.ExtTreeMap.getElem?_map, hn, Option.map_some] at hn'
      exact marks_iff.mp hm (Option.some.inj hn')
    · intro hno
      refine KeyMap.ext fun n => ?_
      rw [Std.ExtTreeMap.getElem?_map]
      cases hn : fed.volumes[n]? with
      | none => rfl
      | some v =>
        refine congrArg some (by_contra fun hne => hno ⟨v, ?_, marks_iff.mpr hne⟩)
        exact List.mem_map.mpr ⟨(n, v), KeyMap.mem_toList.mpr hn, rfl⟩
  unfold planRecovery
  dsimp only
  by_cases h : (fed.volumes.map fun _ v => afterLoss fed v) = fed.volumes
  · rw [if_pos h, if_neg (hiff.mp h)]
  · rw [if_neg h, if_pos (not_not.mp (mt hiff.mpr h))]


/-! ## Marking again -/

variable {fed : FedState} {v : DistVolume} {enabled : Bool} {now : SystemTime} {busy : String → Bool}

theorem healthyIn_congr {fed fed' : FedState} (h : fed'.nodes = fed.nodes) : healthyIn fed' = healthyIn fed := by
  funext n
  rw [healthyIn, healthyIn, h]

theorem loseLeg_loseLeg (fed : FedState) (l : Leg) : loseLeg fed (loseLeg fed l) = loseLeg fed l := by
  refine loseLeg_eq_self.mpr fun hc => ?_
  unfold loseLeg at hc ⊢
  split at hc
  · cases hc
  · rename_i h
    rw [if_neg h]
    exact by_contra fun hh => h ⟨hc, hh⟩

theorem afterLoss_congr {fed fed' : FedState} (h : fed'.nodes = fed.nodes) : afterLoss fed' = afterLoss fed := by
  funext v
  unfold afterLoss loseLeg
  rw [healthyIn_congr h]

/-- What was marked is not marked again. -/
theorem afterLoss_afterLoss (fed : FedState) (v : DistVolume) : afterLoss fed (afterLoss fed v) = afterLoss fed v := by
  by_cases ha : v.assembly = .assembled ∨ v.assembly = .degraded
  · have hlegs : (v.legs.map (loseLeg fed)).map (loseLeg fed) = v.legs.map (loseLeg fed) := by
      rw [List.map_map]
      exact List.map_congr_left fun l _ => loseLeg_loseLeg fed l
    have he : afterLoss fed v = { v with
        legs := v.legs.map (loseLeg fed)
        assembly := if lostLeg (v.legs.map (loseLeg fed)) ∧ v.assembly = .assembled then .degraded else v.assembly } := by
      unfold afterLoss
      rw [if_pos ha]
    have ha' : (afterLoss fed v).assembly = .assembled ∨ (afterLoss fed v).assembly = .degraded := by
      rw [he]
      dsimp only
      split
      · exact .inr rfl
      · exact ha
    rw [afterLoss.eq_def fed (afterLoss fed v), if_pos ha', he]
    dsimp only
    rw [hlegs]
    congr 1
    split
    · rw [if_neg (by simp)]
    · rfl
  · have he : afterLoss fed v = v := by
      unfold afterLoss
      rw [if_neg ha]
    rw [he, he]

theorem losing_afterLoss (fed : FedState) (v : DistVolume) : losing fed (afterLoss fed v) = [] := by
  have hm : ¬ marks fed (afterLoss fed v) = true := fun h => marks_iff.mp h (afterLoss_afterLoss fed v)
  rw [marks, decide_eq_true_eq, not_or, not_not] at hm
  exact hm.1

theorem losing_congr {fed fed' : FedState} (h : fed'.nodes = fed.nodes) : losing fed' = losing fed := by
  funext v
  unfold losing
  rw [healthyIn_congr h]

theorem get_marked (n : String) :
    (planRecovery fed enabled now busy).1.volumes[n]? = (fed.volumes[n]?).map (afterLoss fed) :=
  Std.ExtTreeMap.getElem?_map

/-- No volume that is up keeps a leg on a node that does not answer, nor stays
whole with one lost. -/
theorem afterLoss_up (h : (afterLoss fed v).assembly = .assembled ∨ (afterLoss fed v).assembly = .degraded) :
    (∀ l ∈ (afterLoss fed v).legs, l.state = .created → healthyIn fed l.node) ∧
      (lostLeg (afterLoss fed v).legs → (afterLoss fed v).assembly = .degraded) := by
  have hm : ¬ marks fed (afterLoss fed v) = true := fun h => marks_iff.mp h (afterLoss_afterLoss fed v)
  rw [marks, decide_eq_true_eq, not_or, not_not, losing, if_pos h, List.filter_eq_nil_iff] at hm
  have hup : ∀ l ∈ (afterLoss fed v).legs, l.state = .created → healthyIn fed l.node := by
    intro l hl hc
    have hn := hm.1 l hl
    simpa [hc] using hn
  refine ⟨hup, fun hl => h.resolve_left fun ha => hm.2 ⟨ha, ?_⟩⟩
  have hsame : (afterLoss fed v).legs.map (loseLeg fed) = (afterLoss fed v).legs := by
    simpa using List.map_inj_left.mpr fun l hl => (loseLeg_eq_self.mpr (hup l hl)).trans (id_eq l).symm
  rw [hsame]
  exact hl

/-! ## What is worked on -/

/-- A volume that is up is due for the replacement of its lost leg. -/
structure Due (fed : FedState) (enabled : Bool) (now : SystemTime) (busy : String → Bool) (v : DistVolume) : Prop where
  up : v.assembly = .assembled ∨ v.assembly = .degraded
  enabled : enabled = true
  idle : busy v.name = false
  alone : v.replacing = none
  lost : lostLeg v.legs
  head : ∃ h, v.head = some h ∧ healthyIn fed h ∧ ∀ l ∈ v.legs, l.node = h → l.state ≠ .lost
  cooled : ∀ t, v.nextRelegAfter = some t → t ≤ now

/-- The node of the first lost leg. -/
def firstLost (v : DistVolume) : Option String := (v.legs.find? (·.state = .lost)).map (·.node)

theorem firstLost_of_filter {l : Leg} {ls : List Leg} (h : v.legs.filter (·.state = .lost) = l :: ls) :
    firstLost v = some l.node := by
  rw [firstLost, ← List.head?_filter, h]
  rfl

theorem lostLeg_iff {legs : List Leg} : lostLeg legs = true ↔ legs.filter (·.state = .lost) ≠ [] := by
  rw [lostLeg, Ne, List.filter_eq_nil_iff]
  simp

theorem mem_start_planOne {n f : String} :
    (n, f) ∈ (planOne fed enabled now (busy v.name) v).start ↔
      Due fed enabled now busy v ∧ n = v.name ∧ firstLost v = some f := by
  have hlost : ∀ {l ls h}, v.legs.filter (·.state = .lost) = l :: ls → ((l :: ls).any (·.node = h) = true ↔
      ∃ l ∈ v.legs, l.node = h ∧ l.state = .lost) := by
    intro l ls h hf
    rw [← hf, List.any_eq_true]
    simp only [List.mem_filter, decide_eq_true_eq]
    exact ⟨fun ⟨x, hx, hn⟩ => ⟨x, hx.1, hn, hx.2⟩, fun ⟨x, hx, hn, hs⟩ => ⟨x, ⟨hx, hs⟩, hn⟩⟩
  constructor
  · intro h
    unfold planOne at h
    split at h <;> [cases h; skip]
    rename_i hon
    rw [not_or, not_not, Bool.not_eq_true] at hon
    split at h <;> [split at h <;> cases h; skip]
    split at h <;> [skip; cases h]
    rename_i hup
    split at h <;> [cases h; skip]
    rename_i hrep
    split at h <;> [skip; cases h]
    rename_i l ls head hf hh
    split at h <;> [cases h; skip]
    rename_i hno
    rw [not_or, not_or, not_not, hlost hf] at hno
    obtain ⟨rfl, rfl⟩ := Prod.mk.inj (List.mem_singleton.mp h)
    refine ⟨⟨hup, hon.1, hon.2, ?_, lostLeg_iff.mpr (hf ▸ List.cons_ne_nil _ _), ⟨head, hh, hno.2.1, ?_⟩, ?_⟩, rfl,
      firstLost_of_filter hf⟩
    · simpa using hrep
    · exact fun l hl hn hs => hno.1 ⟨l, hl, hn, hs⟩
    · intro t ht
      have hc := hno.2.2
      rw [ht] at hc
      simpa using hc
  · rintro ⟨hdue, rfl, hfirst⟩
    obtain ⟨head, hh, hup, hkept⟩ := hdue.head
    cases hf : v.legs.filter (·.state = .lost) with
    | nil => exact absurd hf (lostLeg_iff.mp hdue.lost)
    | cons l ls =>
      rw [firstLost_of_filter hf, Option.some.injEq] at hfirst
      have hpend : v.assembly ≠ .pendingEngineSupport := fun he => by
        rcases hdue.up with ha | ha <;> rw [he] at ha <;> cases ha
      have hcool : ¬ (v.nextRelegAfter.any (now < ·)) = true := by
        cases ht : v.nextRelegAfter with
        | none => simp
        | some t => simpa using hdue.cooled t ht
      have hno : ¬ (((l :: ls).any (·.node = head) = true) ∨ ¬ healthyIn fed head = true ∨
          v.nextRelegAfter.any (now < ·) = true) := by
        rintro (hany | hd | hc)
        · obtain ⟨x, hx, hn, hs⟩ := (hlost hf).mp hany
          exact hkept x hx hn hs
        · exact hd hup
        · exact hcool hc
      unfold planOne
      rw [if_neg (by simp [hdue.enabled, hdue.idle]), if_neg hpend, if_pos hdue.up, if_neg (by simp [hdue.alone]), hf, hh]
      dsimp only
      rw [if_neg hno, hfirst]
      exact List.mem_singleton_self _

/-- A volume is put on one list at most, once. -/
theorem lists_planOne (fed : FedState) (enabled : Bool) (now : SystemTime) (b : Bool) (v : DistVolume) :
    ((planOne fed enabled now b v).start.map Prod.fst ++ (planOne fed enabled now b v).resume ++
      (planOne fed enabled now b v).assemble).Sublist [v.name] := by
  unfold planOne
  repeat' split
  all_goals simp

/-- Every volume adds one entry at most to the three lists together. -/
theorem lists_subperm (fed : FedState) (enabled : Bool) (now : SystemTime) (xs : List DistVolume) (b : DistVolume → Bool) :
    List.Subperm (((xs.map fun v => planOne fed enabled now (b v) v).flatMap (·.start)).map Prod.fst ++
        (xs.map fun v => planOne fed enabled now (b v) v).flatMap (·.resume) ++
        (xs.map fun v => planOne fed enabled now (b v) v).flatMap (·.assemble)) (xs.map (·.name)) := by
  induction xs with
  | nil => exact List.Subperm.refl _
  | cons v xs ih =>
    have hone : List.Subperm _ [v.name] := (lists_planOne fed enabled now (b v) v).subperm
    refine List.Perm.subperm ?_ |>.trans (hone.append ih)
    refine List.perm_iff_count.mpr fun n => ?_
    simp only [List.map_cons, List.flatMap_cons, List.map_append, List.count_append]
    omega

theorem mem_start {n f : String} :
    (n, f) ∈ (planRecovery fed enabled now busy).2.start ↔
      ∃ (k : String) (v : DistVolume), (planRecovery fed enabled now busy).1.volumes[k]? = some v ∧
        Due fed enabled now busy v ∧ n = v.name ∧ firstLost v = some f := by
  show (n, f) ∈ (((fed.volumes.map fun _ v => afterLoss fed v).toList.map fun p =>
    planOne fed enabled now (busy p.2.name) p.2).flatMap (·.start)) ↔ _
  rw [List.mem_flatMap]
  constructor
  · rintro ⟨p, hp, hm⟩
    obtain ⟨⟨k, v⟩, hkv, rfl⟩ := List.mem_map.mp hp
    exact ⟨k, v, KeyMap.mem_toList.mp hkv, mem_start_planOne.mp hm⟩
  · rintro ⟨k, v, hkv, hdue⟩
    exact ⟨_, List.mem_map.mpr ⟨(k, v), KeyMap.mem_toList.mpr hkv, rfl⟩, mem_start_planOne.mpr hdue⟩

/-- What a recovery pass leaves and decides. -/
theorem planRecovery_spec (fed : FedState) (enabled : Bool) (now : SystemTime) (busy : String → Bool) :
    (∀ (k : String) v, (planRecovery fed enabled now busy).1.volumes[k]? = some v →
        v.assembly = .assembled ∨ v.assembly = .degraded →
        (∀ l ∈ v.legs, l.state = .created → healthyIn fed l.node) ∧ (lostLeg v.legs → v.assembly = .degraded)) ∧
      List.Subperm ((planRecovery fed enabled now busy).2.start.map Prod.fst ++
        (planRecovery fed enabled now busy).2.resume ++ (planRecovery fed enabled now busy).2.assemble)
        (fed.volumes.toList.map (·.2.name)) ∧
      ((∀ (k : String) v, fed.volumes[k]? = some v → v.name = k) →
        ((planRecovery fed enabled now busy).2.start.map Prod.fst ++ (planRecovery fed enabled now busy).2.resume ++
          (planRecovery fed enabled now busy).2.assemble).Nodup) ∧
      (∀ n f, (n, f) ∈ (planRecovery fed enabled now busy).2.start ↔
        ∃ (k : String) (v : DistVolume), (planRecovery fed enabled now busy).1.volumes[k]? = some v ∧
          Due fed enabled now busy v ∧ n = v.name ∧ firstLost v = some f) ∧
      (fed.revision < (planRecovery fed enabled now busy).1.revision ↔
        (planRecovery fed enabled now busy).1.volumes ≠ fed.volumes) ∧
      (planRecovery (planRecovery fed enabled now busy).1 enabled now busy).1 = (planRecovery fed enabled now busy).1 ∧
      (planRecovery (planRecovery fed enabled now busy).1 enabled now busy).2.lost = [] ∧
      (planRecovery (planRecovery fed enabled now busy).1 enabled now busy).2.headLost = [] := by
  have hnodes : (planRecovery fed enabled now busy).1.nodes = fed.nodes := rfl
  have hvols : (planRecovery fed enabled now busy).1.volumes = fed.volumes.map fun _ v => afterLoss fed v := rfl
  have hagain : (planRecovery fed enabled now busy).1.volumes.map
      (fun _ v => afterLoss (planRecovery fed enabled now busy).1 v) = (planRecovery fed enabled now busy).1.volumes := by
    rw [hvols, Std.ExtTreeMap.map_map, afterLoss_congr hnodes]
    simp only [afterLoss_afterLoss]
  have hlosing : ∀ v ∈ (planRecovery fed enabled now busy).1.volumes.toList.map Prod.snd,
      losing (planRecovery fed enabled now busy).1 v = [] := by
    intro v hv
    obtain ⟨⟨k, v⟩, hkv, rfl⟩ := List.mem_map.mp hv
    have hk := KeyMap.mem_toList.mp hkv
    rw [get_marked] at hk
    obtain ⟨v, -, rfl⟩ := Option.map_eq_some_iff.mp hk
    rw [losing_congr hnodes, losing_afterLoss]
  have hlists : List.Subperm ((planRecovery fed enabled now busy).2.start.map Prod.fst ++
      (planRecovery fed enabled now busy).2.resume ++ (planRecovery fed enabled now busy).2.assemble)
      (fed.volumes.toList.map (·.2.name)) := by
    have hsub := lists_subperm fed enabled now ((fed.volumes.map fun _ v => afterLoss fed v).toList.map Prod.snd)
      fun v => busy v.name
    have hnames : ((fed.volumes.map fun _ v => afterLoss fed v).toList.map Prod.snd).map (·.name) =
        fed.volumes.toList.map (·.2.name) := by
      rw [Std.ExtTreeMap.toList_map, List.map_map, List.map_map]
      refine List.map_congr_left fun p _ => ?_
      show (afterLoss fed p.2).name = p.2.name
      unfold afterLoss
      split <;> rfl
    rw [hnames, List.map_map] at hsub
    exact hsub
  refine ⟨fun k v hk hup => ?_, hlists, fun hn => ?_, fun n f => mem_start, ?_, ?_, ?_, ?_⟩
  · rw [get_marked] at hk
    obtain ⟨v, -, rfl⟩ := Option.map_eq_some_iff.mp hk
    exact afterLoss_up hup
  · have hkeys : fed.volumes.toList.map (·.2.name) = fed.volumes.toList.map Prod.fst :=
      List.map_congr_left fun p hp => hn p.1 p.2 (KeyMap.mem_toList.mp hp)
    rw [hkeys] at hlists
    obtain ⟨l, hperm, hsub⟩ := hlists
    exact hperm.nodup_iff.mp ((KeyMap.nodup_toList _).sublist hsub)
  · rw [planRecovery_fst]
    dsimp only
    split
    · rename_i h
      simp [h]
    · rename_i h
      exact ⟨fun _ => h, fun _ => Nat.lt_succ_self _⟩
  · rw [planRecovery_fst (planRecovery fed enabled now busy).1, if_pos hagain, hagain]
  · exact List.flatMap_eq_nil_iff.mpr fun v hv => by rw [hlosing v hv]; rfl
  · exact List.flatMap_eq_nil_iff.mpr fun v hv => by rw [hlosing v hv]; rfl

/-- A volume of one leg that is lost, with a head that answers, is not worked
on: it is not up. -/
theorem not_planRecovery_start :
    ¬ ∀ (fed : FedState) (enabled : Bool) (now : SystemTime) (busy : String → Bool) (k : String) (v : DistVolume),
      (planRecovery fed enabled now busy).1.volumes[k]? = some v → enabled = true → busy v.name = false →
        v.replacing = none → lostLeg v.legs →
        (∃ h, v.head = some h ∧ healthyIn fed h ∧ ∀ l ∈ v.legs, l.node = h → l.state ≠ .lost) →
        (∀ t, v.nextRelegAfter = some t → t ≤ now) → ∃ f, (v.name, f) ∈ (planRecovery fed enabled now busy).2.start := by
  intro h
  let vol : DistVolume := {
    name := "v", sizeBytes := 1, pool := none, replicas := 1, rung := "node", assembly := .singleLeg
    legs := [{ node := "a", volumeId := some "a1", state := .lost }], head := some "b", createdAt := 0 }
  let up : Node := ⟨{ name := "b", engineUrl := "" }, { NodeStatus.new .static with healthy := true }⟩
  obtain ⟨f, hf⟩ := h { nodes := .ofList [("b", up)], volumes := .ofList [("v", vol)] } true 0 (fun _ => false) "v" vol
    (by decide +kernel) rfl rfl rfl rfl ⟨"b", rfl, by decide +kernel, by decide⟩ (by decide)
  have hnone : (planRecovery { nodes := .ofList [("b", up)], volumes := .ofList [("v", vol)] } true 0 fun _ => false).2.start =
      [] := by decide +kernel
  rw [hnone] at hf
  cases hf

end StormStorage.Orchestrate
