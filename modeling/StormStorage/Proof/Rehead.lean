import Mathlib.Data.List.Find
import StormStorage.Head.Upkeep
import StormStorage.Proof.Sync

/-!
# What an automatic re-head may do

`planRehead` repeats what a fence and a promote check.

* `mem_start_iff`, `mem_held_iff`: which volumes are started and held;
* `planRehead_accepted`: what it starts is let through by both checks, on a
  copy that is in sync, and no volume whose head is lost is passed over.
-/

namespace StormStorage.Head

open Orchestrate

/-! ## The plan -/

section

variable (cfg : Config) (fed : FedState) (readings : KeyMap ArrayReading) (busy : String → Bool) (now : SystemTime)

/-- The volume's array has a head, and its node has failed its polls for as
long as it takes. -/
def HeadLost (v : DistVolume) : Prop :=
  (v.assembly = .assembled ∨ v.assembly = .degraded) ∧ ∃ head h, v.head = some head ∧ fed.nodes[head]? = some h ∧
    h.status.healthy = false ∧ cfg.reheadAfterSecs ≤ max cfg.pollIntervalSecs 1 * h.status.consecutiveFailures

/-- Nothing else is under way with the volume. -/
def Left (v : DistVolume) : Prop :=
  v.fenced = false ∧ v.replacing = none ∧ v.dualAttach = none ∧ busy v.name = false ∧ v.nextAssembleAfter.all (· ≤ now)

/-- The copy to promote: in sync, on a node that answers, not the head's. -/
def promotee (v : DistVolume) : Option Replica :=
  (replicas v readings[v.name]?).find? fun r => some r.node ≠ v.head ∧ healthyIn fed r.node ∧ r.sync = .inSync

/-- One volume more is passed over, started or held. -/
theorem planVolume_cases (plan : ReheadPlan) (v : DistVolume) :
    (¬ (HeadLost cfg fed v ∧ Left busy now v) ∧ planVolume cfg fed readings busy now plan v = plan) ∨
    (HeadLost cfg fed v ∧ Left busy now v ∧ ∃ r, promotee fed readings v = some r ∧
      planVolume cfg fed readings busy now plan v = { plan with start := plan.start ++ [(v.name, r.node, v.epoch)] }) ∨
    (HeadLost cfg fed v ∧ Left busy now v ∧ promotee fed readings v = none ∧ ∃ why,
      planVolume cfg fed readings busy now plan v = { plan with held := plan.held ++ [(v.name, why)] }) := by
  unfold planVolume
  split
  · rename_i hout
    refine .inl ⟨fun h => ?_, rfl⟩
    obtain ⟨⟨hup, -⟩, hf, hr, hd, hb, ha⟩ := h
    rcases hout with ⟨h1, h2⟩ | h | h | h | h | h
    · exact hup.elim h1 h2
    · rw [hf] at h; cases h
    · rw [hr] at h; cases h
    · rw [hd] at h; cases h
    · rw [hb] at h; cases h
    · cases hn : v.nextAssembleAfter with
      | none => rw [hn] at h; cases h
      | some t =>
        rw [hn] at h ha
        simp only [Option.any_some, Option.all_some, decide_eq_true_eq] at h ha
        exact Nat.not_le.mpr h ha
  · rename_i hin
    simp only [not_or, not_and_or, not_not, Bool.not_eq_true, Option.isSome_eq_false_iff,
      Option.isNone_iff_eq_none] at hin
    obtain ⟨hup, hf, hr, hd, hb, ha⟩ := hin
    have hleft : Left busy now v := by
      refine ⟨hf, hr, hd, hb, ?_⟩
      cases hn : v.nextAssembleAfter with
      | none => rfl
      | some t => simpa [hn] using ha
    cases hh : v.head with
    | none =>
      refine .inl ⟨fun h => ?_, rfl⟩
      obtain ⟨⟨-, _, _, hx, -⟩, -⟩ := h
      rw [hh] at hx
      cases hx
    | some head =>
      dsimp only
      cases hn : fed.nodes[head]? with
      | none =>
        refine .inl ⟨fun h => ?_, rfl⟩
        obtain ⟨⟨-, _, _, hx, hy, -⟩, -⟩ := h
        rw [hh] at hx
        cases hx
        rw [hn] at hy
        cases hy
      | some h =>
        dsimp only
        split
        · rename_i hno
          refine .inl ⟨fun hl => ?_, rfl⟩
          obtain ⟨⟨-, _, _, hx, hy, hdown, hlong⟩, -⟩ := hl
          rw [hh] at hx
          cases hx
          rw [hn] at hy
          cases hy
          rcases hno with hno | hno
          · rw [hdown] at hno; cases hno
          · omega
        · rename_i hyes
          rw [not_or, Bool.not_eq_true, not_lt] at hyes
          have hlost : HeadLost cfg fed v := ⟨hup, head, h, hh, hn, hyes⟩
          have hpick : (replicas v readings[v.name]?).find? (fun r => decide (r.node ≠ head ∧ healthyIn fed r.node ∧
              r.sync = .inSync)) = promotee fed readings v := by
            unfold promotee
            rw [hh]
            simp only [ne_eq, Option.some.injEq]
          rw [hpick]
          cases hp : promotee fed readings v with
          | none => exact .inr (.inr ⟨hlost, hleft, rfl, _, rfl⟩)
          | some r => exact .inr (.inl ⟨hlost, hleft, r, rfl, rfl⟩)

/-- Each volume adds to the plan what it would be alone. -/
theorem planVolume_eq (plan : ReheadPlan) (v : DistVolume) : planVolume cfg fed readings busy now plan v =
    ⟨plan.start ++ (planVolume cfg fed readings busy now {} v).start,
      plan.held ++ (planVolume cfg fed readings busy now {} v).held⟩ := by
  unfold planVolume
  split
  · simp
  · split
    · simp
    · split
      · simp
      · split
        · simp
        · split <;> simp

theorem foldl_planVolume (vols : List DistVolume) (plan : ReheadPlan) :
    vols.foldl (planVolume cfg fed readings busy now) plan =
      ⟨plan.start ++ vols.flatMap fun v => (planVolume cfg fed readings busy now {} v).start,
        plan.held ++ vols.flatMap fun v => (planVolume cfg fed readings busy now {} v).held⟩ := by
  induction vols generalizing plan with
  | nil => simp
  | cons v vols ih => rw [List.foldl_cons, ih, planVolume_eq, List.flatMap_cons, List.flatMap_cons, List.append_assoc,
      List.append_assoc]

variable {cfg fed readings busy now}

theorem mem_start_iff {x : String × String × Nat} : x ∈ (planRehead cfg fed readings busy now).start ↔
    ∃ (n : String) (v : DistVolume), fed.volumes[n]? = some v ∧ HeadLost cfg fed v ∧ Left busy now v ∧
      ∃ r, promotee fed readings v = some r ∧ x = (v.name, r.node, v.epoch) := by
  rw [planRehead, foldl_planVolume, List.nil_append, List.mem_flatMap]
  constructor
  · rintro ⟨v, hv, hx⟩
    obtain ⟨⟨n, v⟩, hn, rfl⟩ := List.mem_map.mp hv
    refine ⟨n, v, KeyMap.mem_toList.mp hn, ?_⟩
    rcases planVolume_cases cfg fed readings busy now {} v with ⟨-, he⟩ | ⟨hl, hf, r, hr, he⟩ | ⟨-, -, -, why, he⟩
    · rw [he] at hx
      cases hx
    · rw [he] at hx
      exact ⟨hl, hf, r, hr, List.mem_singleton.mp hx⟩
    · rw [he] at hx
      cases hx
  · rintro ⟨n, v, hv, hl, hf, r, hr, rfl⟩
    refine ⟨v, List.mem_map.mpr ⟨(n, v), KeyMap.mem_toList.mpr hv, rfl⟩, ?_⟩
    rcases planVolume_cases cfg fed readings busy now {} v with ⟨hno, -⟩ | ⟨-, -, r', hr', he⟩ | ⟨-, -, hr', -⟩
    · exact absurd ⟨hl, hf⟩ hno
    · rw [hr] at hr'
      cases hr'
      rw [he]
      exact List.mem_singleton_self _
    · rw [hr] at hr'
      cases hr'

theorem mem_held_iff {n : String} : (∃ why, (n, why) ∈ (planRehead cfg fed readings busy now).held) ↔
    ∃ (k : String) (v : DistVolume), fed.volumes[k]? = some v ∧ HeadLost cfg fed v ∧ Left busy now v ∧
      promotee fed readings v = none ∧ n = v.name := by
  rw [planRehead, foldl_planVolume, List.nil_append]
  constructor
  · rintro ⟨why, hw⟩
    obtain ⟨v, hv, hx⟩ := List.mem_flatMap.mp hw
    obtain ⟨⟨k, v⟩, hk, rfl⟩ := List.mem_map.mp hv
    refine ⟨k, v, KeyMap.mem_toList.mp hk, ?_⟩
    rcases planVolume_cases cfg fed readings busy now {} v with ⟨-, he⟩ | ⟨-, -, r, -, he⟩ | ⟨hl, hf, hr, why', he⟩
    · rw [he] at hx
      cases hx
    · rw [he] at hx
      cases hx
    · rw [he] at hx
      exact ⟨hl, hf, hr, congrArg Prod.fst (List.mem_singleton.mp hx)⟩
  · rintro ⟨k, v, hv, hl, hf, hr, rfl⟩
    rcases planVolume_cases cfg fed readings busy now {} v with ⟨hno, -⟩ | ⟨-, -, r, hr', -⟩ | ⟨-, -, -, why, he⟩
    · exact absurd ⟨hl, hf⟩ hno
    · rw [hr] at hr'
      cases hr'
    · refine ⟨why, List.mem_flatMap.mpr ⟨v, List.mem_map.mpr ⟨(k, v), KeyMap.mem_toList.mpr hv, rfl⟩, ?_⟩⟩
      rw [he]
      exact List.mem_singleton_self _

/-! ## The checks -/

/-- The copy to promote is a leg that a promote takes. -/
theorem promotee_spec {v : DistVolume} {r : Replica} (h : promotee fed readings v = some r)
    (hleft : Left busy now v) :
    r ∈ replicas v readings[v.name]? ∧ r.sync = .inSync ∧ v.head ≠ some r.node ∧ healthyIn fed r.node ∧
      ∃ leg ∈ v.legs, leg.node = r.node ∧ leg.state = .created := by
  have hmem := List.mem_of_find?_eq_some h
  obtain ⟨hne, hup, hsync⟩ : some r.node ≠ v.head ∧ healthyIn fed r.node ∧ r.sync = .inSync := by
    simpa using List.find?_some h
  refine ⟨hmem, hsync, Ne.symm hne, hup, ?_⟩
  obtain ⟨leg, hleg, rfl⟩ := List.mem_map.mp hmem
  have hlegs : copies v = v.legs := by
    rw [copies, hleft.2.1]
    simp
  rw [hlegs] at hleg
  refine ⟨leg, hleg, rfl, ?_⟩
  by_contra hc
  have hdet : syncOf v (readings[v.name]?.filter fun r => some r.head = v.head ∧ some r.arrayId = v.arrayId) leg =
      .detached := by
    rw [syncOf, if_pos hc]
  cases hsync.symm.trans hdet

theorem applyFence_ok {v : DistVolume} (hup : v.assembly = .assembled ∨ v.assembly = .degraded) :
    applyFence v v.epoch = .ok { v with epoch := v.epoch + 1, fenced := true } := by
  have hmirror : ¬ (v.assembly ≠ .assembled ∧ v.assembly ≠ .degraded) := fun h => hup.elim h.1 h.2
  rw [applyFence, if_neg (not_not.mpr rfl), if_neg hmirror]

/-- A promote to a created leg on a node that answers is let through. -/
theorem checkPromote_ok {v : DistVolume} {target : String} {epoch : Nat} (hf : v.fenced = true) (he : v.epoch = epoch)
    (hd : v.dualAttach = none) (hup : v.assembly = .assembled ∨ v.assembly = .degraded) (hr : v.replacing = none)
    (hnodes : (v.legs.map (·.node)).Nodup) (hids : ∀ l ∈ v.legs, l.volumeId.isSome) {leg : Leg} (hleg : leg ∈ v.legs)
    (hnode : leg.node = target) (hc : leg.state = .created) : checkPromote v target epoch true = .ok v.head := by
  have hmirror : ¬ (v.assembly ≠ .assembled ∧ v.assembly ≠ .degraded) := fun h => hup.elim h.1 h.2
  obtain ⟨leg', hfind⟩ := Option.isSome_iff_exists.mp (List.find?_isSome.mpr ⟨leg, hleg, by simpa using hnode⟩ :
    (v.legs.find? (·.node = target)).isSome)
  have hnode' : leg'.node = target := by simpa using List.find?_some hfind
  obtain rfl : leg' = leg :=
    List.inj_on_of_nodup_map hnodes (List.mem_of_find?_eq_some hfind) hleg (hnode'.trans hnode.symm)
  have hid : ¬ (leg'.state ≠ .created ∨ leg'.volumeId.isNone) := by
    have := hids leg' hleg
    simp [hc, Option.isSome_iff_ne_none.mp this]
  rw [checkPromote, if_neg (by simp [hf, he]), if_neg (by simp [hd]), if_neg hmirror, if_neg (by simp [hr]), hfind]
  dsimp only
  rw [if_neg hid, if_neg (by simp)]

/-! ## The operation's plan -/

/-- The copies that read in sync, by volume and node. -/
def inSyncOf (fed : FedState) (readings : KeyMap ArrayReading) : List (String × String) :=
  (fed.volumes.toList.map Prod.snd).flatMap fun v =>
    ((replicas v readings[v.name]?).filter (·.sync = .inSync)).map fun r => (v.name, r.node)

theorem mem_inSyncOf (hnamed : ∀ (n : String) v, fed.volumes[n]? = some v → v.name = n) {n : String} {v : DistVolume}
    (hv : fed.volumes[n]? = some v) {node : String} : (v.name, node) ∈ inSyncOf fed readings ↔
      ∃ r ∈ replicas v readings[v.name]?, r.sync = .inSync ∧ r.node = node := by
  unfold inSyncOf
  rw [List.mem_flatMap]
  constructor
  · rintro ⟨u, hu, hin⟩
    obtain ⟨⟨k, u⟩, hk, rfl⟩ := List.mem_map.mp hu
    obtain ⟨r, hr, he⟩ := List.mem_map.mp hin
    obtain ⟨hname, rfl⟩ := Prod.mk.inj he
    have hk' := KeyMap.mem_toList.mp hk
    rw [← hnamed k u hk', hname, hnamed n v hv, hv] at hk'
    cases hk'
    exact ⟨r, (List.mem_filter.mp hr).1, by simpa using (List.mem_filter.mp hr).2, rfl⟩
  · rintro ⟨r, hr, hs, rfl⟩
    exact ⟨v, List.mem_map.mpr ⟨(n, v), KeyMap.mem_toList.mpr hv, rfl⟩,
      List.mem_map.mpr ⟨r, List.mem_filter.mpr ⟨hr, by simpa using hs⟩, rfl⟩⟩

/-- The leg to promote is the same by copies and by nodes. -/
theorem reheadTarget_eq (hnamed : ∀ (n : String) v, fed.volumes[n]? = some v → v.name = n) {n : String}
    {v : DistVolume} (hv : fed.volumes[n]? = some v) {head : String} (hh : v.head = some head)
    (hleft : Left busy now v) (hnodes : (v.legs.map (·.node)).Nodup) :
    reheadTarget fed (inSyncOf fed readings) v head = (promotee fed readings v).map (·.node) := by
  have hcopies : copies v = v.legs := by
    rw [copies, hleft.2.1]
    simp
  unfold reheadTarget promotee replicas
  rw [hcopies, List.find?_map, Option.map_map]
  refine congrArg₂ _ rfl (List.find?_congr fun l hl => ?_)
  have hin : (v.name, l.node) ∈ inSyncOf fed readings ↔
      syncOf v (readings[v.name]?.filter fun r => some r.head = v.head ∧ some r.arrayId = v.arrayId) l = .inSync := by
    rw [mem_inSyncOf hnamed hv, replicas, hcopies]
    constructor
    · rintro ⟨r, hr, hs, hnode⟩
      obtain ⟨l', hl', rfl⟩ := List.mem_map.mp hr
      obtain rfl : l' = l := List.inj_on_of_nodup_map hnodes hl' hl hnode
      exact hs
    · intro hs
      exact ⟨_, List.mem_map.mpr ⟨l, hl, rfl⟩, hs, rfl⟩
  have hne : some l.node ≠ v.head ↔ l.node ≠ head := by rw [hh, ne_eq, Option.some.injEq]
  simp only [Function.comp, hin, hne]

theorem reheadOne_eq_none {inSync : List (String × String)} {v : DistVolume}
    (h : ¬ (HeadLost cfg fed v ∧ Left busy now v)) : reheadOne cfg fed inSync busy now v = none := by
  rw [Option.eq_none_iff_forall_ne_some]
  intro x hx
  refine h ?_
  unfold reheadOne at hx
  simp only [Option.bind_eq_bind, Option.bind_eq_some_iff] at hx
  obtain ⟨head, hh, n, hn, hif⟩ := hx
  split at hif
  · rename_i hc
    obtain ⟨hup, hf, hr, hd, hb, ha, hdown, hlong⟩ := hc
    exact ⟨⟨hup, head, n, hh, hn, by simpa using hdown, hlong⟩, by simpa using hf, by simpa using hr, by simpa using hd,
      by simpa using hb, ha⟩
  · cases hif

theorem reheadOne_of_lost {inSync : List (String × String)} {v : DistVolume} (hl : HeadLost cfg fed v)
    (hf : Left busy now v) : ∃ head, v.head = some head ∧ reheadOne cfg fed inSync busy now v =
      (reheadTarget fed inSync v head).map fun target => (v.name, target, v.epoch) := by
  obtain ⟨hup, head, h, hh, hn, hdown, hlong⟩ := hl
  obtain ⟨hfen, hr, hd, hb, ha⟩ := hf
  refine ⟨head, hh, ?_⟩
  unfold reheadOne
  rw [hh, Option.bind_eq_bind, Option.bind_some, hn, Option.bind_eq_bind, Option.bind_some]
  exact if_pos ⟨hup, by simp [hfen], by simp [hr], by simp [hd], by simp [hb], ha, by simp [hdown], hlong⟩

/-- What the plan starts is what the operation goes through. -/
theorem start_planRehead (hnamed : ∀ (n : String) v, fed.volumes[n]? = some v → v.name = n)
    (hnodes : ∀ (n : String) v, fed.volumes[n]? = some v → v.assembly = .assembled ∨ v.assembly = .degraded →
      (v.legs.map (·.node)).Nodup) :
    (planRehead cfg fed readings busy now).start = reheadPlan cfg fed (inSyncOf fed readings) busy now := by
  rw [planRehead, foldl_planVolume, List.nil_append, reheadPlan, List.filterMap_eq_flatMap_toList]
  refine List.flatMap_congr fun v hv => ?_
  obtain ⟨⟨n, v⟩, hn, rfl⟩ := List.mem_map.mp hv
  have hin := KeyMap.mem_toList.mp hn
  rcases planVolume_cases cfg fed readings busy now {} v with ⟨hno, he⟩ | ⟨hl, hf, r, hr, he⟩ | ⟨hl, hf, hr, why, he⟩
  · rw [he, reheadOne_eq_none hno]
    rfl
  · obtain ⟨head, hh, hone⟩ := @reheadOne_of_lost cfg fed busy now (inSyncOf fed readings) v hl hf
    rw [he, hone, reheadTarget_eq hnamed hin hh hf (hnodes n v hin hl.1), hr]
    rfl
  · obtain ⟨head, hh, hone⟩ := @reheadOne_of_lost cfg fed busy now (inSyncOf fed readings) v hl hf
    rw [he, hone, reheadTarget_eq hnamed hin hh hf (hnodes n v hin hl.1), hr]
    rfl

end

/-! ## Agreement -/

/-- The plan agrees with the checks that carry it out. -/
structure Accepted (cfg : Config) (fed : FedState) (readings : KeyMap ArrayReading) (busy : String → Bool)
    (now : SystemTime) : Prop where
  /-- Both checks let through what is started, on the record as it is. -/
  checks : ∀ name target epoch, (name, target, epoch) ∈ (planRehead cfg fed readings busy now).start →
    ∃ (v fenced : DistVolume), fed.volumes[name]? = some v ∧ applyFence v epoch = .ok fenced ∧
      fenced = { v with epoch := fenced.epoch, fenced := true } ∧
      checkPromote fenced target fenced.epoch (healthyIn fed target) = .ok v.head
  target : ∀ name target epoch, (name, target, epoch) ∈ (planRehead cfg fed readings busy now).start →
    ∃ v, fed.volumes[name]? = some v ∧ v.head ≠ some target ∧ healthyIn fed target ∧
      ∃ r ∈ replicas v readings[name]?, r.node = target ∧ r.sync = .inSync
  /-- A volume whose head is lost is started or held, not both. -/
  either : ∀ (name : String) v, fed.volumes[name]? = some v → HeadLost cfg fed v → Left busy now v →
    Xor (∃ target epoch, (name, target, epoch) ∈ (planRehead cfg fed readings busy now).start)
      (∃ why, (name, why) ∈ (planRehead cfg fed readings busy now).held)

/-- An automatic re-head starts what a fence and a promote let through, and
passes no volume over. -/
theorem planRehead_accepted (cfg : Config) (fed : FedState) (readings : KeyMap ArrayReading) (busy : String → Bool)
    (now : SystemTime) (hnamed : ∀ (n : String) v, fed.volumes[n]? = some v → v.name = n)
    (hlegs : ∀ (n : String) v, fed.volumes[n]? = some v → v.assembly = .assembled ∨ v.assembly = .degraded →
      (v.legs.map (·.node)).Nodup ∧ ∀ l ∈ v.legs, l.volumeId.isSome) : Accepted cfg fed readings busy now := by
  refine ⟨fun name target epoch hin => ?_, fun name target epoch hin => ?_, fun name v hv hl hf => ?_⟩
  · obtain ⟨n, v, hv, hl, hf, r, hr, he⟩ := mem_start_iff.mp hin
    obtain ⟨rfl, rfl, rfl⟩ : name = v.name ∧ target = r.node ∧ epoch = v.epoch := by simpa using he
    obtain ⟨-, -, -, hup, leg, hleg, hnode, hc⟩ := promotee_spec hr hf
    obtain ⟨hnodes, hids⟩ := hlegs n v hv hl.1
    refine ⟨v, _, by rw [hnamed n v hv]; exact hv, applyFence_ok hl.1, rfl, ?_⟩
    rw [hup]
    exact checkPromote_ok rfl rfl hf.2.2.1 hl.1 hf.2.1 hnodes hids hleg hnode hc
  · obtain ⟨n, v, hv, -, hf, r, hr, he⟩ := mem_start_iff.mp hin
    obtain ⟨rfl, rfl, rfl⟩ : name = v.name ∧ target = r.node ∧ epoch = v.epoch := by simpa using he
    obtain ⟨hmem, hsync, hne, hup, -⟩ := promotee_spec hr hf
    exact ⟨v, by rw [hnamed n v hv]; exact hv, hne, hup, r, hmem, rfl, hsync⟩
  · have hname := hnamed name v hv
    have hsame : ∀ {n : String} {u : DistVolume}, fed.volumes[n]? = some u → name = u.name → u = v := by
      intro n u hu he
      rw [← hnamed n u hu, ← he, hv] at hu
      exact (Option.some.inj hu).symm
    cases hp : promotee fed readings v with
    | some r =>
      refine .inl ⟨⟨r.node, v.epoch, mem_start_iff.mpr ⟨name, v, hv, hl, hf, r, hp, by rw [hname]⟩⟩, fun h => ?_⟩
      obtain ⟨n, u, hu, -, -, hnone, he⟩ := mem_held_iff.mp h
      rw [hsame hu he, hp] at hnone
      cases hnone
    | none =>
      refine .inr ⟨mem_held_iff.mpr ⟨name, v, hv, hl, hf, hp, hname.symm⟩, fun h => ?_⟩
      obtain ⟨target, epoch, hin⟩ := h
      obtain ⟨n, u, hu, -, -, r, hr, he⟩ := mem_start_iff.mp hin
      rw [hsame hu (congrArg Prod.fst he), hp] at hr
      cases hr

/-- A pair whose head's node has failed eight polls. -/
def lostHeadVolume : DistVolume where
  name := "v"
  sizeBytes := 10
  pool := none
  replicas := 2
  rung := "node"
  legs := [{ node := "a", volumeId := some "va", state := .created, memberUuid := some "ma" },
    { node := "b", volumeId := some "vb", state := .created, memberUuid := some "mb" }]
  assembly := .assembled
  head := some "a"
  arrayId := some "r"
  createdAt := 0

def lostHeadState : FedState where
  nodes := ((∅ : KeyMap Node).insert "a"
      ⟨{ name := "a", engineUrl := "" }, { NodeStatus.new .static with consecutiveFailures := 8 }⟩).insert "b"
    ⟨{ name := "b", engineUrl := "" }, { NodeStatus.new .static with healthy := true }⟩
  volumes := (∅ : KeyMap DistVolume).insert "v" lostHeadVolume

def lastReading : KeyMap ArrayReading :=
  (∅ : KeyMap ArrayReading).insert "v"
    { head := "a", arrayId := "r", members := [{ uuid := "mb", devicePath := "", state := "active" }] }

theorem planRehead_accepted_small :
    Accepted { hostNqnFor := id, cooldown := 60, rungs := [] } lostHeadState lastReading (fun _ => false) 0 := by
  have hone : ∀ (n : String) v, lostHeadState.volumes[n]? = some v → n = "v" ∧ v = lostHeadVolume := by
    intro n v hv
    rw [lostHeadState, KeyMap.get_insert, KeyMap.get_empty] at hv
    split at hv
    · rename_i hn
      exact ⟨hn.symm, (Option.some.inj hv).symm⟩
    · cases hv
  refine planRehead_accepted _ _ _ _ _ (fun n v hv => ?_) fun n v hv _ => ?_
  · obtain ⟨rfl, rfl⟩ := hone n v hv
    rfl
  · obtain ⟨-, rfl⟩ := hone n v hv
    exact ⟨by decide, by decide⟩

example : (planRehead { hostNqnFor := id, cooldown := 60, rungs := [] } lostHeadState lastReading (fun _ => false)
    0).start = [("v", "b", 1)] := by decide +kernel

end StormStorage.Head
