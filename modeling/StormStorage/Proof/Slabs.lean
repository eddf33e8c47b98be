import StormStorage.Proof.Steps.Seen
import StormStorage.Slabs

/-!
# What a deleted snapshot leaves behind

A snapshot's engine volume follows the head of its parent, and its `/v1` record
does not. `Kept` is what holds of the volume meanwhile. A delete on the node that
the snapshot was made on asks `/v1` only, and takes its 404 for done:
`deleteSnapshot_clean_iff` says when a volume of that name stays.

* `Kept.after`: what promotes and reassemblies make of the volume;
* `reached_undisturbed`: the condition, where the head stays during the delete;
* `dropSnapshot_clean`: what the backups do leaves nothing, wherever it is.
-/

namespace StormStorage.Slabs

open Await

/-- The node that serves the volume of that name. -/
def servedAt (parent : String) (s : Site) : Option String := s.fed.volumes[parent]?.bind servedFrom

/-- The engine's own id of the volume of that name. -/
def idAt (name : String) (s : Site) : Option String := (s.slabs.find? (·.name = name)).map (·.id)

/-- No engine volume of the snapshot's name is on the node that serves its
parent. -/
def Clean (snap : Snapshot) (s : Site) : Prop :=
  ∀ node, servedAt snap.parent s = some node → ∀ e ∈ s.slabs, ¬ (e.node = node ∧ e.name = snap.engineName)

/-- The one engine volume of the snapshot's name is on the slab of its parent, on
the node that serves it. -/
structure Kept (snap : Snapshot) (v : SlabVolume) (s : Site) : Prop where
  found : s.fed.snapshots[snap.id]? = some snap
  parent : ∃ vol, s.fed.volumes[snap.parent]? = some vol ∧ vol.cloneOf = none ∧ servedFrom vol = some v.node
  only : s.slabs.filter (·.name = snap.engineName) = [v]
  slab : v.parent = snap.parent

/-- A snapshot just taken: under `/v1` it has the id that the engine answered
with. -/
structure Taken (snap : Snapshot) (v : SlabVolume) (s : Site) : Prop extends Kept snap v s where
  node : v.node = snap.node
  record : ∀ id, snap.engineId = some id → v.record = some id

/-- The delete reaches the volume. By its id it does while no event has brought
the array back since the snapshot was taken; by name, while the node that was
read serves the parent at both calls, and lists the volume under the same id. -/
def Reached (snap : Snapshot) (s : Site) : List (List Event × Wire) → Prop
  | (es₀, _) :: (es₁, _) :: (es₂, _) :: rest =>
    let read := after (event snap.parent) es₀ s
    let first := after (event snap.parent) (es₁ ++ es₂) read
    if snap.engineId.isSome ∧ servedAt snap.parent read = some snap.node then
      moved snap.parent s (es₀ ++ (es₁ ++ es₂)) = false
    else
      servedAt snap.parent first = servedAt snap.parent read ∧
        match rest with
        | (es₃, _) :: _ =>
          let second := after (event snap.parent) es₃ first
          servedAt snap.parent second = servedAt snap.parent read ∧
            idAt snap.engineName second = idAt snap.engineName first
        | [] => False
  | _ => False

variable {snap : Snapshot} {v : SlabVolume} {s s' : Site} {parent : String}

/-! ## Events -/

/-- A volume with an array is served from its head. -/
theorem servedFrom_headed {vol : DistVolume} {legs : List Leg} {head : String}
    (ha : vol.assembly = if Head.allCreated legs then .assembled else .degraded) (hh : vol.head = some head) :
    servedFrom vol = some head := by
  unfold servedFrom
  rw [ha, ← hh]
  cases Head.allCreated legs <;> rfl

theorem head_of_headOf {vol : DistVolume} {head : String} (h : headOf vol = some head) : vol.head = some head := by
  unfold headOf at h
  split at h
  all_goals simp_all

theorem filter_comeBack (node name : String) (ids : String → String) (slabs : List SlabVolume) :
    (slabs.map (comeBack parent node ids)).filter (·.name = name) =
      (slabs.filter (·.name = name)).map (comeBack parent node ids) := by
  rw [List.filter_map]
  congr 1
  refine List.filter_congr fun e _ => ?_
  unfold comeBack
  dsimp only [Function.comp]
  split <;> rfl

/-- What an event makes of the volume: it follows the head, and where the array
is brought back it has no `/v1` record. -/
theorem Kept.event (h : Kept snap v s) (e : Event) : ∃ v', Kept snap v' (event snap.parent e s) ∧
    (moves snap.parent s e = false → v' = v) ∧
      (moves snap.parent s e = true ∨ v.record = none → v'.record = none) := by
  obtain ⟨vol, hvol, hown, hserved⟩ := h.parent
  have hback : ∀ {node ids} {f : DistVolume → DistVolume}, (f vol).cloneOf = none → servedFrom (f vol) = some node →
      Kept snap { v with node := node, id := ids v.name, record := none }
        { fed := s.fed.modifyVolume snap.parent f, slabs := s.slabs.map (comeBack snap.parent node ids) } := by
    intro node ids f hclone hnode
    rw [modifyVolume_some hvol]
    refine ⟨h.found, ⟨f vol, KeyMap.get_insert_self .., hclone, hnode⟩, ?_, h.slab⟩
    rw [filter_comeBack, h.only, List.map_singleton, comeBack, if_pos h.slab]
  cases e with
  | nodes nodes => exact ⟨v, ⟨h.found, h.parent, h.only, h.slab⟩, fun _ => rfl, fun hr => by simpa [moves] using hr⟩
  | promote target up served ids =>
    dsimp only [Slabs.event, moves]
    rw [hvol, Option.bind_some]
    cases hhead : headOf vol with
    | none => exact ⟨v, h, fun _ => rfl, fun hr => by simpa using hr⟩
    | some head =>
      by_cases he : head = target
      · refine ⟨v, ?_, fun _ => rfl, fun hr => by simpa [he] using hr⟩
        dsimp only
        rw [if_pos he, modifyVolume_some hvol]
        exact ⟨h.found, ⟨_, KeyMap.get_insert_self .., hown, hserved⟩, h.only, h.slab⟩
      · refine ⟨{ v with node := target, id := ids v.name, record := none }, ?_, fun hm => by simp [he] at hm,
          fun _ => rfl⟩
        dsimp only
        rw [if_neg he]
        exact hback hown (servedFrom_headed rfl rfl)
  | reassemble array pick served ids =>
    dsimp only [Slabs.event, moves]
    rw [hvol, Option.bind_some]
    cases hhead : headOf vol with
    | none => exact ⟨v, h, fun _ => rfl, fun hr => by simpa using hr⟩
    | some head =>
      have hh := head_of_headOf hhead
      exact ⟨_, hback hown (servedFrom_headed rfl hh), fun hm => by simp at hm, fun _ => rfl⟩

theorem Kept.after (h : Kept snap v s) (es : List Event) : ∃ v', Kept snap v' (after (Slabs.event snap.parent) es s) ∧
    (moved snap.parent s es = false → v' = v) ∧
      (moved snap.parent s es = true ∨ v.record = none → v'.record = none) := by
  induction es generalizing v s with
  | nil => exact ⟨v, h, fun _ => rfl, fun hr => by simpa [moved] using hr⟩
  | cons e es ih =>
    obtain ⟨v₁, h₁, hsame, hnone⟩ := h.event e
    obtain ⟨v₂, h₂, hsame', hnone'⟩ := ih h₁
    refine ⟨v₂, h₂, fun hm => ?_, fun hr => ?_⟩
    · obtain ⟨hm, hm'⟩ := Bool.or_eq_false_iff.mp hm
      rw [hsame' hm', hsame hm]
    · refine hnone' ?_
      rcases hr with hm | hr
      · rcases Bool.or_eq_true_iff.mp hm with hm | hm
        · exact .inr (hnone (.inl hm))
        · exact .inl hm
      · exact .inr (hnone (.inr hr))

theorem moved_append (es es' : List Event) :
    moved parent s (es ++ es') = (moved parent s es || moved parent (after (event parent) es s) es') := by
  induction es generalizing s with
  | nil => rfl
  | cons e es ih =>
    rw [List.cons_append, moved, moved, ih, Bool.or_assoc]
    rfl

/-! ## What is taken away -/

theorem Kept.servedAt (h : Kept snap v s) : Slabs.servedAt snap.parent s = some v.node := by
  obtain ⟨vol, hvol, -, hserved⟩ := h.parent
  rw [Slabs.servedAt, hvol, Option.bind_some, hserved]

theorem Kept.idAt (h : Kept snap v s) : Slabs.idAt snap.engineName s = some v.id := by
  rw [Slabs.idAt, ← List.head?_filter, h.only]
  rfl

theorem Kept.mem (h : Kept snap v s) : v ∈ s.slabs ∧ v.name = snap.engineName := by
  have hv : v ∈ s.slabs.filter (·.name = snap.engineName) := by
    rw [h.only]
    exact List.mem_singleton_self v
  obtain ⟨hv, hn⟩ := List.mem_filter.mp hv
  exact ⟨hv, of_decide_eq_true hn⟩

theorem Kept.eq (h : Kept snap v s) {e : SlabVolume} (he : e ∈ s.slabs) (hn : e.name = snap.engineName) : e = v := by
  have hv : e ∈ s.slabs.filter (·.name = snap.engineName) := List.mem_filter.mpr ⟨he, decide_eq_true hn⟩
  rw [h.only] at hv
  exact List.mem_singleton.mp hv

theorem Kept.not_clean (h : Kept snap v s) : ¬ Clean snap s := fun hc =>
  hc v.node h.servedAt v h.mem.1 ⟨rfl, h.mem.2⟩

theorem Kept.idsNamed (h : Kept snap v s) (node : String) :
    Slabs.idsNamed node snap.engineName s.slabs = if v.node = node then [v.id] else [] := by
  unfold Slabs.idsNamed
  rw [show s.slabs.filter (fun e => e.node = node ∧ e.name = snap.engineName) =
    (s.slabs.filter (·.name = snap.engineName)).filter (·.node = node) by simp [List.filter_filter], h.only]
  split <;> simp [*]

/-- An engine volume's name stays. -/
theorem named_event {name : String} (e : Event) (h : ∀ x ∈ s.slabs, x.name ≠ name) :
    ∀ x ∈ (event parent e s).slabs, x.name ≠ name := by
  have hback : ∀ node ids, ∀ x ∈ s.slabs.map (comeBack parent node ids), x.name ≠ name := by
    intro node ids x hx
    obtain ⟨y, hy, rfl⟩ := List.mem_map.mp hx
    unfold comeBack
    split <;> exact h y hy
  unfold event
  split
  · split
    · exact h
    · split
      · exact h
      · exact hback _ _
  · split
    · exact h
    · exact hback _ _
  · exact h

/-- Of what a call takes away, and of what happens then: nothing is left where
the call took the volume. -/
theorem clean_forget_iff (h : Kept snap v s) (p : SlabVolume → Bool) (es : List Event) (id : String) :
    Clean snap (forget id (after (event snap.parent) es { s with slabs := s.slabs.filter p })) ↔ p v = false := by
  refine ⟨fun hc => ?_, fun hp => ?_⟩
  · by_contra hp
    have hp : p v = true := by simpa using hp
    have hkept : Kept snap v { s with slabs := s.slabs.filter p } := by
      refine ⟨h.found, h.parent, ?_, h.slab⟩
      rw [List.filter_comm, h.only, List.filter_cons_of_pos hp, List.filter_nil]
    obtain ⟨v', hv', -⟩ := hkept.after es
    exact hv'.not_clean hc
  · have hnone : ∀ x ∈ s.slabs.filter p, x.name ≠ snap.engineName := by
      intro x hx hn
      obtain ⟨hx, hpx⟩ := List.mem_filter.mp hx
      rw [h.eq hx hn, hp] at hpx
      cases hpx
    have hafter : ∀ x ∈ (after (event snap.parent) es { s with slabs := s.slabs.filter p }).slabs,
        x.name ≠ snap.engineName :=
      after_keeps (P := fun t : Site => ∀ x ∈ t.slabs, x.name ≠ snap.engineName) (fun e _ hs => named_event e hs) es
        hnone
    exact fun node _ e he hen => hafter e he hen.2

/-! ## The calls -/

section

variable {E α : Type} {env : E → Site → Site} {sched : List (List E × Wire)}

theorem amid_call {eff : List SlabVolume → List SlabVolume} {answer : List SlabVolume → Except Fault α} {a : α}
    (h : (call eff answer).amid env sched s = some (.ok a, s')) : ∃ es, sched = [(es, .answered)] ∧
      answer (after env es s).slabs = .ok a ∧
        s' = { after env es s with slabs := eff (after env es s).slabs } := by
  obtain ⟨es, wire, rest, rfl, -, h⟩ := Task.amid_step h
  cases wire with
  | answered =>
    obtain ⟨rfl, ha, rfl⟩ := Task.amid_ofExcept h
    exact ⟨es, rfl, ha, rfl⟩
  | refused status why =>
    obtain ⟨-, h⟩ := Task.amid_fail h
    cases h
  | lost why =>
    obtain ⟨-, h⟩ := Task.amid_fail h
    cases h

theorem amid_upstream {what : String} {t : Run α} {a : α} (h : (upstream what t).amid env sched s = some (.ok a, s')) :
    t.amid env sched s = some (.ok a, s') := by
  obtain ⟨sched₁, sched₂, x, s₁, rfl, ht, h⟩ := Task.amid_bind h
  obtain ⟨y, hy, hx⟩ := Task.amid_attempt ht
  cases hx
  cases x with
  | ok b =>
    obtain ⟨rfl, h⟩ := Task.amid_ret h
    cases h
    rw [List.append_nil]
    exact hy
  | error e =>
    obtain ⟨-, h⟩ := Task.amid_fail h
    cases h

theorem amid_healthyHome {node : String} (h : (healthyHome node).amid env sched s = some (.ok (), s')) :
    ∃ es i, sched = [(es, i)] ∧ s' = after env es s := by
  obtain ⟨sched₁, sched₂, up, s₁, rfl, hget, h⟩ := Task.amid_bind h
  obtain ⟨es, i, rfl, hx⟩ := Task.amid_get hget
  cases hx
  split at h
  · obtain ⟨rfl, h⟩ := Task.amid_ret h
    cases h
    exact ⟨es, i, rfl, rfl⟩
  · obtain ⟨-, h⟩ := Task.amid_fail h
    cases h

theorem oneNamed_cases (name : String) (ids : List String) :
    (ids = [] ∧ ∃ e, Engine.oneNamed name ids = .error e ∧ e.isNotFound = true) ∨
      (∃ id, ids = [id] ∧ Engine.oneNamed name ids = .ok id) ∨
        ∃ e, Engine.oneNamed name ids = .error e ∧ e.isNotFound = false := by
  match ids with
  | [] => exact .inl ⟨rfl, _, rfl, rfl⟩
  | [id] => exact .inr (.inl ⟨id, rfl, rfl⟩)
  | _ :: _ :: _ => exact .inr (.inr ⟨_, rfl, rfl⟩)

/-- Only a volume that is not listed is not found. -/
theorem amid_localVolumeId {node name : String} {x : Except Fault String}
    (h : (localVolumeId node name).attempt.amid env sched s = some (.ok x, s')) :
    ∃ es wire, sched = [(es, wire)] ∧ s' = after env es s ∧
      ((idsNamed node name (after env es s).slabs = [] ∧ ∃ e, x = .error e ∧ e.isNotFound = true) ∨
        (∃ id, idsNamed node name (after env es s).slabs = [id] ∧ x = .ok id) ∨
          ∃ e, x = .error e ∧ e.isNotFound = false) := by
  obtain ⟨y, hy, hx⟩ := Task.amid_attempt h
  cases hx
  obtain ⟨es, wire, rest, rfl, -, hy⟩ := Task.amid_step hy
  refine ⟨es, wire, ?_⟩
  have hfailed : ∀ {e : Fault}, (Task.fail e : Run String).amid env rest (after env es s) = some (x, s') →
      rest = [] ∧ x = .error e ∧ s' = after env es s := by
    intro e hf
    obtain ⟨rfl, hf⟩ := Task.amid_fail hf
    cases hf
    exact ⟨rfl, rfl, rfl⟩
  cases wire with
  | refused status why =>
    obtain ⟨rfl, rfl, rfl⟩ := hfailed hy
    exact ⟨rfl, rfl, .inr (.inr ⟨_, rfl, rfl⟩)⟩
  | lost why =>
    obtain ⟨rfl, rfl, rfl⟩ := hfailed hy
    exact ⟨rfl, rfl, .inr (.inr ⟨_, rfl, rfl⟩)⟩
  | answered =>
    dsimp only at hy
    rcases oneNamed_cases name (idsNamed node name (after env es s).slabs) with ⟨hids, e, he, hgone⟩ | ⟨id, hids, he⟩ |
      ⟨e, he, hgone⟩ <;> rw [he] at hy
    · obtain ⟨rfl, rfl, rfl⟩ := hfailed hy
      exact ⟨rfl, rfl, .inl ⟨hids, e, rfl, hgone⟩⟩
    · obtain ⟨rfl, hy⟩ := Task.amid_ret hy
      cases hy
      exact ⟨rfl, rfl, .inr (.inl ⟨id, hids, rfl⟩)⟩
    · obtain ⟨rfl, rfl, rfl⟩ := hfailed hy
      exact ⟨rfl, rfl, .inr (.inr ⟨e, rfl, hgone⟩)⟩

/-- By name, a volume that is not listed is done. -/
theorem amid_deleteByName {node name : String} (h : (deleteByName node name).amid env sched s = some (.ok (), s')) :
    ∃ es i, (sched = [(es, i)] ∧ idsNamed node name (after env es s).slabs = [] ∧ s' = after env es s) ∨
      ∃ id es' i', sched = [(es, i), (es', i')] ∧ idsNamed node name (after env es s).slabs = [id] ∧
        s' = { after env es' (after env es s) with
          slabs := (after env es' (after env es s)).slabs.filter fun e => ¬ (e.node = node ∧ e.id = id) } := by
  obtain ⟨sched₁, sched₂, x, s₁, rfl, hlist, h⟩ := Task.amid_bind h
  obtain ⟨es, i, rfl, rfl, hx⟩ := amid_localVolumeId hlist
  refine ⟨es, i, ?_⟩
  rcases hx with ⟨hids, e, rfl, hgone⟩ | ⟨id, hids, rfl⟩ | ⟨e, rfl, hgone⟩
  · dsimp only at h
    rw [if_pos hgone] at h
    obtain ⟨rfl, h⟩ := Task.amid_ret h
    cases h
    exact .inl ⟨rfl, hids, rfl⟩
  · obtain ⟨es', rfl, -, rfl⟩ := amid_call (amid_upstream h)
    exact .inr ⟨id, es', _, rfl, hids, rfl⟩
  · dsimp only at h
    rw [if_neg (by simp [hgone])] at h
    obtain ⟨-, h⟩ := Task.amid_fail h
    cases h

end

/-! ## The delete -/

theorem node_serveOwn {fed : FedState} {vol : DistVolume} {place : Orchestrate.ServeAt}
    (h : Orchestrate.serveOwn fed vol = .ok place) : servedFrom vol = some place.node := by
  unfold Orchestrate.serveOwn at h
  unfold servedFrom
  cases ha : vol.assembly <;> rw [ha] at h <;> dsimp only at h ⊢
  case assembled | degraded =>
    split at h
    · cases h
    · cases h
    · rename_i head array hhead harray
      obtain ⟨_, -, h⟩ := check_bind.mp h
      cases h
      exact hhead
  case singleLeg =>
    split at h
    · cases h
    · rename_i leg hleg
      obtain ⟨_, -, h⟩ := check_bind.mp h
      cases h
      rw [(Option.filter_eq_some_iff.mp hleg).1]
      rfl
  all_goals cases h

theorem node_dataAt {fed : FedState} {vol : DistVolume} {place : Orchestrate.DataAt} (hown : vol.cloneOf = none)
    (h : Orchestrate.dataAt fed vol = .ok place) : servedFrom vol = some place.node := by
  unfold Orchestrate.dataAt at h
  rw [FedState.parentOf, hown] at h
  dsimp only at h
  rw [Option.filter_some, if_pos (by rw [hown]; rfl)] at h
  dsimp only at h
  split at h
  case h_4 => cases h
  all_goals
    obtain ⟨own, hserve, h⟩ := check_bind.mp h
    cases h
    exact node_serveOwn hserve

/-- The delete has found the snapshot, and where it is. -/
theorem Kept.toDelete (h : Kept snap v s) {r : Option (Snapshot × Orchestrate.DataAt)}
    (hr : Api.snapshotToDelete snap.id s.fed = .ok r) : ∃ place, r = some (snap, place) ∧ place.node = v.node := by
  obtain ⟨vol, hvol, hown, hserved⟩ := h.parent
  unfold Api.snapshotToDelete Api.snapshotHome at hr
  rw [h.found] at hr
  dsimp only at hr
  rw [hvol] at hr
  split at hr
  · cases hr
  · dsimp only at hr
    unfold Api.asConflict at hr
    cases hplace : Orchestrate.dataAt s.fed vol with
    | error e =>
      rw [hplace] at hr
      cases hr
    | ok place =>
      rw [hplace] at hr
      cases hr
      rw [node_dataAt hown hplace] at hserved
      exact ⟨place, rfl, Option.some.inj hserved⟩

section

variable {es₀ es₁ es₂ es₃ : List Event} {i₀ i₁ i₂ i₃ : Wire} {rest : List (List Event × Wire)}

theorem reached_home
    (h : snap.engineId.isSome ∧ servedAt snap.parent (after (event snap.parent) es₀ s) = some snap.node) :
    Reached snap s ((es₀, i₀) :: (es₁, i₁) :: (es₂, i₂) :: rest) ↔
      moved snap.parent s (es₀ ++ (es₁ ++ es₂)) = false := iff_of_eq (if_pos h)

theorem reached_away
    (h : ¬ (snap.engineId.isSome ∧ servedAt snap.parent (after (event snap.parent) es₀ s) = some snap.node)) :
    Reached snap s ((es₀, i₀) :: (es₁, i₁) :: (es₂, i₂) :: (es₃, i₃) :: rest) ↔
      let read := after (event snap.parent) es₀ s
      let first := after (event snap.parent) (es₁ ++ es₂) read
      let second := after (event snap.parent) es₃ first
      servedAt snap.parent first = servedAt snap.parent read ∧
        servedAt snap.parent second = servedAt snap.parent read ∧
          idAt snap.engineName second = idAt snap.engineName first := iff_of_eq (if_neg h)

end

/-- A delete that answers success leaves no engine volume of the snapshot's name
on the node that serves its parent just where it has reached the volume. -/
theorem deleteSnapshot_clean_iff (ht : Taken snap v s) {sched : List (List Event × Wire)}
    (h : (deleteSnapshot snap.id).amid (event snap.parent) sched s = some (.ok (), s')) :
    s'.fed.snapshots[snap.id]? = none ∧ (Clean snap s' ↔ Reached snap s sched) := by
  obtain ⟨_, sched, x, s₁, rfl, hget, h⟩ := Task.amid_bind h
  obtain ⟨es₀, i₀, rfl, hx⟩ := Task.amid_get hget
  cases hx
  obtain ⟨_, sched, r, _, rfl, hread, h⟩ := Task.amid_bind h
  obtain ⟨rfl, hr, rfl⟩ := Task.amid_ofExcept hread
  obtain ⟨v₀, h₀, hsame₀, hnone₀⟩ := ht.toKept.after es₀
  obtain ⟨place, rfl, hplace⟩ := h₀.toDelete hr
  obtain ⟨_, sched, _, s₁, rfl, hhealthy, h⟩ := Task.amid_bind h
  obtain ⟨es₁, i₁, rfl, rfl⟩ := amid_healthyHome hhealthy
  obtain ⟨sched, _, _, s₂, rfl, hdel, h⟩ := Task.amid_bind h
  obtain ⟨es, i, rfl, hx⟩ := Task.amid_atomic h
  cases hx
  refine ⟨by rw [forget, KeyMap.get_erase, if_pos rfl], ?_⟩
  unfold deleteFrom at hdel
  cases hid : snap.engineId.filter fun _ => place.node = snap.node with
  | some id =>
    obtain ⟨hid', hhome⟩ := Option.filter_eq_some_iff.mp hid
    have hhome : v₀.node = snap.node := hplace ▸ of_decide_eq_true hhome
    rw [hid] at hdel
    obtain ⟨es₂, rfl, -, rfl⟩ := amid_call (amid_upstream hdel)
    obtain ⟨v₂, h₂, hsame₂, hnone₂⟩ := h₀.after (es₁ ++ es₂)
    rw [after_append] at h₂
    rw [clean_forget_iff h₂, hplace]
    refine Iff.trans ?_ (reached_home ⟨by rw [hid']; rfl, h₀.servedAt.trans (congrArg some hhome)⟩).symm
    have htaken : decide (¬ (v₂.node = v₀.node ∧ v₂.record = some id)) = false ↔
        v₂.node = v₀.node ∧ v₂.record = some id := by simp
    rw [htaken, moved_append, Bool.or_eq_false_iff]
    refine ⟨fun ⟨_, hrecord⟩ => ⟨?_, ?_⟩, fun ⟨hm, hm'⟩ => ?_⟩
    · by_contra hm
      rw [hnone₂ (.inr (hnone₀ (.inl (by simpa using hm))))] at hrecord
      cases hrecord
    · by_contra hm
      rw [hnone₂ (.inl (by simpa using hm))] at hrecord
      cases hrecord
    · rw [hsame₂ hm', hsame₀ hm]
      exact ⟨rfl, ht.record id hid'⟩
  | none =>
    have haway : ¬ (snap.engineId.isSome ∧
        servedAt snap.parent (after (event snap.parent) es₀ s) = some snap.node) := by
      rintro ⟨hsome, hserved⟩
      obtain ⟨id, hid'⟩ := Option.isSome_iff_exists.mp hsome
      rw [h₀.servedAt] at hserved
      rw [hid', Option.filter_some, if_pos (decide_eq_true (hplace.trans (Option.some.inj hserved)))] at hid
      cases hid
    rw [hid] at hdel
    obtain ⟨es₂, i₂, hcalls⟩ := amid_deleteByName hdel
    obtain ⟨v₂, h₂, -⟩ := h₀.after (es₁ ++ es₂)
    have hstate : after (event snap.parent) (es₁ ++ es₂) (after (event snap.parent) es₀ s) =
      after (event snap.parent) es₂ (after (event snap.parent) es₁ (after (event snap.parent) es₀ s)) := after_append ..
    rw [← hstate] at hcalls
    rcases hcalls with ⟨rfl, hids, rfl⟩ | ⟨id, es₃, i₃, rfl, hids, rfl⟩
    · obtain ⟨v₃, h₃, -⟩ := h₂.after es
      refine iff_of_false h₃.not_clean fun hreached => ?_
      have hsame := ((reached_away haway).mp hreached).1
      rw [h₀.servedAt, h₂.servedAt] at hsame
      rw [h₂.idsNamed, if_pos ((Option.some.inj hsame).trans hplace.symm)] at hids
      cases hids
    · obtain ⟨v₃, h₃, -⟩ := h₂.after es₃
      have hat : v₂.node = v₀.node ∧ v₂.id = id := by
        rw [h₂.idsNamed, hplace] at hids
        split at hids
        · rename_i he
          exact ⟨he, List.singleton_inj.mp hids⟩
        · cases hids
      rw [clean_forget_iff h₃]
      refine Iff.trans ?_ (reached_away haway).symm
      dsimp only
      rw [h₀.servedAt, h₂.servedAt, h₃.servedAt, h₂.idAt, h₃.idAt, hplace, ← hat.2]
      simp [hat.1]

/-- A mirror on `a` and `b`, with its head on `a`. -/
def snapped : DistVolume where
  name := "v"
  sizeBytes := 10
  pool := none
  replicas := 2
  rung := "rack"
  legs := [
    { node := "a", volumeId := some "l", state := .created },
    { node := "b", volumeId := some "l", state := .created }]
  assembly := .assembled
  head := some "a"
  arrayId := some "r"
  createdAt := 0

def madeSnapshot : Snapshot where
  id := "s"
  name := "s"
  sourceVolumeId := "v"
  sizeBytes := 10
  ready := true
  createdAtMs := 0
  groupSnapshotId := none
  parent := "v"
  node := "a"
  engineName := "s"
  engineId := some "1"

def madeVolume : SlabVolume := { node := "a", name := "s", id := "0", record := some "1", parent := "v" }

def answering (name : String) : Node where
  config := { name := name, engineUrl := name }
  status := { NodeStatus.new .static with healthy := true }

/-- The snapshot was just taken on `a`. -/
def madeSite : Site where
  fed := {
    nodes := ((∅ : KeyMap Node).insert "a" (answering "a")).insert "b" (answering "b")
    volumes := (∅ : KeyMap DistVolume).insert "v" snapped
    snapshots := (∅ : KeyMap Snapshot).insert "s" madeSnapshot }
  slabs := [madeVolume]

theorem taken_madeSite : Taken madeSnapshot madeVolume madeSite where
  found := by decide +kernel
  parent := ⟨snapped, by decide +kernel, rfl, rfl⟩
  only := by decide +kernel
  slab := rfl
  node := rfl
  record := fun _ h => h

/-- Every call is answered, after these events. -/
def answeredAfter (es : List Event) : List (List Event × Wire) :=
  [(es, .answered), ([], .answered), ([], .answered), ([], .answered)]

theorem deleteSnapshot_clean_small : ∃ s', (deleteSnapshot "s").amid (event "v") (answeredAfter []) madeSite =
    some (.ok (), s') ∧ s'.fed.snapshots["s"]? = none ∧
      (Clean madeSnapshot s' ↔ Reached madeSnapshot madeSite (answeredAfter [])) := by
  have hok : ((deleteSnapshot "s").amid (event "v") (answeredAfter []) madeSite).any (·.1.isOk) = true := by
    decide +kernel
  obtain ⟨⟨x, s'⟩, hx, hok⟩ := (Option.any_eq_true _ _).mp hok
  cases x with
  | error e => cases hok
  | ok u => exact ⟨s', hx, deleteSnapshot_clean_iff taken_madeSite hx⟩

/-- The head moves to `b` and back to `a`: the volume is there, and its `/v1`
record is not. -/
def roundTrip : List Event :=
  [.promote "b" ["b"] none fun _ => "1", .promote "a" ["a", "b"] none fun _ => "2"]

theorem deleteSnapshot_leaves : ¬ ∀ snap v s s' sched, Taken snap v s →
    (deleteSnapshot snap.id).amid (event snap.parent) sched s = some (.ok (), s') → Clean snap s' := by
  intro h
  have hok : ((deleteSnapshot "s").amid (event "v") (answeredAfter roundTrip) madeSite).any (fun x =>
      x.1.isOk ∧ servedAt "v" x.2 = some "a" ∧ x.2.slabs.any fun e => e.node = "a" ∧ e.name = "s") = true := by
    decide +kernel
  obtain ⟨⟨x, s'⟩, hx, hleft⟩ := (Option.any_eq_true _ _).mp hok
  obtain ⟨hok, hserved, hleft⟩ := of_decide_eq_true hleft
  obtain ⟨e, he, hnamed⟩ := List.any_eq_true.mp hleft
  cases x with
  | error e => cases hok
  | ok u =>
    exact h madeSnapshot madeVolume madeSite s' (answeredAfter roundTrip) taken_madeSite hx "a" hserved e he
      (of_decide_eq_true hnamed)

/-- Where the head stays while the delete goes on, the volume is reached unless
the engine was told its id, serves the parent now, and the array has been brought
back. -/
theorem reached_undisturbed (h : Kept snap v s) {es₀ es₁ es₂ es₃ : List Event} {i₀ i₁ i₂ i₃ : Wire}
    {rest : List (List Event × Wire)}
    (hstill : moved snap.parent (after (event snap.parent) es₀ s) ((es₁ ++ es₂) ++ es₃) = false) :
    Reached snap s ((es₀, i₀) :: (es₁, i₁) :: (es₂, i₂) :: (es₃, i₃) :: rest) ↔
      snap.engineId = none ∨ servedAt snap.parent (after (event snap.parent) es₀ s) ≠ some snap.node ∨
        moved snap.parent s es₀ = false := by
  rw [moved_append, Bool.or_eq_false_iff] at hstill
  by_cases home : snap.engineId.isSome ∧ servedAt snap.parent (after (event snap.parent) es₀ s) = some snap.node
  · have hid : snap.engineId ≠ none := Option.isSome_iff_ne_none.mp home.1
    rw [reached_home home, moved_append, hstill.1, Bool.or_false]
    simp [hid, home.2]
  · obtain ⟨v₀, h₀, -⟩ := h.after es₀
    obtain ⟨v₂, h₂, hsame₂, -⟩ := h₀.after (es₁ ++ es₂)
    obtain ⟨v₃, h₃, hsame₃, -⟩ := h₂.after es₃
    have hv₂ := hsame₂ hstill.1
    have hv₃ := hsame₃ hstill.2
    refine iff_of_true ((reached_away home).mpr ?_) ?_
    · dsimp only
      rw [h₀.servedAt, h₂.servedAt, h₃.servedAt, h₂.idAt, h₃.idAt, hv₃, hv₂]
      exact ⟨rfl, rfl, rfl⟩
    · by_cases hid : snap.engineId = none
      · exact .inl hid
      · exact .inr (.inl fun hserved => home ⟨Option.isSome_iff_ne_none.mpr hid, hserved⟩)

/-- By its id and by name: whatever the engine lists, and wherever its `/v1`
record went. -/
theorem dropSnapshot_clean {node name : String} {id : Option String} {sched : List (List Event × Wire)}
    (hquiet : ∀ x ∈ sched, x.1 = [])
    (h : (dropSnapshot node name id).amid (event parent) sched s = some (.ok (), s')) :
    ∀ e ∈ s'.slabs, ¬ (e.node = node ∧ e.name = name) := by
  obtain ⟨_, sched, _, s₁, rfl, -, h⟩ := Task.amid_bind h
  have hquiet : ∀ x ∈ sched, x.1 = [] := fun x hx => hquiet x (List.mem_append_right _ hx)
  obtain ⟨_, sched, x, s₂, rfl, hlist, h⟩ := Task.amid_bind h
  obtain ⟨es, i, rfl, rfl, hx⟩ := amid_localVolumeId hlist
  obtain rfl : es = [] := hquiet (es, i) (List.mem_append_left _ (List.mem_singleton_self _))
  rw [after_nil] at hx h
  have hlisted : ∀ {e}, e ∈ s₁.slabs → e.node = node → e.name = name → e.id ∈ idsNamed node name s₁.slabs := by
    intro e he hn hname
    exact List.mem_map.mpr ⟨e, List.mem_filter.mpr ⟨he, decide_eq_true ⟨hn, hname⟩⟩, rfl⟩
  rcases hx with ⟨hids, e, rfl, hgone⟩ | ⟨id, hids, rfl⟩ | ⟨e, rfl, hgone⟩
  · dsimp only at h
    rw [if_pos hgone] at h
    obtain ⟨rfl, h⟩ := Task.amid_ret h
    cases h
    rintro e he ⟨hn, hname⟩
    have hmem := hlisted he hn hname
    rw [hids] at hmem
    cases hmem
  · obtain ⟨es', rfl, -, rfl⟩ := amid_call h
    obtain rfl : es' = [] := hquiet (es', _) (List.mem_append_right _ (List.mem_singleton_self _))
    rintro e he ⟨hn, hname⟩
    obtain ⟨he, hkept⟩ := List.mem_filter.mp he
    have hmem := hlisted he hn hname
    rw [hids] at hmem
    exact of_decide_eq_true hkept ⟨hn, List.mem_singleton.mp hmem⟩
  · dsimp only at h
    rw [if_neg (by simp [hgone])] at h
    obtain ⟨-, h⟩ := Task.amid_fail h
    cases h

end StormStorage.Slabs
