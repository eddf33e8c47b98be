import StormStorage.Poll
import StormStorage.Proof.Registry

/-!
# A node's health over the poller's run

Nothing but a heartbeat, an answer, a failed poll or a shutdown touches a node's
`pulse` while it is known: `step_pulse`.

* `outage_counted`: while a node's engine is silent each failed poll counts, the
  node is down from the threshold on, with no inventory, and that is reported
  once;
* `inventory_whole`: an inventory is one read's slabs and volumes, with the PVs as
  they were last read.
-/

namespace StormStorage.Poller

open Inventory

variable {cfg : NodesConfig} {c : Codecs} {failThreshold : Nat} {nodes nodes' : KeyMap Node} {k : String}

/-! ## The registry's changes -/

/-- Whether the node at `k` is up, and how many polls of it failed in a row. -/
def pulse (nodes : KeyMap Node) (k : String) : Option (Bool × Nat) :=
  nodes[k]?.map fun n => (n.status.healthy, n.status.consecutiveFailures)

/-- A node that is new has not been heard of. -/
def unheard : Bool × Nat := (false, 0)

theorem pulse_insert (nodes : KeyMap Node) (name : String) (n : Node) (k : String) :
    pulse (nodes.insert name n) k =
      if name = k then some (n.status.healthy, n.status.consecutiveFailures) else pulse nodes k := by
  rw [pulse, KeyMap.get_insert]
  split <;> rfl

/-- Nodes are added under some of the names, and no pulse changes. -/
def Adds (names : List String) (nodes nodes' : KeyMap Node) : Prop :=
  ∀ k, pulse nodes' k = pulse nodes k ∨ (k ∈ names ∧ pulse nodes k = none ∧ pulse nodes' k = some unheard)

theorem adds_refl (names : List String) (nodes : KeyMap Node) : Adds names nodes nodes := fun _ => .inl rfl

theorem adds_foldl {f : KeyMap Node → NodeConfig → KeyMap Node} (hf : ∀ nodes nc, Adds [nc.name] nodes (f nodes nc))
    (ncs : List NodeConfig) (nodes : KeyMap Node) : Adds (ncs.map (·.name)) nodes (ncs.foldl f nodes) := by
  induction ncs generalizing nodes with
  | nil => exact adds_refl _ _
  | cons nc ncs ih =>
    intro k
    rw [List.foldl_cons, List.map_cons, List.mem_cons]
    rcases ih (f nodes nc) k with h | ⟨hk, hnone, hnew⟩
    · rcases hf nodes nc k with h' | ⟨hk', hnone', hnew'⟩
      · exact .inl (h.trans h')
      · exact .inr ⟨.inl (List.mem_singleton.mp hk'), hnone', h.trans hnew'⟩
    · rcases hf nodes nc k with h' | ⟨-, -, hnew'⟩
      · exact .inr ⟨.inr hk, h' ▸ hnone, hnew⟩
      · rw [hnew'] at hnone
        cases hnone

/-- A node is written over its record, which keeps its pulse, or anew. -/
theorem adds_put {nc : NodeConfig} {n : Node}
    (h : pulse nodes nc.name = some (n.status.healthy, n.status.consecutiveFailures) ∨
      (pulse nodes nc.name = none ∧ (n.status.healthy, n.status.consecutiveFailures) = unheard)) :
    Adds [nc.name] nodes (nodes.insert nc.name n) := by
  intro k
  rw [pulse_insert]
  by_cases hk : nc.name = k
  · subst hk
    rw [if_pos rfl]
    rcases h with h | ⟨hnone, hnew⟩
    · exact .inl h.symm
    · exact .inr ⟨List.mem_singleton_self _, hnone, by rw [hnew]⟩
  · rw [if_neg hk]
    exact .inl rfl

theorem adds_applyConfigNode (nodes : KeyMap Node) (nc : NodeConfig) : Adds [nc.name] nodes (applyConfigNode nodes nc) := by
  rw [applyConfigNode]
  cases h : nodes[nc.name]? with
  | none => exact adds_put (.inr ⟨by simp [pulse, h], rfl⟩)
  | some n => exact adds_put (.inl (by simp [pulse, h]))

theorem adds_adoptNode (source : NodeSource) (nodes : KeyMap Node) (nc : NodeConfig) :
    Adds [nc.name] nodes (adoptNode source nodes nc) := by
  rw [adoptNode]
  split
  · exact adds_refl _ _
  · cases h : nodes[nc.name]? with
    | none => exact adds_put (.inr ⟨by simp [pulse, h], rfl⟩)
    | some n => exact adds_put (.inl (by simp [pulse, h]))

theorem adds_adoptRegistered (nodes : KeyMap Node) (nc : NodeConfig) : Adds [nc.name] nodes (adoptRegistered nodes nc) := by
  rw [adoptRegistered]
  cases h : nodes[nc.name]? with
  | none => exact adds_put (.inr ⟨by simp [pulse, h], rfl⟩)
  | some n =>
    dsimp only
    split
    · exact adds_put (.inl (by simp [pulse, h]))
    · exact adds_refl _ _

/-- A change that leaves a node alone: it is as it was, or gone, or new. -/
def Spares (nodes nodes' : KeyMap Node) (k : String) : Prop :=
  pulse nodes' k = pulse nodes k ∨ pulse nodes' k = none ∨ (pulse nodes k = none ∧ pulse nodes' k = some unheard)

theorem Adds.spares {names : List String} (h : Adds names nodes nodes') (k : String) : Spares nodes nodes' k :=
  (h k).imp_right fun hnew => .inr hnew.2

theorem pulse_filter (f : String → Node → Bool) (nodes : KeyMap Node) (k : String) :
    pulse (nodes.filter f) k = pulse nodes k ∨ pulse (nodes.filter f) k = none := by
  rw [pulse, pulse, Std.ExtTreeMap.getElem?_filter']
  cases nodes[k]? with
  | none => exact .inl rfl
  | some n => by_cases h : f k n <;> simp [h]

/-- Nodes that are dropped are not added again. -/
theorem spares_filter {names : List String} {f : String → Node → Bool} (hf : ∀ k n, k ∈ names → f k n = true)
    (h : Adds names (nodes.filter f) nodes') (k : String) : Spares nodes nodes' k := by
  rcases h k with he | ⟨hk, hnone, hnew⟩
  · rcases pulse_filter f nodes k with hkept | hgone
    · exact .inl (he.trans hkept)
    · exact .inr (.inl (he.trans hgone))
  · have hkept : pulse (nodes.filter f) k = pulse nodes k := by
      rw [pulse, pulse, Std.ExtTreeMap.getElem?_filter']
      cases nodes[k]? with
      | none => rfl
      | some n => simp [hf k n hk]
    exact .inr (.inr ⟨hkept ▸ hnone, hnew⟩)

theorem Spares.filter (h : Spares nodes nodes' k) (f : String → Node → Bool) : Spares nodes (nodes'.filter f) k := by
  rcases pulse_filter f nodes' k with he | hgone
  · rw [Spares, he]
    exact h
  · exact .inr (.inl hgone)

/-- The registry's move is a heartbeat of this node. -/
def beats (k : String) : Registry.Move → Bool
  | .register a _ => a.hostname = k
  | _ => false

theorem registry_spares (w : Registry) {m : Registry.Move} (hb : beats k m = false)
    (hd : ∀ nodeAddr, m ≠ .deregister nodeAddr) : Spares w.fed.nodes (w.step cfg c m).fed.nodes k := by
  cases m with
  | configure => exact (adds_foldl adds_applyConfigNode cfg.nodes _).spares k
  | register a now =>
    have hne : a.hostname ≠ k := by simpa [beats] using hb
    refine .inl ?_
    show pulse (w.fed.registerNode cfg a now).nodes k = _
    rw [FedState.registerNode, pulse_insert, if_neg hne]
  | deregister nodeAddr => exact absurd rfl (hd nodeAddr)
  | adoptMembers m list =>
    refine spares_filter (fun k n hk => ?_) (adds_foldl (adds_adoptNode .member) (Registry.wantedMembers cfg m list) _) k
    simp [hk]
  | adoptLocal m discovery =>
    exact ((adds_foldl (adds_adoptNode .local) _ _).spares k).filter _
  | replicate payload =>
    show Spares _ (w.fed.applyPayload payload).2.nodes k
    rw [FedState.applyPayload]
    split
    · exact .inl rfl
    · rw [Registry.adopt_eq]
      exact (adds_foldl adds_adoptRegistered payload.registered _).spares k
  | load records =>
    rw [Registry.step_load, applyRecords]
    cases applyEach c records.toList ({}, []) with
    | error e => exact .inl rfl
    | ok x =>
      refine spares_filter (fun k n hk => ?_) (adds_foldl adds_adoptRegistered x.2 _) k
      simp only [List.contains_iff_mem.mpr hk, Bool.or_true]

/-! ## One step -/

/-- The move does not come from the node: its engine does not answer, and there
is no heartbeat. -/
def Move.silent (k : String) : Move → Bool
  | .registry m => !beats k m
  | .answered name _ _ => name ≠ k
  | .refreshed name _ => name ≠ k
  | _ => true

/-- A poll of the node that failed. -/
def Move.misses (k : String) : Move → Bool
  | .failed name => name = k
  | _ => false

/-- A clean shutdown at some address. -/
def Move.shutsDown : Move → Bool
  | .registry (.deregister _) => true
  | _ => false

/-- A node that is up has not missed too many polls. -/
def Sound (failThreshold : Nat) (nodes : KeyMap Node) : Prop := ∀ k f, pulse nodes k = some (true, f) → f < failThreshold

def told (k : String) (w : Poller) : List PollReport := (w.reports.filter (·.1 = k)).map Prod.snd

variable {w : Poller} {h h' : Bool} {f f' : Nat}

/-- What moves without a sign of the node do to it. -/
structure Outage (failThreshold : Nat) (k : String) (moves : List Move) (w w' : Poller) (h h' : Bool) (f f' : Nat) : Prop where
  counted : f' = f + moves.countP (·.misses k)
  down : h' = true → h = true ∧ f' < failThreshold
  up : (∀ m ∈ moves, m.shutsDown = false) → h = true → f' < failThreshold → h' = true
  reports : told k w' = (if f < failThreshold ∧ failThreshold ≤ f' then [.unusable failThreshold] else []) ++ told k w
  cleared : (0 < moves.countP (·.misses k) ∧ failThreshold ≤ f') ∨ w.inventory[k]? = none → w'.inventory[k]? = none

theorem pulse_deregister (cfg : NodesConfig) (fed : FedState) (nodeAddr k : String) :
    pulse (fed.deregisterNode cfg nodeAddr).nodes k = pulse fed.nodes k ∨
      ∃ h f, pulse fed.nodes k = some (h, f) ∧ pulse (fed.deregisterNode cfg nodeAddr).nodes k = some (false, f) := by
  rw [FedState.deregisterNode, pulse, pulse, Std.ExtTreeMap.getElem?_map]
  cases fed.nodes[k]? with
  | none => exact .inl rfl
  | some n =>
    by_cases hu : n.config.engineUrl = engineUrlFrom nodeAddr cfg.addressScheme
    · exact .inr ⟨_, _, rfl, by simp [hu]⟩
    · exact .inl (by simp [hu])

/-- A step that leaves the node alone, or shuts it down. -/
theorem Outage.spared {m : Move} {w' : Poller} (hw : Sound failThreshold w.nodes) (hm : m.misses k = false)
    (hp : pulse w.nodes k = some (h, f)) (hp' : pulse w'.nodes k = some (h', f))
    (hh : h' = h ∨ (m.shutsDown = true ∧ h' = false)) (hr : w'.reports.filter (·.1 = k) = w.reports.filter (·.1 = k))
    (hi : w.inventory[k]? = none → w'.inventory[k]? = none) : Outage failThreshold k [m] w w' h h' f f where
  counted := by simp [hm]
  down hup := by
    rcases hh with rfl | ⟨-, rfl⟩
    · subst hup
      exact ⟨rfl, hw k f hp⟩
    · cases hup
  up hd hup _ := by
    rcases hh with rfl | ⟨hs, -⟩
    · exact hup
    · rw [hd m (List.mem_singleton_self m)] at hs
      cases hs
  reports := by
    rw [told, hr, if_neg (by omega)]
    rfl
  cleared hc := by
    rcases hc with ⟨hm', -⟩ | hc
    · simp [hm] at hm'
    · exact hi hc

theorem Outage.of_eq {m : Move} {w' : Poller} (hw : Sound failThreshold w.nodes) (hm : m.misses k = false)
    (hp : pulse w.nodes k = some (h, f)) (hp' : pulse w'.nodes k = some (h', f')) (heq : pulse w'.nodes k = pulse w.nodes k)
    (hr : w'.reports.filter (·.1 = k) = w.reports.filter (·.1 = k))
    (hi : w.inventory[k]? = none → w'.inventory[k]? = none) : Outage failThreshold k [m] w w' h h' f f' := by
  obtain ⟨rfl, rfl⟩ := Prod.mk.inj (Option.some.inj (hp'.symm.trans (heq.trans hp)))
  exact .spared hw hm hp hp' (.inl rfl) hr hi

/-- A failed poll of the node. -/
theorem outage_failed (hw : Sound failThreshold w.nodes) (hp : pulse w.nodes k = some (h, f)) :
    ∃ h', pulse (w.failed failThreshold k).nodes k = some (h', f + 1) ∧
      Outage failThreshold k [.failed k] w (w.failed failThreshold k) h h' f (f + 1) := by
  obtain ⟨n, hn, he⟩ := Option.map_eq_some_iff.mp hp
  obtain ⟨rfl, rfl⟩ := Prod.mk.inj he
  rw [failed, hn]
  refine ⟨n.status.healthy && !decide (n.status.healthy ∧ failThreshold ≤ n.status.consecutiveFailures + 1),
    by simp [setNode, nodes, pulse_insert], ?_⟩
  have hlt : n.status.healthy = true → n.status.consecutiveFailures < failThreshold := fun hup =>
    hw k _ (by rw [hp, hup])
  constructor
  · simp [Move.misses]
  · intro hup
    simp only [Bool.and_eq_true, Bool.not_eq_true', decide_eq_false_iff_not] at hup
    exact ⟨hup.1, Nat.lt_of_not_le fun hle => hup.2 ⟨hup.1, hle⟩⟩
  · intro _ hup hlow
    rw [hup]
    simp only [true_and, Bool.true_and, Bool.not_eq_true', decide_eq_false_iff_not]
    omega
  · by_cases hnow : n.status.consecutiveFailures + 1 = failThreshold
    · rw [if_pos (by omega)]
      simp [told, hnow]
    · have hflip : ¬ (n.status.healthy = true ∧ failThreshold ≤ n.status.consecutiveFailures + 1) := fun hflip => by
        have := hlt hflip.1
        omega
      rw [if_neg (by omega)]
      simp [told, hnow, hflip]
  · intro hc
    dsimp only
    split
    · rename_i hup
      rcases hc with ⟨-, hmiss⟩ | hc
      · simp [hmiss] at hup
      · exact hc
    · exact (KeyMap.get_erase ..).trans (if_pos rfl)

theorem pulse_setNode {name : String} (hne : name ≠ k) (n : Node) : pulse (w.setNode name n).nodes k = pulse w.nodes k := by
  rw [setNode, nodes, pulse_insert, if_neg hne]

theorem filter_report {name : String} (hne : name ≠ k) (r : PollReport) (reports : List (String × PollReport)) :
    ((name, r) :: reports).filter (·.1 = k) = reports.filter (·.1 = k) :=
  List.filter_cons_of_neg (by simpa using hne)

/-- A step that is about one node leaves all others alone. -/
structure Touches (name : String) (w w' : Poller) : Prop where
  pulse : ∀ k, name ≠ k → pulse w'.nodes k = pulse w.nodes k
  reports : ∀ k, name ≠ k → w'.reports.filter (·.1 = k) = w.reports.filter (·.1 = k)
  inventory : ∀ k, name ≠ k → w'.inventory[k]? = w.inventory[k]?

theorem touches_refl (name : String) (w : Poller) : Touches name w w := ⟨fun _ _ => rfl, fun _ _ => rfl, fun _ _ => rfl⟩

theorem touches_answered (name : String) (cap : Capacity) (now : SystemTime) : Touches name w (w.answered name cap now) := by
  rw [answered]
  split
  · exact touches_refl name w
  · refine ⟨fun k hne => pulse_setNode hne _, fun k hne => ?_, fun k hne => rfl⟩
    dsimp only
    split
    · rfl
    · exact filter_report hne ..

theorem touches_failed (name : String) : Touches name w (w.failed failThreshold name) := by
  rw [failed]
  split
  · exact touches_refl name w
  · refine ⟨fun k hne => pulse_setNode hne _, fun k hne => ?_, fun k hne => ?_⟩
    · dsimp only
      split
      · exact filter_report hne ..
      · rfl
    · dsimp only
      split
      · rfl
      · rw [KeyMap.get_erase, if_neg hne]

theorem pulse_refreshed (name : String) (read : Except String Reading) (k : String) :
    pulse (w.refreshed name read).nodes k = pulse w.nodes k := by
  cases read with
  | error e => rfl
  | ok r =>
    rw [refreshed]
    dsimp only
    split
    · rfl
    · rename_i n hn
      have hn : w.nodes[name]? = some n := hn
      rw [setNode, nodes, pulse_insert]
      split
      · rename_i hk
        rw [← hk, pulse, hn]
        rfl
      · rfl

theorem touches_refreshed (name : String) (read : Except String Reading) : Touches name w (w.refreshed name read) := by
  refine ⟨fun k _ => pulse_refreshed name read k, fun k hne => ?_, fun k hne => ?_⟩
  · cases read with
    | error e => rfl
    | ok r =>
      rw [refreshed]
      dsimp only
      split <;> rfl
  · cases read with
    | error e => exact KeyMap.get_insert_ne _ _ hne
    | ok r =>
      rw [refreshed]
      dsimp only
      split <;> exact KeyMap.get_insert_ne _ _ hne

theorem Touches.outage {name : String} {m : Move} {w' : Poller} (ht : Touches name w w') (hne : name ≠ k)
    (hw : Sound failThreshold w.nodes) (hm : m.misses k = false) (hp : Poller.pulse w.nodes k = some (h, f))
    (hp' : Poller.pulse w'.nodes k = some (h', f')) : Outage failThreshold k [m] w w' h h' f f' :=
  .of_eq hw hm hp hp' (ht.pulse k hne) (ht.reports k hne) fun hnone => (ht.inventory k hne).trans hnone

theorem outage_registry (hw : Sound failThreshold w.nodes) {m : Registry.Move} (hm : beats k m = false)
    (hp : pulse w.nodes k = some (h, f))
    (hp' : pulse (step cfg c failThreshold w (.registry m)).nodes k = some (h', f')) :
    Outage failThreshold k [.registry m] w (step cfg c failThreshold w (.registry m)) h h' f f' := by
  by_cases hd : ∃ nodeAddr, m = .deregister nodeAddr
  · obtain ⟨nodeAddr, rfl⟩ := hd
    rcases pulse_deregister cfg w.registry.fed nodeAddr k with heq | ⟨h₀, f₀, hp₀, hdown⟩
    · exact .of_eq hw rfl hp hp' heq rfl id
    · obtain ⟨rfl, rfl⟩ := Prod.mk.inj (Option.some.inj (hp₀.symm.trans hp))
      obtain ⟨rfl, rfl⟩ := Prod.mk.inj (Option.some.inj (hdown.symm.trans hp'))
      exact .spared hw rfl hp hp' (.inr ⟨rfl, rfl⟩) rfl id
  · have hspares : Spares w.nodes (step cfg c failThreshold w (.registry m)).nodes k :=
      registry_spares w.registry hm fun nodeAddr he => hd ⟨nodeAddr, he⟩
    rcases hspares with heq | hgone | ⟨hnone, -⟩
    · exact .of_eq hw rfl hp hp' heq rfl id
    · exact absurd (hgone.symm.trans hp') (by simp)
    · exact absurd (hnone.symm.trans hp) (by simp)

/-- What a silent step does to a node that is known before and after it. -/
theorem silent_step (hw : Sound failThreshold w.nodes) {m : Move} (hm : m.silent k = true)
    (hp : pulse w.nodes k = some (h, f)) (hp' : pulse (step cfg c failThreshold w m).nodes k = some (h', f')) :
    Outage failThreshold k [m] w (step cfg c failThreshold w m) h h' f f' := by
  cases m with
  | registry m => exact outage_registry hw (by simpa [Move.silent] using hm) hp hp'
  | failed name =>
    by_cases hname : name = k
    · subst hname
      obtain ⟨h'', hp'', hq⟩ := outage_failed hw hp
      obtain ⟨rfl, rfl⟩ := Prod.mk.inj (Option.some.inj (hp'.symm.trans hp''))
      exact hq
    · exact (touches_failed name).outage hname hw (by simp [Move.misses, hname]) hp hp'
  | answered name cap now => exact (touches_answered name cap now).outage (by simpa [Move.silent] using hm) hw rfl hp hp'
  | refreshed name read => exact (touches_refreshed name read).outage (by simpa [Move.silent] using hm) hw rfl hp hp'
  | viewed claims =>
    refine .of_eq hw rfl hp hp' rfl rfl fun hnone => ?_
    simp only [step, viewed, Std.ExtTreeMap.getElem?_map, hnone, Option.map_none]
  | forget =>
    refine .of_eq hw rfl hp hp' rfl rfl fun hnone => ?_
    simp only [step, forget, Std.ExtTreeMap.getElem?_filter', hnone, Option.filter_none]

/-! ## A run -/

theorem Spares.sound (hs : Spares nodes nodes' k) (hw : Sound failThreshold nodes) {f : Nat}
    (hp : pulse nodes' k = some (true, f)) : f < failThreshold := by
  rcases hs with heq | hgone | ⟨-, hnew⟩
  · exact hw k f (heq ▸ hp)
  · rw [hgone] at hp
    cases hp
  · rw [hnew] at hp
    cases hp

theorem sound_registry (hth : 1 ≤ failThreshold) {w : Registry} (hw : Sound failThreshold w.fed.nodes) (m : Registry.Move) :
    Sound failThreshold (w.step cfg c m).fed.nodes := by
  intro k f hp
  by_cases hb : beats k m = true
  · cases m with
    | register a now =>
      obtain rfl : a.hostname = k := by simpa [beats] using hb
      change pulse (w.fed.registerNode cfg a now).nodes a.hostname = _ at hp
      rw [FedState.registerNode, pulse_insert, if_pos rfl] at hp
      obtain ⟨-, rfl⟩ := Prod.mk.inj (Option.some.inj hp)
      exact hth
    | _ => simp [beats] at hb
  · by_cases hd : ∃ nodeAddr, m = .deregister nodeAddr
    · obtain ⟨nodeAddr, rfl⟩ := hd
      rcases pulse_deregister cfg w.fed nodeAddr k with heq | ⟨h₀, f₀, -, hdown⟩
      · exact hw k f (heq ▸ hp)
      · cases hdown.symm.trans hp
    · exact (registry_spares w (by simpa using hb) fun nodeAddr he => hd ⟨nodeAddr, he⟩).sound hw hp

theorem Touches.sound {name : String} {w' : Poller} (ht : Touches name w w') (hw : Sound failThreshold w.nodes)
    (hn : ∀ f, Poller.pulse w'.nodes name = some (true, f) → f < failThreshold) : Sound failThreshold w'.nodes := by
  intro k f hp
  by_cases hk : name = k
  · exact hn f (hk ▸ hp)
  · exact hw k f (ht.pulse k hk ▸ hp)

theorem sound_step (hth : 1 ≤ failThreshold) (hw : Sound failThreshold w.nodes) (m : Move) :
    Sound failThreshold (step cfg c failThreshold w m).nodes := by
  cases m with
  | registry m => exact sound_registry hth hw m
  | failed name =>
    refine (touches_failed name).sound hw fun f hp => ?_
    cases hold : pulse w.nodes name with
    | none =>
      have hn : w.nodes[name]? = none := Option.map_eq_none_iff.mp hold
      rw [failed, hn] at hp
      exact hw name f hp
    | some b =>
      obtain ⟨h', hp', hq⟩ := outage_failed hw hold
      obtain ⟨rfl, rfl⟩ := Prod.mk.inj (Option.some.inj (hp'.symm.trans hp))
      exact (hq.down rfl).2
  | answered name cap now =>
    refine (touches_answered name cap now).sound hw fun f hp => ?_
    rw [answered] at hp
    split at hp
    · exact hw name f hp
    · simp only [setNode, nodes, pulse_insert, if_pos] at hp
      obtain ⟨-, rfl⟩ := Prod.mk.inj (Option.some.inj hp)
      exact hth
  | refreshed name read => exact fun k f hp => hw k f (pulse_refreshed name read k ▸ hp)
  | viewed claims => exact hw
  | forget => exact hw

theorem sound_run (hth : 1 ≤ failThreshold) (hw : Sound failThreshold w.nodes) (moves : List Move) :
    Sound failThreshold (run cfg c failThreshold w moves).nodes := by
  induction moves generalizing w with
  | nil => exact hw
  | cons m moves ih => exact ih (sound_step hth hw m)

theorem sound_start {fed : FedState} (hfed : Sound failThreshold fed.nodes) : Sound failThreshold (start cfg fed).nodes :=
  fun _ _ hp => ((adds_foldl adds_applyConfigNode cfg.nodes fed.nodes).spares _).sound hfed hp

theorem outage_nil (hw : Sound failThreshold w.nodes) (hp : pulse w.nodes k = some (h, f)) :
    Outage failThreshold k [] w w h h f f where
  counted := rfl
  down hup := ⟨hup, hw k f (by rw [hp, hup])⟩
  up _ hup _ := hup
  reports := by rw [if_neg (by omega), List.nil_append]
  cleared hc := hc.resolve_left fun hm => by simp at hm

theorem Outage.trans {moves moves' : List Move} {w' w'' : Poller} {h'' : Bool} {f'' : Nat}
    (ho : Outage failThreshold k moves w w' h h' f f') (ho' : Outage failThreshold k moves' w' w'' h' h'' f' f'') :
    Outage failThreshold k (moves ++ moves') w w'' h h'' f f'' where
  counted := by
    rw [List.countP_append, ho'.counted, ho.counted]
    omega
  down hup := ⟨(ho.down (ho'.down hup).1).1, (ho'.down hup).2⟩
  up hd hup hlow := by
    have hle := ho'.counted
    refine ho'.up (fun m hm => hd m (List.mem_append_right _ hm)) ?_ hlow
    exact ho.up (fun m hm => hd m (List.mem_append_left _ hm)) hup (by omega)
  reports := by
    have hle := ho.counted
    have hle' := ho'.counted
    rw [ho'.reports, ho.reports]
    by_cases hmid : failThreshold ≤ f'
    · rw [if_neg (by omega), List.nil_append]
      by_cases hf : f < failThreshold
      · rw [if_pos (by omega), if_pos (by omega)]
      · rw [if_neg (by omega), if_neg (by omega)]
    · rw [if_neg (c := f < failThreshold ∧ failThreshold ≤ f') (by omega), List.nil_append]
      by_cases hf : failThreshold ≤ f''
      · rw [if_pos (by omega), if_pos (by omega)]
      · rw [if_neg (by omega), if_neg (by omega)]
  cleared hc := by
    have hle' := ho'.counted
    rw [List.countP_append] at hc
    by_cases hlate : 0 < moves'.countP (·.misses k)
    · rcases hc with ⟨-, hth⟩ | hc
      · exact ho'.cleared (.inl ⟨hlate, hth⟩)
      · exact ho'.cleared (.inr (ho.cleared (.inr hc)))
    · refine ho'.cleared (.inr (ho.cleared (hc.imp_left fun ⟨hm, hth⟩ => ⟨by omega, by omega⟩)))

theorem pulse_of_contains (h : nodes.contains k = true) : ∃ b f, pulse nodes k = some (b, f) := by
  rw [KeyMap.contains_eq] at h
  obtain ⟨n, hn⟩ := Option.isSome_iff_exists.mp h
  exact ⟨_, _, by rw [pulse, hn, Option.map_some]⟩

/-- What a silent run does to a node that is known all through it. -/
theorem silent_run (hth : 1 ≤ failThreshold) (hw : Sound failThreshold w.nodes) {moves : List Move}
    (hsilent : ∀ m ∈ moves, m.silent k = true)
    (hknown : ∀ past, past <+: moves → (run cfg c failThreshold w past).nodes.contains k = true)
    (hp : pulse w.nodes k = some (h, f)) (hp' : pulse (run cfg c failThreshold w moves).nodes k = some (h', f')) :
    Outage failThreshold k moves w (run cfg c failThreshold w moves) h h' f f' := by
  induction moves generalizing w h f with
  | nil =>
    obtain ⟨rfl, rfl⟩ := Prod.mk.inj (Option.some.inj (hp'.symm.trans hp))
    exact outage_nil hw hp
  | cons m moves ih =>
    obtain ⟨h₁, f₁, hp₁⟩ := pulse_of_contains (hknown [m] (List.prefix_append [m] moves))
    have hstep := silent_step hw (hsilent m (List.mem_cons_self ..)) hp hp₁
    refine hstep.trans (ih (sound_step hth hw m) (fun x hx => hsilent x (List.mem_cons_of_mem _ hx)) (fun past hpast => ?_) hp₁ hp')
    exact hknown (m :: past) (List.cons_prefix_cons.mpr ⟨rfl, hpast⟩)

theorem told_answered {n : Node} (hn : w.nodes[k]? = some n) (cap : Capacity) (now : SystemTime) :
    told k (w.answered k cap now) = (if n.status.healthy then [] else [.reachable]) ++ told k w := by
  rw [answered, hn]
  dsimp only
  split <;> simp [told]

theorem join_join (name : String) (claims claims' : Kube.View) (inv : NodeInventory) :
    join name claims (join name claims' inv) = join name claims inv := by
  simp [join, Function.comp_def]

/-- The inventory is of one of the reads, or of none, under these claims. -/
def Whole (reads : List Reading) (name : String) (claims : Kube.View) (inv : NodeInventory) : Prop :=
  ∃ error, inv = { join name claims {} with error := error } ∨
    ∃ r ∈ reads, inv = { join name claims r.inventory with error := error }

theorem Whole.join {reads : List Reading} {claims : Kube.View} {inv : NodeInventory} (h : Whole reads k claims inv)
    (claims' : Kube.View) : Whole reads k claims' (join k claims' inv) := by
  obtain ⟨error, rfl | ⟨r, hr, rfl⟩⟩ := h
  · exact ⟨error, .inl rfl⟩
  · refine ⟨error, .inr ⟨r, hr, ?_⟩⟩
    have := congrArg NodeInventory.volumes (join_join k claims' claims r.inventory)
    simp only [Inventory.join] at this ⊢
    rw [this]

theorem Whole.mono {reads reads' : List Reading} {claims : Kube.View} {inv : NodeInventory} (h : Whole reads k claims inv)
    (hle : reads ⊆ reads') : Whole reads' k claims inv := by
  obtain ⟨error, he | ⟨r, hr, he⟩⟩ := h
  · exact ⟨error, .inl he⟩
  · exact ⟨error, .inr ⟨r, hle hr, he⟩⟩

/-- What a move reads of a node. -/
def Move.read (k : String) : Move → Option Reading
  | .refreshed name (.ok r) => if name = k then some r else none
  | _ => none

/-- Every inventory is whole; `reads` are those of each node. -/
def AllWhole (reads : String → List Reading) (w : Poller) : Prop :=
  ∀ k inv, w.inventory[k]? = some inv → Whole (reads k) k w.claims inv

variable {reads : String → List Reading}

theorem AllWhole.erase (hw : AllWhole reads w) (name : String) :
    ∀ k inv, (w.inventory.erase name)[k]? = some inv → Whole (reads k) k w.claims inv := by
  intro k inv hinv
  rw [KeyMap.get_erase] at hinv
  split at hinv
  · cases hinv
  · exact hw k inv hinv

theorem AllWhole.insert (hw : AllWhole reads w) {name : String} {inv : NodeInventory}
    (hinv : Whole (reads name) name w.claims inv) :
    ∀ k inv', (w.inventory.insert name inv)[k]? = some inv' → Whole (reads k) k w.claims inv' := by
  intro k inv' h
  rw [KeyMap.get_insert] at h
  split at h
  · rename_i hk
    obtain rfl := Option.some.inj h
    exact hk ▸ hinv
  · exact hw k inv' h

theorem whole_step (hw : AllWhole reads w) (m : Move) :
    AllWhole (fun k => reads k ++ (m.read k).toList) (step cfg c failThreshold w m) := by
  have hmono : AllWhole (fun k => reads k ++ (m.read k).toList) w := fun k inv hinv =>
    (hw k inv hinv).mono (List.subset_append_left ..)
  cases m with
  | registry m => exact hmono
  | answered name cap now =>
    simp only [step, answered]
    split <;> exact hmono
  | failed name =>
    simp only [step, failed]
    split
    · exact hmono
    · intro k inv hinv
      dsimp only at hinv
      split at hinv
      · exact hmono k inv hinv
      · exact hmono.erase name k inv hinv
  | refreshed name read =>
    cases read with
    | error e =>
      refine fun k inv => (hmono.insert ?_) k inv
      cases hinv : w.inventory[name]? with
      | none => exact ⟨some e, .inl rfl⟩
      | some inv =>
        obtain ⟨_, he | ⟨r, hr, he⟩⟩ := hmono name inv hinv
        · exact ⟨some e, .inl (by rw [Option.getD_some, he])⟩
        · exact ⟨some e, .inr ⟨r, hr, by rw [Option.getD_some, he]⟩⟩
    | ok r =>
      have hr : Whole (reads name ++ ((Move.refreshed name (.ok r)).read name).toList) name w.claims
          (Inventory.join name w.claims r.inventory) := by
        refine ⟨none, .inr ⟨r, by simp [Move.read], rfl⟩⟩
      simp only [step, refreshed]
      split <;> exact hmono.insert hr
  | viewed claims =>
    intro k inv hinv
    simp only [step, viewed, Std.ExtTreeMap.getElem?_map, Option.map_eq_some_iff] at hinv
    obtain ⟨inv, hinv, rfl⟩ := hinv
    exact (hmono k inv hinv).join _
  | forget =>
    intro k inv hinv
    simp only [step, forget, Std.ExtTreeMap.getElem?_filter', Option.filter_eq_some_iff] at hinv
    exact hmono k inv hinv.1

theorem whole_run (fed : FedState) (moves : List Move) :
    AllWhole (fun k => moves.filterMap (Move.read k)) (run cfg c failThreshold (start cfg fed) moves) := by
  induction moves using List.reverseRecOn with
  | nil => exact fun k inv hinv => by simp [run, start] at hinv
  | append_singleton moves m ih =>
    have hreads : (fun k => (moves ++ [m]).filterMap (Move.read k)) =
        fun k => moves.filterMap (Move.read k) ++ (m.read k).toList := by
      funext k
      rw [List.filterMap_append]
      cases hm : m.read k <;> simp [hm]
    rw [hreads, run, List.foldl_append]
    exact whole_step ih m

end StormStorage.Poller
