import StormStorage.Migrate
import StormStorage.Proof.Rebalance
import StormStorage.Proof.Volumes.Apart

/-!
# Room for a replacement's leg

A replacement makes its leg with the `leg_bytes` of the record that it reads, an
expand's target while one is in flight or half done. A node that it picks itself
has room for that. Rebalancing and tier migration pick a node for the size of the
volume as they read it before, and a caller names any node.

* `chooseTarget_room`, `rebalance_room`, `nextStep_room`: what each is chosen for;
* `replacement_room`: where the leg has the room it was chosen for.
-/

namespace StormStorage.Orchestrate

open Await

/-! ## Who picks the node -/

/-- The node in the registry has this many bytes free. -/
def HasFree (fed : FedState) (node : String) (bytes : Nat) : Prop :=
  ∃ n, fed.nodes[node]? = some n ∧ bytes ≤ n.status.freeBytes

/-- Who asks for a replacement of the volume's leg on `from`, where the node was
picked if that was before, and the node asked for. -/
inductive Asked (cfg : Config) (name «from» : String) : Option FedState → Option String → Prop
  /-- A re-leg, or a move or prestage without a node. -/
  | unnamed : Asked cfg name «from» none none
  /-- A move or prestage to a node. -/
  | caller (node : String) : Asked cfg name «from» none (some node)
  | rebalance {fed₀ : FedState} {busy : String → Bool} {now : SystemTime} {m : Rebalance.Move} :
      m ∈ Rebalance.plan cfg fed₀ busy now → m.volume = name → m.from = «from» →
        Asked cfg name «from» (some fed₀) (some m.to)
  | migration {fed₀ : FedState} {busy : String → Bool} {now : SystemTime} {d : Migrate.Due} {target : String} :
      d ∈ Migrate.due cfg fed₀ busy now → d.name = name → d.step = .move «from» target →
        Asked cfg name «from» (some fed₀) (some target)

/-- What is asked for goes with the bytes that the leg is made with. -/
def Suits (name : String) (fed : FedState) (bytes : Nat) : Option FedState → Option String → Prop
  | none, none => True
  | none, some node => HasFree fed node bytes
  | some fed₀, _ => ∀ v₀, fed₀.volumes[name]? = some v₀ → bytes ≤ v₀.sizeBytes

variable {cfg : Config} {fed fed₀ : FedState} {name «from» target : String} {vol : DistVolume}

/-! ## What each is picked for -/

theorem hasFree_candidate (hkeyed : Registry.Keyed fed.nodes) {c : Candidate} {bytes : Nat}
    (h : c ∈ moveTargetCandidates cfg fed vol «from») (hb : bytes ≤ c.freeBytes) : HasFree fed c.name bytes := by
  obtain ⟨n, hn, rfl⟩ := List.mem_map.mp h
  obtain ⟨⟨k, n⟩, hk, rfl⟩ := List.mem_map.mp (List.mem_filter.mp hn).1
  have hget := KeyMap.mem_toList.mp hk
  have hname : n.config.name = k := hkeyed k n hget
  exact ⟨n, hname.symm ▸ hget, hb⟩

/-- The one node that a plan picks has room. -/
theorem hasFree_plan (hkeyed : Registry.Keyed fed.nodes) {cands : List Candidate} {rung : String} {bytes : Nat}
    {picks : List String} (hc : ∀ c ∈ cands, c ∈ moveTargetCandidates cfg fed vol «from»)
    (h : plan cfg.ioWeight cfg.rungs rung cands 1 bytes = .ok picks) : HasFree fed (picks.head?.getD "") bytes := by
  obtain ⟨ps, rfl, hps, -, hlen⟩ := plan_picks h
  obtain ⟨c, rfl⟩ := List.length_eq_one_iff.mp hlen
  obtain ⟨hin, hfits⟩ := hps c (List.mem_singleton_self c)
  exact hasFree_candidate hkeyed (hc c hin) hfits

theorem chooseTarget_room (hkeyed : Registry.Keyed fed.nodes) (h : chooseTarget cfg fed vol «from» none = .ok target) :
    HasFree fed target vol.legBytes := by
  unfold chooseTarget at h
  dsimp only at h
  split at h
  · rename_i picks hplan
    cases h
    exact hasFree_plan hkeyed (fun _ hc => hc) hplan
  · cases h

theorem rebalance_room (hnamed : ∀ (n : String) v, fed.volumes[n]? = some v → v.name = n)
    (hkeyed : Registry.Keyed fed.nodes) {busy : String → Bool} {now : SystemTime} {m : Rebalance.Move}
    (h : m ∈ Rebalance.plan cfg fed busy now) :
    ∃ v, fed.volumes[m.volume]? = some v ∧ HasFree fed m.to v.sizeBytes := by
  obtain ⟨pool, -, hm⟩ := List.mem_flatMap.mp h
  obtain ⟨high, low, hp⟩ := Rebalance.planned_of_mem hnamed hkeyed hm
  obtain ⟨p, hmoves, hinv⟩ := hp.pass
  obtain ⟨src, -, v, hv, c, hc, hfits, rfl⟩ := hinv.allowed m (hmoves ▸ hm)
  obtain ⟨hin, -⟩ := Rebalance.mem_movable hv
  obtain ⟨hcand, -⟩ := Rebalance.mem_roomy hkeyed hc
  exact ⟨v, (Rebalance.bytesOf_eq hnamed hin).1, hasFree_candidate hkeyed hcand hfits⟩

theorem nextStep_room (hkeyed : Registry.Keyed fed.nodes) {pool : PoolConfig}
    (h : Migrate.nextStep cfg fed pool vol = .move «from» target) : HasFree fed target vol.sizeBytes := by
  unfold Migrate.nextStep at h
  split at h
  · cases h
  dsimp only at h
  split at h
  · cases h
  split at h
  · cases h
  split at h
  · rename_i picks hplan
    cases h
    exact hasFree_plan hkeyed (fun c hc => (List.mem_filter.mp hc).1) hplan
  · cases h

theorem due_room (hnamed : ∀ (n : String) v, fed.volumes[n]? = some v → v.name = n)
    (hkeyed : Registry.Keyed fed.nodes) {busy : String → Bool} {now : SystemTime} {d : Migrate.Due}
    (h : d ∈ Migrate.due cfg fed busy now) (hs : d.step = .move «from» target) :
    ∃ v, fed.volumes[d.name]? = some v ∧ HasFree fed target v.sizeBytes := by
  obtain ⟨v, hv, hd⟩ := List.mem_filterMap.mp h
  obtain ⟨hget, -⟩ := Rebalance.bytesOf_eq hnamed hv
  obtain ⟨m, -, hd⟩ := Option.bind_eq_some_iff.mp hd
  split at hd
  · cases hd
    dsimp only at hs
    split at hs
    · exact ⟨v, hget, nextStep_room hkeyed hs⟩
    · cases hs
  · cases hd

/-! ## The leg -/

/-- What the new leg's engine is asked for: the `leg_bytes` of the record read. -/
def Replaceable.bytes (p : Replaceable) : Nat := p.vol.legBytes

theorem target_named {node : String} {p : Replaceable}
    (h : chooseTarget cfg fed p.vol «from» (some node) = .ok p.target) : p.target = node := by
  unfold chooseTarget at h
  dsimp only at h
  split at h
  · cases h
  split at h
  · cases h
  split at h
  · cases h
  · exact (Except.ok.inj h).symm

/-- A leg that is made with no more than was asked for goes to a node that was
picked with the room for it, and where the node was not picked before, only such a
leg does. -/
theorem replacement_room {read : Option FedState} {«to» : Option String} (ha : Asked cfg name «from» read «to»)
    (hkeyed : Registry.Keyed fed.nodes) (hread : ∀ fed₀, read = some fed₀ →
      Registry.Keyed fed₀.nodes ∧ ∀ (n : String) v, fed₀.volumes[n]? = some v → v.name = n)
    {p : Replaceable} (hp : replaceable cfg name «from» «to» fed = .ok p) {v : DistVolume}
    (hv : fed.volumes[name]? = some v) :
    (Suits name fed v.legBytes read «to» → HasFree (read.getD fed) p.target p.bytes) ∧
      (read = none → HasFree fed p.target p.bytes → Suits name fed v.legBytes read «to») := by
  obtain ⟨hvol, htarget, -, -⟩ := replaceable_ok hp
  rw [hv] at hvol
  obtain rfl := Option.some.inj hvol
  have hpicked : ∀ {fed₀ : FedState} {node : String} {v₀ : DistVolume}, fed₀.volumes[name]? = some v₀ →
      HasFree fed₀ node v₀.sizeBytes → p.target = node →
        (∀ v₀, fed₀.volumes[name]? = some v₀ → p.vol.legBytes ≤ v₀.sizeBytes) → HasFree fed₀ p.target p.bytes := by
    rintro fed₀ node v₀ hv₀ ⟨n, hn, hfree⟩ rfl hsize
    exact ⟨n, hn, (hsize v₀ hv₀).trans hfree⟩
  cases ha with
  | unnamed => exact ⟨fun _ => chooseTarget_room hkeyed htarget, fun _ _ => trivial⟩
  | caller node =>
    have hnode := target_named htarget
    exact ⟨fun hs => hnode ▸ hs, fun _ hfree => hnode ▸ hfree⟩
  | rebalance hm hvolume _ =>
    obtain ⟨hkeyed₀, hnamed₀⟩ := hread _ rfl
    obtain ⟨v₀, hv₀, hfree⟩ := rebalance_room hnamed₀ hkeyed₀ hm
    exact ⟨hpicked (hvolume ▸ hv₀) hfree (target_named htarget), fun he => nomatch he⟩
  | migration hd hname hstep =>
    obtain ⟨hkeyed₀, hnamed₀⟩ := hread _ rfl
    obtain ⟨v₀, hv₀, hfree⟩ := due_room hnamed₀ hkeyed₀ hd hstep
    exact ⟨hpicked (hname ▸ hv₀) hfree (target_named htarget), fun he => nomatch he⟩

/-! ## A small pool -/

/-- A leg of `v` is on the full node `a`, and the pool's empty one is `c`. -/
def smallPool : Config := Rebalance.configOf [Rebalance.poolOver "p" ["a", "c"]]

/-- The same, where an expand of the volume to this size is half done. -/
def halfExpanded («to» : Nat) : FedState := Rebalance.fullNodes.modifyVolume "v" fun v =>
  { v with expanding := some { toBytes := «to», startedAt := 0 } }

def offFull : Rebalance.Move := { pool := "p", volume := "v", «from» := "a", «to» := "c" }

theorem replacement_room_small : ∃ p, replaceable smallPool "v" "a" (some "c") Rebalance.fullNodes = .ok p ∧
    HasFree Rebalance.fullNodes p.target p.bytes := by
  have hvols : (Rebalance.fullNodes.volumes.toList.all fun x => x.2.name = x.1) = true := by decide +kernel
  have hnodes : (Rebalance.fullNodes.nodes.toList.all fun x => x.2.config.name = x.1) = true := by decide +kernel
  have hkeyed : Registry.Keyed Rebalance.fullNodes.nodes := fun n x hx =>
    of_decide_eq_true (List.all_eq_true.mp hnodes _ (KeyMap.mem_toList.mpr hx))
  have hplan : Rebalance.plan smallPool Rebalance.fullNodes (fun _ => false) 0 = [offFull] := by decide +kernel
  have hasked : Asked smallPool "v" "a" (some Rebalance.fullNodes) (some offFull.to) :=
    .rebalance (by rw [hplan]; exact List.mem_singleton_self _) rfl rfl
  have hok : (replaceable smallPool "v" "a" (some "c") Rebalance.fullNodes).isOk = true := by decide +kernel
  have hv : Rebalance.fullNodes.volumes["v"]? = some (Rebalance.pairOf "v" "p" "h" "a" 45) := by decide +kernel
  cases hp : replaceable smallPool "v" "a" (some "c") Rebalance.fullNodes with
  | error e =>
    rw [hp] at hok
    cases hok
  | ok p =>
    refine ⟨p, rfl, (replacement_room hasked hkeyed (fun _ he => ?_) hp hv).1 fun v₀ hv₀ => ?_⟩
    · cases he
      exact ⟨hkeyed, fun n v hv => of_decide_eq_true (List.all_eq_true.mp hvols _ (KeyMap.mem_toList.mpr hv))⟩
    · rw [hv] at hv₀
      cases hv₀
      exact le_rfl

/-- With the expand half done, rebalancing picks a node for the old size, and the
leg is made with the new one. -/
theorem replacement_short : ¬ ∀ cfg name «from» read «to» fed p, Asked cfg name «from» read «to» →
    replaceable cfg name «from» «to» fed = .ok p → HasFree (read.getD fed) p.target p.bytes := by
  intro h
  have hplan : Rebalance.plan smallPool (halfExpanded 95) (fun _ => false) 0 = [offFull] := by decide +kernel
  have hasked : Asked smallPool "v" "a" (some (halfExpanded 95)) (some offFull.to) :=
    .rebalance (by rw [hplan]; exact List.mem_singleton_self _) rfl rfl
  have hok : (replaceable smallPool "v" "a" (some "c") (halfExpanded 95)).toOption.any
      (fun p => p.target = "c" ∧ p.bytes = 95) = true := by
    decide +kernel
  cases hp : replaceable smallPool "v" "a" (some "c") (halfExpanded 95) with
  | error e =>
    rw [hp] at hok
    cases hok
  | ok p =>
    rw [hp] at hok
    have hok := of_decide_eq_true hok
    obtain ⟨n, hn, hfree⟩ := h smallPool "v" "a" _ _ (halfExpanded 95) p hasked hp
    have hc : (halfExpanded 95).nodes["c"]? = some (Rebalance.hundred "c" 90) := by decide +kernel
    rw [hok.1] at hn
    rw [Option.getD_some, hc] at hn
    cases hn
    rw [hok.2] at hfree
    exact absurd hfree (by decide)

end StormStorage.Orchestrate
