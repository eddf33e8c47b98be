import StormStorage.Migrate
import StormStorage.Proof.Placement
import StormStorage.Proof.Registry
import StormStorage.Proof.Volumes.HeadLeg

/-!
# Tier migrations come to an end

A migration counts the domains of its pool once, when it starts; each step then
looks for a domain beside the legs that stay.

* `exists_target`: there is one, since fewer legs stay than were counted for;
* `Moves.invariant`: what a run of completed moves keeps;
* `migration_ends`: no step is blocked, each brings one leg more into the pool,
  and the run ends.
-/

namespace StormStorage.Migrate

open Await Orchestrate

/-! ## Runs -/

/-- The registry as it was: its nodes answer as before and carry the same
labels, and those without a leg of the volume, then and now, have as much room. -/
structure Steady (fed₀ : FedState) (vol₀ : DistVolume) (fed : FedState) (vol : DistVolume) : Prop where
  known : ∀ k : String, fed.nodes[k]? = none ↔ fed₀.nodes[k]? = none
  same : ∀ (k : String) n₀ n, fed₀.nodes[k]? = some n₀ → fed.nodes[k]? = some n → n.config = n₀.config ∧
    n.labels = n₀.labels ∧ n.status.healthy = n₀.status.healthy ∧
      ((∀ l ∈ vol₀.legs, l.node ≠ k) → (∀ l ∈ vol.legs, l.node ≠ k) → n.status.freeBytes = n₀.status.freeBytes)

/-- The legs outside the pool, by node. -/
def outside (fed : FedState) (pool : PoolConfig) (vol : DistVolume) : List String :=
  (vol.legs.map (·.node)).filter fun n => ¬ inPool fed pool n

/-- A volume after some completed moves, each the next step in a registry as it
was. -/
inductive Moves (cfg : Config) (pool : PoolConfig) (fed₀ : FedState) (vol : DistVolume) : Nat → DistVolume → Prop
  | start : Moves cfg pool fed₀ vol 0 vol
  | move {n : Nat} {u : DistVolume} {fed : FedState} {rep : Replacement} : Moves cfg pool fed₀ vol n u →
      Steady fed₀ vol fed u → nextStep cfg fed pool u = .move rep.from rep.leg.node → rep.leg.state = .created →
      Moves cfg pool fed₀ vol (n + 1) (swapLeg rep u)

/-- A leg outside the pool that is not the head's, and a node that takes it. -/
structure Taken (cfg : Config) (fed : FedState) (pool : PoolConfig) (vol : DistVolume) («from» «to» : String) :
    Prop where
  leg : ∃ l ∈ vol.legs, l.node = «from»
  outside : inPool fed pool «from» = false
  notHead : vol.head ≠ some «from»
  target : ∃ n, fed.nodes[«to»]? = some n ∧ n.status.healthy ∧ pool.selector.matches n.config ∧
    vol.sizeBytes ≤ n.status.freeBytes ∧ (∀ l ∈ vol.legs, l.node ≠ «to») ∧
      ∀ l ∈ vol.legs, l.node ≠ «from» → ∀ n', fed.nodes[l.node]? = some n' →
        domainAt n'.labels cfg.rungs pool.rung ≠ domainAt n.labels cfg.rungs pool.rung

/-! ## The pool -/

section

variable {cfg : Config} {pool : PoolConfig} {fed₀ fed : FedState} {vol₀ vol u : DistVolume} {k : Nat}

theorem Steady.node (h : Steady fed₀ vol₀ fed vol) {k : String} {n₀ : Node} (hn : fed₀.nodes[k]? = some n₀) :
    ∃ n, fed.nodes[k]? = some n := by
  cases he : fed.nodes[k]? with
  | some n => exact ⟨n, rfl⟩
  | none =>
    rw [(h.known k).mp he] at hn
    cases hn

theorem Steady.inPool (h : Steady fed₀ vol₀ fed vol) (pool : PoolConfig) (node : String) :
    inPool fed pool node = inPool fed₀ pool node := by
  unfold Migrate.inPool
  cases h₀ : fed₀.nodes[node]? with
  | none => rw [(h.known node).mpr h₀]
  | some n₀ =>
    obtain ⟨n, hn⟩ := h.node h₀
    rw [hn, Option.any_some, Option.any_some, (h.same node n₀ n h₀ hn).1]

theorem least_eq_none {names : List String} : least names = none ↔ names = [] := by
  have hperm := List.perm_insertionSort (· ≤ ·) names
  rw [least, List.head?_eq_none_iff]
  exact ⟨fun h => by rw [h] at hperm; exact hperm.symm.eq_nil, fun h => by rw [h]; rfl⟩

theorem mem_of_least {names : List String} {x : String} (h : least names = some x) : x ∈ names :=
  (List.perm_insertionSort (· ≤ ·) names).mem_iff.mp (List.mem_of_head? h)

/-- The nodes that a pool had room on when it was counted, in as many domains
as there are legs. -/
def Counted (cfg : Config) (pool : PoolConfig) (fed₀ : FedState) (size legs : Nat) : Prop :=
  ∃ ds : List String, ds.Nodup ∧ legs ≤ ds.length ∧ ∀ d ∈ ds, ∃ (k : String) (n : Node), fed₀.nodes[k]? = some n ∧
    n.status.healthy = true ∧ pool.selector.matches n.config = true ∧ size ≤ n.status.freeBytes ∧
      domainAt n.labels cfg.rungs pool.rung = d

/-- A list of fewer elements leaves one of the others out. -/
theorem exists_notMem {ds l : List String} (hd : ds.Nodup) (h : l.length < ds.length) : ∃ d ∈ ds, d ∉ l := by
  by_contra hno
  push Not at hno
  exact absurd (List.subperm_of_subset hd hno).length_le (by omega)

theorem length_stayingDomains_le («from» : String) (h : ∃ l ∈ vol.legs, l.node = «from») :
    (stayingDomains cfg fed vol «from»).length < vol.legs.length := by
  obtain ⟨l, hl, he⟩ := h
  have hlt : (vol.legs.filter (·.node ≠ «from»)).length < vol.legs.length := by
    refine List.length_filter_lt_length_iff_exists.mpr ⟨l, hl, ?_⟩
    simpa using he
  exact lt_of_le_of_lt (List.length_filterMap_le _ _) hlt

/-- Beside the legs that stay, the pool has a node with room in a domain of its
own: one of those counted, where no leg is. -/
theorem exists_target (hkeyed : Registry.Keyed fed₀.nodes)
    (hcount : Counted cfg pool fed₀ vol.sizeBytes k) (hk : vol.legs.length ≤ k) (hsteady : Steady fed₀ vol₀ fed vol)
    (hkept : ∀ l ∈ vol₀.legs, inPool fed₀ pool l.node = true → ∃ l' ∈ vol.legs, l'.node = l.node) {node : String}
    (hleg : ∃ l ∈ vol.legs, l.node = node) (hout : inPool fed pool node = false) :
    ∃ c ∈ (moveTargetCandidates cfg fed { vol with rung := pool.rung } node).filter (fun c => inPool fed pool c.name),
      vol.sizeBytes ≤ c.freeBytes := by
  obtain ⟨ds, hnodup, hlen, hds⟩ := hcount
  have hstay : (stayingDomains cfg fed { vol with rung := pool.rung } node).length < ds.length :=
    lt_of_lt_of_le (length_stayingDomains_le node hleg) (hk.trans hlen)
  obtain ⟨d, hd, hfree⟩ := exists_notMem hnodup hstay
  obtain ⟨key, n₀, hn₀, hup, hsel, hroom, hdom⟩ := hds d hd
  obtain ⟨n, hn⟩ := hsteady.node hn₀
  obtain ⟨hconfig, hlabels, hhealthy, hbytes⟩ := hsteady.same key n₀ n hn₀ hn
  have hname : n.config.name = key := by rw [hconfig, hkeyed key n₀ hn₀]
  have hin : inPool fed pool key = true := by
    rw [inPool, hn, Option.any_some, hconfig]
    exact hsel
  have hnoleg : ∀ l ∈ vol.legs, l.node ≠ key := by
    intro l hl he
    by_cases hfrom : l.node = node
    · rw [← hfrom, he, hin] at hout
      cases hout
    · refine hfree (List.mem_filterMap.mpr ⟨l, List.mem_filter.mpr ⟨hl, by simpa using hfrom⟩, ?_⟩)
      rw [he, hn, Option.map_some, hlabels, hdom]
  have hnoleg₀ : ∀ l ∈ vol₀.legs, l.node ≠ key := by
    intro l hl he
    obtain ⟨l', hl', he'⟩ := hkept l hl (by rw [← hsteady.inPool, he, hin])
    exact hnoleg l' hl' (he'.trans he)
  refine ⟨n.candidate, List.mem_filter.mpr ⟨List.mem_map.mpr ⟨n, List.mem_filter.mpr ⟨?_, ?_⟩, rfl⟩, ?_⟩, ?_⟩
  · exact List.mem_map.mpr ⟨(key, n), KeyMap.mem_toList.mpr hn, rfl⟩
  · refine decide_eq_true ⟨by rw [hhealthy, hup], fun l hl => by rw [hname]; exact hnoleg l hl, ?_⟩
    rw [hlabels, hdom]
    exact hfree
  · show inPool fed pool n.config.name = true
    rw [hname]
    exact hin
  · show vol.sizeBytes ≤ n.status.freeBytes
    rw [hbytes hnoleg₀ hnoleg]
    exact hroom

/-! ## One step -/

/-- What the step says of the legs. -/
theorem nextStep_cases (hkeyed : Registry.Keyed fed₀.nodes)
    (hcreated : ∀ l ∈ vol.legs, l.state = .created) (hcount : Counted cfg pool fed₀ vol.sizeBytes k)
    (hk : vol.legs.length ≤ k) (hsteady : Steady fed₀ vol₀ fed vol)
    (hkept : ∀ l ∈ vol₀.legs, inPool fed₀ pool l.node = true → ∃ l' ∈ vol.legs, l'.node = l.node) :
    (nextStep cfg fed pool vol = .done ∧ outside fed pool vol = []) ∨
    (nextStep cfg fed pool vol = .waitingHandover ∧ ∀ n ∈ outside fed pool vol, vol.head = some n) ∨
    ∃ «from» «to», nextStep cfg fed pool vol = .move «from» «to» ∧ Taken cfg fed pool vol «from» «to» := by
  have hnone : vol.legs.find? (·.state ≠ .created) = none := by
    refine List.find?_eq_none.mpr fun l hl => ?_
    simp [hcreated l hl]
  have hkeyed' : ∀ (n : String) x, fed.nodes[n]? = some x → x.config.name = n := by
    intro n x hx
    cases h₀ : fed₀.nodes[n]? with
    | none =>
      rw [(hsteady.known n).mpr h₀] at hx
      cases hx
    | some n₀ => rw [(hsteady.same n n₀ x h₀ hx).1, hkeyed n n₀ h₀]
  unfold nextStep
  rw [hnone]
  dsimp only
  by_cases hall : outside fed pool vol = []
  · exact .inl ⟨if_pos hall, hall⟩
  · right
    rw [show (if List.filter _ (List.map _ vol.legs) = [] then _ else _) = _ from if_neg hall]
    have hmem : ∀ {x}, x ∈ (outside fed pool vol).filter (fun n => some n ≠ vol.head) →
        (∃ l ∈ vol.legs, l.node = x) ∧ inPool fed pool x = false ∧ vol.head ≠ some x := by
      intro x hx
      obtain ⟨hx, hne⟩ := List.mem_filter.mp hx
      obtain ⟨hx, hnot⟩ := List.mem_filter.mp hx
      exact ⟨List.mem_map.mp hx, by simpa using hnot, Ne.symm (by simpa using hne)⟩
    have hfold : (vol.legs.map (·.node)).filter (fun n => ¬ inPool fed pool n) = outside fed pool vol := rfl
    rw [hfold]
    cases hleast : least ((outside fed pool vol).filter fun n => some n ≠ vol.head) with
    | none =>
      refine .inl ⟨rfl, fun n hn => ?_⟩
      by_contra hne
      have hin : n ∈ (outside fed pool vol).filter (fun n => some n ≠ vol.head) :=
        List.mem_filter.mpr ⟨hn, by simpa using Ne.symm hne⟩
      rw [least_eq_none.mp hleast] at hin
      cases hin
    | some node =>
      right
      obtain ⟨hleg, hout, hhead⟩ := hmem (mem_of_least hleast)
      obtain ⟨c, hc, hroom⟩ := exists_target hkeyed hcount hk hsteady hkept hleg hout
      have hfit : c ∈ fitting ((moveTargetCandidates cfg fed { vol with rung := pool.rung } node).filter
          fun c => inPool fed pool c.name) vol.sizeBytes := mem_fitting.mpr ⟨hc, hroom⟩
      have hok : ∃ picks, plan cfg.ioWeight cfg.rungs pool.rung ((moveTargetCandidates cfg fed
          { vol with rung := pool.rung } node).filter fun c => inPool fed pool c.name) 1 vol.sizeBytes = .ok picks :=
        plan_ok_iff.mpr ⟨⟨c, hc, hroom⟩, List.length_pos_of_mem (mem_domainsOf.mpr ⟨c, hfit, rfl⟩)⟩
      obtain ⟨picks, hplan⟩ := hok
      obtain ⟨ps, rfl, hps, -, hlen⟩ := plan_picks hplan
      obtain ⟨t, rfl⟩ := List.length_eq_one_iff.mp hlen
      obtain ⟨ht, hbytes⟩ := hps t (List.mem_singleton_self t)
      refine ⟨node, t.name, ?_, hleg, hout, hhead, ?_⟩
      · dsimp only
        rw [hplan]
        rfl
      · obtain ⟨ht, hin⟩ := List.mem_filter.mp ht
        obtain ⟨n, hn, rfl⟩ := List.mem_map.mp ht
        obtain ⟨hn, hcond⟩ := List.mem_filter.mp hn
        have hcond := of_decide_eq_true hcond
        obtain ⟨⟨key, n⟩, hkey, rfl⟩ := List.mem_map.mp hn
        have hget := KeyMap.mem_toList.mp hkey
        have hname : n.config.name = key := hkeyed' key n hget
        have hget' : fed.nodes[n.config.name]? = some n := hname.symm ▸ hget
        refine ⟨n, hget', hcond.1, ?_, hbytes, hcond.2.1, fun l hl hne n' hn' he => hcond.2.2 ?_⟩
        · have hin : (fed.nodes[n.config.name]?.any fun n => pool.selector.matches n.config) = true := hin
          rw [hget'] at hin
          exact hin
        · refine List.mem_filterMap.mpr ⟨l, List.mem_filter.mpr ⟨hl, by simpa using hne⟩, ?_⟩
          rw [hn', Option.map_some, he]

/-! ## Completed moves -/

theorem length_putLeg {node : String} {leg : Leg} {legs : List Leg} (h : ∃ l ∈ legs, l.node = node) :
    (putLeg node leg legs).length = legs.length := by
  induction legs with
  | nil => simp at h
  | cons x xs ih =>
    unfold putLeg
    split
    · rfl
    · rename_i hx
      obtain ⟨l, hl, he⟩ := h
      have hin : l ∈ xs := (List.mem_cons.mp hl).resolve_left fun hlx => hx (hlx ▸ he)
      rw [List.length_cons, List.length_cons, ih ⟨l, hin, he⟩]

/-- A leg outside the pool that is replaced by one inside. -/
theorem outside_putLeg {p : String → Bool} {node : String} {leg : Leg} {legs : List Leg}
    (h : ∃ l ∈ legs, l.node = node) (hout : p node = true) (hin : p leg.node = false) :
    (((putLeg node leg legs).map (·.node)).filter p).length + 1 = ((legs.map (·.node)).filter p).length := by
  induction legs with
  | nil => simp at h
  | cons x xs ih =>
    unfold putLeg
    split
    · rename_i hx
      rw [List.map_cons, List.map_cons, List.filter_cons_of_neg (by simp [hin]),
        List.filter_cons_of_pos (by rw [hx, hout])]
      rfl
    · rename_i hx
      obtain ⟨l, hl, he⟩ := h
      have hxs : l ∈ xs := (List.mem_cons.mp hl).resolve_left fun hlx => hx (hlx ▸ he)
      have hrest := ih ⟨l, hxs, he⟩
      rw [List.map_cons, List.map_cons, List.filter_cons, List.filter_cons]
      split
      · rw [List.length_cons, List.length_cons]
        omega
      · exact hrest

/-- What a run of completed moves keeps. -/
structure Underway (pool : PoolConfig) (fed₀ : FedState) (vol : DistVolume) (n : Nat) (u : DistVolume) : Prop where
  created : ∀ l ∈ u.legs, l.state = .created
  legs : u.legs.length ≤ vol.legs.length
  size : u.sizeBytes = vol.sizeBytes
  kept : ∀ l ∈ vol.legs, inPool fed₀ pool l.node = true → ∃ l' ∈ u.legs, l'.node = l.node
  count : n + (outside fed₀ pool u).length ≤ (outside fed₀ pool vol).length

theorem Taken.inPool {«from» «to» : String} (h : Taken cfg fed pool vol «from» «to») : inPool fed pool «to» = true := by
  obtain ⟨n, hn, -, hsel, -⟩ := h.target
  rw [Migrate.inPool, hn, Option.any_some]
  exact hsel

theorem Steady.outside (h : Steady fed₀ vol₀ fed vol) (pool : PoolConfig) (v : DistVolume) :
    Migrate.outside fed pool v = Migrate.outside fed₀ pool v := by
  unfold Migrate.outside
  simp only [h.inPool]

/-- A completed move brings one leg more into the pool. -/
theorem Taken.swap {rep : Replacement} (h : Taken cfg fed pool vol rep.from rep.leg.node) :
    (Migrate.outside fed pool (swapLeg rep vol)).length + 1 = (Migrate.outside fed pool vol).length :=
  outside_putLeg h.leg (by simp [h.outside]) (by simp [h.inPool])

theorem Moves.invariant (hkeyed : Registry.Keyed fed₀.nodes)
    (hcreated : ∀ l ∈ vol.legs, l.state = .created) (hcount : Counted cfg pool fed₀ vol.sizeBytes vol.legs.length)
    {n : Nat} (h : Moves cfg pool fed₀ vol n u) : Underway pool fed₀ vol n u := by
  induction h with
  | start => exact ⟨hcreated, le_rfl, rfl, fun l hl _ => ⟨l, hl, rfl⟩, by omega⟩
  | @move n u fed rep _ hsteady hstep hleg ih =>
    have hcount' : Counted cfg pool fed₀ u.sizeBytes vol.legs.length := by rw [ih.size]; exact hcount
    have htaken : Taken cfg fed pool u rep.from rep.leg.node := by
      rcases nextStep_cases hkeyed ih.created hcount' ih.legs hsteady ih.kept with ⟨he, -⟩ | ⟨he, -⟩ | ⟨x, y, he, ht⟩
      · rw [hstep] at he
        cases he
      · rw [hstep] at he
        cases he
      · rw [hstep] at he
        cases he
        exact ht
    refine ⟨fun l hl => ?_, ?_, ih.size, fun l hl hin => ?_, ?_⟩
    · rcases mem_putLeg hl with rfl | hl
      · exact hleg
      · exact ih.created l hl
    · show (putLeg rep.from _ u.legs).length ≤ _
      rw [length_putLeg htaken.leg]
      exact ih.legs
    · have hne : l.node ≠ rep.from := by
        intro he
        have hno := htaken.outside
        rw [hsteady.inPool, ← he, hin] at hno
        cases hno
      exact putLeg_keeps hne (ih.kept l hl hin)
    · have hswap := htaken.swap
      rw [hsteady.outside, hsteady.outside] at hswap
      have := ih.count
      omega

/-! ## Migrations -/

/-- A migration that goes on until only the head's leg is left to move, or
none. -/
structure Ends (cfg : Config) (pool : PoolConfig) (fed₀ : FedState) (vol : DistVolume) : Prop where
  /-- After any completed moves the next step is not blocked, and a leg that is
  moved goes from outside the pool to a node that takes it. -/
  step : ∀ n u fed, Moves cfg pool fed₀ vol n u → Steady fed₀ vol fed u →
    (nextStep cfg fed pool u = .done ∧ ∀ l ∈ u.legs, inPool fed pool l.node) ∨
    (nextStep cfg fed pool u = .waitingHandover ∧ ∀ l ∈ u.legs, ¬ inPool fed pool l.node → u.head = some l.node) ∨
    ∃ «from» «to», nextStep cfg fed pool u = .move «from» «to» ∧ Taken cfg fed pool u «from» «to»
  /-- Each completed move leaves one leg fewer outside. -/
  falls : ∀ n u fed rep, Moves cfg pool fed₀ vol n u → Steady fed₀ vol fed u →
    nextStep cfg fed pool u = .move rep.from rep.leg.node →
    (outside fed pool (swapLeg rep u)).length < (outside fed pool u).length
  /-- No run has more moves than there were legs outside. -/
  bounded : ∀ n u, Moves cfg pool fed₀ vol n u → n ≤ (outside fed₀ pool vol).length

theorem ends_of_counted (hkeyed : Registry.Keyed fed₀.nodes)
    (hcreated : ∀ l ∈ vol.legs, l.state = .created) (hcount : Counted cfg pool fed₀ vol.sizeBytes vol.legs.length) :
    Ends cfg pool fed₀ vol := by
  have hcases : ∀ {n u fed}, Moves cfg pool fed₀ vol n u → Steady fed₀ vol fed u →
      (nextStep cfg fed pool u = .done ∧ outside fed pool u = []) ∨
      (nextStep cfg fed pool u = .waitingHandover ∧ ∀ n ∈ outside fed pool u, u.head = some n) ∨
      ∃ «from» «to», nextStep cfg fed pool u = .move «from» «to» ∧ Taken cfg fed pool u «from» «to» := by
    intro n u fed hm hs
    have hu := hm.invariant hkeyed hcreated hcount
    exact nextStep_cases hkeyed hu.created (hu.size ▸ hcount) hu.legs hs hu.kept
  refine ⟨fun n u fed hm hs => ?_, fun n u fed rep hm hs hstep => ?_, fun n u hm => ?_⟩
  · rcases hcases hm hs with ⟨he, hall⟩ | ⟨he, hhead⟩ | h
    · refine .inl ⟨he, fun l hl => ?_⟩
      by_contra hno
      have hin : l.node ∈ outside fed pool u :=
        List.mem_filter.mpr ⟨List.mem_map.mpr ⟨l, hl, rfl⟩, by simpa using hno⟩
      rw [hall] at hin
      cases hin
    · exact .inr (.inl ⟨he, fun l hl hno => hhead _
        (List.mem_filter.mpr ⟨List.mem_map.mpr ⟨l, hl, rfl⟩, by simpa using hno⟩)⟩)
    · exact .inr (.inr h)
  · rcases hcases hm hs with ⟨he, -⟩ | ⟨he, -⟩ | ⟨x, y, he, ht⟩
    · rw [hstep] at he
      cases he
    · rw [hstep] at he
      cases he
    · rw [hstep] at he
      cases he
      have := ht.swap
      omega
  · have := (hm.invariant hkeyed hcreated hcount).count
    omega

end

/-- What a start has checked. -/
theorem startable_some {cfg : Config} {fed : FedState} {name «to» : String} {now : SystemTime} {m : Migration}
    (h : startable cfg fed name «to» now = .ok (some m)) : ∃ pool v, cfg.pool «to» = some pool ∧
      fed.volumes[name]? = some v ∧ v.assembly = .assembled ∧
        ∃ picks, plan cfg.ioWeight cfg.rungs pool.rung (((fed.nodes.toList.map Prod.snd).filter fun n =>
          n.status.healthy ∧ pool.selector.matches n.config).map Node.candidate) v.legs.length v.sizeBytes = .ok picks := by
  unfold startable at h
  dsimp only at h
  split at h
  case h_2 => cases h
  rename_i pool hp
  obtain ⟨_, hpool, h⟩ := check_bind.mp h
  cases hpool
  obtain ⟨v, hv, h⟩ := check_bind.mp h
  have hvol := volumeIn_eq.mp hv
  refine ⟨pool, v, hp, hvol, ?_⟩
  split at h
  · split at h <;> cases h
  split at h
  case h_2 => cases h
  case h_3 => cases h
  rename_i ha
  refine ⟨ha, ?_⟩
  split at h
  · cases h
  split at h
  · cases h
  split at h
  · cases h
  rename_i picks hplan
  exact ⟨picks, hplan⟩

theorem counted_of_plan {cfg : Config} {fed : FedState} {pool : PoolConfig} {legs size : Nat} {picks : List String}
    (h : plan cfg.ioWeight cfg.rungs pool.rung (((fed.nodes.toList.map Prod.snd).filter fun n =>
      n.status.healthy ∧ pool.selector.matches n.config).map Node.candidate) legs size = .ok picks) :
    Counted cfg pool fed size legs := by
  obtain ⟨-, hlen⟩ := plan_ok_iff.mp ⟨picks, h⟩
  refine ⟨_, List.nodup_dedup _, hlen, fun d hd => ?_⟩
  obtain ⟨c, hc, rfl⟩ := mem_domainsOf.mp hd
  obtain ⟨hc, hroom⟩ := mem_fitting.mp hc
  obtain ⟨n, hn, rfl⟩ := List.mem_map.mp hc
  obtain ⟨hn, hcond⟩ := List.mem_filter.mp hn
  obtain ⟨hup, hsel⟩ := of_decide_eq_true hcond
  obtain ⟨⟨key, n⟩, hkey, rfl⟩ := List.mem_map.mp hn
  exact ⟨key, n, KeyMap.mem_toList.mp hkey, hup, hsel, hroom, rfl⟩

/-- In every reachable state a migration that may start comes to its end, in a
registry that stays as it was. -/
theorem migration_ends {cfg : Config} {nodes : KeyMap Node} {p : Pool Reply AppState Fault}
    (h : (operations cfg fun _ => True).Run (fun _ _ => True) ⟨.withNodes nodes, []⟩ p)
    (hkeyed : Registry.Keyed p.state.fed.nodes) {name «to» : String}
    {now : SystemTime} {m : Migration} (hs : startable cfg p.state.fed name «to» now = .ok (some m)) :
    ∃ pool v, cfg.pool «to» = some pool ∧ p.state.fed.volumes[name]? = some v ∧ Ends cfg pool p.state.fed v := by
  obtain ⟨pool, v, hpool, hv, ha, picks, hplan⟩ := startable_some hs
  have hall := rule_told.everywhere (h.mono fun _ _ _ _ _ _ => trivial) fun n v hn => by
    simp [AppState.withNodes] at hn
  have htold := hall name v hv
  have hnotlost : ¬ lostLeg v.legs = true := fun hl => by
    have := (htold.degraded (.inl ha)).mpr hl
    rw [ha] at this
    cases this
  have hcreated : ∀ l ∈ v.legs, l.state = .created := by
    have := (allCreated_eq htold.unfailed).mpr hnotlost
    simpa [Head.allCreated] using this
  exact ⟨pool, v, hpool, hv, ends_of_counted hkeyed hcreated (counted_of_plan hplan)⟩

/-- A pair on `a` and `b`, and a pool over two nodes more. -/
def fastConfig : Config := { plainConfig with pools := [{ name := "fast", selector := { nodes := ["c", "d"] } }] }

theorem migration_ends_small : ∃ p m pool v,
    (operations fastConfig fun _ => True).Run (fun _ _ => True) (startWith ["a", "b", "c", "d"]) p ∧
      startable fastConfig p.state.fed "v" "fast" 0 = .ok (some m) ∧ Ends fastConfig pool p.state.fed v := by
  have hr : (operations fastConfig fun _ => True).Run (fun _ _ => True) (startWith ["a", "b", "c", "d"])
      ((operations fastConfig fun _ => True).final (fun _ _ => true) (startWith ["a", "b", "c", "d"])
        (.start ⟨createPair, trivial⟩ :: List.replicate 22 (.run 0 plainReply))) :=
    System.run_final (fun _ _ _ => trivial) (by decide +kernel)
  set p := (operations fastConfig fun _ => True).final (fun _ _ => true) (startWith ["a", "b", "c", "d"])
    (.start ⟨createPair, trivial⟩ :: List.replicate 22 (.run 0 plainReply)) with hp
  have hnodes : (p.state.fed.nodes.toList.all fun x => x.2.config.name = x.1) = true := by
    rw [hp]
    decide +kernel
  have hstart : (match startable fastConfig p.state.fed "v" "fast" 0 with
      | .ok m => m.isSome
      | .error _ => false) = true := by
    rw [hp]
    decide +kernel
  split at hstart
  · rename_i m hm
    obtain ⟨m, rfl⟩ := Option.isSome_iff_exists.mp hstart
    obtain ⟨pool, v, -, -, hends⟩ := migration_ends hr
      (fun n x hx => of_decide_eq_true (List.all_eq_true.mp hnodes _ (KeyMap.mem_toList.mpr hx))) hm
    exact ⟨p, m, pool, v, hr, hm, hends⟩
  · cases hstart

end StormStorage.Migrate
