import Mathlib.Algebra.Order.BigOperators.Group.List
import Mathlib.Tactic.Linarith
import Mathlib.Tactic.Ring
import StormStorage.Proof.Registry
import StormStorage.Rebalance

/-!
# What a rebalance proposes

* `Pass.Inv`: what holds of the pass over a pool so far, `Pass.Inv.propose`
  for one volume more;
* `planPool_spec`: the moves of one pool fit what they promise themselves;
* `plan_balanced`: all moves together do when the pools keep out of each
  other's way (`Separate`).
-/

namespace StormStorage.Rebalance

open Await Orchestrate

/-! ## Bytes -/

def usedBytes (n : Node) : Nat := n.status.totalBytes - min n.status.freeBytes n.status.totalBytes

def bytesOf (fed : FedState) (name : String) : Nat := (fed.volumes[name]?.map (·.sizeBytes)).getD 0

/-- The bytes that the moves bring to a node. -/
def promisedTo (fed : FedState) (moves : List Move) (node : String) : Nat :=
  ((moves.filter (·.to = node)).map fun m => bytesOf fed m.volume).sum

def inFlight (fed : FedState) (pool : PoolConfig) : Nat :=
  ((fed.volumes.toList.map Prod.snd).filter fun v => v.pool = some pool.name ∧ v.replacing.isSome).length

theorem promisedTo_append (fed : FedState) (ms ms' : List Move) (node : String) :
    promisedTo fed (ms ++ ms') node = promisedTo fed ms node + promisedTo fed ms' node := by
  simp [promisedTo, List.filter_append]

theorem promisedTo_concat (fed : FedState) (ms : List Move) (m : Move) (node : String) :
    promisedTo fed (ms ++ [m]) node = promisedTo fed ms node + if m.to = node then bytesOf fed m.volume else 0 := by
  rw [promisedTo_append]
  congr 1
  by_cases h : m.to = node <;> simp [promisedTo, h]

/-! ## The pass over one pool -/

section

variable {cfg : Config} {fed : FedState} {pool : PoolConfig} {high low : ℚ} {busy : String → Bool} {now : SystemTime}
  {k : Nat}

/-- A volume with a leg on a full node, and a node the leg may go to. -/
def Allowed (cfg : Config) (fed : FedState) (pool : PoolConfig) (high low : ℚ) (busy : String → Bool)
    (now : SystemTime) (m : Move) : Prop :=
  ∃ src ∈ sources high (inPool fed pool), ∃ v ∈ movable fed pool busy now src.config.name,
    ∃ c ∈ roomy cfg fed high low (inPool fed pool) ∅ v src.config.name, v.sizeBytes ≤ c.freeBytes ∧
      m = { pool := pool.name, volume := v.name, «from» := src.config.name, «to» := c.name }

/-- The node stays at or under `high` with what the moves bring. -/
def Under (fed : FedState) (high : ℚ) (moves : List Move) (node : String) : Prop :=
  ∃ n, fed.nodes[node]? = some n ∧ (usedBytes n + promisedTo fed moves node : ℚ) ≤ high * n.status.totalBytes

/-- What holds of a pass that may propose `k` moves. -/
structure Pass.Inv (cfg : Config) (fed : FedState) (pool : PoolConfig) (high low : ℚ) (busy : String → Bool)
    (now : SystemTime) (k : Nat) (p : Pass) : Prop where
  room : p.room + p.moves.length = k
  promised : ∀ node : String, p.promised[node]?.getD 0 = promisedTo fed p.moves node
  once : (p.moves.map (·.volume)).Nodup
  allowed : ∀ m ∈ p.moves, Allowed cfg fed pool high low busy now m
  under : ∀ m ∈ p.moves, Under fed high p.moves m.to

theorem mem_movable {src : String} {v : DistVolume} (h : v ∈ movable fed pool busy now src) :
    v ∈ fed.volumes.toList.map Prod.snd ∧ v.pool = some pool.name ∧ v.head ≠ some src := by
  have hv := (List.perm_insertionSort _ _).mem_iff.mp h
  obtain ⟨hin, hc⟩ := List.mem_filter.mp hv
  have hc := of_decide_eq_true hc
  exact ⟨hin, hc.1, hc.2.2.2.2.2.2.2.2.1⟩

theorem bytesOf_eq (hnamed : ∀ (n : String) v, fed.volumes[n]? = some v → v.name = n) {v : DistVolume}
    (h : v ∈ fed.volumes.toList.map Prod.snd) : fed.volumes[v.name]? = some v ∧ bytesOf fed v.name = v.sizeBytes := by
  obtain ⟨⟨n, v⟩, hn, rfl⟩ := List.mem_map.mp h
  have hv := KeyMap.mem_toList.mp hn
  have hname : v.name = n := hnamed n v hv
  have hget : fed.volumes[v.name]? = some v := hname.symm ▸ hv
  exact ⟨hget, by rw [bytesOf, hget]; rfl⟩

/-- A node that a leg may go to, with what is promised there so far. -/
structure Roomy (fed : FedState) (members : List Node) (high low : ℚ) (extra : Nat) (vol : DistVolume) (c : Candidate)
    (n : Node) : Prop where
  node : fed.nodes[c.name]? = some n
  candidate : n.candidate = c
  member : ∃ m ∈ members, m.config.name = c.name
  under : (usedBytes n + extra + vol.sizeBytes : ℚ) ≤ high * n.status.totalBytes

theorem mem_roomy (hkeyed : Registry.Keyed fed.nodes) {members : List Node}
    {promised : KeyMap Nat} {vol : DistVolume} {src : String} {c : Candidate}
    (h : c ∈ roomy cfg fed high low members promised vol src) :
    c ∈ moveTargetCandidates cfg fed vol src ∧
      ∃ n, Roomy fed members high low (promised[c.name]?.getD 0) vol c n := by
  obtain ⟨hin, hc⟩ := List.mem_filter.mp h
  have hc := of_decide_eq_true hc
  obtain ⟨hm, htotal, -, hafter⟩ := hc
  refine ⟨hin, ?_⟩
  obtain ⟨n, hn, rfl⟩ := List.mem_map.mp hin
  obtain ⟨⟨key, n⟩, hk, rfl⟩ := List.mem_map.mp (List.mem_filter.mp hn).1
  have hget := KeyMap.mem_toList.mp hk
  have hname : n.config.name = key := hkeyed key n hget
  obtain ⟨m, hmem, he⟩ := List.any_eq_true.mp hm
  refine ⟨n, hname.symm ▸ hget, rfl, ⟨m, hmem, of_decide_eq_true he⟩, ?_⟩
  have hpos : (0 : ℚ) < n.candidate.totalBytes := by exact_mod_cast htotal
  have hle := (div_le_iff₀ hpos).mp hafter
  have hcast : ((n.candidate.totalBytes - min n.candidate.freeBytes n.candidate.totalBytes +
      (promised[n.candidate.name]?.getD 0 + vol.sizeBytes) : Nat) : ℚ) =
      usedBytes n + (promised[n.candidate.name]?.getD 0 : Nat) + vol.sizeBytes := by
    show ((usedBytes n + (_ + _) : Nat) : ℚ) = _
    push_cast
    ring
  rw [hcast] at hle
  exact hle

/-- What is promised only shrinks where a leg may go. -/
theorem roomy_mono {members : List Node} {promised : KeyMap Nat} {vol : DistVolume} {src : String} {c : Candidate}
    (h : c ∈ roomy cfg fed high low members promised vol src) : c ∈ roomy cfg fed high low members ∅ vol src := by
  obtain ⟨hin, hc⟩ := List.mem_filter.mp h
  have hc := of_decide_eq_true hc
  obtain ⟨hm, htotal, hlow, hafter⟩ := hc
  refine List.mem_filter.mpr ⟨hin, decide_eq_true ⟨hm, htotal, hlow, le_trans ?_ hafter⟩⟩
  have hpos : (0 : ℚ) < c.totalBytes := by exact_mod_cast htotal
  refine (div_le_div_iff_of_pos_right hpos).mpr ?_
  have hle : (∅ : KeyMap Nat)[c.name]?.getD 0 ≤ promised[c.name]?.getD 0 := by simp
  exact_mod_cast Nat.add_le_add_left (Nat.add_le_add_right hle _) _

theorem Under.mono {moves moves' : List Move} {node : String} (h : Under fed high moves node)
    (he : promisedTo fed moves' node = promisedTo fed moves node) : Under fed high moves' node := by
  obtain ⟨n, hn, hle⟩ := h
  exact ⟨n, hn, by rw [he]; exact hle⟩

/-- One volume more keeps all of it. -/
theorem Pass.Inv.propose (hnamed : ∀ (n : String) v, fed.volumes[n]? = some v → v.name = n)
    (hkeyed : Registry.Keyed fed.nodes) {src : Node}
    (hsrc : src ∈ sources high (inPool fed pool)) {vol : DistVolume}
    (hvol : vol ∈ movable fed pool busy now src.config.name) {p : Pass}
    (h : Pass.Inv cfg fed pool high low busy now k p) :
    Pass.Inv cfg fed pool high low busy now k
      (proposeOne cfg fed pool high low (inPool fed pool) src.config.name p vol) := by
  unfold proposeOne
  split
  · exact h
  · rename_i hgo
    obtain ⟨hroom, hnew⟩ := not_or.mp hgo
    split
    · exact h
    · rename_i picks hplan
      obtain ⟨ps, rfl, hps, -, hlen⟩ := plan_picks hplan
      obtain ⟨c, rfl⟩ := List.length_eq_one_iff.mp hlen
      obtain ⟨hc, hfits⟩ := hps c (List.mem_singleton_self c)
      obtain ⟨hcand, n, hn⟩ := mem_roomy hkeyed hc
      obtain ⟨hin, -⟩ := mem_movable hvol
      obtain ⟨-, hbytes⟩ := bytesOf_eq hnamed hin
      have hextra : p.promised[c.name]?.getD 0 = promisedTo fed p.moves c.name := h.promised c.name
      let m : Move := { pool := pool.name, volume := vol.name, «from» := src.config.name, «to» := c.name }
      have hto : ∀ node, promisedTo fed (p.moves ++ [m]) node =
          promisedTo fed p.moves node + if c.name = node then vol.sizeBytes else 0 := by
        intro node
        rw [promisedTo_concat]
        show _ + (if c.name = node then bytesOf fed vol.name else 0) = _
        rw [hbytes]
      have hunder : Under fed high (p.moves ++ [m]) c.name := by
        refine ⟨n, hn.node, ?_⟩
        rw [hto, if_pos rfl]
        have hle := hn.under
        rw [hextra] at hle
        push_cast
        linarith
      show Pass.Inv cfg fed pool high low busy now k
        ⟨p.room - 1, p.promised.insert c.name (p.promised[c.name]?.getD 0 + vol.sizeBytes), p.moves ++ [m]⟩
      refine ⟨?_, fun node => ?_, ?_, fun x hx => ?_, fun x hx => ?_⟩
      · have := h.room
        show p.room - 1 + (p.moves ++ [m]).length = k
        rw [List.length_append, List.length_singleton]
        omega
      · rw [hto, KeyMap.get_insert]
        by_cases he : c.name = node
        · rw [if_pos he, if_pos he, Option.getD_some, ← he, hextra]
        · rw [if_neg he, if_neg he, h.promised, Nat.add_zero]
      · rw [List.map_append, List.nodup_append]
        refine ⟨h.once, List.nodup_singleton _, fun x hx y hy => ?_⟩
        obtain ⟨x', hx', rfl⟩ := List.mem_map.mp hx
        obtain rfl := List.mem_singleton.mp hy
        exact fun he => hnew (List.any_eq_true.mpr ⟨x', hx', by simpa using he⟩)
      · rcases List.mem_append.mp hx with hx | hx
        · exact h.allowed x hx
        · exact ⟨src, hsrc, vol, hvol, c, roomy_mono hc, hfits, List.mem_singleton.mp hx⟩
      · by_cases he : c.name = x.to
        · exact he ▸ hunder
        · rcases List.mem_append.mp hx with hx | hx
          · refine (h.under x hx).mono ?_
            rw [hto, if_neg he, Nat.add_zero]
          · exact absurd (congrArg Move.to (List.mem_singleton.mp hx)).symm he

/-- A fold keeps what each of its steps keeps. -/
theorem foldl_keeps {α β : Type} {I : α → Prop} {f : α → β → α} {xs : List β} (h : ∀ a, I a → ∀ x ∈ xs, I (f a x))
    {a : α} (ha : I a) : I (xs.foldl f a) := by
  induction xs generalizing a with
  | nil => exact ha
  | cons x xs ih =>
    exact ih (fun a ha y hy => h a ha y (List.mem_cons_of_mem _ hy)) (h a ha x List.mem_cons_self)

theorem Pass.Inv.run (hnamed : ∀ (n : String) v, fed.volumes[n]? = some v → v.name = n)
    (hkeyed : Registry.Keyed fed.nodes) {p : Pass}
    (h : Pass.Inv cfg fed pool high low busy now k p) :
    Pass.Inv cfg fed pool high low busy now k
      ((sources high (inPool fed pool)).foldl (proposeFrom cfg fed pool high low (inPool fed pool) busy now) p) :=
  foldl_keeps (fun _ hp _ hsrc => foldl_keeps (fun _ hq _ hvol => hq.propose hnamed hkeyed hsrc hvol) hp) h

/-! ## The moves of one pool -/

/-- The moves of a pool that has watermarks, all of whose nodes answer. -/
structure Planned (cfg : Config) (fed : FedState) (busy : String → Bool) (now : SystemTime) (pool : PoolConfig)
    (moves : List Move) (high low : ℚ) : Prop where
  highMark : pool.highWatermark = some high
  lowMark : pool.lowWatermark = some low
  marks : 0 ≤ low ∧ low < high ∧ high ≤ 1
  up : ∀ n ∈ inPool fed pool, n.status.healthy = true
  pass : ∃ p, p.moves = moves ∧ Pass.Inv cfg fed pool high low busy now (pool.maxMoves - inFlight fed pool) p

theorem planPool_spec (hnamed : ∀ (n : String) v, fed.volumes[n]? = some v → v.name = n)
    (hkeyed : Registry.Keyed fed.nodes) (pool : PoolConfig) :
    planPool cfg fed busy now pool = [] ∨
      ∃ high low, Planned cfg fed busy now pool (planPool cfg fed busy now pool) high low := by
  cases hh : pool.highWatermark with
  | none => exact .inl (by simp [planPool, hh])
  | some high =>
    cases hl : pool.lowWatermark with
    | none => exact .inl (by simp [planPool, hh, hl])
    | some low =>
      by_cases hc : ¬ (0 ≤ low ∧ low < high ∧ high ≤ 1) ∨ (inPool fed pool).any (¬ ·.status.healthy)
      · refine .inl ?_
        simp only [planPool, hh, hl]
        exact if_pos hc
      · have hstart : Pass.Inv cfg fed pool high low busy now (pool.maxMoves - inFlight fed pool)
            { room := pool.maxMoves - inFlight fed pool } :=
          ⟨rfl, fun _ => by simp [promisedTo], List.nodup_nil, fun _ h => (nomatch h), fun _ h => (nomatch h)⟩
        refine .inr ⟨high, low, hh, hl, not_not.mp (not_or.mp hc).1, fun n hn => ?_, _, ?_, hstart.run hnamed hkeyed⟩
        · by_contra hdown
          exact (not_or.mp hc).2 (List.any_eq_true.mpr ⟨n, hn, by simpa using hdown⟩)
        · simp only [planPool, hh, hl]
          exact (if_neg hc).symm

/-! ## All pools -/

/-- The volume may be moved to the node for this pool, as long as nothing is
promised there. -/
def mayGo (cfg : Config) (fed : FedState) (busy : String → Bool) (now : SystemTime) (pool : PoolConfig)
    (volume node : String) : Bool :=
  match pool.highWatermark, pool.lowWatermark with
  | some high, some low =>
    (0 ≤ low ∧ low < high ∧ high ≤ 1) ∧ (inPool fed pool).all (·.status.healthy) ∧ inFlight fed pool < pool.maxMoves ∧
      (sources high (inPool fed pool)).any fun src => (movable fed pool busy now src.config.name).any fun v =>
        v.name = volume ∧ (roomy cfg fed high low (inPool fed pool) ∅ v src.config.name).any fun c =>
          v.sizeBytes ≤ c.freeBytes ∧ c.name = node
  | _, _ => false

/-- The bytes of all the volumes that any pool may move to the node. -/
def bytesThatMayGo (cfg : Config) (fed : FedState) (busy : String → Bool) (now : SystemTime) (node : String) : Nat :=
  ((fed.volumes.keys.filter fun name => cfg.pools.any (mayGo cfg fed busy now · name node)).map (bytesOf fed)).sum

/-- The pools keep out of each other's way: they have names of their own, and
where two may use one node, all that may go there fits. -/
structure Separate (cfg : Config) (fed : FedState) (busy : String → Bool) (now : SystemTime) : Prop where
  names : (cfg.pools.map (·.name)).Nodup
  targets : ∀ pool ∈ cfg.pools, ∀ volume node, mayGo cfg fed busy now pool volume node →
    (∀ other ∈ cfg.pools, ∀ volume', mayGo cfg fed busy now other volume' node → other.name = pool.name) ∨
    ∀ high n, pool.highWatermark = some high → fed.nodes[node]? = some n →
      (usedBytes n + bytesThatMayGo cfg fed busy now node : ℚ) ≤ high * n.status.totalBytes

/-- A list of moves is safe to make together. -/
structure Balanced (cfg : Config) (fed : FedState) (moves : List Move) : Prop where
  /-- Each target stays at or under the high mark of its pool with all moves. -/
  under : ∀ m ∈ moves, ∀ pool ∈ cfg.pools, pool.name = m.pool → ∃ high n, pool.highWatermark = some high ∧
    fed.nodes[m.to]? = some n ∧ (usedBytes n + promisedTo fed moves m.to : ℚ) ≤ high * n.status.totalBytes
  once : (moves.map (·.volume)).Nodup
  count : ∀ pool ∈ cfg.pools, (moves.filter (·.pool = pool.name)).length ≤ pool.maxMoves - inFlight fed pool
  head : ∀ m ∈ moves, ∀ v, fed.volumes[m.volume]? = some v → v.head ≠ some m.from
  /-- Each target is a healthy member of the pool, in a domain of its own
  beside the legs that stay. -/
  target : ∀ m ∈ moves, ∃ pool ∈ cfg.pools, pool.name = m.pool ∧ ∃ v n, fed.volumes[m.volume]? = some v ∧
    v.pool = some pool.name ∧ fed.nodes[m.to]? = some n ∧ n.status.healthy ∧ pool.selector.matches n.config ∧
      ∀ l ∈ v.legs, l.node ≠ m.from → ∀ n', fed.nodes[l.node]? = some n' →
        domainAt n'.labels cfg.rungs v.rung ≠ domainAt n.labels cfg.rungs v.rung

variable (hnamed : ∀ (n : String) v, fed.volumes[n]? = some v → v.name = n)
  (hkeyed : Registry.Keyed fed.nodes)

include hnamed hkeyed

theorem planned_of_mem {m : Move} (h : m ∈ planPool cfg fed busy now pool) :
    ∃ high low, Planned cfg fed busy now pool (planPool cfg fed busy now pool) high low := by
  rcases @planPool_spec cfg fed busy now hnamed hkeyed pool with he | h'
  · rw [he] at h
    cases h
  · exact h'

/-- A move of a pool's own. -/
structure Own (cfg : Config) (fed : FedState) (busy : String → Bool) (now : SystemTime) (pool : PoolConfig) (m : Move) :
    Prop where
  ofPool : m.pool = pool.name
  may : mayGo cfg fed busy now pool m.volume m.to = true
  volume : ∃ v n, fed.volumes[m.volume]? = some v ∧ v.pool = some pool.name ∧ v.head ≠ some m.from ∧
    fed.nodes[m.to]? = some n ∧ n.status.healthy ∧ pool.selector.matches n.config ∧
      ∀ l ∈ v.legs, l.node ≠ m.from → ∀ n', fed.nodes[l.node]? = some n' →
        domainAt n'.labels cfg.rungs v.rung ≠ domainAt n.labels cfg.rungs v.rung

theorem own_of_mem {m : Move} (h : m ∈ planPool cfg fed busy now pool) : Own cfg fed busy now pool m := by
  obtain ⟨high, low, hp⟩ := planned_of_mem hnamed hkeyed h
  obtain ⟨p, hmoves, hinv⟩ := hp.pass
  rw [← hmoves] at h
  obtain ⟨src, hsrc, v, hv, c, hc, hfits, rfl⟩ := hinv.allowed m h
  have hroom : inFlight fed pool < pool.maxMoves := by
    have hlen := List.length_pos_of_mem h
    have := hinv.room
    omega
  obtain ⟨hin, hpool, hhead⟩ := mem_movable hv
  obtain ⟨hget, -⟩ := bytesOf_eq hnamed hin
  obtain ⟨hcand, n, hn⟩ := mem_roomy hkeyed hc
  refine ⟨rfl, ?_, v, n, hget, hpool, hhead, hn.node, ?_⟩
  · simp only [mayGo, hp.highMark, hp.lowMark]
    refine decide_eq_true ⟨hp.marks, List.all_eq_true.mpr hp.up, hroom, ?_⟩
    refine List.any_eq_true.mpr ⟨src, hsrc, List.any_eq_true.mpr ⟨v, hv, decide_eq_true ⟨rfl, ?_⟩⟩⟩
    exact List.any_eq_true.mpr ⟨c, hc, decide_eq_true ⟨hfits, rfl⟩⟩
  · obtain ⟨m', hm', hname⟩ := hn.member
    obtain ⟨hm', hsel⟩ := List.mem_filter.mp hm'
    obtain ⟨⟨key, m'⟩, hk, rfl⟩ := List.mem_map.mp hm'
    have hsame : m' = n := by
      have hget' := KeyMap.mem_toList.mp hk
      rw [← hkeyed key m' hget', hname, hn.node] at hget'
      exact (Option.some.inj hget').symm
    subst hsame
    obtain ⟨n₀, hn₀, hc₀⟩ := List.mem_map.mp hcand
    obtain ⟨hn₀, hcond⟩ := List.mem_filter.mp hn₀
    obtain ⟨⟨key', n₀⟩, hk', rfl⟩ := List.mem_map.mp hn₀
    have hsame' : n₀ = m' := by
      have hget' := KeyMap.mem_toList.mp hk'
      have hkey : key' = c.name := (hkeyed key' n₀ hget').symm.trans (congrArg Candidate.name hc₀)
      rw [hkey, hn.node] at hget'
      exact (Option.some.inj hget').symm
    subst hsame'
    have hcond := of_decide_eq_true hcond
    refine ⟨hcond.1, hsel, fun l hl hne n' hn' he => hcond.2.2 ?_⟩
    refine List.mem_filterMap.mpr ⟨l, List.mem_filter.mpr ⟨hl, by simpa using hne⟩, ?_⟩
    rw [hn', Option.map_some, he]

omit hnamed hkeyed in
/-- Of moves that name their pool, those of one pool are its own. -/
theorem filter_flatMap {pools : List PoolConfig} {f : PoolConfig → List Move}
    (hf : ∀ p ∈ pools, ∀ m ∈ f p, m.pool = p.name) (hnames : (pools.map (·.name)).Nodup) {p : PoolConfig}
    (hp : p ∈ pools) : (pools.flatMap f).filter (·.pool = p.name) = f p := by
  induction pools with
  | nil => cases hp
  | cons q pools ih =>
    rw [List.map_cons, List.nodup_cons] at hnames
    rw [List.flatMap_cons, List.filter_append]
    rcases List.mem_cons.mp hp with rfl | hp
    · have hself : (f p).filter (·.pool = p.name) = f p :=
        List.filter_eq_self.mpr fun m hm => by simpa using hf p List.mem_cons_self m hm
      have hrest : (pools.flatMap f).filter (·.pool = p.name) = [] := by
        refine List.filter_eq_nil_iff.mpr fun m hm he => hnames.1 ?_
        obtain ⟨q, hq, hmq⟩ := List.mem_flatMap.mp hm
        have hname := hf q (List.mem_cons_of_mem _ hq) m hmq
        exact List.mem_map.mpr ⟨q, hq, hname.symm.trans (by simpa using he)⟩
      rw [hself, hrest, List.append_nil]
    · have hnone : (f q).filter (·.pool = p.name) = [] := by
        refine List.filter_eq_nil_iff.mpr fun m hm he => hnames.1 ?_
        have hname := hf q List.mem_cons_self m hm
        exact List.mem_map.mpr ⟨p, hp, (by simpa using he : m.pool = p.name).symm.trans hname⟩
      rw [hnone, List.nil_append]
      exact ih (fun p hp => hf p (List.mem_cons_of_mem _ hp)) hnames.2 hp

theorem filter_plan (hnames : (cfg.pools.map (·.name)).Nodup) (hp : pool ∈ cfg.pools) :
    (plan cfg fed busy now).filter (·.pool = pool.name) = planPool cfg fed busy now pool :=
  filter_flatMap (fun _ _ _ hm => (own_of_mem hnamed hkeyed hm).ofPool) hnames hp

theorem once_planPool (pool : PoolConfig) : ((planPool cfg fed busy now pool).map (·.volume)).Nodup := by
  rcases @planPool_spec cfg fed busy now hnamed hkeyed pool with he | ⟨high, low, hp⟩
  · rw [he]
    exact List.nodup_nil
  · obtain ⟨p, hmoves, hinv⟩ := hp.pass
    rw [← hmoves]
    exact hinv.once

theorem length_planPool (pool : PoolConfig) :
    (planPool cfg fed busy now pool).length ≤ pool.maxMoves - inFlight fed pool := by
  rcases @planPool_spec cfg fed busy now hnamed hkeyed pool with he | ⟨high, low, hp⟩
  · rw [he]
    exact Nat.zero_le _
  · obtain ⟨p, hmoves, hinv⟩ := hp.pass
    rw [← hmoves]
    have := hinv.room
    omega

/-- A volume belongs to one pool, so that no two pools move it. -/
theorem once_plan (hnames : (cfg.pools.map (·.name)).Nodup) : ((plan cfg fed busy now).map (·.volume)).Nodup := by
  rw [plan, List.map_flatMap, List.nodup_flatMap]
  refine ⟨fun p _ => once_planPool hnamed hkeyed p, ?_⟩
  refine (List.pairwise_map.mp hnames).imp fun {p q} hne => ?_
  intro name hp hq
  obtain ⟨m, hm, rfl⟩ := List.mem_map.mp hp
  obtain ⟨m', hm', he⟩ := List.mem_map.mp hq
  obtain ⟨v, -, hv, hpool, -⟩ := (own_of_mem hnamed hkeyed hm).volume
  obtain ⟨v', -, hv', hpool', -⟩ := (own_of_mem hnamed hkeyed hm').volume
  rw [he, hv] at hv'
  cases hv'
  rw [hpool] at hpool'
  exact hne (Option.some.inj hpool')

omit hnamed hkeyed in
theorem sum_map_le {l l' : List String} (hd : l.Nodup) (hs : l ⊆ l') (f : String → Nat) :
    (l.map f).sum ≤ (l'.map f).sum := by
  obtain ⟨l'', hperm, hsub⟩ := List.subperm_of_subset hd hs
  rw [← (hperm.map f).sum_eq]
  exact (hsub.map f).sum_le_sum fun _ _ => Nat.zero_le _

/-- The moves bring a node no more than may go there. -/
theorem promisedTo_le (hnames : (cfg.pools.map (·.name)).Nodup) (node : String) :
    promisedTo fed (plan cfg fed busy now) node ≤ bytesThatMayGo cfg fed busy now node := by
  have hmap : ((plan cfg fed busy now).filter (·.to = node)).map (fun m => bytesOf fed m.volume) =
      (((plan cfg fed busy now).filter (·.to = node)).map (·.volume)).map (bytesOf fed) := by
    rw [List.map_map]
    rfl
  rw [promisedTo, hmap]
  refine sum_map_le ((once_plan hnamed hkeyed hnames).sublist (List.filter_sublist.map _)) (fun name hname => ?_) _
  obtain ⟨m, hm, rfl⟩ := List.mem_map.mp hname
  obtain ⟨hm, hto⟩ := List.mem_filter.mp hm
  obtain ⟨p, hp, hmp⟩ := List.mem_flatMap.mp hm
  have hown := own_of_mem hnamed hkeyed hmp
  obtain ⟨v, -, hv, -⟩ := hown.volume
  refine List.mem_filter.mpr ⟨KeyMap.mem_keys.mpr (by rw [hv]; rfl), List.any_eq_true.mpr ⟨p, hp, ?_⟩⟩
  have he : m.to = node := by simpa using hto
  exact he ▸ hown.may

/-- Where no other pool may bring anything, what the pool brings is all. -/
theorem promisedTo_alone (hnames : (cfg.pools.map (·.name)).Nodup) (hp : pool ∈ cfg.pools) {node : String}
    (halone : ∀ other ∈ cfg.pools, ∀ volume, mayGo cfg fed busy now other volume node → other.name = pool.name) :
    promisedTo fed (plan cfg fed busy now) node = promisedTo fed (planPool cfg fed busy now pool) node := by
  unfold promisedTo
  rw [← filter_plan hnamed hkeyed hnames hp, List.filter_filter]
  refine congrArg (fun l => (List.map _ l).sum) (List.filter_congr fun m hm => ?_)
  obtain ⟨q, hq, hmq⟩ := List.mem_flatMap.mp hm
  have hown := own_of_mem hnamed hkeyed hmq
  by_cases he : m.to = node
  · have hname := halone q hq m.volume (he ▸ hown.may)
    simp [he, hown.ofPool.trans hname]
  · simp [he]

end

/-! ## Small pools -/

/-- A node of 100 bytes with this many of them free. -/
def hundred (name : String) (free : Nat) : Node where
  config := { name := name, engineUrl := "" }
  status := { NodeStatus.new .static with healthy := true, totalBytes := 100, freeBytes := free }

def pairOf (name pool head other : String) (sizeBytes : Nat) : DistVolume where
  name := name
  sizeBytes := sizeBytes
  pool := some pool
  replicas := 2
  rung := "node"
  legs := [
    { node := head, volumeId := some "1", state := .created },
    { node := other, volumeId := some "2", state := .created }]
  assembly := .assembled
  head := some head
  arrayId := some "r"
  createdAt := 0

/-- Full nodes `a` and `d`, each with a leg of 45 bytes, and an empty one. -/
def fullNodes : FedState where
  nodes := (((∅ : KeyMap Node).insert "a" (hundred "a" 10)).insert "c" (hundred "c" 90)).insert "d" (hundred "d" 10)
    |>.insert "h" (hundred "h" 50)
  volumes := ((∅ : KeyMap DistVolume).insert "v" (pairOf "v" "p" "h" "a" 45)).insert "w" (pairOf "w" "q" "h" "d" 45)

def poolOver (name : String) (nodes : List String) : PoolConfig where
  name := name
  selector := { nodes := nodes }
  highWatermark := some (4 / 5)
  lowWatermark := some (2 / 5)

def configOf (pools : List PoolConfig) : Config where
  hostNqnFor := id
  cooldown := 60
  rungs := ["node"]
  pools := pools

/-- Two pools with a node in common each move a leg there. -/
def onto (pool volume src : String) : Move := { pool := pool, volume := volume, «from» := src, «to» := "c" }

end StormStorage.Rebalance
